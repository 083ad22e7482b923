import Mathlib.Logic.Basic
import Mathlib.Logic.Relation

namespace Prongc.Library.Interleaving

variable {σ α : Type} (step : α → σ → Option σ)

def Reaches : σ → σ → Prop := Relation.ReflTransGen fun s t => ∃ a, step a s = some t

def Stuck (s : σ) : Prop := ∀ a, step a s = none

variable {step} {I : σ → Prop}

theorem Reaches.keeps (hstep : ∀ s a t, I s → step a s = some t → I t) {s t : σ}
    (h : Reaches step s t) (hs : I s) : I t := by
  induction h with
  | refl => exact hs
  | tail _ hlast ih =>
      obtain ⟨a, ha⟩ := hlast
      exact hstep _ a _ ih ha

/-- Where every action lowers a measure, each state has a schedule that runs until nothing is
enabled. -/
theorem exists_stuck (hstep : ∀ s a t, I s → step a s = some t → I t) (μ : σ → Nat)
    (hμ : ∀ s a t, I s → step a s = some t → μ t < μ s) {s : σ} (hs : I s) :
    ∃ t, Reaches step s t ∧ Stuck step t := by
  induction hm : μ s using Nat.strongRecOn generalizing s with
  | ind m ih =>
      by_cases hstuck : Stuck step s
      · exact ⟨s, .refl, hstuck⟩
      · obtain ⟨a, ha⟩ := not_forall.mp hstuck
        obtain ⟨t, ht⟩ := Option.ne_none_iff_exists'.mp ha
        obtain ⟨u, hu, hstop⟩ := ih (μ t) (hm ▸ hμ s a t hs ht) (hstep s a t hs ht) rfl
        exact ⟨u, .head ⟨a, ht⟩ hu, hstop⟩

end Prongc.Library.Interleaving
