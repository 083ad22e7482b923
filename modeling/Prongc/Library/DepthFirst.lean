import Mathlib.Data.List.Basic
import Mathlib.Logic.Relation

namespace Prongc.Library.DepthFirst

open Relation

variable {ν κ : Type} {edge : ν → ν → Prop} {key : ν → κ} {found found' : ν → Prop} {old mid seen : List κ}

variable (edge key) in
/-- A search that has seen some keys has added to the old ones only keys of nodes that it found, and it
has seen the successors of these. -/
def Explored (found : ν → Prop) (old seen : List κ) : Prop :=
  ∀ k ∈ seen, k ∈ old ∨ ∃ c, key c = k ∧ found c ∧ ∀ d, edge c d → key d ∈ seen

theorem Explored.refl (old : List κ) : Explored edge key found old old := fun _ hk => .inl hk

theorem Explored.trans (h : Explored edge key found old mid) (h' : Explored edge key found mid seen)
    (hsub : mid ⊆ seen) : Explored edge key found old seen := by
  intro k hk
  rcases h' k hk with hmid | hnew
  · rcases h k hmid with hold | ⟨c, hc, hfound, hsucc⟩
    · exact .inl hold
    · exact .inr ⟨c, hc, hfound, fun d hd => hsub (hsucc d hd)⟩
  · exact .inr hnew

theorem Explored.mono (h : Explored edge key found old seen) (himp : ∀ c, found c → found' c) :
    Explored edge key found' old seen := by
  intro k hk
  rcases h k hk with hold | ⟨c, hc, hfound, hsucc⟩
  · exact .inl hold
  · exact .inr ⟨c, hc, himp c hfound, hsucc⟩

/-- A node is marked first, and then its successors are searched. -/
theorem Explored.enter {c : ν} (h : Explored edge key found (old ++ [key c]) seen) (hc : found c)
    (hsucc : ∀ d, edge c d → key d ∈ seen) : Explored edge key found old seen := by
  intro k hk
  rcases h k hk with hmarked | hnew
  · rcases List.mem_append.mp hmarked with hold | hkey
    · exact .inl hold
    · exact .inr ⟨c, (List.mem_singleton.mp hkey).symm, hc, hsucc⟩
  · exact .inr hnew

/-- A search that started with nothing has found all that can be reached from what it has seen, where no
two such nodes share a key. -/
theorem Explored.reachable (h : Explored edge key found [] seen) {start d : ν} (hstart : key start ∈ seen)
    (hone : ∀ c e, found c → ReflTransGen edge start e → key c = key e → c = e)
    (hreach : ReflTransGen edge start d) : found d ∧ key d ∈ seen := by
  have hseen : ∀ {e}, ReflTransGen edge start e → key e ∈ seen → found e ∧ ∀ d, edge e d → key d ∈ seen := by
    intro e he hkey
    obtain ⟨c, hc, hfound, hsucc⟩ := (h _ hkey).resolve_left List.not_mem_nil
    obtain rfl := hone c e hfound he hc
    exact ⟨hfound, hsucc⟩
  have hkey : key d ∈ seen := by
    induction hreach with
    | refl => exact hstart
    | tail hbefore hedge ih => exact (hseen hbefore ih).2 _ hedge
  exact ⟨(hseen hreach hkey).1, hkey⟩

end Prongc.Library.DepthFirst
