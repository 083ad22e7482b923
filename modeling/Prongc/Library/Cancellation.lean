import Mathlib.Algebra.BigOperators.Group.Finset.Basic
import Mathlib.Algebra.Order.BigOperators.Group.Finset

namespace Prongc.Library.Cancellation

variable {ι : Type} [DecidableEq ι]

def cancel (c : ι → Nat) (p : ι × ι) : ι → Nat := fun k =>
  if k = p.1 ∨ k = p.2 then c k - min (c p.1) (c p.2) else c k

def cancelAll (c : ι → Nat) (ps : List (ι × ι)) : ι → Nat := ps.foldl cancel c

theorem cancelAll_cons (c : ι → Nat) (p : ι × ι) (ps : List (ι × ι)) :
    cancelAll c (p :: ps) = cancelAll (cancel c p) ps := rfl

def total : (ι → Nat) → List (ι × ι) → Nat
  | _, [] => 0
  | c, p :: ps => min (c p.1) (c p.2) + total (cancel c p) ps

theorem cancel_le (c : ι → Nat) (p : ι × ι) (k : ι) : cancel c p k ≤ c k := by
  rw [cancel]
  split
  next => exact Nat.sub_le _ _
  next => exact le_rfl

theorem cancelAll_le (c : ι → Nat) (ps : List (ι × ι)) (k : ι) : cancelAll c ps k ≤ c k := by
  induction ps generalizing c with
  | nil => exact le_rfl
  | cons p ps ih => exact (ih (cancel c p)).trans (cancel_le c p k)

theorem cancel_fst (c : ι → Nat) (p : ι × ι) : cancel c p p.1 = c p.1 - min (c p.1) (c p.2) := by
  rw [cancel, if_pos (.inl rfl)]

theorem cancel_snd (c : ι → Nat) (p : ι × ι) : cancel c p p.2 = c p.2 - min (c p.1) (c p.2) := by
  rw [cancel, if_pos (.inr rfl)]

theorem cancel_exhausted (c : ι → Nat) (p : ι × ι) : cancel c p p.1 = 0 ∨ cancel c p p.2 = 0 := by
  rw [cancel_fst, cancel_snd]
  omega

/-- Once a pair has had its turn, one of its accounts stays empty. -/
theorem cancelAll_exhausted {c : ι → Nat} {ps : List (ι × ι)} {p : ι × ι} (h : p ∈ ps) :
    cancelAll c ps p.1 = 0 ∨ cancelAll c ps p.2 = 0 := by
  induction ps generalizing c with
  | nil => cases h
  | cons q ps ih =>
      rcases List.mem_cons.mp h with rfl | h
      · have hfirst := cancelAll_le (cancel c p) ps p.1
        have hsecond := cancelAll_le (cancel c p) ps p.2
        change cancelAll (cancel c p) ps p.1 = 0 ∨ cancelAll (cancel c p) ps p.2 = 0
        have hzero := cancel_exhausted c p
        omega
      · exact ih h

theorem total_pos_iff {c : ι → Nat} {ps : List (ι × ι)} : 0 < total c ps ↔ ∃ p ∈ ps, 0 < c p.1 ∧ 0 < c p.2 := by
  induction ps generalizing c with
  | nil => simp [total]
  | cons q ps ih =>
      rw [total]
      constructor
      · intro h
        by_cases hq : 0 < min (c q.1) (c q.2)
        · exact ⟨q, List.mem_cons_self, lt_min_iff.mp hq⟩
        · have hrest : 0 < total (cancel c q) ps := by omega
          obtain ⟨p, hp, hfirst, hsecond⟩ := ih.mp hrest
          exact ⟨p, List.mem_cons_of_mem _ hp, hfirst.trans_le (cancel_le c q p.1),
            hsecond.trans_le (cancel_le c q p.2)⟩
      · rintro ⟨p, hp, hfirst, hsecond⟩
        by_cases hq : 0 < min (c q.1) (c q.2)
        · omega
        · -- the first pair takes nothing, so all accounts are as before
          have hsame : cancel c q = c := by
            funext k
            rw [cancel]
            split
            next => omega
            next => rfl
          rcases List.mem_cons.mp hp with rfl | hp
          · omega
          · rw [hsame]
            exact Nat.lt_of_lt_of_le (ih.mpr ⟨p, hp, hfirst, hsecond⟩) (Nat.le_add_left _ _)

section Sums

variable {s : Finset ι}

theorem sum_cancel (c : ι → Nat) {p : ι × ι} (hne : p.1 ≠ p.2) (hfirst : p.1 ∈ s) (hsecond : p.2 ∈ s) :
    (∑ k ∈ s, cancel c p k) + 2 * min (c p.1) (c p.2) = ∑ k ∈ s, c k := by
  have hrest : ∑ k ∈ (s.erase p.1).erase p.2, cancel c p k = ∑ k ∈ (s.erase p.1).erase p.2, c k := by
    apply Finset.sum_congr rfl
    intro k hk
    obtain ⟨hk2, hk⟩ := Finset.mem_erase.mp hk
    rw [cancel, if_neg (not_or.mpr ⟨(Finset.mem_erase.mp hk).1, hk2⟩)]
  have hmem : p.2 ∈ s.erase p.1 := Finset.mem_erase.mpr ⟨hne.symm, hsecond⟩
  have hleft := Finset.add_sum_erase s (cancel c p) hfirst
  have hleft' := Finset.add_sum_erase (s.erase p.1) (cancel c p) hmem
  have hright := Finset.add_sum_erase s c hfirst
  have hright' := Finset.add_sum_erase (s.erase p.1) c hmem
  rw [cancel_fst] at hleft
  rw [cancel_snd] at hleft'
  omega

/-- Nothing gets lost: what is cancelled is missing from two accounts. -/
theorem sum_cancelAll (c : ι → Nat) {ps : List (ι × ι)} (h : ∀ p ∈ ps, p.1 ≠ p.2 ∧ p.1 ∈ s ∧ p.2 ∈ s) :
    (∑ k ∈ s, cancelAll c ps k) + 2 * total c ps = ∑ k ∈ s, c k := by
  induction ps generalizing c with
  | nil => rfl
  | cons p ps ih =>
      obtain ⟨⟨hne, hfirst, hsecond⟩, hps⟩ := List.forall_mem_cons.mp h
      have hrest := ih (cancel c p) hps
      have hone := sum_cancel c hne hfirst hsecond
      rw [total]
      change (∑ k ∈ s, cancelAll (cancel c p) ps k) + _ = _
      omega

end Sums

end Prongc.Library.Cancellation
