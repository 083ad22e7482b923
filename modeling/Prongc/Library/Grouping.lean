import Mathlib.Data.List.Basic
import Mathlib.Data.List.Count

namespace Prongc.Library.Grouping

variable {κ : Type} [BEq κ]

/-- The requests again, once for each group that serves them, in the order of the groups. -/
def grouped (groups requests : List κ) : List κ :=
  groups.flatMap (fun g => requests.filter (· == g))

/-- Every request has exactly one group, and the requests stand in the order of their groups. -/
def InGroupOrder (groups requests : List κ) : Prop :=
  (∀ r ∈ requests, groups.count r = 1) ∧ (requests.map groups.idxOf).Pairwise (· ≤ ·)

instance (groups requests : List κ) : Decidable (InGroupOrder groups requests) :=
  inferInstanceAs (Decidable (_ ∧ _))

variable [LawfulBEq κ]

theorem mem_grouped {groups requests : List κ} {r : κ} (h : r ∈ grouped groups requests) :
    r ∈ groups ∧ r ∈ requests := by
  obtain ⟨g, hg, hr⟩ := List.mem_flatMap.mp h
  obtain ⟨hmem, he⟩ := List.mem_filter.mp hr
  have : r = g := by simpa using he
  exact ⟨this ▸ hg, hmem⟩

theorem count_grouped (groups requests : List κ) (r : κ) :
    (grouped groups requests).count r = groups.count r * requests.count r := by
  induction groups with
  | nil => simp [grouped]
  | cons g groups ih =>
      have hcons : grouped (g :: groups) requests =
          requests.filter (· == g) ++ grouped groups requests := by
        simp [grouped]
      rw [hcons, List.count_append, ih]
      by_cases hg : g = r
      · subst hg
        rw [List.count_cons_self, List.count_filter (by simp), Nat.succ_mul, Nat.add_comm]
      · have hfilter : (requests.filter (· == g)).count r = 0 := by
          rw [List.count_eq_zero]
          simp [Ne.symm hg]
        rw [hfilter, List.count_cons_of_ne hg, Nat.zero_add]

theorem idxOf_lt_of_count_eq_one {groups : List κ} {i j : Nat} (hi : i < groups.length)
    (hj : j < groups.length) (hij : i < j) (hcount : groups.count groups[j] = 1) :
    groups.idxOf groups[i] ≤ groups.idxOf groups[j] := by
  have hlow : groups.idxOf groups[i] ≤ i := by
    by_contra hlt
    have hne := List.not_of_lt_findIdx (Nat.lt_of_not_le hlt)
    simp at hne
  have hhigh : j ≤ groups.idxOf groups[j] := by
    by_contra hlt
    have hk := Nat.lt_of_not_le hlt
    -- an earlier occurrence would be a second one
    have hne : groups.idxOf groups[j] ≠ j := by omega
    have hsplit : (groups.take j).count groups[j] + (groups.drop j).count groups[j] = 1 := by
      rw [← List.count_append, List.take_append_drop, hcount]
    have hdrop : 0 < (groups.drop j).count groups[j] := by
      rw [List.count_pos_iff, List.drop_eq_getElem_cons hj]
      exact List.mem_cons_self
    have htake : 0 < (groups.take j).count groups[j] := by
      rw [List.count_pos_iff]
      refine List.mem_take_iff_getElem.mpr ⟨groups.idxOf groups[j], by omega, ?_⟩
      exact List.getElem_idxOf (by omega)
    omega
  omega

theorem pairwise_grouped {groups requests : List κ} (hone : ∀ r ∈ requests, groups.count r = 1) :
    ((grouped groups requests).map groups.idxOf).Pairwise (· ≤ ·) := by
  rw [List.pairwise_map, grouped, List.pairwise_flatMap]
  constructor
  · intro g _
    apply List.pairwise_of_forall_mem_list
    intro a ha b hb
    have hag : a = g := by simpa using (List.mem_filter.mp ha).2
    have hbg : b = g := by simpa using (List.mem_filter.mp hb).2
    exact (hag.trans hbg.symm) ▸ Nat.le_refl _
  · rw [List.pairwise_iff_getElem]
    intro i j hi hj hij x hx y hy
    have hxg : x = groups[i] := by simpa using (List.mem_filter.mp hx).2
    have hyg : y = groups[j] := by simpa using (List.mem_filter.mp hy).2
    rw [hxg, hyg]
    exact idxOf_lt_of_count_eq_one hi hj hij (hyg ▸ hone y (List.mem_filter.mp hy).1)

/-- Grouping changes nothing exactly when the requests already stand in group order. -/
theorem grouped_eq_iff (groups requests : List κ) :
    grouped groups requests = requests ↔ InGroupOrder groups requests := by
  constructor
  · intro h
    have hone : ∀ r ∈ requests, groups.count r = 1 := by
      intro r hr
      have hcount := count_grouped groups requests r
      rw [h] at hcount
      have hpos := List.count_pos_iff.mpr hr
      exact Nat.eq_of_mul_eq_mul_right hpos (by omega)
    refine ⟨hone, ?_⟩
    have hsorted := pairwise_grouped hone
    rwa [h] at hsorted
  · rintro ⟨hone, hsorted⟩
    have hperm : (grouped groups requests).Perm requests := by
      rw [List.perm_iff_count]
      intro r
      rw [count_grouped]
      by_cases hr : r ∈ requests
      · rw [hone r hr, Nat.one_mul]
      · rw [List.count_eq_zero.mpr hr, Nat.mul_zero]
    refine List.Perm.eq_of_pairwise ?_ (List.pairwise_map.mp (pairwise_grouped hone))
      (List.pairwise_map.mp hsorted) hperm
    intro a b ha _ hab hba
    exact (List.idxOf_inj (mem_grouped ha).1).mp (Nat.le_antisymm hab hba)

end Prongc.Library.Grouping
