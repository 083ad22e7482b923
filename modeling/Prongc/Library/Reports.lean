import Mathlib.Data.List.Nodup
import Prongc.Library.FirstFit

namespace Prongc.Library.Reports

open FirstFit

variable {α κ : Type} {live : α → Bool} {same : α → α → Bool} {clear : α → α} {judge : Nat → Nat → Option κ}
  {a b : List α}

theorem verdict_eq_some_iff {p : Nat × Nat} {r : α × α × κ} : verdict live same judge a b p = some r ↔
    a[p.1]? = some r.1 ∧ b[p.2]? = some r.2.1 ∧
      (live r.1 = true ∧ live r.2.1 = true ∧ same r.1 r.2.1 = true) ∧ judge p.1 p.2 = some r.2.2 := by
  obtain ⟨x, y, kind⟩ := r
  rw [verdict]
  constructor
  · intro h
    split at h
    next x' y' hx hy =>
      split at h
      next hok =>
        obtain ⟨kind', hkind, heq⟩ := Option.map_eq_some_iff.mp h
        obtain ⟨rfl, rfl, rfl⟩ : x' = x ∧ y' = y ∧ kind' = kind := by simpa using heq
        exact ⟨hx, hy, by simpa [and_assoc] using hok, hkind⟩
      next => cases h
    next => cases h
  · rintro ⟨hx, hy, ⟨hlx, hly, hxy⟩, hkind⟩
    simp only [hx, hy, hlx, hly, hxy, hkind, Bool.and_self, if_true, Option.map_some]

theorem mem_reports_iff (hclear : ∀ x, live (clear x) = false) {r : (Nat × Nat) × (α × α × κ)} :
    r ∈ (compareAll live same clear judge a b).reports ↔
      r.1 ∈ matching live same judge a b ∧ verdict live same judge a b r.1 = some r.2 := by
  rw [compareAll_eq hclear, List.mem_filterMap]
  constructor
  · rintro ⟨p, hp, hr⟩
    obtain ⟨report, hreport, rfl⟩ := Option.map_eq_some_iff.mp hr
    exact ⟨hp, hreport⟩
  · rintro ⟨hp, hr⟩
    exact ⟨r.1, hp, by rw [hr]; rfl⟩

theorem reports_fst (hclear : ∀ x, live (clear x) = false) :
    (compareAll live same clear judge a b).reports.map Prod.fst = matching live same judge a b := by
  rw [compareAll_eq hclear, List.map_filterMap]
  have hall : ∀ p ∈ matching live same judge a b,
      ((verdict live same judge a b p).map fun report => (p, report)).map Prod.fst = some p := by
    intro p hp
    obtain ⟨report, hreport⟩ := Option.isSome_iff_exists.mp (verdict_of_mem_matching hp)
    rw [hreport]
    rfl
  rw [List.filterMap_congr hall, List.filterMap_some]

theorem firstFit_nodup {ok : Nat × Nat → Bool} {taken ps : List (Nat × Nat)}
    (h : (taken.map Prod.fst).Nodup ∧ (taken.map Prod.snd).Nodup) :
    ((firstFit ok taken ps).map Prod.fst).Nodup ∧ ((firstFit ok taken ps).map Prod.snd).Nodup := by
  induction ps generalizing taken with
  | nil => exact h
  | cons p ps ih =>
      rw [firstFit]
      split
      next hfits =>
        apply ih
        have hfresh : ∀ q ∈ taken, q.1 ≠ p.1 ∧ q.2 ≠ p.2 := by
          have hall := ((Bool.and_eq_true _ _).mp hfits).2
          intro q hq
          simpa using List.all_eq_true.mp hall q hq
        rw [List.map_append, List.map_append, List.nodup_append, List.nodup_append]
        refine ⟨⟨h.1, List.nodup_singleton _, ?_⟩, h.2, List.nodup_singleton _, ?_⟩
        · rintro i hi j hj
          obtain ⟨q, hq, rfl⟩ := List.mem_map.mp hi
          obtain rfl := List.mem_singleton.mp hj
          exact (hfresh q hq).1
        · rintro i hi j hj
          obtain ⟨q, hq, rfl⟩ := List.mem_map.mp hi
          obtain rfl := List.mem_singleton.mp hj
          exact (hfresh q hq).2
      next => exact ih h

theorem reports_nodup (hclear : ∀ x, live (clear x) = false) :
    ((compareAll live same clear judge a b).reports.map fun r => r.1.1).Nodup ∧
      ((compareAll live same clear judge a b).reports.map fun r => r.1.2).Nodup := by
  have hnodup := @firstFit_nodup (fun p => (verdict live same judge a b p).isSome) []
    (indexPairs a.length b.length) ⟨List.nodup_nil, List.nodup_nil⟩
  change ((matching live same judge a b).map Prod.fst).Nodup ∧ ((matching live same judge a b).map Prod.snd).Nodup
    at hnodup
  rw [← reports_fst hclear, List.map_map, List.map_map] at hnodup
  exact hnodup

theorem clearAt_live (hclear : ∀ x, live (clear x) = false) {is : List Nat} {l : List α} {i : Nat} {x : α}
    (hx : (clearAt clear is l)[i]? = some x) (hlive : live x = true) : i ∉ is ∧ l[i]? = some x := by
  rw [clearAt_getElem?] at hx
  obtain ⟨z, hz, heq⟩ := Option.map_eq_some_iff.mp hx
  split at heq
  next =>
    rw [← heq, hclear] at hlive
    cases hlive
  next hi => exact ⟨hi, heq ▸ hz⟩

theorem judge_of_unmatched (hclear : ∀ x, live (clear x) = false) {i j : Nat} {x y : α}
    (hx : (clearAt clear ((matching live same judge a b).map Prod.fst) a)[i]? = some x)
    (hy : (clearAt clear ((matching live same judge a b).map Prod.snd) b)[j]? = some y)
    (hlx : live x = true) (hly : live y = true) (hxy : same x y = true) : judge i j = none := by
  obtain ⟨hi, hxa⟩ := clearAt_live hclear hx hlx
  obtain ⟨hj, hyb⟩ := clearAt_live hclear hy hly
  by_contra hjudged
  obtain ⟨kind, hkind⟩ := Option.ne_none_iff_exists'.mp hjudged
  have hverdict : verdict live same judge a b (i, j) = some (x, y, kind) :=
    verdict_eq_some_iff.mpr ⟨hxa, hyb, ⟨hlx, hly, hxy⟩, hkind⟩
  obtain ⟨q, hq, hshared⟩ := matching_maximal (Option.isSome_iff_exists.mpr ⟨_, hverdict⟩)
  rcases hshared with hshared | hshared
  · exact hi (List.mem_map.mpr ⟨q, hq, hshared⟩)
  · exact hj (List.mem_map.mpr ⟨q, hq, hshared⟩)

theorem judge_of_left (hclear : ∀ x, live (clear x) = false) {i j : Nat} {x y : α}
    (hx : (compareAll live same clear judge a b).left[i]? = some x)
    (hy : (compareAll live same clear judge a b).right[j]? = some y)
    (hlx : live x = true) (hly : live y = true) (hxy : same x y = true) : judge i j = none := by
  rw [compareAll_eq hclear] at hx hy
  exact judge_of_unmatched hclear hx hy hlx hly hxy

section Counting

variable {q : α → Bool}

theorem countP_modify {f : α → α} (hf : ∀ x, q (f x) = false) {l : List α} {i : Nat} {x : α}
    (hx : l[i]? = some x) : (if q x then 1 else 0) + (l.modify i f).countP q = l.countP q := by
  induction l generalizing i with
  | nil => cases hx
  | cons z l ih =>
      cases i with
      | zero =>
          obtain rfl := Option.some.inj hx
          rw [List.modify_zero_cons, List.countP_cons, List.countP_cons, hf]
          simp only [Bool.false_eq_true, if_false]
          omega
      | succ i =>
          rw [List.modify_succ_cons, List.countP_cons, List.countP_cons, ← ih hx]
          omega

theorem visit_count (hclear : ∀ x, q (clear x) = false) (st : State α κ) (p : Nat × Nat) :
    ((visit live same clear judge st p).reports.countP fun r => q r.2.1) +
          (visit live same clear judge st p).left.countP q =
        (st.reports.countP fun r => q r.2.1) + st.left.countP q ∧
      ((visit live same clear judge st p).reports.countP fun r => q r.2.2.1) +
          (visit live same clear judge st p).right.countP q =
        (st.reports.countP fun r => q r.2.2.1) + st.right.countP q := by
  rw [visit]
  split
  next => exact ⟨rfl, rfl⟩
  next report hreport =>
    obtain ⟨hx, hy, -⟩ := verdict_eq_some_iff.mp hreport
    have hleft := countP_modify hclear hx
    have hright := countP_modify hclear hy
    simp only [List.countP_append, List.countP_singleton]
    omega

theorem compareAll_count (hclear : ∀ x, q (clear x) = false) :
    ((compareAll live same clear judge a b).reports.countP fun r => q r.2.1) +
          (compareAll live same clear judge a b).left.countP q = a.countP q ∧
      ((compareAll live same clear judge a b).reports.countP fun r => q r.2.2.1) +
          (compareAll live same clear judge a b).right.countP q = b.countP q := by
  have hfold : ∀ (ps : List (Nat × Nat)) (st : State α κ),
      ((ps.foldl (visit live same clear judge) st).reports.countP fun r => q r.2.1) +
            (ps.foldl (visit live same clear judge) st).left.countP q =
          (st.reports.countP fun r => q r.2.1) + st.left.countP q ∧
        ((ps.foldl (visit live same clear judge) st).reports.countP fun r => q r.2.2.1) +
            (ps.foldl (visit live same clear judge) st).right.countP q =
          (st.reports.countP fun r => q r.2.2.1) + st.right.countP q := by
    intro ps
    induction ps with
    | nil => exact fun st => ⟨rfl, rfl⟩
    | cons p ps ih =>
        intro st
        obtain ⟨hleft, hright⟩ := @visit_count α κ live same clear judge q hclear st p
        rw [List.foldl_cons]
        exact ⟨(ih _).1.trans hleft, (ih _).2.trans hright⟩
  have hall := hfold (indexPairs a.length b.length) ⟨a, b, []⟩
  rwa [List.countP_nil, List.countP_nil, Nat.zero_add, Nat.zero_add] at hall

end Counting

end Prongc.Library.Reports
