import Mathlib.Order.Monotone.Basic
import Prongc.Library.Reports

namespace Prongc.Library.Thinning

open FirstFit

variable {α κ κ' : Type}

/-- The place in the whole list of an entry that stays, by its place among those that stay. The flags
say which entries stay. -/
def keptAt : List Bool → Nat → Nat
  | [], i => i
  | true :: _, 0 => 0
  | true :: flags, i + 1 => keptAt flags i + 1
  | false :: flags, i => keptAt flags i + 1

theorem keptAt_strictMono (flags : List Bool) : StrictMono (keptAt flags) := by
  induction flags with
  | nil => exact strictMono_id
  | cons flag flags ih =>
      intro i j hij
      cases flag with
      | false => exact Nat.succ_lt_succ (ih hij)
      | true =>
          cases j with
          | zero => omega
          | succ j =>
              cases i with
              | zero => exact Nat.succ_pos _
              | succ i => exact Nat.succ_lt_succ (ih (Nat.succ_lt_succ_iff.mp hij))

section Entries

variable (keep : α → Bool)

def flagsOf (l : List α) : List Bool := l.map keep

theorem getElem?_keptAt (l : List α) (i : Nat) : l[keptAt (flagsOf keep l) i]? = (l.filter keep)[i]? := by
  induction l generalizing i with
  | nil => rfl
  | cons x l ih =>
      rw [flagsOf, List.map_cons, ← flagsOf]
      cases hx : keep x with
      | false => rw [List.filter_cons_of_neg (by simp [hx]), keptAt, List.getElem?_cons_succ, ih]
      | true =>
          rw [List.filter_cons_of_pos hx]
          cases i with
          | zero => rfl
          | succ i => rw [keptAt, List.getElem?_cons_succ, List.getElem?_cons_succ, ih]

theorem range_filter_kept (flags : List Bool) :
    (List.range flags.length).filter (fun i => flags[i]?.getD false) =
      (List.range (flags.count true)).map (keptAt flags) := by
  induction flags with
  | nil => rfl
  | cons flag flags ih =>
      have hrest : ((List.range flags.length).map Nat.succ).filter (fun i => (flag :: flags)[i]?.getD false) =
          ((List.range (flags.count true)).map (keptAt flags)).map Nat.succ := by
        rw [List.filter_map, ← ih]
        rfl
      rw [List.length_cons, List.range_succ_eq_map]
      cases flag with
      | false =>
          rw [List.filter_cons_of_neg (by simp), hrest, List.count_cons_of_ne (by simp), List.map_map]
          rfl
      | true =>
          rw [List.filter_cons_of_pos (by simp), hrest, List.count_cons_self, List.range_succ_eq_map,
            List.map_cons, List.map_map, List.map_map]
          rfl

theorem length_filter_eq_count (l : List α) : (l.filter keep).length = (flagsOf keep l).count true := by
  rw [flagsOf, ← List.countP_eq_length_filter, List.count, List.countP_map]
  apply List.countP_congr
  intro x _
  simp

theorem zipIdx_filter (l : List α) : (l.filter keep).zipIdx.map (Prod.map id (keptAt (flagsOf keep l))) =
    l.zipIdx.filter fun x => keep x.1 := by
  induction l with
  | nil => rfl
  | cons x l ih =>
      have hrest : (l.zipIdx 1).filter (fun x => keep x.1) =
          ((l.zipIdx).filter fun x => keep x.1).map (Prod.map id Nat.succ) := by
        rw [List.zipIdx_succ, List.filter_map]
        rfl
      rw [List.zipIdx_cons, flagsOf, List.map_cons, ← flagsOf, Nat.zero_add]
      cases hx : keep x with
      | false =>
          rw [List.filter_cons_of_neg (by simp [hx]), List.filter_cons_of_neg (by simp [hx]), hrest, ← ih,
            List.map_map]
          rfl
      | true =>
          rw [List.filter_cons_of_pos hx, List.filter_cons_of_pos (by simp [hx]), hrest, ← ih, List.map_map,
            List.zipIdx_cons, List.map_cons, Nat.zero_add, List.zipIdx_succ, List.map_map]
          rfl

section Search

variable {keep} {q : α → Bool} {l : List α}

theorem findIdx?_kept (hq : ∀ x ∈ l, q x = true → keep x = true) :
    l.findIdx? q = ((l.filter keep).findIdx? q).map (keptAt (flagsOf keep l)) := by
  induction l with
  | nil => rfl
  | cons x l ih =>
      obtain ⟨hx, hl⟩ := List.forall_mem_cons.mp hq
      rw [flagsOf, List.map_cons, ← flagsOf, List.findIdx?_cons, ih hl, Option.map_map]
      cases hkeep : keep x with
      | false =>
          have hqx : q x = false := by
            by_contra hqx
            rw [hx (by simpa using hqx)] at hkeep
            cases hkeep
          rw [List.filter_cons_of_neg (by simp [hkeep]), hqx, if_neg Bool.false_ne_true]
          rfl
      | true =>
          rw [List.filter_cons_of_pos hkeep, List.findIdx?_cons]
          split
          next => rfl
          next => rw [Option.map_map]; rfl

theorem findIdx?_drop_kept (hq : ∀ x ∈ l, q x = true → keep x = true) (i : Nat) :
    ((l.drop (keptAt (flagsOf keep l) i + 1)).findIdx? q).map (· + (keptAt (flagsOf keep l) i + 1)) =
      ((((l.filter keep).drop (i + 1)).findIdx? q).map (· + (i + 1))).map (keptAt (flagsOf keep l)) := by
  induction l generalizing i with
  | nil => simp
  | cons x l ih =>
      obtain ⟨-, hl⟩ := List.forall_mem_cons.mp hq
      have hshift : ∀ (o : Option Nat) (k : Nat), o.map (· + (k + 1)) = (o.map (· + k)).map (· + 1) := by
        intro o k
        rw [Option.map_map]
        rfl
      rw [flagsOf, List.map_cons, ← flagsOf]
      cases hkeep : keep x with
      | false =>
          rw [keptAt, List.drop_succ_cons, List.filter_cons_of_neg (by simp [hkeep]), hshift, ih hl, Option.map_map]
          rfl
      | true =>
          rw [List.filter_cons_of_pos hkeep]
          cases i with
          | zero =>
              rw [keptAt, List.drop_succ_cons, List.drop_zero, List.drop_succ_cons, List.drop_zero, findIdx?_kept hl,
                Option.map_map, Option.map_map]
              rfl
          | succ i =>
              rw [keptAt, List.drop_succ_cons, List.drop_succ_cons, hshift, ih hl, hshift _ (i + 1)]
              simp only [Option.map_map]
              rfl

end Search

variable {keep} {f : α → α}

theorem flagsOf_modify (hf : ∀ x, keep (f x) = keep x) (l : List α) (i : Nat) :
    flagsOf keep (l.modify i f) = flagsOf keep l := by
  apply List.ext_getElem?
  intro k
  rw [flagsOf, flagsOf, List.getElem?_map, List.getElem?_map, List.getElem?_modify]
  cases l[k]? with
  | none => rfl
  | some x =>
      by_cases hk : i = k
      · simp [hk, hf]
      · simp [hk]

theorem filter_modify_keptAt (hf : ∀ x, keep (f x) = keep x) (l : List α) (i : Nat) :
    (l.modify (keptAt (flagsOf keep l) i) f).filter keep = (l.filter keep).modify i f := by
  induction l generalizing i with
  | nil => simp
  | cons x l ih =>
      rw [flagsOf, List.map_cons, ← flagsOf]
      cases hx : keep x with
      | false =>
          rw [keptAt, List.modify_succ_cons, List.filter_cons_of_neg (by simp [hx]),
            List.filter_cons_of_neg (by simp [hx]), ih]
      | true =>
          rw [List.filter_cons_of_pos hx]
          cases i with
          | zero =>
              rw [keptAt, List.modify_zero_cons, List.modify_zero_cons, List.filter_cons_of_pos (by rw [hf, hx])]
          | succ i =>
              rw [keptAt, List.modify_succ_cons, List.modify_succ_cons, List.filter_cons_of_pos hx, ih]

theorem filter_modify_dropped (hf : ∀ x, keep (f x) = keep x) {l : List α} {i : Nat} {x : α}
    (hx : l[i]? = some x) (hdropped : keep x = false) : (l.modify i f).filter keep = l.filter keep := by
  induction l generalizing i with
  | nil => cases hx
  | cons y l ih =>
      cases i with
      | zero =>
          obtain rfl := Option.some.inj hx
          rw [List.modify_zero_cons, List.filter_cons_of_neg (by simp [hf, hdropped]),
            List.filter_cons_of_neg (by simp [hdropped])]
      | succ i =>
          rw [List.modify_succ_cons, List.filter_cons, List.filter_cons, ih hx]

end Entries

section Folds

variable {σ τ β γ : Type}

theorem foldlM_filter {step : σ → β → Option σ} {p : β → Bool} {l : List β}
    (h : ∀ x ∈ l, p x = false → ∀ st, step st x = some st) (st : σ) :
    l.foldlM step st = (l.filter p).foldlM step st := by
  induction l generalizing st with
  | nil => rfl
  | cons x l ih =>
      obtain ⟨hx, hl⟩ := List.forall_mem_cons.mp h
      rw [List.foldlM_cons, List.filter_cons]
      split
      next =>
        rw [List.foldlM_cons]
        exact congrArg (Option.bind (step st x)) (funext fun st' => ih hl st')
      next hp =>
        rw [hx (by simpa using hp) st]
        exact ih hl st

theorem foldlM_simulated {step : σ → β → Option σ} {step' : τ → γ → Option τ} {e : σ → τ} {g : β → γ}
    (h : ∀ st x, step' (e st) (g x) = (step st x).map e) (l : List β) (st : σ) :
    (l.map g).foldlM step' (e st) = (l.foldlM step st).map e := by
  induction l generalizing st with
  | nil => rfl
  | cons x l ih =>
      rw [List.map_cons, List.foldlM_cons, List.foldlM_cons, h]
      cases step st x with
      | none => rfl
      | some st' => exact ih st'

end Folds

section Comparison

variable {live : α → Bool} {same : α → α → Bool} {clear : α → α} {keep : α → Bool}
  {judge : Nat → Nat → Option κ} {judge' : Nat → Nat → Option κ'}

def embed (flagsA flagsB : List Bool) (p : Nat × Nat) : Nat × Nat := (keptAt flagsA p.1, keptAt flagsB p.2)

def keptPair (flagsA flagsB : List Bool) (p : Nat × Nat) : Bool := flagsA[p.1]?.getD false && flagsB[p.2]?.getD false

theorem indexPairs_filter_kept (flagsA flagsB : List Bool) :
    (indexPairs flagsA.length flagsB.length).filter (keptPair flagsA flagsB) =
      (indexPairs (flagsA.count true) (flagsB.count true)).map (embed flagsA flagsB) := by
  have hrow : ∀ i, ((List.range flagsB.length).map fun j => (i, j)).filter (keptPair flagsA flagsB) =
      if flagsA[i]?.getD false then (List.range (flagsB.count true)).map fun j => (i, keptAt flagsB j) else [] := by
    intro i
    rw [List.filter_map]
    cases hi : flagsA[i]?.getD false with
    | false =>
        rw [if_neg Bool.false_ne_true, List.map_eq_nil_iff, List.filter_eq_nil_iff]
        intro j _
        simp [keptPair, hi]
    | true =>
        have hcol : (List.range flagsB.length).filter (keptPair flagsA flagsB ∘ fun j => (i, j)) =
            (List.range (flagsB.count true)).map (keptAt flagsB) := by
          rw [← range_filter_kept]
          apply List.filter_congr
          intro j _
          simp [keptPair, hi]
        rw [if_pos rfl, hcol, List.map_map]
        rfl
  have hrows : ∀ is : List Nat,
      (is.flatMap fun i => if flagsA[i]?.getD false then (List.range (flagsB.count true)).map fun j =>
        (i, keptAt flagsB j) else []) =
      (is.filter fun i => flagsA[i]?.getD false).flatMap fun i =>
        (List.range (flagsB.count true)).map fun j => (i, keptAt flagsB j) := by
    intro is
    induction is with
    | nil => rfl
    | cons i is ih =>
        rw [List.flatMap_cons, List.filter_cons, ih]
        split
        next => rw [List.flatMap_cons]
        next => rfl
  rw [indexPairs, indexPairs, List.filter_flatMap, List.map_flatMap]
  simp only [hrow, List.map_map]
  rw [hrows, range_filter_kept, List.flatMap_map]
  rfl

/-- What the comparison of two thinned lists has done, where that of the whole lists has come to `st`. -/
structure Thinned (keep : α → Bool) (kind : κ → κ') (flagsA flagsB : List Bool) (st : State α κ)
    (st' : State α κ') : Prop where
  flagsLeft : flagsOf keep st.left = flagsA
  flagsRight : flagsOf keep st.right = flagsB
  left : st'.left = st.left.filter keep
  right : st'.right = st.right.filter keep
  reports : st'.reports.map (Prod.map (embed flagsA flagsB) id) =
    (st.reports.filter fun r => keep r.2.1).map (Prod.map id (Prod.map id (Prod.map id kind)))

variable {kind : κ → κ'} {flagsA flagsB : List Bool} {st : State α κ} {st' : State α κ'}

theorem Thinned.verdict_kept (h : Thinned keep kind flagsA flagsB st st')
    (hjudge : ∀ i j, judge' i j = (judge (keptAt flagsA i) (keptAt flagsB j)).map kind) (p : Nat × Nat) :
    verdict live same judge' st'.left st'.right p =
      (verdict live same judge st.left st.right (embed flagsA flagsB p)).map (Prod.map id (Prod.map id kind)) := by
  rw [verdict, verdict, embed, h.left, h.right, ← getElem?_keptAt, ← getElem?_keptAt, h.flagsLeft, h.flagsRight,
    hjudge]
  dsimp only
  cases st.left[keptAt flagsA p.1]? with
  | none => rfl
  | some x =>
      cases st.right[keptAt flagsB p.2]? with
      | none => rfl
      | some y =>
          dsimp only
          split
          next =>
            rw [Option.map_map, Option.map_map]
            rfl
          next => rfl

theorem Thinned.visit_kept (h : Thinned keep kind flagsA flagsB st st') (hclear : ∀ x, keep (clear x) = keep x)
    (hjudge : ∀ i j, judge' i j = (judge (keptAt flagsA i) (keptAt flagsB j)).map kind) (p : Nat × Nat) :
    Thinned keep kind flagsA flagsB (visit live same clear judge st (embed flagsA flagsB p))
      (visit live same clear judge' st' p) := by
  have hverdict : verdict live same judge' st'.left st'.right p = (verdict live same judge st.left st.right
      (embed flagsA flagsB p)).map (Prod.map id (Prod.map id kind)) := h.verdict_kept hjudge p
  rw [visit, visit, hverdict]
  cases hreport : verdict live same judge st.left st.right (embed flagsA flagsB p) with
  | none => exact h
  | some report =>
      obtain ⟨x, y, k⟩ := report
      rw [Option.map_some]
      have hx : keep x = true := by
        have hget : st.left[keptAt flagsA p.1]? = some x := (Reports.verdict_eq_some_iff.mp hreport).1
        rw [← h.flagsLeft, getElem?_keptAt] at hget
        exact (List.mem_filter.mp (List.mem_of_getElem? hget)).2
      constructor
      · exact (flagsOf_modify hclear st.left _).trans h.flagsLeft
      · exact (flagsOf_modify hclear st.right _).trans h.flagsRight
      · have hleft := filter_modify_keptAt hclear st.left p.1
        rw [h.flagsLeft, ← h.left] at hleft
        exact hleft.symm
      · have hright := filter_modify_keptAt hclear st.right p.2
        rw [h.flagsRight, ← h.right] at hright
        exact hright.symm
      · dsimp only
        rw [List.map_append, h.reports, List.filter_append, List.map_append]
        simp [hx]

theorem Thinned.visit_dropped (h : Thinned keep kind flagsA flagsB st st') (hclear : ∀ x, keep (clear x) = keep x)
    (hsame : ∀ x y, live x = true → live y = true → same x y = true → keep x = keep y) {p : Nat × Nat}
    (hp : keptPair flagsA flagsB p = false) :
    Thinned keep kind flagsA flagsB (visit live same clear judge st p) st' := by
  rw [visit]
  cases hreport : verdict live same judge st.left st.right p with
  | none => exact h
  | some report =>
      obtain ⟨x, y, k⟩ := report
      obtain ⟨hx, hy, ⟨hlx, hly, hxy⟩, -⟩ := Reports.verdict_eq_some_iff.mp hreport
      -- the two entries are the same, so they are dropped together
      have hboth := hsame x y hlx hly hxy
      have hdropped : keep x = false := by
        by_contra hkept
        rw [Bool.not_eq_false] at hkept
        rw [keptPair, ← h.flagsLeft, ← h.flagsRight, flagsOf, flagsOf, List.getElem?_map, List.getElem?_map, hx, hy,
          Option.map_some, Option.map_some, Option.getD_some, Option.getD_some, hkept, ← hboth, hkept] at hp
        cases hp
      constructor
      · exact (flagsOf_modify hclear st.left _).trans h.flagsLeft
      · exact (flagsOf_modify hclear st.right _).trans h.flagsRight
      · exact h.left.trans (filter_modify_dropped hclear hx hdropped).symm
      · exact h.right.trans (filter_modify_dropped hclear hy (hboth ▸ hdropped)).symm
      · dsimp only
        rw [h.reports, List.filter_append, List.map_append]
        simp [hdropped]

theorem Thinned.foldl (h : Thinned keep kind flagsA flagsB st st') (hclear : ∀ x, keep (clear x) = keep x)
    (hsame : ∀ x y, live x = true → live y = true → same x y = true → keep x = keep y)
    (hjudge : ∀ i j, judge' i j = (judge (keptAt flagsA i) (keptAt flagsB j)).map kind)
    {ps ps' : List (Nat × Nat)} (hps : ps.filter (keptPair flagsA flagsB) = ps'.map (embed flagsA flagsB)) :
    Thinned keep kind flagsA flagsB (ps.foldl (visit live same clear judge) st)
      (ps'.foldl (visit live same clear judge') st') := by
  induction ps generalizing ps' st st' with
  | nil =>
      obtain rfl := List.map_eq_nil_iff.mp hps.symm
      exact h
  | cons p ps ih =>
      cases hp : keptPair flagsA flagsB p with
      | false =>
          rw [List.filter_cons_of_neg (by simp [hp])] at hps
          exact ih (h.visit_dropped hclear hsame hp) hps
      | true =>
          rw [List.filter_cons_of_pos hp] at hps
          cases ps' with
          | nil => cases hps
          | cons p' ps' =>
              rw [List.map_cons, List.cons.injEq] at hps
              rw [hps.1]
              exact ih (h.visit_kept hclear hjudge p') hps.2

/-- The comparison of two lists that only some kinds of entries stay of reports what the comparison of
the whole lists reports of these kinds. -/
theorem compareAll_thinned {a b : List α} (hclear : ∀ x, keep (clear x) = keep x)
    (hsame : ∀ x y, live x = true → live y = true → same x y = true → keep x = keep y)
    (hjudge : ∀ i j, judge' i j =
      (judge (keptAt (flagsOf keep a) i) (keptAt (flagsOf keep b) j)).map kind) :
    Thinned keep kind (flagsOf keep a) (flagsOf keep b) (compareAll live same clear judge a b)
      (compareAll live same clear judge' (a.filter keep) (b.filter keep)) := by
  have hstart : Thinned keep kind (flagsOf keep a) (flagsOf keep b) (⟨a, b, []⟩ : State α κ)
      (⟨a.filter keep, b.filter keep, []⟩ : State α κ') := ⟨rfl, rfl, rfl, rfl, rfl⟩
  apply hstart.foldl hclear hsame hjudge
  rw [length_filter_eq_count, length_filter_eq_count, ← indexPairs_filter_kept, flagsOf, flagsOf, List.length_map,
    List.length_map]

end Comparison

end Prongc.Library.Thinning
