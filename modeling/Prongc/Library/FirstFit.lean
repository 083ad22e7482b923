import Mathlib.Data.List.Basic

namespace Prongc.Library.FirstFit

variable {α κ : Type}

/-- Two arrays under comparison and the pairs reported so far, each with its
two entries as they were when it was reported. -/
structure State (α κ : Type) where
  left : List α
  right : List α
  reports : List ((Nat × Nat) × (α × α × κ))

section Loop

variable (live : α → Bool) (same : α → α → Bool) (clear : α → α) (judge : Nat → Nat → Option κ)

def verdict (a b : List α) (p : Nat × Nat) : Option (α × α × κ) :=
  match a[p.1]?, b[p.2]? with
  | some x, some y =>
      if live x && live y && same x y then (judge p.1 p.2).map (fun kind => (x, y, kind)) else none
  | _, _ => none

/-- One comparison. A reported pair loses both entries. -/
def visit (st : State α κ) (p : Nat × Nat) : State α κ :=
  match verdict live same judge st.left st.right p with
  | none => st
  | some report =>
      { left := st.left.modify p.1 clear
        right := st.right.modify p.2 clear
        reports := st.reports ++ [(p, report)] }

def indexPairs (m n : Nat) : List (Nat × Nat) :=
  (List.range m).flatMap (fun i => (List.range n).map (fun j => (i, j)))

def compareAll (a b : List α) : State α κ :=
  (indexPairs a.length b.length).foldl (visit live same clear judge) ⟨a, b, []⟩

end Loop

/-- Takes each pair whose two indices no earlier taken pair uses. -/
def firstFit (ok : Nat × Nat → Bool) : List (Nat × Nat) → List (Nat × Nat) → List (Nat × Nat)
  | taken, [] => taken
  | taken, p :: ps =>
      if ok p && taken.all (fun q => q.1 != p.1 && q.2 != p.2) then firstFit ok (taken ++ [p]) ps
      else firstFit ok taken ps

def clearAt (clear : α → α) (is : List Nat) (l : List α) : List α :=
  l.mapIdx (fun i x => if i ∈ is then clear x else x)

theorem firstFit_prefix (ok : Nat × Nat → Bool) (taken ps : List (Nat × Nat)) :
    ∃ l, firstFit ok taken ps = taken ++ l ∧ ∀ p ∈ l, p ∈ ps ∧ ok p = true := by
  induction ps generalizing taken with
  | nil => exact ⟨[], by simp [firstFit], by simp⟩
  | cons p ps ih =>
      rw [firstFit]
      split_ifs with h
      · obtain ⟨l, hl, hok⟩ := ih (taken ++ [p])
        refine ⟨p :: l, by simp [hl], fun q hq => ?_⟩
        rcases List.mem_cons.mp hq with rfl | hq
        · exact ⟨List.mem_cons_self, ((Bool.and_eq_true _ _).mp h).1⟩
        · exact ⟨List.mem_cons_of_mem _ (hok q hq).1, (hok q hq).2⟩
      · obtain ⟨l, hl, hok⟩ := ih taken
        exact ⟨l, hl, fun q hq => ⟨List.mem_cons_of_mem _ (hok q hq).1, (hok q hq).2⟩⟩

theorem ok_of_mem_firstFit {ok : Nat × Nat → Bool} {ps : List (Nat × Nat)} {p : Nat × Nat}
    (h : p ∈ firstFit ok [] ps) : ok p = true := by
  obtain ⟨l, hl, hok⟩ := firstFit_prefix ok [] ps
  rw [hl, List.nil_append] at h
  exact (hok p h).2

/-- A pair that is passed over shares an index with a taken one. -/
theorem firstFit_maximal {ok : Nat × Nat → Bool} {ps : List (Nat × Nat)} (taken : List (Nat × Nat))
    {p : Nat × Nat} (hp : p ∈ ps) (hok : ok p = true) :
    ∃ q ∈ firstFit ok taken ps, q.1 = p.1 ∨ q.2 = p.2 := by
  induction ps generalizing taken with
  | nil => simp at hp
  | cons r ps ih =>
      rw [firstFit]
      rcases List.mem_cons.mp hp with rfl | hp
      · split_ifs with h
        · obtain ⟨l, hl, -⟩ := firstFit_prefix ok (taken ++ [p]) ps
          exact ⟨p, by simp [hl], .inl rfl⟩
        · have : ∃ q ∈ taken, q.1 = p.1 ∨ q.2 = p.2 := by
            simp only [hok, Bool.true_and, List.all_eq_true, Bool.and_eq_true, bne_iff_ne] at h
            push Not at h
            obtain ⟨q, hq, hne⟩ := h
            exact ⟨q, hq, or_iff_not_imp_left.mpr hne⟩
          obtain ⟨q, hq, hs⟩ := this
          obtain ⟨l, hl, -⟩ := firstFit_prefix ok taken ps
          exact ⟨q, by simp [hl, hq], hs⟩
      · split_ifs
        · exact ih _ hp
        · exact ih _ hp

theorem mem_indexPairs {m n : Nat} {p : Nat × Nat} : p ∈ indexPairs m n ↔ p.1 < m ∧ p.2 < n := by
  obtain ⟨i, j⟩ := p
  simp [indexPairs]

@[simp] theorem clearAt_length (clear : α → α) (is : List Nat) (l : List α) :
    (clearAt clear is l).length = l.length := by
  simp [clearAt]

theorem clearAt_getElem? (clear : α → α) (is : List Nat) (l : List α) (i : Nat) :
    (clearAt clear is l)[i]? = l[i]?.map (fun x => if i ∈ is then clear x else x) := by
  simp [clearAt]

@[simp] theorem clearAt_nil (clear : α → α) (l : List α) : clearAt clear [] l = l :=
  List.ext_getElem? fun i => by simp [clearAt_getElem?]

theorem modify_clearAt (clear : α → α) {is : List Nat} {i : Nat} (hi : i ∉ is) (l : List α) :
    (clearAt clear is l).modify i clear = clearAt clear (is ++ [i]) l := by
  refine List.ext_getElem? fun k => ?_
  rw [List.getElem?_modify, clearAt_getElem?, clearAt_getElem?]
  rcases eq_or_ne i k with rfl | hne
  · cases l[i]? <;> simp [hi]
  · have hk : k ∈ is ++ [i] ↔ k ∈ is := by simp [hne.symm]
    simp only [hk, hne, if_false]
    cases l[k]? <;> rfl

section Matching

variable {live : α → Bool} {same : α → α → Bool} {clear : α → α} {judge : Nat → Nat → Option κ}

/-- The pairs the nested loop reports, read off the arrays before it starts. -/
def matching (live : α → Bool) (same : α → α → Bool) (judge : Nat → Nat → Option κ) (a b : List α) :
    List (Nat × Nat) :=
  firstFit (fun p => (verdict live same judge a b p).isSome) [] (indexPairs a.length b.length)

theorem verdict_clearAt (hclear : ∀ x, live (clear x) = false) (a b : List α) (is js : List Nat)
    (p : Nat × Nat) : verdict live same judge (clearAt clear is a) (clearAt clear js b) p =
      if p.1 ∈ is ∨ p.2 ∈ js then none else verdict live same judge a b p := by
  unfold verdict
  rw [clearAt_getElem?, clearAt_getElem?]
  cases a[p.1]? with
  | none => simp
  | some x =>
      cases b[p.2]? with
      | none => simp
      | some y => by_cases hi : p.1 ∈ is <;> by_cases hj : p.2 ∈ js <;> simp [hi, hj, hclear]

theorem foldl_visit (hclear : ∀ x, live (clear x) = false) (a b : List α) (taken ps : List (Nat × Nat)) :
    ps.foldl (visit live same clear judge)
        ⟨clearAt clear (taken.map Prod.fst) a, clearAt clear (taken.map Prod.snd) b,
          taken.filterMap (fun p => (verdict live same judge a b p).map (fun report => (p, report)))⟩ =
      (let all := firstFit (fun p => (verdict live same judge a b p).isSome) taken ps
       ⟨clearAt clear (all.map Prod.fst) a, clearAt clear (all.map Prod.snd) b,
          all.filterMap (fun p => (verdict live same judge a b p).map (fun report => (p, report)))⟩) := by
  induction ps generalizing taken with
  | nil => rfl
  | cons p ps ih =>
      have hfresh : taken.all (fun q => q.1 != p.1 && q.2 != p.2) = true ↔
          ¬ (p.1 ∈ taken.map Prod.fst ∨ p.2 ∈ taken.map Prod.snd) := by
        simp only [List.all_eq_true, Bool.and_eq_true, bne_iff_ne, List.mem_map, not_or, not_exists, not_and]
        exact ⟨fun h => ⟨fun q hq => (h q hq).1, fun q hq => (h q hq).2⟩,
          fun h q hq => ⟨h.1 q hq, h.2 q hq⟩⟩
      rw [List.foldl_cons, firstFit, visit]
      simp only [verdict_clearAt hclear]
      by_cases hused : p.1 ∈ taken.map Prod.fst ∨ p.2 ∈ taken.map Prod.snd
      · have : taken.all (fun q => q.1 != p.1 && q.2 != p.2) = false := by
          rw [← Bool.not_eq_true, hfresh]
          exact fun h => h hused
        simp only [if_pos hused, this, Bool.and_false, Bool.false_eq_true, if_false]
        exact ih taken
      · obtain ⟨h₁, h₂⟩ := not_or.mp hused
        rw [if_neg hused, hfresh.mpr hused, Bool.and_true]
        cases hv : verdict live same judge a b p with
        | none => simpa using ih taken
        | some report =>
            have := ih (taken ++ [p])
            simp only [List.map_append, List.map_cons, List.map_nil, List.filterMap_append,
              ← modify_clearAt clear h₁, ← modify_clearAt clear h₂] at this
            simpa [hv] using this

/-- The nested loop reports a first fit of the pairs it would report alone. -/
theorem compareAll_eq (hclear : ∀ x, live (clear x) = false) (a b : List α) :
    compareAll live same clear judge a b =
      ⟨clearAt clear ((matching live same judge a b).map Prod.fst) a,
        clearAt clear ((matching live same judge a b).map Prod.snd) b,
        (matching live same judge a b).filterMap
          (fun p => (verdict live same judge a b p).map (fun report => (p, report)))⟩ := by
  have := @foldl_visit α κ live same clear judge hclear a b [] (indexPairs a.length b.length)
  simpa [compareAll, matching] using this

theorem verdict_of_mem_matching {a b : List α} {p : Nat × Nat} (h : p ∈ matching live same judge a b) :
    (verdict live same judge a b p).isSome :=
  ok_of_mem_firstFit h

theorem matching_maximal {a b : List α} {p : Nat × Nat} (h : (verdict live same judge a b p).isSome) :
    ∃ q ∈ matching live same judge a b, q.1 = p.1 ∨ q.2 = p.2 := by
  refine firstFit_maximal [] (mem_indexPairs.mpr ?_) h
  rw [verdict] at h
  cases ha : a[p.1]? with
  | none => simp [ha] at h
  | some x =>
      cases hb : b[p.2]? with
      | none => simp [ha, hb] at h
      | some y => exact ⟨(List.getElem?_eq_some_iff.mp ha).1, (List.getElem?_eq_some_iff.mp hb).1⟩

end Matching

/-- A first fit that a test decides pair by pair: it takes what fits and meets no pair taken before. -/
theorem firstFit_eq_filter {ok sel : Nat × Nat → Bool} {ps taken : List (Nat × Nat)}
    (h : ∀ pre p post, ps = pre ++ p :: post → (sel p = true ↔
      ok p = true ∧ ∀ q ∈ taken ++ pre.filter sel, q.1 ≠ p.1 ∧ q.2 ≠ p.2)) :
    firstFit ok taken ps = taken ++ ps.filter sel := by
  induction ps generalizing taken with
  | nil => simp [firstFit]
  | cons p ps ih =>
      have hp : (ok p && taken.all fun q => q.1 != p.1 && q.2 != p.2) = sel p := by
        rw [Bool.eq_iff_iff, h [] p ps rfl]
        simp [List.all_eq_true]
      rw [firstFit, hp]
      cases hsel : sel p with
      | true =>
          rw [if_pos rfl, List.filter_cons_of_pos hsel, ih, List.append_assoc, List.singleton_append]
          intro pre q post hsplit
          rw [h (p :: pre) q post (by rw [hsplit, List.cons_append]), List.filter_cons_of_pos hsel,
            List.append_assoc, List.singleton_append]
      | false =>
          rw [if_neg Bool.false_ne_true, List.filter_cons_of_neg (by simp [hsel]), ih]
          intro pre q post hsplit
          rw [h (p :: pre) q post (by rw [hsplit, List.cons_append]),
            List.filter_cons_of_neg (by simp [hsel])]

def Before (p q : Nat × Nat) : Prop := p.1 < q.1 ∨ (p.1 = q.1 ∧ p.2 < q.2)

theorem indexPairs_pairwise (m n : Nat) : (indexPairs m n).Pairwise Before := by
  rw [indexPairs]
  rw [List.pairwise_flatMap]
  constructor
  · intro i _
    rw [List.pairwise_map]
    exact List.pairwise_lt_range.imp fun h => .inr ⟨rfl, h⟩
  · refine List.pairwise_lt_range.imp fun h p hp q hq => ?_
    obtain ⟨j, -, rfl⟩ := List.mem_map.mp hp
    obtain ⟨k, -, rfl⟩ := List.mem_map.mp hq
    exact .inl h

theorem before_asymm {p q : Nat × Nat} (h : Before p q) : ¬ Before q p := by
  rw [Before] at *
  omega

theorem mem_pre_iff {β : Type} {r : β → β → Prop} (hasymm : ∀ x y, r x y → ¬ r y x) {l pre post : List β} {p : β}
    (hsorted : l.Pairwise r) (h : l = pre ++ p :: post) (q : β) : q ∈ pre ↔ q ∈ l ∧ r q p := by
  rw [h, List.pairwise_append] at hsorted
  obtain ⟨-, hpost, hpre⟩ := hsorted
  constructor
  · intro hq
    exact ⟨by rw [h]; exact List.mem_append_left _ hq, hpre q hq p List.mem_cons_self⟩
  · rintro ⟨hq, hbefore⟩
    rw [h] at hq
    refine (List.mem_append.mp hq).resolve_right fun hq => ?_
    rcases List.mem_cons.mp hq with rfl | hq
    · exact hasymm _ _ hbefore hbefore
    · exact hasymm _ _ hbefore ((List.pairwise_cons.mp hpost).1 q hq)

theorem mem_before_iff {m n : Nat} {pre post : List (Nat × Nat)} {p : Nat × Nat}
    (h : indexPairs m n = pre ++ p :: post) (q : Nat × Nat) :
    q ∈ pre ↔ q ∈ indexPairs m n ∧ Before q p :=
  mem_pre_iff (fun _ _ => before_asymm) (indexPairs_pairwise m n) h q

section Ranks

variable (live : α → Bool) (same : α → α → Bool)

def classOf (x : α) (l : List α) : List α := l.filter fun z => live z && same z x

def rank (l : List α) (i : Nat) (x : α) : Nat := (l.take i).countP fun z => live z && same z x

def equallyRanked (a b : List α) (p : Nat × Nat) : Bool :=
  match a[p.1]?, b[p.2]? with
  | some x, some y => live x && live y && same x y && rank live same a p.1 x == rank live same b p.2 y
  | _, _ => false

variable {live same}

theorem countP_take_succ {q : α → Bool} {l : List α} {i : Nat} {x : α} (hx : l[i]? = some x) :
    (l.take (i + 1)).countP q = (l.take i).countP q + if q x then 1 else 0 := by
  rw [List.take_add_one, hx, List.countP_append]
  simp [List.countP_cons]

theorem countP_take_mono {q : α → Bool} {l : List α} {i j : Nat} (h : i ≤ j) :
    (l.take i).countP q ≤ (l.take j).countP q := by
  apply List.Sublist.countP_le
  rw [← Nat.min_eq_left h, ← List.take_take]
  exact List.take_sublist _ _

theorem exists_countP_take_eq {q : α → Bool} {l : List α} {j r : Nat} (h : r < (l.take j).countP q) :
    ∃ i x, i < j ∧ l[i]? = some x ∧ q x = true ∧ (l.take i).countP q = r := by
  induction j with
  | zero => simp at h
  | succ j ih =>
      by_cases hr : r < (l.take j).countP q
      · obtain ⟨i, x, hi, hx, hqx, hcount⟩ := ih hr
        exact ⟨i, x, Nat.lt_succ_of_lt hi, hx, hqx, hcount⟩
      · cases hx : l[j]? with
        | none =>
            rw [List.take_add_one, hx, Option.toList_none, List.append_nil] at h
            exact absurd h hr
        | some x =>
            rw [countP_take_succ hx] at h
            split at h
            next hqx => exact ⟨j, x, Nat.lt_succ_self j, hx, hqx, by omega⟩
            next => exact absurd h hr

theorem filter_getElem?_iff {q : α → Bool} {l : List α} {n : Nat} {x : α} :
    (l.filter q)[n]? = some x ↔ ∃ i, l[i]? = some x ∧ q x = true ∧ (l.take i).countP q = n := by
  induction l generalizing n with
  | nil => simp
  | cons z l ih =>
      have hsucc : ∀ i, ((z :: l).take (i + 1)).countP q = (l.take i).countP q + if q z then 1 else 0 := by
        intro i
        rw [List.take_succ_cons, List.countP_cons]
      cases hz : q z with
      | true =>
          rw [List.filter_cons_of_pos hz]
          cases n with
          | zero =>
              rw [List.getElem?_cons_zero]
              constructor
              · rintro h
                obtain rfl := Option.some.inj h
                exact ⟨0, rfl, hz, rfl⟩
              · rintro ⟨i, hx, -, hcount⟩
                cases i with
                | zero => exact hx
                | succ i => simp [hz] at hcount
          | succ n =>
              rw [List.getElem?_cons_succ, ih]
              constructor
              · rintro ⟨i, hx, hqx, hcount⟩
                exact ⟨i + 1, hx, hqx, by rw [hsucc, hcount, hz, if_pos rfl]⟩
              · rintro ⟨i, hx, hqx, hcount⟩
                cases i with
                | zero => simp at hcount
                | succ i => exact ⟨i, hx, hqx, by rw [hsucc, hz, if_pos rfl] at hcount; omega⟩
      | false =>
          rw [List.filter_cons_of_neg (by simp [hz]), ih]
          constructor
          · rintro ⟨i, hx, hqx, hcount⟩
            exact ⟨i + 1, hx, hqx, by rw [hsucc, hcount, hz]; simp⟩
          · rintro ⟨i, hx, hqx, hcount⟩
            cases i with
            | zero =>
                obtain rfl := Option.some.inj hx
                rw [hz] at hqx
                cases hqx
            | succ i => exact ⟨i, hx, hqx, by simpa [hsucc, hz] using hcount⟩

/-- If an array loses the first entries that pass a filter, and others that do not, the filter lets through
the rest of them. -/
theorem filter_clearAt {q : α → Bool} {clear : α → α} (hclear : ∀ x, q (clear x) = false) {is : List Nat}
    {l : List α} {m : Nat} (h : ∀ i x, l[i]? = some x → q x = true → (i ∈ is ↔ (l.take i).countP q < m)) :
    (clearAt clear is l).filter q = (l.filter q).drop m := by
  suffices hprefix : ∀ i, ((clearAt clear is l).take i).filter q = ((l.take i).filter q).drop m by
    have hall := hprefix l.length
    rwa [List.take_of_length_le (Nat.le_of_eq (clearAt_length clear is l)), List.take_length] at hall
  intro i
  induction i with
  | zero => simp
  | succ i ih =>
      rw [List.take_add_one, List.take_add_one, List.filter_append, List.filter_append, ih, clearAt_getElem?]
      cases hx : l[i]? with
      | none => rw [Option.map_none, Option.toList_none, List.filter_nil, List.append_nil, List.append_nil]
      | some x =>
          rw [Option.map_some, Option.toList_some, Option.toList_some, List.filter_singleton, List.filter_singleton]
          cases hq : q x with
          | false =>
              have hkept : q (if i ∈ is then clear x else x) = false := by
                split
                next => exact hclear x
                next => exact hq
              rw [hkept]
              simp
          | true =>
              have hcount : ((l.take i).filter q).length = (l.take i).countP q := List.countP_eq_length_filter.symm
              by_cases hlt : (l.take i).countP q < m
              · rw [if_pos ((h i x hx hq).mpr hlt), hclear, List.drop_eq_nil_of_le (by omega),
                  List.drop_eq_nil_of_le (by simp; omega)]
                rfl
              · rw [if_neg (fun hi => hlt ((h i x hx hq).mp hi)), hq, List.drop_append_of_le_length (by omega)]

theorem same_congr (hsymm : ∀ x y, same x y = true → same y x = true)
    (htrans : ∀ x y z, same x y = true → same y z = true → same x z = true) {x y : α}
    (h : same x y = true) : (fun z => live z && same z x) = fun z => live z && same z y := by
  funext z
  have hiff : same z x = true ↔ same z y = true :=
    ⟨fun hz => htrans z x y hz h, fun hz => htrans z y x hz (hsymm x y h)⟩
  rw [Bool.eq_iff_iff.mpr hiff]

theorem rank_congr (hsymm : ∀ x y, same x y = true → same y x = true)
    (htrans : ∀ x y z, same x y = true → same y z = true → same x z = true) {x y : α}
    (h : same x y = true) (l : List α) (i : Nat) : rank live same l i x = rank live same l i y := by
  rw [rank, rank, same_congr hsymm htrans h]

theorem rank_lt {l : List α} {i j : Nat} {x z : α} (h : i < j) (hz : l[i]? = some z)
    (hlive : live z = true) (hsame : same z x = true) : rank live same l i x < rank live same l j x := by
  have hstep := @countP_take_succ α (fun z => live z && same z x) l i z hz
  rw [if_pos (by simp [hlive, hsame])] at hstep
  have hmono := @countP_take_mono α (fun z => live z && same z x) l (i + 1) j h
  unfold rank
  omega

variable {judge : Nat → Nat → Option κ} {a b : List α}

theorem verdict_isSome_iff (hjudge : ∀ i j, (judge i j).isSome = true) {i j : Nat} {x y : α}
    (hx : a[i]? = some x) (hy : b[j]? = some y) :
    (verdict live same judge a b (i, j)).isSome = true ↔
      live x = true ∧ live y = true ∧ same x y = true := by
  rw [verdict]
  simp only [hx, hy]
  split
  next h => simpa [hjudge, and_assoc] using h
  next h => simpa [and_assoc] using h

theorem equallyRanked_iff {i j : Nat} {x y : α} (hx : a[i]? = some x) (hy : b[j]? = some y) :
    equallyRanked live same a b (i, j) = true ↔ (live x = true ∧ live y = true ∧ same x y = true) ∧
      rank live same a i x = rank live same b j y := by
  simp [equallyRanked, hx, hy, and_assoc]

/-- If sameness is an equivalence and no pair is judged unfit, the nested loop takes the entries of
each class in order, the first of one array with the first of the other. -/
theorem matching_eq_equallyRanked (hsymm : ∀ x y, same x y = true → same y x = true)
    (htrans : ∀ x y z, same x y = true → same y z = true → same x z = true)
    (hjudge : ∀ i j, (judge i j).isSome = true) :
    matching live same judge a b =
      (indexPairs a.length b.length).filter (equallyRanked live same a b) := by
  rw [matching]
  rw [firstFit_eq_filter, List.nil_append]
  rintro pre ⟨i, j⟩ post hsplit
  have hmem : (i, j) ∈ indexPairs a.length b.length := by
    rw [hsplit]
    exact List.mem_append_right _ List.mem_cons_self
  obtain ⟨hi, hj⟩ := mem_indexPairs.mp hmem
  obtain ⟨x, hx⟩ : ∃ x, a[i]? = some x := ⟨_, List.getElem?_eq_getElem hi⟩
  obtain ⟨y, hy⟩ : ∃ y, b[j]? = some y := ⟨_, List.getElem?_eq_getElem hj⟩
  rw [equallyRanked_iff hx hy, verdict_isSome_iff hjudge hx hy, List.nil_append]
  apply and_congr_right
  rintro ⟨hlx, hly, hxy⟩
  constructor
  · -- a pair taken before with an index in common would have a smaller rank
    rintro hrank ⟨i', j'⟩ hq
    obtain ⟨hpre, hsel⟩ := List.mem_filter.mp hq
    obtain ⟨hqmem, hbefore⟩ := (mem_before_iff hsplit _).mp hpre
    obtain ⟨hi', hj'⟩ := mem_indexPairs.mp hqmem
    obtain ⟨x', hx'⟩ : ∃ x', a[i']? = some x' := ⟨_, List.getElem?_eq_getElem hi'⟩
    obtain ⟨y', hy'⟩ : ∃ y', b[j']? = some y' := ⟨_, List.getElem?_eq_getElem hj'⟩
    obtain ⟨⟨hlx', hly', hxy'⟩, hrank'⟩ := (equallyRanked_iff hx' hy').mp hsel
    rw [Before] at hbefore
    change i' ≠ i ∧ j' ≠ j
    constructor
    · rintro rfl
      obtain rfl := Option.some.inj (hx.symm.trans hx')
      have hsame : same y' y = true := htrans _ _ _ (hsymm _ _ hxy') hxy
      have hlt : rank live same b j' y < rank live same b j y := rank_lt (by omega) hy' hly' hsame
      rw [rank_congr hsymm htrans hsame] at hrank'
      omega
    · rintro rfl
      obtain rfl := Option.some.inj (hy.symm.trans hy')
      have hsame : same x' x = true := htrans _ _ _ hxy' (hsymm _ _ hxy)
      have hlt : rank live same a i' x < rank live same a i x := rank_lt (by omega) hx' hlx' hsame
      rw [rank_congr hsymm htrans hsame] at hrank'
      omega
  · -- an entry of a smaller rank would have been paired before
    intro hfree
    by_contra hne
    unfold rank at hne
    rcases Nat.lt_or_gt_of_ne hne with hlt | hlt
    · obtain ⟨j', y', hj', hy', hclass', hcount⟩ := exists_countP_take_eq hlt
      obtain ⟨hly', hsame⟩ := (Bool.and_eq_true _ _).mp hclass'
      have hrank' : rank live same a i x = rank live same b j' y' := by
        rw [rank_congr hsymm htrans hsame, rank, rank, hcount]
      refine (hfree (i, j') (List.mem_filter.mpr ⟨(mem_before_iff hsplit _).mpr ⟨?_, .inr ⟨rfl, hj'⟩⟩,
        (equallyRanked_iff hx hy').mpr ⟨⟨hlx, hly', ?_⟩, hrank'⟩⟩)).1 rfl
      · exact mem_indexPairs.mpr ⟨hi, (List.getElem?_eq_some_iff.mp hy').1⟩
      · exact htrans _ _ _ hxy (hsymm _ _ hsame)
    · obtain ⟨i', x', hi', hx', hclass', hcount⟩ := exists_countP_take_eq hlt
      obtain ⟨hlx', hsame⟩ := (Bool.and_eq_true _ _).mp hclass'
      have hrank' : rank live same a i' x' = rank live same b j y := by
        rw [rank_congr hsymm htrans hsame, rank, rank, hcount]
      refine (hfree (i', j) (List.mem_filter.mpr ⟨(mem_before_iff hsplit _).mpr ⟨?_, .inl hi'⟩,
        (equallyRanked_iff hx' hy).mpr ⟨⟨hlx', hly, ?_⟩, hrank'⟩⟩)).2 rfl
      · exact mem_indexPairs.mpr ⟨(List.getElem?_eq_some_iff.mp hx').1, hj⟩
      · exact htrans _ _ _ hsame hxy

theorem length_classOf (live : α → Bool) (same : α → α → Bool) (x : α) (l : List α) :
    (classOf live same x l).length = l.countP fun z => live z && same z x :=
  List.countP_eq_length_filter.symm

theorem rank_lt_length_classOf {l : List α} {i : Nat} {x z : α} (hz : l[i]? = some z) (hlive : live z = true)
    (hsame : same z x = true) : rank live same l i x < (classOf live same x l).length := by
  have hlt := rank_lt (List.getElem?_eq_some_iff.mp hz).1 hz hlive hsame
  rw [length_classOf]
  simpa [rank] using hlt

/-- An entry of the first array is paired exactly if fewer entries of its class stand before it than the second
array has. -/
theorem exists_mem_matching_left_iff (hsymm : ∀ x y, same x y = true → same y x = true)
    (htrans : ∀ x y z, same x y = true → same y z = true → same x z = true)
    (hjudge : ∀ i j, (judge i j).isSome = true) {i : Nat} {x : α} (hx : a[i]? = some x) (hlive : live x = true) :
    (∃ p ∈ matching live same judge a b, p.1 = i) ↔
      rank live same a i x < (classOf live same x b).length := by
  rw [matching_eq_equallyRanked hsymm htrans hjudge]
  constructor
  · rintro ⟨⟨i', j⟩, hp, rfl⟩
    obtain ⟨hmem, hsel⟩ := List.mem_filter.mp hp
    have hy := List.getElem?_eq_getElem (mem_indexPairs.mp hmem).2
    obtain ⟨⟨-, hly, hxy⟩, hrank⟩ := (equallyRanked_iff hx hy).mp hsel
    rw [hrank, ← rank_congr hsymm htrans hxy]
    exact rank_lt_length_classOf hy hly (hsymm _ _ hxy)
  · intro hlt
    rw [length_classOf, ← List.take_length (l := b)] at hlt
    obtain ⟨j, y, -, hy, hclass, hcount⟩ := exists_countP_take_eq hlt
    obtain ⟨hly, hyx⟩ := (Bool.and_eq_true _ _).mp hclass
    refine ⟨(i, j), List.mem_filter.mpr ⟨mem_indexPairs.mpr
      ⟨(List.getElem?_eq_some_iff.mp hx).1, (List.getElem?_eq_some_iff.mp hy).1⟩, ?_⟩, rfl⟩
    rw [equallyRanked_iff hx hy, ← rank_congr hsymm htrans (hsymm _ _ hyx)]
    exact ⟨⟨hlive, hly, hsymm _ _ hyx⟩, hcount.symm⟩

theorem equallyRanked_swap (hsymm : ∀ x y, same x y = true → same y x = true) {i j : Nat}
    (h : equallyRanked live same a b (i, j) = true) : equallyRanked live same b a (j, i) = true := by
  cases hx : a[i]? with
  | none => simp [equallyRanked, hx] at h
  | some x =>
      cases hy : b[j]? with
      | none => simp [equallyRanked, hx, hy] at h
      | some y =>
          obtain ⟨⟨hlx, hly, hxy⟩, hrank⟩ := (equallyRanked_iff hx hy).mp h
          exact (equallyRanked_iff hy hx).mpr ⟨⟨hly, hlx, hsymm _ _ hxy⟩, hrank.symm⟩

theorem exists_mem_matching_swap (hsymm : ∀ x y, same x y = true → same y x = true)
    (htrans : ∀ x y z, same x y = true → same y z = true → same x z = true)
    (hjudge : ∀ i j, (judge i j).isSome = true) {j : Nat} :
    (∃ p ∈ matching live same judge a b, p.2 = j) ↔ ∃ p ∈ matching live same judge b a, p.1 = j := by
  have hswap : ∀ {l l' : List α} {i k : Nat}, (i, k) ∈ matching live same judge l l' →
      (k, i) ∈ matching live same judge l' l := by
    intro l l' i k h
    rw [matching_eq_equallyRanked hsymm htrans hjudge, List.mem_filter, mem_indexPairs] at h ⊢
    exact ⟨h.1.symm, equallyRanked_swap hsymm h.2⟩
  constructor
  · rintro ⟨p, hp, rfl⟩
    exact ⟨_, hswap hp, rfl⟩
  · rintro ⟨p, hp, rfl⟩
    exact ⟨_, hswap hp, rfl⟩

/-- Two entries are paired exactly if they stand at the same place of their class in both arrays. -/
theorem exists_mem_matching_iff (hsymm : ∀ x y, same x y = true → same y x = true)
    (htrans : ∀ x y z, same x y = true → same y z = true → same x z = true)
    (hjudge : ∀ i j, (judge i j).isSome = true) {x y : α} :
    (∃ p ∈ matching live same judge a b, a[p.1]? = some x ∧ b[p.2]? = some y) ↔
      ∃ n : Nat, (classOf live same x a)[n]? = some x ∧ (classOf live same x b)[n]? = some y := by
  rw [matching_eq_equallyRanked hsymm htrans hjudge]
  rw [classOf]
  constructor
  · rintro ⟨⟨i, j⟩, hp, hx, hy⟩
    obtain ⟨-, hsel⟩ := List.mem_filter.mp hp
    obtain ⟨⟨hlx, hly, hxy⟩, hrank⟩ := (equallyRanked_iff hx hy).mp hsel
    refine ⟨rank live same a i x, filter_getElem?_iff.mpr ⟨i, hx, ?_, rfl⟩,
      filter_getElem?_iff.mpr ⟨j, hy, ?_, ?_⟩⟩
    · simp [hlx, htrans _ _ _ hxy (hsymm _ _ hxy)]
    · simp [hly, hsymm _ _ hxy]
    · rw [hrank, ← rank_congr hsymm htrans hxy]
      rfl
  · rintro ⟨n, hnx, hny⟩
    obtain ⟨i, hx, hqx, hi⟩ := filter_getElem?_iff.mp hnx
    obtain ⟨j, hy, hqy, hj⟩ := filter_getElem?_iff.mp hny
    obtain ⟨hlx, -⟩ := (Bool.and_eq_true _ _).mp hqx
    obtain ⟨hly, hyx⟩ := (Bool.and_eq_true _ _).mp hqy
    have hxy := hsymm _ _ hyx
    have hrank : rank live same a i x = rank live same b j y := by
      rw [← rank_congr hsymm htrans hxy, rank, rank, hi, hj]
    exact ⟨(i, j), List.mem_filter.mpr ⟨mem_indexPairs.mpr
      ⟨(List.getElem?_eq_some_iff.mp hx).1, (List.getElem?_eq_some_iff.mp hy).1⟩,
      (equallyRanked_iff hx hy).mpr ⟨⟨hlx, hly, hxy⟩, hrank⟩⟩, hx, hy⟩

end Ranks

end Prongc.Library.FirstFit
