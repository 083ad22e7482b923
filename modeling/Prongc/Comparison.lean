import Mathlib.Data.List.Forall2
import Prongc.LockTracking
import Prongc.Library.Reports

namespace Prongc.Comparison

open Access LockTracking Library.FirstFit

inductive ReportKind
  | variableOverlap | unprotectedShared | conditionallyProtected
  deriving DecidableEq, Repr

def findVaOverlap (a b : List VarAccess) : State VarAccess ReportKind :=
  compareAll VarAccess.live equalVarAccesses VarAccess.nullify (fun _ _ => some .variableOverlap) a b

def protectionReport (arrA arrB : ProtectionFieldArray) (i j : Nat) : Option ReportKind :=
  if badProtection arrA arrB i j = true then
    match matchingProtectionFieldArrays arrA arrB i j with
    | .sharedUncertain => some .conditionallyProtected
    | _ => some .unprotectedShared
  else none

/-- The ranges are annotated before the loop; `none` is an undefined annotation. -/
def findUnprotectedVa (moves : Nat → Bool) (lockPairArray : List LockPrimitivePair)
    (a b : List VarAccess) : Option (State VarAccess ReportKind) := do
  let arrA ← annotateLockProtectionRanges moves lockPairArray a
  let arrB ← annotateLockProtectionRanges moves lockPairArray b
  some (compareAll VarAccess.live equalVarAccesses VarAccess.nullify (protectionReport arrA arrB) a b)

structure Call where
  trackLocking : Bool
  i : Nat
  j : Nat
  ne : i ≠ j
  deriving DecidableEq

structure Report where
  funcI : Nat
  funcJ : Nat
  vaI : VarAccess
  vaJ : VarAccess
  kind : ReportKind
  deriving DecidableEq, Repr

def callReports (c : Call) (reports : List ((Nat × Nat) × (VarAccess × VarAccess × ReportKind))) :
    List Report :=
  reports.map (fun r => ⟨c.i, c.j, r.2.1, r.2.2.1, r.2.2.2⟩)

section Run

variable (moves : Nat → Bool) (lockPairArray : List LockPrimitivePair)

def compareFuncs (trackLocking : Bool) (a b : List VarAccess) : Option (State VarAccess ReportKind) :=
  if trackLocking then findUnprotectedVa moves lockPairArray a b else some (findVaOverlap a b)

/-- Both functions of a call get their footprints back with the reported entries nulled. -/
def runCall (footprints : List (List VarAccess)) (c : Call) : Option (List (List VarAccess) × List Report) := do
  let a ← footprints[c.i]?
  let b ← footprints[c.j]?
  let st ← compareFuncs moves lockPairArray c.trackLocking a b
  some ((footprints.set c.i st.left).set c.j st.right, callReports c st.reports)

def runCalls : List (List VarAccess) → List Call → Option (List (List VarAccess) × List Report)
  | footprints, [] => some (footprints, [])
  | footprints, c :: cs => do
      let first ← runCall moves lockPairArray footprints c
      let rest ← runCalls first.1 cs
      some (rest.1, first.2 ++ rest.2)

def pairCalls (trackLocking : Bool) (size : Nat) : List Call :=
  (List.range size).flatMap (fun i => (List.range size).filterMap (fun j =>
    if h : i = j then none else some ⟨trackLocking, i, j, h⟩))

def compareAllFuncs (trackLocking : Bool) (footprints : List (List VarAccess)) :
    Option (List (List VarAccess) × List Report) :=
  runCalls moves lockPairArray footprints (pairCalls trackLocking footprints.length)

end Run

/-- Entries that earlier comparisons have reported are null, all others as built. -/
def Faded (va va' : VarAccess) : Prop := va' = va ∨ (va.live = true ∧ va' = va.nullify)

theorem Faded.trans {va va' va'' : VarAccess} (h : Faded va va') (h' : Faded va' va'') : Faded va va'' := by
  rcases h with rfl | ⟨hl, rfl⟩
  · exact h'
  · rcases h' with rfl | ⟨hl', -⟩
    · exact .inr ⟨hl, rfl⟩
    · simp at hl'

theorem Faded.usr {va va' : VarAccess} (h : Faded va va') : va'.usr = va.usr := by
  rcases h with rfl | ⟨-, rfl⟩ <;> rfl

theorem Faded.eq_of_live {va va' : VarAccess} (h : Faded va va') (hl : va'.live = true) : va' = va := by
  rcases h with rfl | ⟨-, rfl⟩
  · rfl
  · simp at hl

structure Annotatable (lockPairArray : List LockPrimitivePair) (fp : List VarAccess) : Prop where
  acquire : ∀ va ∈ fp, va.type = .lockAcquire →
    va.usr.isSome ∧ (getPairByLockFunc lockPairArray va.escFuncSpelling).isSome
  release : ∀ va ∈ fp, va.type = .lockRelease → va.usr.isSome
  branch : ∀ k va, fp[k]? = some va → va.type = .ifStmt → (startOfBranch fp k).isSome

theorem annotate_isSome (moves : Nat → Bool) {lockPairArray : List LockPrimitivePair} {fp : List VarAccess}
    (h : Annotatable lockPairArray fp) :
    (annotateLockProtectionRanges moves lockPairArray fp).isSome := by
  suffices hs : ∀ (l : List (VarAccess × Nat)) st, (∀ x ∈ l, fp[x.2]? = some x.1) →
      (l.foldlM (annotateAt moves lockPairArray fp) st).isSome by
    rw [annotateLockProtectionRanges, Option.isSome_map]
    exact hs _ _ fun x hx => List.mem_zipIdx_iff_getElem?.mp hx
  intro l
  induction l with
  | nil => intro st _; rfl
  | cons x l ih =>
      intro st hl
      have hx := hl x List.mem_cons_self
      have hmem : x.1 ∈ fp := List.mem_of_getElem? hx
      have hstep : (annotateAt moves lockPairArray fp st x).isSome := by
        cases hty : x.1.type with
        | lockAcquire =>
            obtain ⟨hu, hp⟩ := h.acquire _ hmem hty
            obtain ⟨u, hu⟩ := Option.isSome_iff_exists.mp hu
            obtain ⟨p, hp⟩ := Option.isSome_iff_exists.mp hp
            simp [annotateAt, hty, addLockProtectionField, initLpField, hu, hp]
        | lockRelease =>
            obtain ⟨u, hu⟩ := Option.isSome_iff_exists.mp (h.release _ hmem hty)
            simp [annotateAt, hty, hu]
        | ifStmt =>
            obtain ⟨t, ht⟩ := Option.isSome_iff_exists.mp (h.branch _ _ hx hty)
            simp [annotateAt, hty, ht]
        | _ => simp [annotateAt, hty]
      obtain ⟨st', hst'⟩ := Option.isSome_iff_exists.mp hstep
      rw [List.foldlM_cons, hst']
      exact ih st' fun y hy => hl y (List.mem_cons_of_mem _ hy)

def FadedFp (fp fp' : List VarAccess) : Prop := List.Forall₂ Faded fp fp'

theorem fadedFp_refl (fp : List VarAccess) : FadedFp fp fp := List.forall₂_same.mpr fun _ _ => .inl rfl

theorem forall₂_trans {α : Type} {R : α → α → Prop} (hR : ∀ x y z, R x y → R y z → R x z)
    {l l' l'' : List α} (h : List.Forall₂ R l l') (h' : List.Forall₂ R l' l'') : List.Forall₂ R l l'' := by
  induction h generalizing l'' with
  | nil => exact h'
  | cons hv _ ih =>
      cases h' with
      | cons hv' ht => exact .cons (hR _ _ _ hv hv') (ih ht)

theorem FadedFp.trans {fp fp' fp'' : List VarAccess} (h : FadedFp fp fp') (h' : FadedFp fp' fp'') :
    FadedFp fp fp'' :=
  forall₂_trans (R := Faded) (fun _ _ _ => Faded.trans) h h'

theorem FadedFp.getElem? {fp fp' : List VarAccess} (h : FadedFp fp fp') {k : Nat} {va' : VarAccess}
    (hk : fp'[k]? = some va') : ∃ va, fp[k]? = some va ∧ Faded va va' := by
  induction h generalizing k with
  | nil => simp at hk
  | cons hv _ ih =>
      cases k with
      | zero =>
          simp only [List.getElem?_cons_zero, Option.some.injEq] at hk
          exact ⟨_, rfl, hk ▸ hv⟩
      | succ k => simpa using ih (by simpa using hk)

theorem FadedFp.of_getElem? {fp fp' : List VarAccess} (hlen : fp.length = fp'.length)
    (h : ∀ (k : Nat) va va', fp[k]? = some va → fp'[k]? = some va' → Faded va va') : FadedFp fp fp' := by
  refine List.forall₂_iff_get.mpr ⟨hlen, fun k hk hk' => ?_⟩
  exact h k _ _ (List.getElem?_eq_getElem hk) (List.getElem?_eq_getElem hk')

theorem fadedFp_clearAt {is : List Nat} {fp : List VarAccess}
    (h : ∀ i ∈ is, ∀ va, fp[i]? = some va → va.live = true) :
    FadedFp fp (clearAt VarAccess.nullify is fp) := by
  refine .of_getElem? (by simp) fun k va va' hk hk' => ?_
  rw [clearAt_getElem?, hk, Option.map_some, Option.some.injEq] at hk'
  subst hk'
  split_ifs with hm
  · exact .inr ⟨h k hm va hk, rfl⟩
  · exact .inl rfl

theorem Faded.type_of_marker {va va' : VarAccess} (h : Faded va va') {ty : VarAccessType}
    (hty : vaIsPlaceholderType ty = true) (hnull : ty ≠ .null) : va'.type = ty ↔ va.type = ty := by
  rcases h with rfl | ⟨hl, rfl⟩
  · rfl
  · constructor
    · intro h
      exact absurd h.symm hnull
    · rintro rfl
      simp [VarAccess.live, hty] at hl

theorem FadedFp.startOfBranch {fp fp' : List VarAccess} (h : FadedFp fp fp') (i : Nat) :
    startOfBranch fp' i = startOfBranch fp i := by
  have hmap : fp'.map (fun va => va.type == .thenBlock) = fp.map (fun va => va.type == .thenBlock) := by
    induction h with
    | nil => rfl
    | cons hv _ ih =>
        have hiff := hv.type_of_marker (show vaIsPlaceholderType .thenBlock = true from rfl) (by simp)
        rw [List.map_cons, List.map_cons, ih, List.cons.injEq]
        exact ⟨Bool.eq_iff_iff.mpr (by simpa using hiff), rfl⟩
  have hdrop := congrArg (fun l => (l.drop (i + 1)).findIdx? id) hmap
  simp only [← List.map_drop, List.findIdx?_map] at hdrop
  rw [LockTracking.startOfBranch]
  exact congrArg (Option.map (· + (i + 1))) hdrop

theorem Annotatable.faded {lockPairArray : List LockPrimitivePair} {fp fp' : List VarAccess}
    (h : Annotatable lockPairArray fp) (hf : FadedFp fp fp') : Annotatable lockPairArray fp' := by
  have hold {va' : VarAccess} (hm : va' ∈ fp') (hn : va'.type ≠ .null) : va' ∈ fp := by
    obtain ⟨k, hk⟩ := List.mem_iff_getElem?.mp hm
    obtain ⟨va, hva, hv⟩ := hf.getElem? hk
    rcases hv with rfl | ⟨-, rfl⟩
    · exact List.mem_of_getElem? hva
    · simp at hn
  refine ⟨fun va hm hty => h.acquire va (hold hm (by simp [hty])) hty,
    fun va hm hty => h.release va (hold hm (by simp [hty])) hty, fun k va' hk hty => ?_⟩
  obtain ⟨va, hva, hv⟩ := hf.getElem? hk
  rw [hf.startOfBranch]
  exact h.branch k va hva ((hv.type_of_marker rfl (by simp)).mp hty)

section Calls

variable {moves : Nat → Bool} {lockPairArray : List LockPrimitivePair}

/-- What a comparison decides about an index pair before its loop starts. -/
def judgeOf (moves : Nat → Bool) (lockPairArray : List LockPrimitivePair) (trackLocking : Bool)
    (a b : List VarAccess) : Option (Nat → Nat → Option ReportKind) :=
  if trackLocking then do
    let arrA ← annotateLockProtectionRanges moves lockPairArray a
    let arrB ← annotateLockProtectionRanges moves lockPairArray b
    some (protectionReport arrA arrB)
  else some (fun _ _ => some .variableOverlap)

/-- The index pairs a call reports, from the footprints it is made on. -/
def matched (judge : Nat → Nat → Option ReportKind) (a b : List VarAccess) : List (Nat × Nat) :=
  matching VarAccess.live equalVarAccesses judge a b

def verdictOf (judge : Nat → Nat → Option ReportKind) (a b : List VarAccess) (p : Nat × Nat) :
    Option (VarAccess × VarAccess × ReportKind) :=
  verdict VarAccess.live equalVarAccesses judge a b p

theorem verdictOf_eq_some {judge : Nat → Nat → Option ReportKind} {a b : List VarAccess} {p : Nat × Nat}
    {r : VarAccess × VarAccess × ReportKind} : verdictOf judge a b p = some r ↔
      a[p.1]? = some r.1 ∧ b[p.2]? = some r.2.1 ∧ r.1.live = true ∧ r.2.1.live = true ∧
        equalVarAccesses r.1 r.2.1 = true ∧ judge p.1 p.2 = some r.2.2 := by
  rw [verdictOf, Library.Reports.verdict_eq_some_iff, and_assoc, and_assoc]

structure CallEffect (moves : Nat → Bool) (lockPairArray : List LockPrimitivePair)
    (footprints : List (List VarAccess)) (c : Call) (a b : List VarAccess)
    (judge : Nat → Nat → Option ReportKind) (footprints' : List (List VarAccess)) (reports : List Report) :
    Prop where
  left : footprints[c.i]? = some a
  right : footprints[c.j]? = some b
  judged : judgeOf moves lockPairArray c.trackLocking a b = some judge
  footprints_eq : footprints' =
    (footprints.set c.i (clearAt VarAccess.nullify ((matched judge a b).map Prod.fst) a)).set c.j
      (clearAt VarAccess.nullify ((matched judge a b).map Prod.snd) b)
  reports_eq : reports = callReports c ((matched judge a b).filterMap
    (fun p => (verdictOf judge a b p).map (fun report => (p, report))))

theorem compareFuncs_eq (trackLocking : Bool) (a b : List VarAccess) :
    compareFuncs moves lockPairArray trackLocking a b = (judgeOf moves lockPairArray trackLocking a b).map
      (fun judge => compareAll VarAccess.live equalVarAccesses VarAccess.nullify judge a b) := by
  rw [compareFuncs, judgeOf]
  cases trackLocking with
  | false => rfl
  | true =>
      simp only [findUnprotectedVa, if_true, Option.bind_eq_bind]
      cases annotateLockProtectionRanges moves lockPairArray a with
      | none => rfl
      | some arrA => cases annotateLockProtectionRanges moves lockPairArray b <;> rfl

theorem runCall_effect {footprints footprints' : List (List VarAccess)} {c : Call} {reports : List Report}
    (h : runCall moves lockPairArray footprints c = some (footprints', reports)) :
    ∃ a b judge, CallEffect moves lockPairArray footprints c a b judge footprints' reports := by
  simp only [runCall, Option.bind_eq_bind, Option.bind_eq_some_iff, Option.some.injEq, Prod.mk.injEq,
    compareFuncs_eq, Option.map_eq_some_iff] at h
  obtain ⟨a, ha, b, hb, st, ⟨judge, hj, rfl⟩, rfl, rfl⟩ := h
  rw [compareAll_eq VarAccess.nullify_live]
  exact ⟨a, b, judge, ha, hb, hj, rfl, rfl⟩

variable {footprints footprints' : List (List VarAccess)} {c : Call} {reports : List Report}
  {a b : List VarAccess} {judge : Nat → Nat → Option ReportKind}

theorem verdictOf_of_mem_matched {p : Nat × Nat} (h : p ∈ matched judge a b) :
    ∃ r, verdictOf judge a b p = some r :=
  Option.isSome_iff_exists.mp (verdict_of_mem_matching h)

theorem CallEffect.mem_reports (h : CallEffect moves lockPairArray footprints c a b judge footprints' reports)
    {r : Report} : r ∈ reports ↔ ∃ p ∈ matched judge a b, ∃ v, verdictOf judge a b p = some v ∧
      r = ⟨c.i, c.j, v.1, v.2.1, v.2.2⟩ := by
  rw [h.reports_eq, callReports, List.mem_map]
  constructor
  · rintro ⟨x, hx, rfl⟩
    obtain ⟨p, hp, hv⟩ := List.mem_filterMap.mp hx
    obtain ⟨v, hv', rfl⟩ := Option.map_eq_some_iff.mp hv
    exact ⟨p, hp, v, hv', rfl⟩
  · rintro ⟨p, hp, v, hv, rfl⟩
    exact ⟨(p, v), List.mem_filterMap.mpr ⟨p, hp, by rw [hv]; rfl⟩, rfl⟩

theorem CallEffect.getElem_left (h : CallEffect moves lockPairArray footprints c a b judge footprints' reports) :
    footprints'[c.i]? = some (clearAt VarAccess.nullify ((matched judge a b).map Prod.fst) a) := by
  have hi := (List.getElem?_eq_some_iff.mp h.left).1
  rw [h.footprints_eq, List.getElem?_set_ne c.ne.symm, List.getElem?_set_self hi]

theorem CallEffect.getElem_right (h : CallEffect moves lockPairArray footprints c a b judge footprints' reports) :
    footprints'[c.j]? = some (clearAt VarAccess.nullify ((matched judge a b).map Prod.snd) b) := by
  have hj := (List.getElem?_eq_some_iff.mp h.right).1
  rw [h.footprints_eq, List.getElem?_set_self (by simpa using hj)]

theorem CallEffect.getElem_other (h : CallEffect moves lockPairArray footprints c a b judge footprints' reports)
    {k : Nat} (hi : k ≠ c.i) (hj : k ≠ c.j) : footprints'[k]? = footprints[k]? := by
  rw [h.footprints_eq, List.getElem?_set_ne hj.symm, List.getElem?_set_ne hi.symm]

theorem CallEffect.length (h : CallEffect moves lockPairArray footprints c a b judge footprints' reports) :
    footprints'.length = footprints.length := by
  rw [h.footprints_eq]
  simp

theorem CallEffect.faded (h : CallEffect moves lockPairArray footprints c a b judge footprints' reports)
    {k : Nat} {fp : List VarAccess} (hk : footprints[k]? = some fp) :
    ∃ fp', footprints'[k]? = some fp' ∧ FadedFp fp fp' := by
  by_cases hi : k = c.i
  · subst hi
    rw [h.left, Option.some.injEq] at hk
    subst hk
    refine ⟨_, h.getElem_left, fadedFp_clearAt fun i hm va hva => ?_⟩
    obtain ⟨p, hp, rfl⟩ := List.mem_map.mp hm
    obtain ⟨r, hr⟩ := verdictOf_of_mem_matched hp
    obtain ⟨hx, -, hl, -⟩ := verdictOf_eq_some.mp hr
    rw [hx, Option.some.injEq] at hva
    exact hva ▸ hl
  · by_cases hj : k = c.j
    · subst hj
      rw [h.right, Option.some.injEq] at hk
      subst hk
      refine ⟨_, h.getElem_right, fadedFp_clearAt fun i hm va hva => ?_⟩
      obtain ⟨p, hp, rfl⟩ := List.mem_map.mp hm
      obtain ⟨r, hr⟩ := verdictOf_of_mem_matched hp
      obtain ⟨-, hy, -, hl, -⟩ := verdictOf_eq_some.mp hr
      rw [hy, Option.some.injEq] at hva
      exact hva ▸ hl
    · exact ⟨fp, by rw [h.getElem_other hi hj, hk], fadedFp_refl fp⟩

def AllAnnotatable (lockPairArray : List LockPrimitivePair) (footprints : List (List VarAccess)) : Prop :=
  ∀ fp ∈ footprints, Annotatable lockPairArray fp

theorem CallEffect.annotatable
    (h : CallEffect moves lockPairArray footprints c a b judge footprints' reports)
    (hann : AllAnnotatable lockPairArray footprints) : AllAnnotatable lockPairArray footprints' := by
  intro fp' hm
  obtain ⟨k, hk⟩ := List.mem_iff_getElem?.mp hm
  have hlt : k < footprints.length := h.length ▸ (List.getElem?_eq_some_iff.mp hk).1
  obtain ⟨fp'', hk', hf⟩ := h.faded (List.getElem?_eq_getElem hlt)
  obtain rfl : fp' = fp'' := by rw [hk] at hk'; exact Option.some.inj hk'
  exact (hann _ (List.getElem_mem hlt)).faded hf

theorem runCall_isSome (moves : Nat → Bool) (hann : AllAnnotatable lockPairArray footprints) (hi : c.i < footprints.length)
    (hj : c.j < footprints.length) : (runCall moves lockPairArray footprints c).isSome := by
  have hA := annotate_isSome moves (hann _ (List.getElem_mem hi))
  have hB := annotate_isSome moves (hann _ (List.getElem_mem hj))
  obtain ⟨arrA, hA⟩ := Option.isSome_iff_exists.mp hA
  obtain ⟨arrB, hB⟩ := Option.isSome_iff_exists.mp hB
  obtain ⟨judge, hj'⟩ : ∃ judge, judgeOf moves lockPairArray c.trackLocking footprints[c.i] footprints[c.j] =
      some judge := by
    rw [judgeOf]
    cases c.trackLocking with
    | false => exact ⟨_, rfl⟩
    | true => exact ⟨_, by rw [hA, hB]; rfl⟩
  simp [runCall, compareFuncs_eq, hi, hj, hj']

theorem runCalls_isSome (moves : Nat → Bool) (hann : AllAnnotatable lockPairArray footprints) {cs : List Call}
    (hcs : ∀ c ∈ cs, c.i < footprints.length ∧ c.j < footprints.length) :
    (runCalls moves lockPairArray footprints cs).isSome := by
  induction cs generalizing footprints with
  | nil => rfl
  | cons c cs ih =>
      obtain ⟨hi, hj⟩ := hcs c List.mem_cons_self
      obtain ⟨⟨footprints', reports⟩, hr⟩ := Option.isSome_iff_exists.mp (runCall_isSome moves hann hi hj)
      obtain ⟨a, b, judge, he⟩ := runCall_effect hr
      have hrest := ih (he.annotatable hann) fun d hd => he.length ▸ hcs d (List.mem_cons_of_mem _ hd)
      obtain ⟨rest, hrest⟩ := Option.isSome_iff_exists.mp hrest
      simp [runCalls, hr, hrest]

theorem mem_pairCalls {trackLocking : Bool} {size : Nat} {c : Call} :
    c ∈ pairCalls trackLocking size ↔ c.trackLocking = trackLocking ∧ c.i < size ∧ c.j < size := by
  simp only [pairCalls, List.mem_flatMap, List.mem_range, List.mem_filterMap]
  constructor
  · rintro ⟨i, hi, j, hj, h⟩
    split_ifs at h
    cases h
    exact ⟨rfl, hi, hj⟩
  · rintro ⟨rfl, hi, hj⟩
    exact ⟨c.i, hi, c.j, hj, by rw [dif_neg c.ne]⟩

theorem runCalls_append {cs ds : List Call} {reports : List Report}
    (h : runCalls moves lockPairArray footprints (cs ++ ds) = some (footprints', reports)) :
    ∃ mid rs rs', runCalls moves lockPairArray footprints cs = some (mid, rs) ∧
      runCalls moves lockPairArray mid ds = some (footprints', rs') ∧ reports = rs ++ rs' := by
  induction cs generalizing footprints reports with
  | nil => exact ⟨footprints, [], reports, rfl, h, rfl⟩
  | cons c cs ih =>
      simp only [List.cons_append, runCalls, Option.bind_eq_bind, Option.bind_eq_some_iff,
        Option.some.injEq, Prod.mk.injEq] at h
      obtain ⟨first, hf, rest, hr, rfl, rfl⟩ := h
      obtain ⟨mid, rs, rs', hm, hd, he⟩ := ih hr
      exact ⟨mid, first.2 ++ rs, rs', by simp [runCalls, hf, hm], hd, by rw [he, List.append_assoc]⟩

theorem runCalls_cons {cs : List Call}
    (h : runCalls moves lockPairArray footprints (c :: cs) = some (footprints', reports)) :
    ∃ mid rs rs', runCall moves lockPairArray footprints c = some (mid, rs) ∧
      runCalls moves lockPairArray mid cs = some (footprints', rs') ∧ reports = rs ++ rs' := by
  simp only [runCalls, Option.bind_eq_bind, Option.bind_eq_some_iff, Option.some.injEq, Prod.mk.injEq] at h
  obtain ⟨first, hf, rest, hr, rfl, rfl⟩ := h
  exact ⟨first.1, first.2, rest.2, hf, hr, rfl⟩

theorem runCalls_snoc {cs : List Call} {mid : List (List VarAccess)} {rs rs' : List Report}
    (h : runCalls moves lockPairArray footprints cs = some (mid, rs))
    (hc : runCall moves lockPairArray mid c = some (footprints', rs')) :
    runCalls moves lockPairArray footprints (cs ++ [c]) = some (footprints', rs ++ rs') := by
  induction cs generalizing footprints rs with
  | nil =>
      cases h
      simp [runCalls, hc]
  | cons d cs ih =>
      obtain ⟨next, ns, ns', hd, hr, rfl⟩ := runCalls_cons h
      simp [runCalls, hd, ih hr]

theorem runCalls_faded {cs : List Call}
    (h : runCalls moves lockPairArray footprints cs = some (footprints', reports)) {k : Nat}
    {fp : List VarAccess} (hk : footprints[k]? = some fp) :
    ∃ fp', footprints'[k]? = some fp' ∧ FadedFp fp fp' := by
  induction cs generalizing footprints reports fp with
  | nil =>
      cases h
      exact ⟨fp, hk, fadedFp_refl fp⟩
  | cons c cs ih =>
      obtain ⟨mid, rs, rs', hc, hr, -⟩ := runCalls_cons h
      obtain ⟨a, b, judge, he⟩ := runCall_effect hc
      obtain ⟨fp₁, hk₁, hf₁⟩ := he.faded hk
      obtain ⟨fp₂, hk₂, hf₂⟩ := ih hr hk₁
      exact ⟨fp₂, hk₂, hf₁.trans hf₂⟩

end Calls

end Prongc.Comparison
