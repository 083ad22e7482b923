import Mathlib.Data.List.NodupEquivFin
import Mathlib.Data.List.Permutation
import Prongc.ComparisonFrame
import Prongc.StraightLine

namespace Prongc.LoopVerdicts

open Access LockTracking Comparison PairReports ComparisonFrame LockRanges AnnotationRun LockReach LockVerdict LockPaths
  StraightLine Library.FirstFit Library.BranchMarkers

def onlyUsr (usr : String) (fp : List VarAccess) : List (Option VarAccess) :=
  fp.map fun va => if va.usr = some usr then some va else none

def AccessReports (reports : List Report) : Prop :=
  ∀ r ∈ reports, r.vaI.type.isAccess = true ∧ r.vaJ.type.isAccess = true

section Calls

variable {moves : Nat → Bool} {lockPairArray : List LockPrimitivePair} {trackLocking : Bool} {usr : String}
  {footprints footprints' : List (List VarAccess)} {c : Call} {a b : List VarAccess}
  {judge : Nat → Nat → Option ReportKind} {reports : List Report}

theorem onlyUsr_clearAt {is : List Nat} {fp : List VarAccess}
    (h : ∀ i ∈ is, ∀ va, fp[i]? = some va → va.usr ≠ some usr) :
    onlyUsr usr (clearAt VarAccess.nullify is fp) = onlyUsr usr fp := by
  apply List.ext_getElem?
  intro k
  rw [onlyUsr, onlyUsr, List.getElem?_map, List.getElem?_map, clearAt_getElem?]
  cases hk : fp[k]? with
  | none => rfl
  | some va =>
      rw [Option.map_some, Option.map_some]
      split
      next hcleared =>
        have hother : ¬ va.nullify.usr = some usr := h k hcleared va hk
        rw [if_neg hother, Option.map_some, if_neg (h k hcleared va hk)]
      next => rfl

theorem map_call {β : Type} (f : List VarAccess → β)
    (h : CallEffect moves lockPairArray footprints c a b judge footprints' reports)
    (hleft : f (clearAt VarAccess.nullify ((matched judge a b).map Prod.fst) a) = f a)
    (hright : f (clearAt VarAccess.nullify ((matched judge a b).map Prod.snd) b) = f b) :
    footprints'.map f = footprints.map f := by
  apply List.ext_getElem?
  intro k
  rw [List.getElem?_map, List.getElem?_map]
  by_cases hi : k = c.i
  · rw [hi, h.getElem_left, h.left, Option.map_some, Option.map_some, hleft]
  · by_cases hj : k = c.j
    · rw [hj, h.getElem_right, h.right, Option.map_some, Option.map_some, hright]
    · rw [h.getElem_other hi hj]

theorem unreported_only (h : CallEffect moves lockPairArray footprints c a b judge footprints' reports)
    (hnone : ¬ ∃ r ∈ reports, r.vaI.usr = some usr) :
    footprints'.map (onlyUsr usr) = footprints.map (onlyUsr usr) := by
  have hpair : ∀ p ∈ matched judge a b, ∀ va, (a[p.1]? = some va ∨ b[p.2]? = some va) → va.usr ≠ some usr := by
    intro p hp va hva husr
    obtain ⟨v, hv⟩ := verdictOf_of_mem_matched hp
    obtain ⟨hx, hy, -, -, hsame, -⟩ := verdictOf_eq_some.mp hv
    apply hnone
    refine ⟨_, h.mem_reports.mpr ⟨p, hp, v, hv, rfl⟩, ?_⟩
    rcases hva with hva | hva
    · obtain rfl := Option.some.inj (hx.symm.trans hva)
      exact husr
    · obtain rfl := Option.some.inj (hy.symm.trans hva)
      exact (usr_right hsame).trans husr
  apply map_call (onlyUsr usr) h
  · apply onlyUsr_clearAt
    intro i hi va hva
    obtain ⟨p, hp, rfl⟩ := List.mem_map.mp hi
    exact hpair p hp va (.inl hva)
  · apply onlyUsr_clearAt
    intro i hi va hva
    obtain ⟨p, hp, rfl⟩ := List.mem_map.mp hi
    exact hpair p hp va (.inr hva)

theorem accessReports_ranges (h : CallEffect moves lockPairArray footprints c a b judge footprints' reports)
    (haccess : AccessReports reports) :
    footprints'.map (annotateLockProtectionRanges moves lockPairArray) =
      footprints.map (annotateLockProtectionRanges moves lockPairArray) := by
  have hpair : ∀ p ∈ matched judge a b, ∀ va, (a[p.1]? = some va ∨ b[p.2]? = some va) → va.type.isAccess = true := by
    intro p hp va hva
    obtain ⟨v, hv⟩ := verdictOf_of_mem_matched hp
    obtain ⟨hx, hy, -⟩ := verdictOf_eq_some.mp hv
    have hr := haccess _ (h.mem_reports.mpr ⟨p, hp, v, hv, rfl⟩)
    rcases hva with hva | hva
    · exact Option.some.inj (hx.symm.trans hva) ▸ hr.1
    · exact Option.some.inj (hy.symm.trans hva) ▸ hr.2
  apply map_call (annotateLockProtectionRanges moves lockPairArray) h
  · apply annotate_congr
    apply forall₂_clearAt
    intro i hi va hva
    obtain ⟨p, hp, rfl⟩ := List.mem_map.mp hi
    exact hpair p hp va (.inl hva)
  · apply annotate_congr
    apply forall₂_clearAt
    intro i hi va hva
    obtain ⟨p, hp, rfl⟩ := List.mem_map.mp hi
    exact hpair p hp va (.inr hva)

theorem map_at {β : Type} {f : List VarAccess → β} (h : footprints.map f = footprints'.map f) {k : Nat}
    {fp fp' : List VarAccess} (hk : footprints[k]? = some fp) (hk' : footprints'[k]? = some fp') : f fp = f fp' := by
  have hat := congrArg (·[k]?) h
  rw [List.getElem?_map, List.getElem?_map, hk, hk', Option.map_some, Option.map_some] at hat
  exact Option.some.inj hat

theorem onlyUsr_at {fp fp' : List VarAccess} (h : onlyUsr usr fp = onlyUsr usr fp') {k : Nat} {va : VarAccess}
    (hk : fp[k]? = some va) (husr : va.usr = some usr) : fp'[k]? = some va := by
  have hat := congrArg (·[k]?) h
  rw [onlyUsr, onlyUsr, List.getElem?_map, List.getElem?_map, hk, Option.map_some, if_pos husr] at hat
  obtain ⟨va', hva', heq⟩ := Option.map_eq_some_iff.mp hat.symm
  split at heq
  next => rw [hva', heq]
  next => cases heq

end Calls

def LocksAgree (moves : Nat → Bool) (lockPairArray : List LockPrimitivePair) (built : List (List VarAccess)) : Prop :=
  ∀ (i j : Nat) a b, i ≠ j → built[i]? = some a → built[j]? = some b → ∀ va ∈ a ++ b,
    va.type = .lockAcquire ∨ va.type = .lockRelease → ∀ usr, va.usr = some usr →
      ¬ Judged moves lockPairArray true usr a b

/-- Entries have been nulled only, and the lock ranges are as built. -/
structure Intact (moves : Nat → Bool) (lockPairArray : List LockPrimitivePair) (trackLocking : Bool)
    (built now : List (List VarAccess)) : Prop where
  faded : List.Forall₂ FadedFp built now
  ranges : trackLocking = true → now.map (annotateLockProtectionRanges moves lockPairArray) =
    built.map (annotateLockProtectionRanges moves lockPairArray)

section Runs

variable {moves : Nat → Bool} {lockPairArray : List LockPrimitivePair} {trackLocking : Bool} {usr : String}
  {built now next : List (List VarAccess)} {c : Call} {a b a' b' : List VarAccess}
  {judge : Nat → Nat → Option ReportKind} {reports : List Report}

theorem intact_refl (moves : Nat → Bool) (lockPairArray : List LockPrimitivePair) (trackLocking : Bool)
    (built : List (List VarAccess)) : Intact moves lockPairArray trackLocking built built :=
  ⟨List.forall₂_same.mpr fun fp _ => fadedFp_refl fp, fun _ => rfl⟩

theorem Intact.judgeOf (h : Intact moves lockPairArray trackLocking built now) {i j : Nat}
    (ha : built[i]? = some a) (hb : built[j]? = some b) (ha' : now[i]? = some a') (hb' : now[j]? = some b') :
    judgeOf moves lockPairArray trackLocking a' b' = judgeOf moves lockPairArray trackLocking a b := by
  rw [Comparison.judgeOf, Comparison.judgeOf]
  split
  next htrack => rw [map_at (h.ranges htrack) ha' ha, map_at (h.ranges htrack) hb' hb]
  next => rfl

theorem Intact.built_at (h : Intact moves lockPairArray trackLocking built now) {k : Nat} (hk : now[k]? = some a') :
    ∃ a, built[k]? = some a ∧ FadedFp a a' := by
  have hlt : k < built.length := h.faded.length_eq ▸ (List.getElem?_eq_some_iff.mp hk).1
  exact ⟨_, List.getElem?_eq_getElem hlt, getElem?_of_forall₂ h.faded (List.getElem?_eq_getElem hlt) hk⟩

theorem Intact.verdict (h : FadedFp a a') (h' : FadedFp b b') {p : Nat × Nat}
    {v : VarAccess × VarAccess × ReportKind} (hv : verdictOf judge a' b' p = some v) :
    verdictOf judge a b p = some v := by
  obtain ⟨hx, hy, hlx, hly, hsame, hkind⟩ := verdictOf_eq_some.mp hv
  obtain ⟨x, hx', hfx⟩ := h.getElem? hx
  obtain ⟨y, hy', hfy⟩ := h'.getElem? hy
  rw [← hfx.eq_of_live hlx] at hx'
  rw [← hfy.eq_of_live hly] at hy'
  exact verdictOf_eq_some.mpr ⟨hx', hy', hlx, hly, hsame, hkind⟩

def JudgedBuilt (moves : Nat → Bool) (lockPairArray : List LockPrimitivePair) (trackLocking : Bool)
    (built : List (List VarAccess)) (r : Report) : Prop :=
  r.funcI ≠ r.funcJ ∧ ∃ a b judge p, built[r.funcI]? = some a ∧ built[r.funcJ]? = some b ∧
    Comparison.judgeOf moves lockPairArray trackLocking a b = some judge ∧
      verdictOf judge a b p = some (r.vaI, r.vaJ, r.kind)

theorem Intact.reports_judged (h : Intact moves lockPairArray c.trackLocking built now)
    (heffect : CallEffect moves lockPairArray now c a' b' judge next reports) :
    ∀ r ∈ reports, JudgedBuilt moves lockPairArray c.trackLocking built r := by
  intro r hr
  obtain ⟨p, -, v, hv, rfl⟩ := heffect.mem_reports.mp hr
  obtain ⟨a, ha, hfa⟩ := h.built_at heffect.left
  obtain ⟨b, hb, hfb⟩ := h.built_at heffect.right
  have hjudged := h.judgeOf ha hb heffect.left heffect.right
  rw [heffect.judged] at hjudged
  exact ⟨c.ne, a, b, judge, p, ha, hb, hjudged.symm, Intact.verdict hfa hfb hv⟩

theorem JudgedBuilt.access {r : Report} (hlocks : LocksAgree moves lockPairArray built)
    (h : JudgedBuilt moves lockPairArray true built r) : r.vaI.type.isAccess = true ∧ r.vaJ.type.isAccess = true := by
  obtain ⟨hne, a, b, judge, p, ha, hb, hjudge, hv⟩ := h
  obtain ⟨hx, hy, hlx, hly, hsame, -⟩ := verdictOf_eq_some.mp hv
  obtain ⟨u, hux, huy⟩ := (equalVarAccesses_iff _ _).mp hsame
  have hjudged : Judged moves lockPairArray true u a b := ⟨judge, hjudge, p, _, hv, hux⟩
  constructor
  · apply ((VarAccess.live_iff r.vaI).mp hlx).resolve_right
    intro hlock
    exact hlocks _ _ a b hne ha hb r.vaI (List.mem_append_left _ (List.mem_of_getElem? hx)) hlock u hux hjudged
  · apply ((VarAccess.live_iff r.vaJ).mp hly).resolve_right
    intro hlock
    exact hlocks _ _ a b hne ha hb r.vaJ (List.mem_append_right _ (List.mem_of_getElem? hy)) hlock u huy hjudged

theorem Intact.call (h : Intact moves lockPairArray c.trackLocking built now)
    (heffect : CallEffect moves lockPairArray now c a' b' judge next reports)
    (hlocks : c.trackLocking = true → LocksAgree moves lockPairArray built) :
    Intact moves lockPairArray c.trackLocking built next := by
  refine ⟨?_, ?_⟩
  · refine forall₂_of_getElem? (h.faded.length_eq.trans heffect.length.symm) ?_
    intro k fp fp' hk hk'
    have hlt : k < now.length := heffect.length ▸ (List.getElem?_eq_some_iff.mp hk').1
    have hmid := List.getElem?_eq_getElem hlt
    obtain ⟨fp'', hk'', hfade⟩ := heffect.faded hmid
    obtain rfl := Option.some.inj (hk'.symm.trans hk'')
    exact (getElem?_of_forall₂ h.faded hk hmid).trans hfade
  · intro htrack
    rw [← h.ranges htrack]
    apply accessReports_ranges heffect
    intro r hr
    have hjudged := h.reports_judged heffect r hr
    rw [htrack] at hjudged
    exact hjudged.access (hlocks htrack)

theorem run_judgedBuilt {cs : List Call} (hmode : ∀ c ∈ cs, c.trackLocking = trackLocking)
    (hlocks : trackLocking = true → LocksAgree moves lockPairArray built)
    (h : Intact moves lockPairArray trackLocking built now)
    (hrun : runCalls moves lockPairArray now cs = some (next, reports)) :
    ∀ r ∈ reports, JudgedBuilt moves lockPairArray trackLocking built r := by
  induction cs generalizing now reports with
  | nil =>
      cases hrun
      intro r hr
      cases hr
  | cons c cs ih =>
      obtain ⟨mid, rs, rest, hcall, hrest, rfl⟩ := runCalls_cons hrun
      obtain ⟨a, b, judge, heffect⟩ := runCall_effect hcall
      obtain rfl := hmode c List.mem_cons_self
      have hlater := ih (fun d hd => hmode d (List.mem_cons_of_mem _ hd)) (h.call heffect hlocks) hrest
      intro r hr
      exact (List.mem_append.mp hr).elim (h.reports_judged heffect r) (hlater r)

/-- While a variable has not been reported its entries are as built, and so are the verdicts on them. -/
theorem Intact.judged (h : Intact moves lockPairArray trackLocking built now)
    (honly : now.map (onlyUsr usr) = built.map (onlyUsr usr)) {i j : Nat} (ha : built[i]? = some a)
    (hb : built[j]? = some b) (ha' : now[i]? = some a') (hb' : now[j]? = some b')
    (hjudged : Judged moves lockPairArray trackLocking usr a b) :
    Judged moves lockPairArray trackLocking usr a' b' := by
  obtain ⟨judge, hjudge, p, r, hr, husr⟩ := hjudged
  obtain ⟨hx, hy, hlx, hly, hsame, hkind⟩ := verdictOf_eq_some.mp hr
  have hx' := onlyUsr_at (map_at honly.symm ha ha') hx husr
  have hy' := onlyUsr_at (map_at honly.symm hb hb') hy ((usr_right hsame).symm.trans husr)
  refine ⟨judge, ?_, p, r, verdictOf_eq_some.mpr ⟨hx', hy', hlx, hly, hsame, hkind⟩, husr⟩
  rw [h.judgeOf ha hb ha' hb', hjudge]

/-- A variable is reported if one of the calls is made on two functions that are judged so as built. -/
theorem run_reports {cs : List Call} (hmode : ∀ c ∈ cs, c.trackLocking = trackLocking)
    (hlocks : trackLocking = true → LocksAgree moves lockPairArray built)
    (h : Intact moves lockPairArray trackLocking built now)
    (honly : now.map (onlyUsr usr) = built.map (onlyUsr usr))
    (hrun : runCalls moves lockPairArray now cs = some (next, reports)) (hc : c ∈ cs)
    (ha : built[c.i]? = some a) (hb : built[c.j]? = some b)
    (hjudged : Judged moves lockPairArray trackLocking usr a b) : ∃ r ∈ reports, r.vaI.usr = some usr := by
  induction cs generalizing now reports with
  | nil => cases hc
  | cons d cs ih =>
      obtain ⟨mid, rs, rest, hcall, hrest, rfl⟩ := runCalls_cons hrun
      obtain ⟨a', b', judge, heffect⟩ := runCall_effect hcall
      obtain rfl := hmode d List.mem_cons_self
      by_cases hnone : ∃ r ∈ rs, r.vaI.usr = some usr
      · obtain ⟨r, hr, husr⟩ := hnone
        exact ⟨r, List.mem_append_left _ hr, husr⟩
      · have hlater : c ∈ cs := by
          refine (List.mem_cons.mp hc).resolve_left ?_
          rintro rfl
          apply hnone
          rw [call_reports_iff heffect]
          exact h.judged honly ha hb heffect.left heffect.right hjudged
        obtain ⟨r, hr, husr⟩ := ih (fun e he => hmode e (List.mem_cons_of_mem _ he)) (h.call heffect hlocks)
          ((unreported_only heffect hnone).trans honly) hrest hlater
        exact ⟨r, List.mem_append_right _ hr, husr⟩

def SharedBadly (moves : Nat → Bool) (lockPairArray : List LockPrimitivePair) (trackLocking : Bool) (usr : String)
    (built : List (List VarAccess)) : Prop :=
  ∃ (i j : Nat) (a b : List VarAccess), i ≠ j ∧ built[i]? = some a ∧ built[j]? = some b ∧
    Judged moves lockPairArray trackLocking usr a b

theorem loop_reports_iff (hlocks : trackLocking = true → LocksAgree moves lockPairArray built)
    (hrun : compareAllFuncs moves lockPairArray trackLocking built = some (next, reports)) :
    (∃ r ∈ reports, r.vaI.usr = some usr) ↔ SharedBadly moves lockPairArray trackLocking usr built := by
  have hmode : ∀ c ∈ pairCalls trackLocking built.length, c.trackLocking = trackLocking :=
    fun c hc => (mem_pairCalls.mp hc).1
  constructor
  · rintro ⟨r, hr, husr⟩
    obtain ⟨hne, a, b, judge, p, ha, hb, hjudge, hv⟩ := run_judgedBuilt hmode hlocks (intact_refl ..) hrun r hr
    exact ⟨_, _, a, b, hne, ha, hb, judge, hjudge, p, _, hv, husr⟩
  · rintro ⟨i, j, a, b, hne, ha, hb, hjudged⟩
    have hi := (List.getElem?_eq_some_iff.mp ha).1
    have hj := (List.getElem?_eq_some_iff.mp hb).1
    have hcall : (⟨trackLocking, i, j, hne⟩ : Call) ∈ pairCalls trackLocking built.length :=
      mem_pairCalls.mpr ⟨rfl, hi, hj⟩
    exact run_reports hmode hlocks (intact_refl ..) rfl hrun hcall ha hb hjudged

end Runs

section Entries

variable {moves : Nat → Bool} {lockPairArray : List LockPrimitivePair} {usr : String} {fp fpA fpB : List VarAccess}
  {built : List (List VarAccess)}

/-- The footprints that the annotation is made for, none of its stores lost. -/
structure Readable (moves : Nat → Bool) (lockPairArray : List LockPrimitivePair) (fp : List VarAccess) : Prop where
  wellFormed : WellFormed lockPairArray fp
  steady : Steady moves lockPairArray fp

theorem Readable.annotatable (h : Readable moves lockPairArray fp) : Annotatable lockPairArray fp := by
  refine ⟨h.wellFormed.acquire, h.wellFormed.release, ?_⟩
  intro k va hk hty
  obtain ⟨hlt, rfl⟩ := List.getElem?_eq_some_iff.mp hk
  have hsplit : fp = fp.take k ++ fp[k] :: fp.drop (k + 1) := by
    rw [← List.drop_eq_getElem_cons hlt, List.take_append_drop]
  have hstart := startOfBranch_isSome h.wellFormed.bracketed hsplit hty
  rwa [List.length_take_of_le (Nat.le_of_lt hlt)] at hstart

theorem Readable.annotated (h : Readable moves lockPairArray fp) :
    ∃ arr, annotateLockProtectionRanges moves lockPairArray fp = some arr ∧
      annotateLockProtectionRanges inPlace lockPairArray fp = some arr := by
  obtain ⟨arr, -, harr, -⟩ := annotate_view (k := fp.length) h.wellFormed (fun va hva => by simp at hva)
  exact ⟨arr, h.steady.trans harr, harr⟩

theorem readable_of_noBranches (h : NoBranches fp) (hnamed : NamedLocks lockPairArray fp) :
    Readable moves lockPairArray fp :=
  ⟨wellFormed_of_noBranches h hnamed, annotate_moves h⟩

def Locks (usr : String) (fp : List VarAccess) : Prop :=
  ∃ va ∈ fp, (va.type = .lockAcquire ∨ va.type = .lockRelease) ∧ va.usr = some usr

/-- Two accesses to the variable that the acquisitions reaching them do not protect. -/
def Unprotected (usr : String) (fpA fpB : List VarAccess) : Prop :=
  ∃ (k l : Nat) (x y : VarAccess), fpA[k]? = some x ∧ fpB[l]? = some y ∧ x.type.isAccess = true ∧
    y.type.isAccess = true ∧ x.usr = some usr ∧ y.usr = some usr ∧ ¬ Unflagged fpA fpB k l

theorem judged_iff_unprotected (hA : Readable moves lockPairArray fpA) (hB : Readable moves lockPairArray fpB)
    (hlA : ¬ Locks usr fpA) (hlB : ¬ Locks usr fpB) :
    Judged moves lockPairArray true usr fpA fpB ↔ Unprotected usr fpA fpB := by
  obtain ⟨arrA, hmA, harrA⟩ := hA.annotated
  obtain ⟨arrB, hmB, harrB⟩ := hB.annotated
  have hjudge : judgeOf moves lockPairArray true fpA fpB = some (protectionReport arrA arrB) := by
    rw [judgeOf, if_pos rfl, hmA, hmB]
    rfl
  have haccess : ∀ {fp : List VarAccess} {k : Nat} {va : VarAccess}, ¬ Locks usr fp → fp[k]? = some va →
      va.usr = some usr → va.live = true → va.type.isAccess = true := by
    intro fp k va hlocks hk husr hlive
    apply ((VarAccess.live_iff va).mp hlive).resolve_right
    intro hlock
    exact hlocks ⟨va, List.mem_of_getElem? hk, hlock, husr⟩
  have hverdict : ∀ {k l : Nat} {x y : VarAccess}, fpA[k]? = some x → fpB[l]? = some y → x.type.isAccess = true →
      y.type.isAccess = true → ((protectionReport arrA arrB k l).isSome = true ↔ ¬ Unflagged fpA fpB k l) := by
    intro k l x y hx hy hax hay
    rw [protectionReport_isSome, Unflagged, ← badProtection_iff hA.wellFormed hB.wellFormed (length_of_getElem? hx)
      (length_of_getElem? hy) (isAccess_of_getElem? hx hax) (isAccess_of_getElem? hy hay) harrA harrB,
      Bool.not_eq_false]
  constructor
  · rintro ⟨judge, hj, p, v, hv, husr⟩
    obtain rfl := Option.some.inj (hjudge.symm.trans hj)
    obtain ⟨hx, hy, hlx, hly, hsame, hkind⟩ := verdictOf_eq_some.mp hv
    have husr' := (usr_right hsame).symm.trans husr
    have hax := haccess hlA hx husr hlx
    have hay := haccess hlB hy husr' hly
    refine ⟨p.1, p.2, v.1, v.2.1, hx, hy, hax, hay, husr, husr', ?_⟩
    rw [← hverdict hx hy hax hay, hkind]
    rfl
  · rintro ⟨k, l, x, y, hx, hy, hax, hay, hux, huy, hflagged⟩
    obtain ⟨kind, hkind⟩ := Option.isSome_iff_exists.mp ((hverdict hx hy hax hay).mpr hflagged)
    refine ⟨_, hjudge, (k, l), (x, y, kind), ?_, hux⟩
    exact verdictOf_eq_some.mpr ⟨hx, hy, VarAccess.live_of_isAccess hax, VarAccess.live_of_isAccess hay,
      (equalVarAccesses_iff x y).mpr ⟨usr, hux, huy⟩, hkind⟩

end Entries

section Checks

variable {moves : Nat → Bool} {lockPairArray : List LockPrimitivePair} {usr : String} {a b : List VarAccess}
  {built : List (List VarAccess)}

theorem judged_iff_any {trackLocking : Bool} : Judged moves lockPairArray trackLocking usr a b ↔
    ((judgeOf moves lockPairArray trackLocking a b).any fun judge =>
      (indexPairs a.length b.length).any fun p => (verdictOf judge a b p).any (·.1.usr == some usr)) = true := by
  simp only [Option.any_eq_true, List.any_eq_true, beq_iff_eq]
  constructor
  · rintro ⟨judge, hjudge, p, r, hr, husr⟩
    obtain ⟨hx, hy, -⟩ := verdictOf_eq_some.mp hr
    exact ⟨judge, hjudge, p, mem_indexPairs.mpr ⟨length_of_getElem? hx, length_of_getElem? hy⟩, r, hr, husr⟩
  · rintro ⟨judge, hjudge, p, -, r, hr, husr⟩
    exact ⟨judge, hjudge, p, r, hr, husr⟩

instance (trackLocking : Bool) : Decidable (Judged moves lockPairArray trackLocking usr a b) :=
  decidable_of_iff' _ judged_iff_any

theorem locksAgree_of_mem (h : ∀ a ∈ built, ∀ b ∈ built, ∀ va ∈ a ++ b,
    va.type = .lockAcquire ∨ va.type = .lockRelease → ∀ usr ∈ va.usr, ¬ Judged moves lockPairArray true usr a b) :
    LocksAgree moves lockPairArray built := by
  intro i j a b _ ha hb va hva hlock usr husr
  exact h a (List.mem_of_getElem? ha) b (List.mem_of_getElem? hb) va hva hlock usr husr

end Checks

/-- Two functions that write x under the lock m, and one that writes it without. -/
def lockedTwice : List (List VarAccess) := [flatten singleLock, flatten singleLock, [writeOf "x"]]

theorem lockedTwice_readable : ∀ fp ∈ lockedTwice, Readable (fun _ => true) defaultLockPairs fp := by
  intro fp hfp
  apply readable_of_noBranches
  · revert fp
    decide
  · constructor
    · revert fp
      decide +kernel
    · revert fp
      decide +kernel

theorem lockedTwice_agree : LocksAgree (fun _ => true) defaultLockPairs lockedTwice :=
  locksAgree_of_mem (by decide +kernel)

/-- Where no lock object itself is shared badly, the double loop with lock tracking comes to its end, reports only
pairs that are judged so on the footprints as built, and reports a variable exactly if two functions as built
share it badly: no report of one pair hides a variable or makes up one. -/
theorem tracked_loop_verdicts (moves : Nat → Bool) {lockPairArray : List LockPrimitivePair}
    {built : List (List VarAccess)} (hann : AllAnnotatable lockPairArray built)
    (hlocks : LocksAgree moves lockPairArray built) :
    ∃ left reports, compareAllFuncs moves lockPairArray true built = some (left, reports) ∧
      (∀ r ∈ reports, JudgedBuilt moves lockPairArray true built r) ∧
      ∀ usr, (∃ r ∈ reports, r.vaI.usr = some usr) ↔ SharedBadly moves lockPairArray true usr built := by
  have hcalls : ∀ c ∈ pairCalls true built.length, c.trackLocking = true ∧ c.i < built.length ∧ c.j < built.length :=
    fun c hc => mem_pairCalls.mp hc
  have hdefined := runCalls_isSome moves hann fun c hc => (hcalls c hc).2
  obtain ⟨⟨left, reports⟩, hrun⟩ := Option.isSome_iff_exists.mp hdefined
  refine ⟨left, reports, hrun, ?_, fun usr => loop_reports_iff (fun _ => hlocks) hrun⟩
  exact run_judgedBuilt (fun c hc => (hcalls c hc).1) (fun _ => hlocks) (intact_refl ..) hrun

theorem lockedTwice_verdicts :
    ∃ left reports, compareAllFuncs (fun _ => true) defaultLockPairs true lockedTwice = some (left, reports) ∧
      (∀ r ∈ reports, JudgedBuilt (fun _ => true) defaultLockPairs true lockedTwice r) ∧
      ∀ usr, (∃ r ∈ reports, r.vaI.usr = some usr) ↔
        SharedBadly (fun _ => true) defaultLockPairs true usr lockedTwice :=
  tracked_loop_verdicts _ (fun fp hfp => (lockedTwice_readable fp hfp).annotatable) lockedTwice_agree

/-- Two elements at different places, in either order. -/
theorem pair_subperm_iff {α : Type} {l : List α} {a b : α} :
    [a, b].Subperm l ↔ ∃ i j : Nat, i ≠ j ∧ l[i]? = some a ∧ l[j]? = some b := by
  constructor
  · rintro ⟨l', hperm, hsub⟩
    obtain ⟨f, hf⟩ := List.sublist_iff_exists_orderEmbedding_getElem?_eq.mp hsub
    have hfirst := hf 0
    have hsecond := hf 1
    rcases List.perm_pair.mp hperm with rfl | rfl
    · exact ⟨f 0, f 1, f.injective.ne Nat.zero_ne_one, hfirst.symm, hsecond.symm⟩
    · exact ⟨f 1, f 0, f.injective.ne Nat.one_ne_zero, hsecond.symm, hfirst.symm⟩
  · have hsub : ∀ {i j : Nat} {x y : α}, i < j → l[i]? = some x → l[j]? = some y → [x, y].Sublist l := by
      intro i j x y hlt hx hy
      have hbefore : x ∈ l.take j := List.mem_of_getElem? (i := i) (by rw [List.getElem?_take, if_pos hlt, hx])
      have hbehind : y ∈ l.drop j := List.mem_of_getElem? (i := 0) (by rw [List.getElem?_drop, Nat.add_zero, hy])
      have happend := (List.singleton_sublist.mpr hbefore).append (List.singleton_sublist.mpr hbehind)
      rwa [List.take_append_drop] at happend
    rintro ⟨i, j, hne, ha, hb⟩
    rcases Nat.lt_or_gt_of_ne hne with hlt | hlt
    · exact (hsub hlt ha hb).subperm
    · exact ⟨[b, a], List.Perm.swap a b [], hsub hlt hb ha⟩

theorem LocksAgree.subperm {moves : Nat → Bool} {lockPairArray : List LockPrimitivePair}
    {few all : List (List VarAccess)} (hsub : few.Subperm all) (h : LocksAgree moves lockPairArray all) :
    LocksAgree moves lockPairArray few := by
  intro i j a b hne ha hb
  obtain ⟨i', j', hne', ha', hb'⟩ := pair_subperm_iff.mp ((pair_subperm_iff.mpr ⟨i, j, hne, ha, hb⟩).trans hsub)
  exact h i' j' a b hne' ha' hb'

theorem SharedBadly.subperm {moves : Nat → Bool} {lockPairArray : List LockPrimitivePair} {trackLocking : Bool}
    {usr : String} {few all : List (List VarAccess)} (hsub : few.Subperm all)
    (h : SharedBadly moves lockPairArray trackLocking usr few) :
    SharedBadly moves lockPairArray trackLocking usr all := by
  obtain ⟨i, j, a, b, hne, ha, hb, hjudged⟩ := h
  obtain ⟨i', j', hne', ha', hb'⟩ := pair_subperm_iff.mp ((pair_subperm_iff.mpr ⟨i, j, hne, ha, hb⟩).trans hsub)
  exact ⟨i', j', a, b, hne', ha', hb', hjudged⟩

/-- More footprints never hide a variable: what the double loop reports for some footprints it reports for these and
others, whatever the order of both is. -/
theorem more_footprints_report (moves : Nat → Bool) (lockPairArray : List LockPrimitivePair) (trackLocking : Bool)
    {few all few' all' : List (List VarAccess)} {reports reports' : List Report} (hsub : few.Subperm all)
    (hlocks : trackLocking = true → LocksAgree moves lockPairArray all)
    (hfew : compareAllFuncs moves lockPairArray trackLocking few = some (few', reports))
    (hall : compareAllFuncs moves lockPairArray trackLocking all = some (all', reports')) (usr : String)
    (hreported : ∃ r ∈ reports, r.vaI.usr = some usr) : ∃ r ∈ reports', r.vaI.usr = some usr := by
  rw [loop_reports_iff (fun htrack => (hlocks htrack).subperm hsub) hfew] at hreported
  exact (loop_reports_iff hlocks hall).mpr (hreported.subperm hsub)

/-- x is reported for the last and the first of the footprints, so it is for all of them. -/
theorem lockedTwice_reports :
    ∃ left reports, compareAllFuncs (fun _ => true) defaultLockPairs true lockedTwice = some (left, reports) ∧
      ∃ r ∈ reports, r.vaI.usr = some "x" := by
  have hfew : (compareAllFuncs (fun _ => true) defaultLockPairs true [[writeOf "x"], flatten singleLock]).any
      (fun result => result.2.any fun r => r.vaI.usr == some "x") = true := by decide +kernel
  have hall : (compareAllFuncs (fun _ => true) defaultLockPairs true lockedTwice).isSome = true := by decide +kernel
  obtain ⟨⟨few', reports⟩, hfew, hreported⟩ := (Option.any_eq_true _ _).mp hfew
  obtain ⟨⟨all', reports'⟩, hall⟩ := Option.isSome_iff_exists.mp hall
  obtain ⟨r, hr, husr⟩ := List.any_eq_true.mp hreported
  refine ⟨all', reports', hall, ?_⟩
  exact more_footprints_report _ _ true (by decide) (fun _ => lockedTwice_agree) hfew hall "x"
    ⟨r, hr, beq_iff_eq.mp husr⟩

/-- What the double loop with lock tracking reports, from the entries alone: a variable is reported exactly if two
different functions access it at places that the acquisitions reaching them do not protect. -/
theorem loop_unprotected {moves : Nat → Bool} {lockPairArray : List LockPrimitivePair} {built : List (List VarAccess)}
    (hreadable : ∀ fp ∈ built, Readable moves lockPairArray fp)
    (hlocks : LocksAgree moves lockPairArray built) :
    ∃ left reports, compareAllFuncs moves lockPairArray true built = some (left, reports) ∧
      ∀ usr, (∀ fp ∈ built, ¬ Locks usr fp) →
        ((∃ r ∈ reports, r.vaI.usr = some usr) ↔
          ∃ (i j : Nat) (a b : List VarAccess), i ≠ j ∧ built[i]? = some a ∧ built[j]? = some b ∧
            Unprotected usr a b) := by
  have hcalls : ∀ c ∈ pairCalls true built.length, c.i < built.length ∧ c.j < built.length :=
    fun c hc => (mem_pairCalls.mp hc).2
  have hdefined := runCalls_isSome moves (fun fp hfp => (hreadable fp hfp).annotatable) hcalls
  obtain ⟨⟨left, reports⟩, hrun⟩ := Option.isSome_iff_exists.mp hdefined
  refine ⟨left, reports, hrun, ?_⟩
  intro usr hvariable
  rw [loop_reports_iff (fun _ => hlocks) hrun, SharedBadly]
  have hiff : ∀ {i j : Nat} {a b : List VarAccess}, built[i]? = some a → built[j]? = some b →
      (Judged moves lockPairArray true usr a b ↔ Unprotected usr a b) := by
    intro i j a b ha hb
    have hma := List.mem_of_getElem? ha
    have hmb := List.mem_of_getElem? hb
    exact judged_iff_unprotected (hreadable a hma) (hreadable b hmb) (hvariable a hma) (hvariable b hmb)
  constructor
  · rintro ⟨i, j, a, b, hne, ha, hb, hjudged⟩
    exact ⟨i, j, a, b, hne, ha, hb, (hiff ha hb).mp hjudged⟩
  · rintro ⟨i, j, a, b, hne, ha, hb, hunprotected⟩
    exact ⟨i, j, a, b, hne, ha, hb, (hiff ha hb).mpr hunprotected⟩

end Prongc.LoopVerdicts
