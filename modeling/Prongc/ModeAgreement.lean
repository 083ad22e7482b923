import Prongc.MarkerErasure
import Prongc.VariableIsolation

namespace Prongc.ModeAgreement

open Access Ast LockTracking Comparison WalkFunc WalkAst Unwind TraceNames FootprintBrackets MarkerErasure
  VariableIsolation

def LockFree (fp : List VarAccess) : Prop := ∀ va ∈ fp, va.type ≠ .lockAcquire

def AtMostOneLocks (footprints : List (List VarAccess)) : Prop :=
  ∀ (i j : Nat) a b, i ≠ j → footprints[i]? = some a → footprints[j]? = some b → LockFree a ∨ LockFree b

def untracked (c : Call) : Call := { c with trackLocking := false }

def asOverlap (r : Report) : Report := { r with kind := .variableOverlap }

section Comparisons

variable {moves : Nat → Bool} {lockPairArray : List LockPrimitivePair} {footprints : List (List VarAccess)}

theorem annotateAt_empty {fp : List VarAccess} {st st' : ProtectionFieldArray × Nat} {va : VarAccess} {i : Nat}
    (hfree : va.type ≠ .lockAcquire) (hempty : st.1.lpFields = [])
    (h : annotateAt moves lockPairArray fp st (va, i) = some st') : st'.1.lpFields = [] := by
  obtain ⟨⟨fields, capacity⟩, depth⟩ := st
  obtain rfl : fields = [] := hempty
  rw [annotateAt] at h
  cases htype : va.type with
  | lockAcquire => exact absurd htype hfree
  | lockRelease =>
      cases husr : va.usr with
      | none => simp [htype, husr] at h
      | some usr =>
          simp only [htype, husr, Option.bind_eq_bind, Option.bind_some, Option.some.injEq] at h
          rw [← h]
          rfl
  | ifStmt =>
      cases hstart : startOfBranch fp i with
      | none => simp [htype, hstart] at h
      | some start =>
          simp only [htype, hstart, Option.bind_eq_bind, Option.bind_some, Option.some.injEq] at h
          rw [← h]
          rfl
  | elseStmt =>
      simp only [htype, Option.some.injEq] at h
      rw [← h]
      rfl
  | _ =>
      simp only [htype, Option.some.injEq] at h
      rw [← h]

theorem annotate_lockFree {fp : List VarAccess} {arr : ProtectionFieldArray} (hfree : LockFree fp)
    (h : annotateLockProtectionRanges moves lockPairArray fp = some arr) : arr.lpFields = [] := by
  have hfold : ∀ (l : List (VarAccess × Nat)) (st : ProtectionFieldArray × Nat), (∀ x ∈ l, x.1.type ≠ .lockAcquire) →
      st.1.lpFields = [] → ∀ st', l.foldlM (annotateAt moves lockPairArray fp) st = some st' →
        st'.1.lpFields = [] := by
    intro l
    induction l with
    | nil =>
        intro st _ hst st' h
        obtain rfl := Option.some.inj h
        exact hst
    | cons x l ih =>
        intro st hl hst st' h
        obtain ⟨hx, hl⟩ := List.forall_mem_cons.mp hl
        rw [List.foldlM_cons] at h
        obtain ⟨next, hnext, h⟩ := Option.bind_eq_some_iff.mp h
        exact ih next hl (annotateAt_empty hx hst hnext) st' h
  obtain ⟨st, hst, rfl⟩ := Option.map_eq_some_iff.mp h
  refine hfold _ _ ?_ rfl st hst
  intro x hx
  exact hfree x.1 (List.mem_of_getElem? (List.mem_zipIdx_iff_getElem?.mp hx))

theorem protectionReport_unlocked {arrA arrB : ProtectionFieldArray}
    (h : arrA.lpFields = [] ∨ arrB.lpFields = []) (i j : Nat) :
    protectionReport arrA arrB i j = some .unprotectedShared := by
  have hbad : badProtection arrA arrB i j = true := by
    rw [badProtection]
    rcases h with h | h <;> simp [h]
  have hquality : matchingProtectionFieldArrays arrA arrB i j ≠ .sharedUncertain := by
    have hnone : ∀ (arr : ProtectionFieldArray) (k : Nat), arr.lpFields = [] → getLpFieldsInRange arr k = [] := by
      intro arr k harr
      rw [getLpFieldsInRange, harr]
      rfl
    rw [matchingProtectionFieldArrays]
    rcases h with h | h
    · rw [hnone arrA i h]
      split
      next => simp
      next => simp [matchActiveProtections]
    · rw [hnone arrB j h]
      split
      next => simp
      next hlen =>
        rw [List.length_nil, ne_eq, Decidable.not_not, List.length_eq_zero_iff] at hlen
        simp [hlen, matchActiveProtections]
  rw [protectionReport, if_pos hbad]
  cases hcase : matchingProtectionFieldArrays arrA arrB i j with
  | sharedUncertain => exact absurd hcase hquality
  | _ => rfl

theorem judgeOf_unlocked {a b : List VarAccess} {judge : Nat → Nat → Option ReportKind}
    (h : LockFree a ∨ LockFree b) (hjudge : judgeOf moves lockPairArray true a b = some judge) (i j : Nat) :
    judge i j = some .unprotectedShared := by
  rw [judgeOf, if_pos rfl] at hjudge
  obtain ⟨arrA, ha, hjudge⟩ := Option.bind_eq_some_iff.mp hjudge
  obtain ⟨arrB, hb, hjudge⟩ := Option.bind_eq_some_iff.mp hjudge
  rw [← Option.some.inj hjudge]
  exact protectionReport_unlocked (h.imp (annotate_lockFree · ha) (annotate_lockFree · hb)) i j

theorem LockFree.faded {fp fp' : List VarAccess} (h : LockFree fp) (hfaded : FadedFp fp fp') : LockFree fp' := by
  intro va' hva'
  obtain ⟨k, hk⟩ := List.mem_iff_getElem?.mp hva'
  obtain ⟨va, hva, hfade⟩ := hfaded.getElem? hk
  rcases hfade with rfl | ⟨-, rfl⟩
  · exact h va' (List.mem_of_getElem? hva)
  · simp

theorem AtMostOneLocks.after {footprints' : List (List VarAccess)} {c : Call} {a b : List VarAccess}
    {judge : Nat → Nat → Option ReportKind} {reports : List Report} (h : AtMostOneLocks footprints)
    (heffect : CallEffect moves lockPairArray footprints c a b judge footprints' reports) :
    AtMostOneLocks footprints' := by
  have hbefore : ∀ {k : Nat} {fp' : List VarAccess}, footprints'[k]? = some fp' →
      ∃ fp, footprints[k]? = some fp ∧ FadedFp fp fp' := by
    intro k fp' hk
    have hlt : k < footprints.length := heffect.length ▸ (List.getElem?_eq_some_iff.mp hk).1
    obtain ⟨fp'', hk', hfaded⟩ := heffect.faded (List.getElem?_eq_getElem hlt)
    obtain rfl := Option.some.inj (hk.symm.trans hk')
    exact ⟨_, List.getElem?_eq_getElem hlt, hfaded⟩
  intro i j x y hij hx hy
  obtain ⟨x₀, hx₀, hfadedX⟩ := hbefore hx
  obtain ⟨y₀, hy₀, hfadedY⟩ := hbefore hy
  exact (h i j x₀ y₀ hij hx₀ hy₀).imp (LockFree.faded · hfadedX) (LockFree.faded · hfadedY)

/-- Where no two functions acquire locks, comparisons that track them report what plain comparisons do. -/
theorem runCalls_untracked (usrs : Option String → Bool) (hlocks : AtMostOneLocks footprints) {cs : List Call}
    (htrack : ∀ c ∈ cs, c.trackLocking = true) {result : List (List VarAccess) × List Report}
    (h : runCalls moves lockPairArray footprints cs = some result) :
    runCalls moves lockPairArray (footprints.map (List.filter (ofUsrs usrs))) (cs.map untracked) =
        some (thin usrs (fun _ => .variableOverlap) result) ∧
      ∀ r ∈ result.2, r.kind = .unprotectedShared := by
  induction cs generalizing footprints result with
  | nil =>
      obtain rfl := Option.some.inj h
      exact ⟨rfl, List.forall_mem_nil _⟩
  | cons c cs ih =>
      obtain ⟨hc, hcs⟩ := List.forall_mem_cons.mp htrack
      obtain ⟨footprints', reports⟩ := result
      obtain ⟨mid, rs, rs', hfirst, hrest, rfl⟩ := runCalls_cons h
      obtain ⟨a, b, judge, heffect⟩ := runCall_effect hfirst
      have hjudged := heffect.judged
      rw [hc] at hjudged
      have hunlocked := judgeOf_unlocked (hlocks c.i c.j a b c.ne heffect.left heffect.right) hjudged
      have hplain : runCall moves lockPairArray (footprints.map (List.filter (ofUsrs usrs))) (untracked c) =
          (runCall moves lockPairArray footprints c).map (thin usrs fun _ => .variableOverlap) := by
        have hjudged' : judgeOf moves lockPairArray (untracked c).trackLocking (a.filter (ofUsrs usrs))
            (b.filter (ofUsrs usrs)) = some fun _ _ => some .variableOverlap := rfl
        refine runCall_thinned ?_ ?_ heffect.left heffect.right heffect.judged hjudged' ?_
        · rfl
        · rfl
        · intro i j
          rw [hunlocked]
          rfl
      obtain ⟨htail, hkinds⟩ := ih (hlocks.after heffect) hcs hrest
      constructor
      · rw [hfirst, Option.map_some] at hplain
        rw [thin] at htail hplain
        rw [List.map_cons, runCalls, hplain, Option.bind_eq_bind, Option.bind_some, htail, thin]
        simp
      · intro r hr
        rcases List.mem_append.mp hr with hr | hr
        · obtain ⟨p, hp, v, hv, rfl⟩ := heffect.mem_reports.mp hr
          obtain ⟨-, -, -, -, -, hkind⟩ := verdictOf_eq_some.mp hv
          rw [hunlocked] at hkind
          exact (Option.some.inj hkind).symm
        · exact hkinds r hr

theorem pairCalls_untracked (size : Nat) : (pairCalls true size).map untracked = pairCalls false size := by
  rw [pairCalls, pairCalls, List.map_flatMap]
  congr 1
  funext i
  rw [List.map_filterMap]
  congr 1
  funext j
  split
  next => rfl
  next => rfl

theorem reports_usr {cs : List Call} {footprints' : List (List VarAccess)} {reports : List Report}
    (h : runCalls moves lockPairArray footprints cs = some (footprints', reports)) :
    ∀ r ∈ reports, r.vaI.usr.isSome = true := by
  induction cs generalizing footprints reports with
  | nil =>
      cases h
      exact List.forall_mem_nil _
  | cons c cs ih =>
      obtain ⟨mid, rs, rs', hfirst, hrest, rfl⟩ := runCalls_cons h
      obtain ⟨a, b, judge, heffect⟩ := runCall_effect hfirst
      intro r hr
      rcases List.mem_append.mp hr with hr | hr
      · obtain ⟨p, hp, v, hv, rfl⟩ := heffect.mem_reports.mp hr
        obtain ⟨-, -, -, -, hsame, -⟩ := verdictOf_eq_some.mp hv
        obtain ⟨u, hu, -⟩ := (equalVarAccesses_iff _ _).mp hsame
        rw [hu]
        rfl
      · exact ih hrest r hr

end Comparisons

theorem filter_unmarked {program : Program} {trackLocking : Bool} {roots : List Cursor} {funcNames : List String} :
    (footprints program trackLocking (roots.map requestedFunc) funcNames).map (List.filter isUnmarked) =
      (footprints program trackLocking (roots.map requestedFunc) funcNames).map
        (List.filter (ofUsrs Option.isSome)) := by
  apply List.map_congr_left
  intro fp hfp
  obtain ⟨root, -, globals, funcCall, rfl⟩ := footprints_built hfp
  apply List.filter_congr
  intro va hva
  have hnamed := wellNamed_footprint program trackLocking root globals funcCall va hva
  rw [isUnmarked, ofUsrs]
  cases hmarker : isBranchMarker va with
  | true =>
      rw [(unnamed_of_wellNamed hnamed hmarker).2.1]
      rfl
  | false =>
      rw [((Bool.and_eq_true _ _).mp (isNamed_of_wellNamed hnamed hmarker)).2]
      rfl

/-- If at most one requested function acquires locks, a run that tracks them makes the reports of the
plain run, in the same order, each as an access that no lock protects. -/
theorem lock_free_modes_agree (moves : Nat → Bool) (lockPairArray : List LockPrimitivePair) (program : Program)
    (roots : List Cursor) (funcNames : List String) {result : List (List VarAccess) × List Report}
    (hlocks : AtMostOneLocks (footprints program true (roots.map requestedFunc) funcNames))
    (hrun : compareAllFuncs moves lockPairArray true (footprints program true (roots.map requestedFunc) funcNames) =
      some result) :
    compareAllFuncs moves lockPairArray false (footprints program false (roots.map requestedFunc) funcNames) =
        some (result.1.map (List.filter (ofUsrs Option.isSome)), result.2.map asOverlap) ∧
      ∀ r ∈ result.2, r.kind = .unprotectedShared := by
  have htrack : ∀ c ∈ pairCalls true (footprints program true (roots.map requestedFunc) funcNames).length,
      c.trackLocking = true := fun c hc => (mem_pairCalls.mp hc).1
  obtain ⟨hplain, hkinds⟩ := runCalls_untracked Option.isSome hlocks htrack hrun
  refine ⟨?_, hkinds⟩
  have hall : result.2.filter (fun r => ofUsrs Option.isSome r.vaI) = result.2 := by
    rw [List.filter_eq_self]
    exact reports_usr hrun
  rw [thin, hall, pairCalls_untracked] at hplain
  rw [compareAllFuncs, footprints_erase, filter_unmarked, List.length_map]
  exact hplain

/-- The two functions with the conditional write, neither of which locks anything. -/
theorem conditionalWrites_modes_agree :
    ∃ result, compareAllFuncs (fun _ => false) defaultLockPairs true
        (footprints branchProgram true ([endsBehindIf, endsInIf].map requestedFunc) ["f()", "f()"]) = some result ∧
      compareAllFuncs (fun _ => false) defaultLockPairs false
          (footprints branchProgram false ([endsBehindIf, endsInIf].map requestedFunc) ["f()", "f()"]) =
        some (result.1.map (List.filter (ofUsrs Option.isSome)), result.2.map asOverlap) ∧
      ∀ r ∈ result.2, r.kind = .unprotectedShared := by
  have hdefined : (compareAllFuncs (fun _ => false) defaultLockPairs true (footprints branchProgram true
      ([endsBehindIf, endsInIf].map requestedFunc) ["f()", "f()"])).isSome = true := by
    decide +kernel
  have hfree : ∀ fp ∈ footprints branchProgram true ([endsBehindIf, endsInIf].map requestedFunc) ["f()", "f()"],
      ∀ va ∈ fp, va.type ≠ .lockAcquire := by
    decide +kernel
  obtain ⟨result, hrun⟩ := Option.isSome_iff_exists.mp hdefined
  refine ⟨result, hrun, lock_free_modes_agree _ _ _ _ _ ?_ hrun⟩
  intro i j a b _ ha _
  exact .inl (hfree a (List.mem_of_getElem? ha))

end Prongc.ModeAgreement
