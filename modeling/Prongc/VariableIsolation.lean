import Prongc.Comparison
import Prongc.Library.Thinning
import Prongc.MovedRanges

namespace Prongc.VariableIsolation

open Access LockTracking Comparison MovedRanges Library.FirstFit Library.Thinning

def isStructural (va : VarAccess) : Bool :=
  va.type == .lockAcquire || va.type == .lockRelease || va.type == .ifStmt || va.type == .thenBlock ||
    va.type == .elseStmt || va.type == .endIf

section Annotation

variable {moves : Nat → Bool} {lockPairArray : List LockPrimitivePair} {keep : VarAccess → Bool} {fp : List VarAccess}

theorem annotateAt_other {va : VarAccess} (h : isStructural va = false) (st : ProtectionFieldArray × Nat) (i : Nat) :
    annotateAt moves lockPairArray fp st (va, i) = some st := by
  rw [annotateAt]
  rw [isStructural] at h
  cases htype : va.type <;> simp_all

theorem startOfBranch_kept (hkeep : ∀ va ∈ fp, isStructural va = true → keep va = true) (i : Nat) :
    startOfBranch fp (keptAt (flagsOf keep fp) i) =
      (startOfBranch (fp.filter keep) i).map (keptAt (flagsOf keep fp)) := by
  apply findIdx?_drop_kept
  intro va hva htype
  apply hkeep va hva
  rw [isStructural, eq_of_beq htype]
  rfl

theorem annotateAt_kept (hkeep : ∀ va ∈ fp, isStructural va = true → keep va = true)
    (st : ProtectionFieldArray × Nat) (va : VarAccess) (i : Nat) :
    annotateAt moves lockPairArray fp (Prod.map (moveArray (keptAt (flagsOf keep fp))) id st)
        (va, keptAt (flagsOf keep fp) i) =
      (annotateAt moves lockPairArray (fp.filter keep) st (va, i)).map
        (Prod.map (moveArray (keptAt (flagsOf keep fp))) id) := by
  obtain ⟨arr, depth⟩ := st
  rw [annotateAt, annotateAt]
  cases va.type with
  | lockAcquire =>
      simp only [Prod.map_apply, addLockProtectionField_move]
      cases addLockProtectionField arr (getPairByLockFunc lockPairArray va.escFuncSpelling) va i <;> rfl
  | lockRelease =>
      cases va.usr with
      | none => rfl
      | some usr => simp [setProtectionRangeEnd_move]
  | ifStmt =>
      simp only [startOfBranch_kept hkeep]
      cases startOfBranch (fp.filter keep) i with
      | none => rfl
      | some start => simp [addProtectionRangeFieldsActive_move]
  | elseStmt => simp [addProtectionRangeFieldsInactive_move]
  | _ => rfl

/-- Accesses that go missing from a footprint only renumber its ranges. -/
theorem annotate_kept (moves : Nat → Bool) (lockPairArray : List LockPrimitivePair)
    (hkeep : ∀ va ∈ fp, isStructural va = true → keep va = true) :
    annotateLockProtectionRanges moves lockPairArray fp =
      (annotateLockProtectionRanges moves lockPairArray (fp.filter keep)).map
        (moveArray (keptAt (flagsOf keep fp))) := by
  have hother : ∀ x ∈ fp.zipIdx, keep x.1 = false →
      ∀ st, annotateAt moves lockPairArray fp st x = some st := by
    intro x hx hdropped st
    apply annotateAt_other
    by_contra hstructural
    have hmem : x.1 ∈ fp := List.mem_of_getElem? (List.mem_zipIdx_iff_getElem?.mp hx)
    rw [hkeep x.1 hmem (by simpa using hstructural)] at hdropped
    cases hdropped
  have hstart : (initProtectionFieldArray, 0) =
      Prod.map (moveArray (keptAt (flagsOf keep fp))) id (initProtectionFieldArray, 0) := rfl
  rw [annotateLockProtectionRanges, annotateLockProtectionRanges, foldlM_filter hother, ← zipIdx_filter, hstart,
    foldlM_simulated (fun st x => annotateAt_kept hkeep st x.1 x.2), Option.map_map, Option.map_map]
  rfl

end Annotation

section Run

variable {moves : Nat → Bool} {lockPairArray : List LockPrimitivePair} {usrs : Option String → Bool}
  {footprints : List (List VarAccess)}

def ofUsrs (usrs : Option String → Bool) (va : VarAccess) : Bool := usrs va.usr

def CoversStructure (usrs : Option String → Bool) (footprints : List (List VarAccess)) : Prop :=
  ∀ fp ∈ footprints, ∀ va ∈ fp, isStructural va = true → ofUsrs usrs va = true

def thin (usrs : Option String → Bool) (kind : ReportKind → ReportKind)
    (result : List (List VarAccess) × List Report) : List (List VarAccess) × List Report :=
  (result.1.map (List.filter (ofUsrs usrs)),
    (result.2.filter fun r => ofUsrs usrs r.vaI).map fun r => { r with kind := kind r.kind })

theorem protectionReport_move {f g : Nat → Nat} (hf : StrictMono f) (hg : StrictMono g)
    (arrA arrB : ProtectionFieldArray) (i j : Nat) :
    protectionReport (moveArray f arrA) (moveArray g arrB) (f i) (g j) = protectionReport arrA arrB i j := by
  rw [protectionReport, protectionReport, badProtection_move hf hg, matching_move hf hg]

variable (moves lockPairArray) in
theorem judgeOf_thin {trackLocking : Bool} {a b : List VarAccess}
    (h : trackLocking = true → CoversStructure usrs [a, b]) :
    judgeOf moves lockPairArray trackLocking (a.filter (ofUsrs usrs)) (b.filter (ofUsrs usrs)) =
      (judgeOf moves lockPairArray trackLocking a b).map fun judge i j =>
        judge (keptAt (flagsOf (ofUsrs usrs) a) i) (keptAt (flagsOf (ofUsrs usrs) b) j) := by
  cases trackLocking with
  | false => rfl
  | true =>
      have ha := annotate_kept moves lockPairArray (h rfl a (by simp))
      have hb := annotate_kept moves lockPairArray (h rfl b (by simp))
      rw [judgeOf, judgeOf, if_pos rfl, if_pos rfl, ha, hb]
      cases annotateLockProtectionRanges moves lockPairArray (a.filter (ofUsrs usrs)) with
      | none => rfl
      | some arrA =>
          cases annotateLockProtectionRanges moves lockPairArray (b.filter (ofUsrs usrs)) with
          | none => rfl
          | some arrB =>
              apply congrArg some
              funext i j
              exact (protectionReport_move (keptAt_strictMono _) (keptAt_strictMono _) arrA arrB i j).symm

theorem ofUsrs_eq {x y : VarAccess} (h : equalVarAccesses x y = true) : ofUsrs usrs x = ofUsrs usrs y := by
  obtain ⟨u, hx, hy⟩ := (equalVarAccesses_iff x y).mp h
  rw [ofUsrs, ofUsrs, hx, hy]

theorem callReports_thinned {kind : ReportKind → ReportKind} {flagsA flagsB : List Bool}
    {st st' : State VarAccess ReportKind} {c c' : Call} (hi : c'.i = c.i) (hj : c'.j = c.j)
    (h : Thinned (ofUsrs usrs) kind flagsA flagsB st st') :
    callReports c' st'.reports = ((callReports c st.reports).filter fun r => ofUsrs usrs r.vaI).map fun r =>
      { r with kind := kind r.kind } := by
  have hindex : callReports c' st'.reports =
      callReports c' (st'.reports.map (Prod.map (embed flagsA flagsB) id)) := by
    rw [callReports, callReports, List.map_map]
    rfl
  rw [hindex, h.reports, callReports, callReports, List.filter_map, List.map_map, List.map_map, hi, hj]
  rfl

/-- One comparison of thinned footprints, which may be of another mode, if it judges all pairs alike. -/
theorem runCall_thinned {kind : ReportKind → ReportKind} {c c' : Call} {a b : List VarAccess}
    {judge judge' : Nat → Nat → Option ReportKind} (hi : c'.i = c.i) (hj : c'.j = c.j)
    (ha : footprints[c.i]? = some a) (hb : footprints[c.j]? = some b)
    (hjudged : judgeOf moves lockPairArray c.trackLocking a b = some judge)
    (hjudged' : judgeOf moves lockPairArray c'.trackLocking (a.filter (ofUsrs usrs)) (b.filter (ofUsrs usrs)) =
      some judge')
    (hjudge : ∀ i j, judge' i j =
      (judge (keptAt (flagsOf (ofUsrs usrs) a) i) (keptAt (flagsOf (ofUsrs usrs) b) j)).map kind) :
    runCall moves lockPairArray (footprints.map (List.filter (ofUsrs usrs))) c' =
      (runCall moves lockPairArray footprints c).map (thin usrs kind) := by
  have hthin : Thinned (ofUsrs usrs) kind (flagsOf (ofUsrs usrs) a) (flagsOf (ofUsrs usrs) b)
      (compareAll VarAccess.live equalVarAccesses VarAccess.nullify judge a b)
      (compareAll VarAccess.live equalVarAccesses VarAccess.nullify judge' (a.filter (ofUsrs usrs))
        (b.filter (ofUsrs usrs))) :=
    compareAll_thinned (fun _ => rfl) (fun x y _ _ => ofUsrs_eq) hjudge
  rw [runCall, runCall, hi, hj, List.getElem?_map, List.getElem?_map, ha, hb]
  simp only [Option.map_some, Option.bind_eq_bind, Option.bind_some, compareFuncs_eq, hjudged, hjudged']
  rw [callReports_thinned hi hj hthin, hthin.left, hthin.right, thin, List.map_set, List.map_set]

theorem runCall_thin (c : Call) (h : c.trackLocking = true → CoversStructure usrs footprints) :
    runCall moves lockPairArray (footprints.map (List.filter (ofUsrs usrs))) c =
      (runCall moves lockPairArray footprints c).map (thin usrs id) := by
  cases ha : footprints[c.i]? with
  | none => simp [runCall, ha]
  | some a =>
      cases hb : footprints[c.j]? with
      | none => simp [runCall, ha, hb]
      | some b =>
          have hcover : c.trackLocking = true → CoversStructure usrs [a, b] := by
            intro htrack fp hfp
            apply h htrack fp
            rcases List.mem_pair.mp hfp with rfl | rfl
            · exact List.mem_of_getElem? ha
            · exact List.mem_of_getElem? hb
          have hjudge := judgeOf_thin moves lockPairArray hcover
          cases hjudged : judgeOf moves lockPairArray c.trackLocking a b with
          | none => simp [runCall, ha, hb, compareFuncs_eq, hjudge, hjudged]
          | some judge =>
              rw [hjudged, Option.map_some] at hjudge
              apply runCall_thinned rfl rfl ha hb hjudged hjudge
              intro i j
              rw [Option.map_id, id_eq]

theorem CoversStructure.faded {footprints' : List (List VarAccess)} (h : CoversStructure usrs footprints)
    (hlen : footprints'.length = footprints.length)
    (hfaded : ∀ (k : Nat) fp, footprints[k]? = some fp → ∃ fp', footprints'[k]? = some fp' ∧ FadedFp fp fp') :
    CoversStructure usrs footprints' := by
  intro fp' hfp' va' hva' hstructural
  obtain ⟨k, hk⟩ := List.mem_iff_getElem?.mp hfp'
  have hlt : k < footprints.length := hlen ▸ (List.getElem?_eq_some_iff.mp hk).1
  obtain ⟨fp'', hk', hfp⟩ := hfaded k _ (List.getElem?_eq_getElem hlt)
  obtain rfl := Option.some.inj (hk.symm.trans hk')
  obtain ⟨n, hn⟩ := List.mem_iff_getElem?.mp hva'
  obtain ⟨va, hva, hfade⟩ := hfp.getElem? hn
  rcases hfade with rfl | ⟨-, rfl⟩
  · exact h _ (List.getElem_mem hlt) va' (List.mem_of_getElem? hva) hstructural
  · cases hstructural

/-- Variables do not interfere: without the accesses to all other variables, any comparisons report of
the given ones what they report of them with all accesses there, with or without lock tracking. -/
theorem runs_isolated (moves : Nat → Bool) (lockPairArray : List LockPrimitivePair) (usrs : Option String → Bool)
    (footprints : List (List VarAccess)) (cs : List Call)
    (h : ∀ c ∈ cs, c.trackLocking = true → CoversStructure usrs footprints) :
    runCalls moves lockPairArray (footprints.map (List.filter (ofUsrs usrs))) cs =
      (runCalls moves lockPairArray footprints cs).map (thin usrs id) := by
  induction cs generalizing footprints with
  | nil => rfl
  | cons c cs ih =>
      obtain ⟨hc, hcs⟩ := List.forall_mem_cons.mp h
      rw [runCalls, runCalls, runCall_thin c hc]
      cases hrun : runCall moves lockPairArray footprints c with
      | none => rfl
      | some first =>
          obtain ⟨a, b, judge, heffect⟩ := runCall_effect hrun
          have hrest := ih first.1 fun d hd htrack =>
            (hcs d hd htrack).faded heffect.length fun k fp hk => heffect.faded hk
          simp only [Option.map_some, Option.bind_eq_bind, Option.bind_some, thin] at hrest ⊢
          rw [hrest]
          cases runCalls moves lockPairArray first.1 cs with
          | none => rfl
          | some rest => simp [thin]

end Run

def lockedAccess (usr : String) (line : Nat) (type : VarAccessType) : List VarAccess :=
  [initVarAccess (some "c:@m") (some "m") (some "pthread_mutex_lock") (some "c:@F@pthread_mutex_lock") "f" 0 line 3
      .lockAcquire false,
    initVarAccess (some usr) (some usr) none none "f" noIdx (line + 1) 3 type false,
    initVarAccess (some "c:@m") (some "m") (some "pthread_mutex_unlock") (some "c:@F@pthread_mutex_unlock") "f" 0
      (line + 2) 3 .lockRelease false]

/-- The accesses to y are left out of a comparison that tracks the mutex m. -/
theorem lockedAccesses_isolated :
    runCalls (fun _ => false) defaultLockPairs
        ([lockedAccess "c:@x" 1 .write ++ lockedAccess "c:@y" 4 .write,
          initVarAccess (some "c:@y") (some "y") none none "g" noIdx 9 3 .read false :: lockedAccess "c:@x" 10 .read].map
            (List.filter (ofUsrs fun usr => usr != some "c:@y"))) [⟨true, 0, 1, by decide⟩] =
      (runCalls (fun _ => false) defaultLockPairs
        [lockedAccess "c:@x" 1 .write ++ lockedAccess "c:@y" 4 .write,
          initVarAccess (some "c:@y") (some "y") none none "g" noIdx 9 3 .read false :: lockedAccess "c:@x" 10 .read]
            [⟨true, 0, 1, by decide⟩]).map (thin (fun usr => usr != some "c:@y") id) := by
  apply runs_isolated
  intro c _ _ fp hfp va hva
  revert va
  revert fp
  decide


end Prongc.VariableIsolation
