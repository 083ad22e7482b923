import Prongc.AnnotationRun
import Prongc.ElseBranch

namespace Prongc.RangeFields

open Access LockTracking LockRanges LockReach LockVerdict ArrayGrowth AnnotationRun ElseBranch Library.SizeT
open Library.BranchMarkers

variable {moves : Nat → Bool} {lockPairArray : List LockPrimitivePair} {fp seen : List VarAccess}
  {st : ProtectionFieldArray × Nat}

section Tidy

structure Tidy (f : LockProtectionField) : Prop where
  tail : Tail f
  untagged : f.nextProtRange = none → f.branchDepth = 0

theorem tidy_openedRange (pair : LockPrimitivePair) (usr : String) (start : Nat) :
    Tidy (openedRange pair usr start) := ⟨fun _ => rfl, fun _ => rfl⟩

theorem Tidy.close {f : LockProtectionField} (h : Tidy f) (objHash : UInt32) (r : Nat) :
    Tidy (closeField objHash r f) := by
  refine ⟨tail_closeField objHash r h.tail, ?_⟩
  rw [closeField_next, closeField_depth]
  exact h.untagged

theorem Tidy.copy {f : LockProtectionField} (h : Tidy f) (hnext : f.nextProtRange = none) (start : Nat) :
    Tidy (uncapped start f) := ⟨fun _ => rfl, fun _ => h.untagged hnext⟩

theorem stateAfter_tidy (hseen : seen <+: fp) (hst : stateAfter moves lockPairArray fp seen = some st) :
    ∀ f ∈ st.1.lpFields, Tidy f := by
  refine stateAfter_rule (P := fun _ st => ∀ f ∈ st.1.lpFields, Tidy f) (fun f hf => by cases hf) ?_ hseen hst
  intro seen va rest st st' _ _ h hstep
  cases hstep with
  | lockAcquire type named =>
      intro f hf
      rcases List.mem_append.mp hf with hf | hf
      · exact h f hf
      · rw [List.mem_singleton.mp hf]
        exact tidy_openedRange _ _ _
  | lockRelease type named =>
      rw [setProtectionRangeEnd_fields fun f hf => (h f hf).tail]
      intro f hf
      obtain ⟨g, hg, rfl⟩ := List.mem_map.mp hf
      exact (h g hg).close _ _
  | ifStmt type found =>
      refine copies_forall (fun _ i => splitActiveAt_copied _ _ i) ?_ ?_ _ h
      · intro n f _ _
        exact ⟨fun hnone => (by simp [linkActive] at hnone), fun hnone => by simp [linkActive] at hnone⟩
      · intro f hf htest
        exact hf.copy (hf.tail (Option.isNone_iff_eq_none.mp htest)) _
  | elseStmt type =>
      refine copies_forall (fun _ i => reviveInactiveAt_copied _ _ i) ?_ ?_ _ h
      · intro n f _ htest
        exact ⟨fun hnone => absurd hnone (isInactive_iff.mp htest).2.1, fun hnone => by simp [linkInactive] at hnone⟩
      · intro f hf htest
        exact hf.copy (isInactive_iff.mp htest).1 _
  | other _ _ _ _ => exact h

end Tidy

section Held

structure KnowsLocks (seen : List VarAccess) (fields : List LockProtectionField) : Prop where
  acquired : ∀ objHash, (∃ f ∈ fields, f.lockObjHash = objHash) ↔ (lockAfter seen objHash).acquired = true
  held : ∀ objHash, (∃ f ∈ fields, f.lockObjHash = objHash ∧ f.protectionRangeEnd = none) ↔
    (lockAfter seen objHash).held = true
  last : ∀ objHash, (∃ f ∈ fields, f.lockObjHash = objHash) →
    ∃ f ∈ fields, f.lockObjHash = objHash ∧ f.nextProtRange = none

theorem KnowsLocks.opened {fields : List LockProtectionField} {va : VarAccess} {usr : String}
    (h : KnowsLocks seen fields) (type : va.type = .lockAcquire) (named : va.usr = some usr)
    (pair : LockPrimitivePair) (start : Nat) :
    KnowsLocks (seen ++ [va]) (fields ++ [openedRange pair usr start]) := by
  have hacq : ∀ objHash, acquires objHash va = true ↔ lockTrackingGenHash usr = objHash := by
    intro objHash
    simp [acquires, type, named]
  have hrel := releases_eq_false (by simp [type] : va.type ≠ .lockRelease)
  constructor
  · intro objHash
    rw [lockAfter_snoc, next_acquired_iff, hacq, ← h.acquired]
    simp [or_and_right, exists_or, openedRange, or_comm]
  · intro objHash
    rw [lockAfter_snoc, next_held_iff, hacq, ← h.held]
    simp [or_and_right, exists_or, openedRange, or_comm, hrel, type]
  · rintro objHash ⟨f, hf, rfl⟩
    rcases List.mem_append.mp hf with hf | hf
    · obtain ⟨g, hg, hsame, hnext⟩ := h.last _ ⟨f, hf, rfl⟩
      exact ⟨g, List.mem_append_left _ hg, hsame, hnext⟩
    · obtain rfl := List.mem_singleton.mp hf
      exact ⟨_, List.mem_append_right _ List.mem_cons_self, rfl, rfl⟩

theorem KnowsLocks.closed {fields : List LockProtectionField} {va : VarAccess} {usr : String}
    (h : KnowsLocks seen fields) (type : va.type = .lockRelease) (named : va.usr = some usr) (r : Nat) :
    KnowsLocks (seen ++ [va]) (fields.map (closeField (lockTrackingGenHash usr) r)) := by
  have hacq := acquires_eq_false (by simp [type] : va.type ≠ .lockAcquire)
  have hrel : ∀ objHash, releases objHash va = false ↔ ¬ lockTrackingGenHash usr = objHash := by
    intro objHash
    simp [releases, type, named]
  constructor
  · intro objHash
    rw [lockAfter_snoc, next_acquired_iff, hacq, ← h.acquired]
    simp [closeField_objHash]
  · intro objHash
    rw [lockAfter_snoc, next_held_iff, hacq, hrel, ← h.held]
    simp only [type, reduceCtorEq, false_and, or_false, false_or, Bool.false_eq_true]
    constructor
    · rintro ⟨f', hf', rfl, hopen⟩
      obtain ⟨f, hf, rfl⟩ := List.mem_map.mp hf'
      rw [closeField_end] at hopen
      rw [closeField_objHash]
      split at hopen
      next => cases hopen
      next hother => exact ⟨fun hsame => hother ⟨hopen, hsame.symm⟩, f, hf, rfl, hopen⟩
    · rintro ⟨hother, f, hf, rfl, hopen⟩
      refine ⟨_, List.mem_map_of_mem hf, closeField_objHash _ _ _, ?_⟩
      rw [closeField_end, if_neg fun h => hother h.2.symm, hopen]
  · rintro objHash ⟨f, hf, rfl⟩
    obtain ⟨g, hg, rfl⟩ := List.mem_map.mp hf
    obtain ⟨last, hlast, hsame, hnext⟩ := h.last _ ⟨g, hg, (closeField_objHash _ _ _).symm⟩
    exact ⟨_, List.mem_map_of_mem hlast, by rw [closeField_objHash, hsame], by rw [closeField_next, hnext]⟩

section Copies

variable {arr : ProtectionFieldArray} {test : LockProtectionField → Bool}
  {link : Nat → LockProtectionField → LockProtectionField} {start : Nat}
  {op : ProtectionFieldArray → Nat → ProtectionFieldArray}
  (hop : ∀ arr i, Copied test link (uncapped start) arr.lpFields i (op arr i).lpFields)

include hop

theorem copies_objHash (hlink : ∀ n f, (link n f).lockObjHash = f.lockObjHash) (is : List Nat)
    (objHash : UInt32) :
    (∃ f ∈ (is.foldl op arr).lpFields, f.lockObjHash = objHash) ↔
      ∃ f ∈ arr.lpFields, f.lockObjHash = objHash := by
  constructor
  · rintro ⟨f, hf, rfl⟩
    refine copies_forall (P := fun f => ∃ g ∈ arr.lpFields, g.lockObjHash = f.lockObjHash) hop ?_ ?_ is
      (fun f hf => ⟨f, hf, rfl⟩) f hf
    · exact fun n f h _ => by rwa [hlink]
    · exact fun f h _ => h
  · exact copies_exists (P := fun f => f.lockObjHash = objHash) hop (fun n f h _ => .inr h) is

theorem copies_last (is : List Nat) {objHash : UInt32}
    (h : ∃ f ∈ arr.lpFields, f.lockObjHash = objHash ∧ f.nextProtRange = none) :
    ∃ f ∈ (is.foldl op arr).lpFields, f.lockObjHash = objHash ∧ f.nextProtRange = none :=
  copies_exists (P := fun f => f.lockObjHash = objHash ∧ f.nextProtRange = none) hop
    (fun _ _ h _ => .inr ⟨h.1, rfl⟩) is h

end Copies

theorem KnowsLocks.split {arr : ProtectionFieldArray} {va : VarAccess} (h : KnowsLocks seen arr.lpFields)
    (type : va.type = .ifStmt) (start depth : Nat) :
    KnowsLocks (seen ++ [va]) (addProtectionRangeFieldsActive moves arr start depth).lpFields := by
  have hacq := acquires_eq_false (by simp [type] : va.type ≠ .lockAcquire)
  have hrel := releases_eq_false (by simp [type] : va.type ≠ .lockRelease)
  have hop := fun (arr : ProtectionFieldArray) i => @splitActiveAt_copied moves arr start depth i
  have hhash : ∀ objHash, (∃ f ∈ (addProtectionRangeFieldsActive moves arr start depth).lpFields,
      f.lockObjHash = objHash) ↔ ∃ f ∈ arr.lpFields, f.lockObjHash = objHash :=
    copies_objHash hop (fun _ _ => rfl) _
  constructor
  · intro objHash
    rw [lockAfter_snoc, next_acquired_iff, ← h.acquired, hacq]
    simpa using hhash objHash
  · intro objHash
    rw [lockAfter_snoc, next_held_iff, ← h.held]
    simp only [hacq, hrel, type]
    constructor
    · rintro ⟨f, hf, rfl, hopen⟩
      refine .inr ⟨trivial, .inl (copies_forall (P := fun f => f.protectionRangeEnd = none →
        ∃ g ∈ arr.lpFields, g.lockObjHash = f.lockObjHash ∧ g.protectionRangeEnd = none) hop ?_ ?_ _
        (fun f hf hopen => ⟨f, hf, rfl, hopen⟩) f hf hopen)⟩
      · exact fun n f _ _ hnone => by cases hnone
      · exact fun f h htest _ => h (Option.isNone_iff_eq_none.mp htest)
    · rintro (hacq | ⟨-, hheld | ⟨htype, -⟩⟩)
      · simp at hacq
      · exact copies_exists (P := fun f => f.lockObjHash = objHash ∧ f.protectionRangeEnd = none) hop
          (fun n f h _ => .inr ⟨h.1, rfl⟩) _ hheld
      · cases htype
  · intro objHash hsome
    exact copies_last hop _ (h.last objHash ((hhash objHash).mp hsome))

theorem KnowsLocks.revive {arr : ProtectionFieldArray} {va : VarAccess} (h : KnowsLocks seen arr.lpFields)
    (htidy : ∀ f ∈ arr.lpFields, Tidy f) (type : va.type = .elseStmt) (start : Nat) :
    KnowsLocks (seen ++ [va]) (addProtectionRangeFieldsInactive moves arr start
      (sizePred (seen.foldl nextDepth 0))).lpFields := by
  have hacq := acquires_eq_false (by simp [type] : va.type ≠ .lockAcquire)
  have hrel := releases_eq_false (by simp [type] : va.type ≠ .lockRelease)
  have hop := fun (arr : ProtectionFieldArray) i =>
    @reviveInactiveAt_copied moves arr start (sizePred (seen.foldl nextDepth 0)) i
  have hhash : ∀ objHash, (∃ f ∈ (addProtectionRangeFieldsInactive moves arr start
      (sizePred (seen.foldl nextDepth 0))).lpFields, f.lockObjHash = objHash) ↔
        ∃ f ∈ arr.lpFields, f.lockObjHash = objHash :=
    copies_objHash hop (fun _ _ => rfl) _
  constructor
  · intro objHash
    rw [lockAfter_snoc, next_acquired_iff, ← h.acquired, hacq]
    simpa using hhash objHash
  · intro objHash
    rw [lockAfter_snoc, next_held_iff, ← h.held, ← h.acquired]
    simp only [hacq, hrel, type]
    constructor
    · rintro ⟨f, hf, rfl, hopen⟩
      refine .inr ⟨trivial, (copies_forall (P := fun f => Tidy f ∧
        (∃ g ∈ arr.lpFields, g.lockObjHash = f.lockObjHash) ∧ (f.protectionRangeEnd = none →
          (∃ g ∈ arr.lpFields, g.lockObjHash = f.lockObjHash ∧ g.protectionRangeEnd = none) ∨
            (True ∧ seen.foldl nextDepth 0 = 1 ∧
              ∃ g ∈ arr.lpFields, g.lockObjHash = f.lockObjHash))) hop ?_ ?_ _
        (fun f hf => ⟨htidy f hf, ⟨f, hf, rfl⟩, fun hopen => .inl ⟨f, hf, rfl, hopen⟩⟩) f hf).2.2 hopen⟩
      · rintro n f ⟨-, hsome, -⟩ htest
        have hclosed := (isInactive_iff.mp htest).2.1
        refine ⟨⟨fun hnone => absurd hnone hclosed, fun hnone => ?_⟩, hsome, fun hnone => absurd hnone hclosed⟩
        simp [linkInactive] at hnone
      · rintro f ⟨hf, hsome, -⟩ htest
        obtain ⟨hnext, -, hdepth⟩ := isInactive_iff.mp htest
        refine ⟨hf.copy hnext _, hsome, fun _ => .inr ⟨trivial, ?_, hsome⟩⟩
        rw [hf.untagged hnext] at hdepth
        exact sizePred_eq_zero.mp hdepth.symm
    · rintro (hacq | ⟨-, hheld | ⟨-, hdepth, hsome⟩⟩)
      · simp at hacq
      · refine copies_exists (P := fun f => f.lockObjHash = objHash ∧ f.protectionRangeEnd = none) hop ?_ _ hheld
        exact fun n f h htest => absurd h.2 (isInactive_iff.mp htest).2.1
      · obtain ⟨f, hf, rfl, hnext⟩ := h.last objHash hsome
        cases hend : f.protectionRangeEnd with
        | none =>
            refine copies_exists (P := fun g => g.lockObjHash = f.lockObjHash ∧ g.protectionRangeEnd = none) hop
              ?_ _ ⟨f, hf, rfl, hend⟩
            exact fun n f h htest => absurd h.2 (isInactive_iff.mp htest).2.1
        | some e =>
            refine ⟨_, copy_mem hop hf (isInactive_iff.mpr ⟨hnext, by simp [hend], ?_⟩), rfl, rfl⟩
            rw [(htidy f hf).untagged hnext, hdepth]
            rfl
  · intro objHash hsome
    exact copies_last hop _ (h.last objHash ((hhash objHash).mp hsome))

/-- Wherever the array moves, it knows the lock objects that are held. -/
theorem stateAfter_knowsLocks (hseen : seen <+: fp) (hst : stateAfter moves lockPairArray fp seen = some st) :
    KnowsLocks seen st.1.lpFields := by
  refine stateAfter_rule (P := fun seen st => KnowsLocks seen st.1.lpFields) ?_ ?_ hseen hst
  · constructor <;> simp [initProtectionFieldArray, lockAfter]
  · intro seen va rest st st' hfp hst h hstep
    have hseen : seen <+: fp := ⟨va :: rest, hfp.symm⟩
    have htidy := stateAfter_tidy hseen hst
    cases hstep with
    | lockAcquire type named => exact h.opened type named _ _
    | lockRelease type named =>
        rw [setProtectionRangeEnd_fields fun f hf => (htidy f hf).tail]
        exact h.closed type named _
    | ifStmt type found => exact h.split type _ _
    | elseStmt type =>
        rw [stateAfter_depth hseen hst]
        exact h.revive htidy type _
    | other hacquire hrelease _ helse =>
        have hacq := acquires_eq_false hacquire
        have hrel := releases_eq_false hrelease
        refine ⟨fun objHash => ?_, fun objHash => ?_, h.last⟩
        · rw [lockAfter_snoc, next_acquired_iff, ← h.acquired]
          simp [hacq]
        · rw [lockAfter_snoc, next_held_iff, ← h.held]
          simp [hacq, hrel, helse]

end Held

theorem thenFollows_of_bracketed (h : Bracketed mark fp) : ThenFollows fp :=
  fun _ _ _ hfp hty => then_of_bracketed h hfp hty

theorem exists_annotated (moves : Nat → Bool) (h : WellFormed lockPairArray fp) :
    ∃ arr, annotateLockProtectionRanges moves lockPairArray fp = some arr := by
  rw [← Option.isSome_iff_exists, annotate_eq_stateAfter, Option.isSome_map]
  exact stateAfter_isSome ⟨h.acquire, h.release⟩ (thenFollows_of_bracketed h.bracketed) List.prefix_rfl

end Prongc.RangeFields
