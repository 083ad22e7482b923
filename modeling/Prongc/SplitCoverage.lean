import Prongc.ChainStructure
import Prongc.RangeFields

namespace Prongc.SplitCoverage

open Access LockTracking LockRanges LockReach AnnotationRun RangeFields ElseBranch ChainStructure Library.SizeT

section Starts

variable {moves : Nat → Bool} {lockPairArray : List LockPrimitivePair} {fp seen : List VarAccess} {n : Nat}
  {f : LockProtectionField} {st : ProtectionFieldArray × Nat}

def StartsBefore (fp : List VarAccess) (n : Nat) (f : LockProtectionField) : Prop :=
  f.protectionRangeEnd = none → ∀ s, FirstThen fp n s → f.protectionRangeStart ≤ s

theorem StartsBefore.next (h : StartsBefore fp n f) : StartsBefore fp (n + 1) f := by
  intro hopen s hs
  by_cases hthen : ∃ va, fp[n]? = some va ∧ va.type = .thenBlock
  · have hn : FirstThen fp n n := ⟨Nat.le_refl n, hthen, fun m hm hlt => absurd hlt (by omega)⟩
    have hstart := h hopen n hn
    have hle := hs.le
    omega
  · refine h hopen s ⟨by have := hs.le; omega, hs.marked, ?_⟩
    intro m hm hlt va hva hty
    rcases Nat.eq_or_lt_of_le hm with rfl | hm
    · exact hthen ⟨va, hva, hty⟩
    · exact hs.first m hm hlt va hva hty

theorem closeField_of_open {objHash : UInt32} {r : Nat} (h : (closeField objHash r f).protectionRangeEnd = none) :
    closeField objHash r f = f := by
  rw [closeField] at h ⊢
  split at h
  next => cases h
  next hkept => rw [if_neg hkept]

theorem stateAfter_startsBefore (hseen : seen <+: fp) (hst : stateAfter moves lockPairArray fp seen = some st) :
    ∀ f ∈ st.1.lpFields, StartsBefore fp seen.length f := by
  refine stateAfter_rule (P := fun seen st => ∀ f ∈ st.1.lpFields, StartsBefore fp seen.length f)
    (fun f hf => by cases hf) ?_ hseen hst
  intro seen va rest st st' hfp hst h hstep
  have htidy := stateAfter_tidy ⟨va :: rest, hfp.symm⟩ hst
  have hnext : ∀ f ∈ st.1.lpFields, StartsBefore fp (seen.length + 1) f := fun f hf => (h f hf).next
  rw [List.length_append, List.length_singleton]
  cases hstep with
  | lockAcquire type named =>
      intro f hf
      rcases List.mem_append.mp hf with hf | hf
      · exact hnext f hf
      · rw [List.mem_singleton.mp hf]
        exact fun _ s hs => Nat.le_of_succ_le hs.le
  | lockRelease type named =>
      rw [setProtectionRangeEnd_fields fun f hf => (htidy f hf).tail]
      intro f' hf' hopen
      obtain ⟨f, hf, rfl⟩ := List.mem_map.mp hf'
      have hsame := closeField_of_open hopen
      rw [hsame] at hopen ⊢
      exact hnext f hf hopen
  | ifStmt type found =>
      refine copies_forall (fun _ i => splitActiveAt_copied _ _ i) ?_ ?_ _ hnext
      · exact fun n f _ _ hopen => by cases hopen
      · intro f _ _ _ s hs
        exact Nat.le_of_eq ((firstThen_of_startOfBranch found).unique hs)
  | elseStmt type =>
      refine copies_forall (fun _ i => reviveInactiveAt_copied _ _ i) ?_ ?_ _ hnext
      · exact fun n f _ htest hopen => absurd hopen (isInactive_iff.mp htest).2.1
      · exact fun f _ _ _ s hs => Nat.le_of_succ_le hs.le
  | other _ _ _ _ => exact hnext

end Starts

section Split

variable {s k depth : Nat}

theorem covers_split (hk : k ≠ s) {x : Segment} (hopen : x.isOpen = true) (hstart : x.rangeStart ≤ s) :
    (k < s ∧ (x.splitAt s depth).covers k = x.covers k ∧ (x.reopenAt s).covers k = false) ∨
      (s < k ∧ (x.splitAt s depth).covers k = false ∧ (x.reopenAt s).covers k = true ∧ x.covers k = true) := by
  have hend : x.rangeEnd = none := Option.isNone_iff_eq_none.mp hopen
  rcases Nat.lt_or_gt_of_ne hk with hlt | hlt
  · have hle : ¬ s < k := by omega
    exact .inl ⟨hlt, by simp [Segment.splitAt, hopen, Segment.covers, hend, hlt],
      by simp [Segment.reopenAt, Segment.covers, hle]⟩
  · have hle : ¬ k < s := by omega
    have hin : x.rangeStart < k := by omega
    exact .inr ⟨hlt, by simp [Segment.splitAt, hopen, Segment.covers, hle],
      by simp [Segment.reopenAt, Segment.covers, hlt], by simp [Segment.covers, hend, hin]⟩

/-- A split keeps the locks of the ranges that cover a place, apart from the place of the split. -/
theorem split_filter_perm (hk : k ≠ s) {l : List Segment} (hl : ∀ x ∈ l, x.isOpen = true → x.rangeStart ≤ s) :
    (((splitSegments s depth l).filter (Segment.covers k)).map Segment.objHash).Perm
      ((l.filter (Segment.covers k)).map Segment.objHash) := by
  rw [splitSegments]
  induction l with
  | nil => exact .nil
  | cons x l ih =>
      obtain ⟨hx, hl⟩ := List.forall_mem_cons.mp hl
      have ih := ih hl
      rw [List.filter_append, List.map_append] at ih ⊢
      cases hopen : x.isOpen with
      | false =>
          have hsame : x.splitAt s depth = x := by simp [Segment.splitAt, hopen]
          rw [List.map_cons, hsame, List.filter_cons_of_neg (p := Segment.isOpen) (by simp [hopen]),
            List.filter_cons, List.filter_cons]
          split
          next => exact ih.cons x.objHash
          next => exact ih
      | true =>
          rw [List.map_cons, List.filter_cons_of_pos hopen, List.map_cons, List.filter_cons, List.filter_cons,
            List.filter_cons]
          rcases @covers_split _ _ depth hk _ hopen (hx hopen) with ⟨-, hcapped, hnew⟩ | ⟨-, hcapped, hnew, hin⟩
          · rw [hcapped, hnew, if_neg Bool.false_ne_true]
            split
            next =>
              rw [List.map_cons, LockVerdict.objHash_splitAt]
              exact ih.cons x.objHash
            next => exact ih
          · rw [hcapped, hnew, hin, if_neg Bool.false_ne_true, if_pos rfl, if_pos rfl]
            exact List.perm_middle.trans (ih.cons x.objHash)

variable {lockPairArray : List LockPrimitivePair} {fp seen rest : List VarAccess} {va : VarAccess}
  {st : ProtectionFieldArray × Nat}

theorem activeLocks_of_threads {arr : ProtectionFieldArray} {z : List (LockProtectionField × Nat)}
    (h : Threads arr z) (k : Nat) : activeLocks arr k =
      (starts z).flatMap fun c => ((segmentsOf z c).filter (Segment.covers k)).map Segment.objHash := by
  rw [← List.map_flatMap, ← h.inRange, List.map_map]
  rfl

/-- Splitting at an if keeps the locks found active at every place but the start of the branch. -/
theorem split_keeps_locks (hfp : fp = seen ++ va :: rest) (hty : va.type = .ifStmt)
    (hst : stateAfter inPlace lockPairArray fp seen = some st) (hs : startOfBranch fp seen.length = some s) :
    stateAfter inPlace lockPairArray fp (seen ++ [va]) =
        some (addProtectionRangeFieldsActive inPlace st.1 s (sizeSucc st.2), sizeSucc st.2) ∧
      ∀ depth k, k ≠ s →
        (activeLocks (addProtectionRangeFieldsActive inPlace st.1 s depth) k).Perm (activeLocks st.1 k) := by
  refine ⟨by simp [stateAfter_snoc, hst, annotateAt, hty, hs], fun depth k hk => ?_⟩
  have hstarts := stateAfter_startsBefore ⟨va :: rest, hfp.symm⟩ hst
  have hfirst : ∀ {f}, f ∈ st.1.lpFields → f.protectionRangeEnd = none → f.protectionRangeStart ≤ s := by
    intro f hf hopen
    exact (hstarts f hf).next hopen s (firstThen_of_startOfBranch hs)
  obtain ⟨z, hz⟩ := (reachable_stateAfter hst).threads
  obtain ⟨z', hz', hsame, -, hsplit⟩ := hz.split s depth
  rw [activeLocks_of_threads hz', activeLocks_of_threads hz, hsame]
  apply List.Perm.flatMap_left _
  intro c _
  rw [hsplit]
  apply split_filter_perm hk
  intro x hx hopen
  obtain ⟨f, hf, rfl⟩ := List.mem_map.mp hx
  obtain ⟨y, hy, rfl⟩ := List.mem_map.mp hf
  refine hfirst ?_ (Option.isNone_iff_eq_none.mp hopen)
  rw [← hz.fields]
  exact List.mem_map_of_mem (List.mem_filter.mp hy).1

theorem lockedBranch_split_keeps_locks : ∃ st, stateAfter inPlace defaultLockPairs lockedBranch
      [LockPaths.lockOf "m"] = some st ∧
    stateAfter inPlace defaultLockPairs lockedBranch
        [LockPaths.lockOf "m", LockPaths.lockEntry .ifStmt "" none] =
      some (addProtectionRangeFieldsActive inPlace st.1 2 (sizeSucc st.2), sizeSucc st.2) ∧
    ∀ depth k, k ≠ 2 →
      (activeLocks (addProtectionRangeFieldsActive inPlace st.1 2 depth) k).Perm (activeLocks st.1 k) :=
  ⟨_, rfl, @split_keeps_locks _ _ lockedBranch [LockPaths.lockOf "m"] _ _ _ rfl rfl rfl rfl⟩

end Split

end Prongc.SplitCoverage
