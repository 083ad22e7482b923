import Prongc.RangeFields
import Prongc.VerdictSides

namespace Prongc.LockIdentity

open Access LockTracking LockRanges LockPaths AnnotationRun RangeFields VerdictSides

/-- The acquired USRs behind a copying round. A copy has the one of the range it is made of. -/
def copyOwner (owners : List String) (i length : Nat) : List String := (owners ++ owners[i]?.toList).take length

/-- The arrays that the operations lead to, and for each range the USR of the acquisition that opened it. -/
inductive Owned (moves : Nat → Bool) : ProtectionFieldArray → List String → Prop
  | init : Owned moves initProtectionFieldArray []
  | opened {arr : ProtectionFieldArray} {owners : List String} (pair : LockPrimitivePair) (usr : String)
      (start capacity : Nat) (owned : Owned moves arr owners) :
      Owned moves ⟨arr.lpFields ++ [openedRange pair usr start], capacity⟩ (owners ++ [usr])
  | closed {arr : ProtectionFieldArray} {owners : List String} (usr : String) (protRangeEnd : Nat)
      (owned : Owned moves arr owners) : Owned moves (setProtectionRangeEnd arr usr protRangeEnd) owners
  | split {arr : ProtectionFieldArray} {owners : List String} (start depth i : Nat) (owned : Owned moves arr owners) :
      Owned moves (splitActiveAt moves start depth arr i)
        (copyOwner owners i (splitActiveAt moves start depth arr i).lpFields.length)
  | revived {arr : ProtectionFieldArray} {owners : List String} (start depth i : Nat)
      (owned : Owned moves arr owners) : Owned moves (reviveInactiveAt moves start depth arr i)
        (copyOwner owners i (reviveInactiveAt moves start depth arr i).lpFields.length)

def RangeOf (owners : List String) (arr : ProtectionFieldArray) (usr : String) (f : LockProtectionField) : Prop :=
  ∃ i : Nat, owners[i]? = some usr ∧ arr.lpFields[i]? = some f

/-- No release of the second lock changes a range of the first, and ranges of the two never match. -/
structure NeverConfused (u v : String) : Prop where
  release : ∀ moves arr owners, Owned moves arr owners → ∀ (i : Nat) f, owners[i]? = some u →
    arr.lpFields[i]? = some f → ∀ protRangeEnd, (setProtectionRangeEnd arr v protRangeEnd).lpFields[i]? = some f
  unequal : ∀ moves moves' arr arr' owners owners', Owned moves arr owners → Owned moves' arr' owners' →
    ∀ a b, RangeOf owners arr u a → RangeOf owners' arr' v b → equalLpFields a b = false
  unmatched : ∀ moves moves' arr arr' owners owners', Owned moves arr owners → Owned moves' arr' owners' →
    ∀ i j a, a ∈ getLpFieldsInRange arr i → RangeOf owners arr u a →
      (∀ b ∈ getLpFieldsInRange arr' j, RangeOf owners' arr' v b) →
        matchingProtectionFieldArrays arr arr' i j ≠ .sharedProtected

section Owners

variable {moves : Nat → Bool} {arr arr' : ProtectionFieldArray} {owners owners' : List String}

structure OwnersHashed (arr : ProtectionFieldArray) (owners : List String) : Prop where
  hashes : owners.map lockTrackingGenHash = arr.lpFields.map LockProtectionField.lockObjHash
  tails : ∀ f ∈ arr.lpFields, Tail f

theorem OwnersHashed.copied (h : OwnersHashed arr owners) {test : LockProtectionField → Bool}
    {link : Nat → LockProtectionField → LockProtectionField} {start i : Nat}
    (hcopied : Copied test link (uncapped start) arr.lpFields i arr'.lpFields)
    (hhash : ∀ n f, (link n f).lockObjHash = f.lockObjHash)
    (htail : ∀ n f, Tail f → test f = true → Tail (link n f)) :
    OwnersHashed arr' (copyOwner owners i arr'.lpFields.length) := by
  refine ⟨?_, hcopied.forall htail (fun _ _ _ _ => rfl) h.tails⟩
  have hlength : owners.length = arr.lpFields.length := by
    simpa using congrArg List.length h.hashes
  have howner : owners[i]?.map lockTrackingGenHash = arr.lpFields[i]?.map LockProtectionField.lockObjHash := by
    rw [← List.getElem?_map, h.hashes, List.getElem?_map]
  rw [copyOwner, List.map_take, List.map_append, h.hashes]
  generalize arr'.lpFields = fields' at hcopied
  cases hcopied with
  | skipped _ => rw [List.take_left' (by simp)]
  | lost hf _ =>
      rw [hf] at howner
      obtain ⟨usr, husr, hsame⟩ := Option.map_eq_some_iff.mp howner
      rw [List.take_of_length_le (by simp [husr]), husr, List.map_append]
      exact congrArg _ (congrArg (fun hash => [hash]) hsame)
  | @linked f hf _ =>
      rw [hf] at howner
      obtain ⟨usr, husr, hsame⟩ := Option.map_eq_some_iff.mp howner
      have hset : (arr.lpFields.set i (link arr.lpFields.length f)).map LockProtectionField.lockObjHash =
          arr.lpFields.map LockProtectionField.lockObjHash := by
        obtain ⟨hi, hget⟩ := List.getElem?_eq_some_iff.mp hf
        rw [List.map_set, hhash, ← hget, ← List.getElem_map (f := LockProtectionField.lockObjHash) (h := by simpa using hi)]
        exact List.set_getElem_self _
      rw [List.take_of_length_le (by simp [husr]), husr, List.map_append, hset]
      exact congrArg _ (congrArg (fun hash => [hash]) hsame)

theorem Owned.hashed (h : Owned moves arr owners) : OwnersHashed arr owners := by
  induction h with
  | init => exact ⟨rfl, fun f hf => by cases hf⟩
  | opened pair usr start capacity _ ih =>
      refine ⟨?_, fun f hf => ?_⟩
      · rw [List.map_append, List.map_append, ih.hashes]
        rfl
      · rcases List.mem_append.mp hf with hf | hf
        · exact ih.tails f hf
        · rw [List.mem_singleton.mp hf]
          exact fun _ => rfl
  | closed usr protRangeEnd _ ih =>
      refine ⟨?_, ?_⟩
      · rw [setProtectionRangeEnd_fields ih.tails, ih.hashes, List.map_map]
        exact List.map_congr_left fun f _ => (closeField_objHash _ _ f).symm
      · rw [setProtectionRangeEnd_fields ih.tails]
        intro f' hf'
        obtain ⟨f, hf, rfl⟩ := List.mem_map.mp hf'
        exact tail_closeField _ _ (ih.tails f hf)
  | split start depth i _ ih =>
      exact ih.copied (splitActiveAt_copied _ _ i) (fun _ _ => rfl) fun _ _ _ _ hopen => by cases hopen
  | revived start depth i _ ih =>
      apply ih.copied (reviveInactiveAt_copied _ _ i) (fun _ _ => rfl)
      intro _ _ _ htest hopen
      exact absurd hopen (isInactive_iff.mp htest).2.1

theorem Owned.objHash (h : Owned moves arr owners) {i : Nat} {usr : String} {f : LockProtectionField}
    (howner : owners[i]? = some usr) (hf : arr.lpFields[i]? = some f) : f.lockObjHash = lockTrackingGenHash usr := by
  have hat := congrArg (fun l : List UInt32 => l[i]?) h.hashed.hashes
  simp only [List.getElem?_map, howner, hf, Option.map_some, Option.some.injEq] at hat
  exact hat.symm

theorem stateAfter_owned {lockPairArray : List LockPrimitivePair} {fp seen : List VarAccess}
    {st : ProtectionFieldArray × Nat} (hseen : seen <+: fp)
    (hst : stateAfter moves lockPairArray fp seen = some st) : ∃ owners, Owned moves st.1 owners := by
  refine stateAfter_rule (P := fun _ st => ∃ owners, Owned moves st.1 owners) ⟨[], .init⟩ ?_ hseen hst
  rintro seen va rest st st' - - ⟨owners, h⟩ hstep
  cases hstep with
  | lockAcquire _ _ => exact ⟨_, h.opened _ _ _ _⟩
  | lockRelease _ _ => exact ⟨_, h.closed _ _⟩
  | ifStmt _ _ =>
      exact List.foldlRecOn (motive := fun a : ProtectionFieldArray => ∃ owners, Owned moves a owners) _ _ ⟨_, h⟩
        fun a ⟨owners, ha⟩ i _ => ⟨_, ha.split _ _ i⟩
  | elseStmt _ =>
      exact List.foldlRecOn (motive := fun a : ProtectionFieldArray => ∃ owners, Owned moves a owners) _ _ ⟨_, h⟩
        fun a ⟨owners, ha⟩ i _ => ⟨_, ha.revived _ _ i⟩
  | other _ _ _ _ => exact ⟨owners, h⟩

end Owners

section Hashes

variable {u v : String}

theorem unequal_of_hash_ne (hne : lockTrackingGenHash u ≠ lockTrackingGenHash v) {moves moves' : Nat → Bool}
    {arr arr' : ProtectionFieldArray} {owners owners' : List String} (h : Owned moves arr owners)
    (h' : Owned moves' arr' owners') {a b : LockProtectionField} (ha : RangeOf owners arr u a)
    (hb : RangeOf owners' arr' v b) : equalLpFields a b = false := by
  obtain ⟨i, hu, ha⟩ := ha
  obtain ⟨j, hv, hb⟩ := hb
  rw [equalLpFields, h.objHash hu ha, h'.objHash hv hb]
  exact beq_false_of_ne hne

/-- The release of a lock closes the range of any other one with the same hash. -/
theorem confused_of_hash_eq (hsame : lockTrackingGenHash u = lockTrackingGenHash v) : ¬ NeverConfused u v := by
  intro h
  have hopened : Owned inPlace _ _ := Owned.init.opened ⟨"", ""⟩ u 0 0
  have hkept := h.release inPlace _ _ hopened 0 (openedRange ⟨"", ""⟩ u 0) rfl rfl 0
  rw [setProtectionRangeEnd_fields hopened.hashed.tails, List.getElem?_map] at hkept
  have hclosed : closeField (lockTrackingGenHash v) 0 (openedRange ⟨"", ""⟩ u 0) = openedRange ⟨"", ""⟩ u 0 :=
    Option.some.inj hkept
  have hend := congrArg LockProtectionField.protectionRangeEnd hclosed
  rw [closeField_end, if_pos ⟨rfl, hsame⟩] at hend
  cases hend

/-- Two locks are told apart exactly if their hashes differ. -/
theorem neverConfused_iff (u v : String) : NeverConfused u v ↔ lockTrackingGenHash u ≠ lockTrackingGenHash v := by
  constructor
  · exact fun h hsame => confused_of_hash_eq hsame h
  · intro hne
    refine ⟨?_, fun _ _ _ _ _ _ h h' a b ha hb => unequal_of_hash_ne hne h h' ha hb, ?_⟩
    · intro moves arr owners h i f howner hf r
      rw [setProtectionRangeEnd_fields h.hashed.tails, List.getElem?_map, hf, Option.map_some, closeField, if_neg]
      rintro ⟨-, hhash⟩
      exact hne ((h.objHash howner hf).symm.trans hhash)
    · intro moves moves' arr arr' owners owners' h h' i j a ha hu hv
      unfold matchingProtectionFieldArrays
      dsimp only
      split
      next => exact SharedProtectionQuality.noConfusion
      next =>
        rw [matchActiveProtections_eq, if_neg]
        · split <;> exact SharedProtectionQuality.noConfusion
        · intro hfound
          obtain ⟨b, hb, hequal⟩ := hfound a ha
          have hactive := (List.takeWhile_prefix _).subset hb
          rw [unequal_of_hash_ne hne h h' hu (hv b hactive)] at hequal
          cases hequal

/-- Two locks with one hash: the release of the second closes the range of the first, and the access under the
first counts as protected against one under the second. -/
theorem confused_locks : "c:@d_tx_mtx" ≠ "c:@down_irq_mutex" ∧
    lockTrackingGenHash "c:@d_tx_mtx" = lockTrackingGenHash "c:@down_irq_mutex" ∧
    ¬ NeverConfused "c:@d_tx_mtx" "c:@down_irq_mutex" ∧
    (annotateLockProtectionRanges inPlace defaultLockPairs [lockOf "c:@d_tx_mtx", unlockOf "c:@down_irq_mutex"]).map
      (fun arr => arr.lpFields.map LockProtectionField.protectionRangeEnd) = some [some 1] ∧
    ∃ arrA arrB, annotateLockProtectionRanges inPlace defaultLockPairs [lockOf "c:@d_tx_mtx", writeOf "x"] = some arrA ∧
      annotateLockProtectionRanges inPlace defaultLockPairs [lockOf "c:@down_irq_mutex", writeOf "x"] = some arrB ∧
        matchingProtectionFieldArrays arrA arrB 1 1 = .sharedProtected := by
  have hsame : lockTrackingGenHash "c:@d_tx_mtx" = lockTrackingGenHash "c:@down_irq_mutex" := by decide +kernel
  exact ⟨by decide, hsame, confused_of_hash_eq hsame, by decide +kernel, _, _, rfl, rfl, by decide +kernel⟩

end Hashes

end Prongc.LockIdentity
