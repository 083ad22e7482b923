import Mathlib.Order.Monotone.Basic
import Prongc.LockTracking

namespace Prongc.MovedRanges

open Access LockTracking Library.LinkedArray

def moveField (f : Nat → Nat) (lpField : LockProtectionField) : LockProtectionField :=
  { lpField with
    protectionRangeStart := f lpField.protectionRangeStart
    protectionRangeEnd := lpField.protectionRangeEnd.map f }

def moveArray (f : Nat → Nat) (arr : ProtectionFieldArray) : ProtectionFieldArray :=
  { arr with lpFields := arr.lpFields.map (moveField f) }

section Array

variable (f : Nat → Nat) (arr : ProtectionFieldArray)

@[simp] theorem moveArray_capacity : (moveArray f arr).capacity = arr.capacity := rfl

@[simp] theorem moveArray_length : (moveArray f arr).lpFields.length = arr.lpFields.length := by
  rw [moveArray, List.length_map]

@[simp] theorem moveArray_getElem? (i : Nat) :
    (moveArray f arr).lpFields[i]? = (arr.lpFields[i]?).map (moveField f) := by
  rw [moveArray, List.getElem?_map]

@[simp] theorem moveField_next (lpField : LockProtectionField) :
    (moveField f lpField).nextProtRange = lpField.nextProtRange := rfl

@[simp] theorem moveField_objHash (lpField : LockProtectionField) :
    (moveField f lpField).lockObjHash = lpField.lockObjHash := rfl

@[simp] theorem moveField_depth (lpField : LockProtectionField) :
    (moveField f lpField).branchDepth = lpField.branchDepth := rfl

@[simp] theorem moveField_isLlStart (lpField : LockProtectionField) :
    (moveField f lpField).isLlStart = lpField.isLlStart := rfl

@[simp] theorem moveField_open (lpField : LockProtectionField) :
    (moveField f lpField).protectionRangeEnd = none ↔ lpField.protectionRangeEnd = none := by
  rw [moveField, Option.map_eq_none_iff]

variable {f arr} in
theorem moveArray_store {g g' : LockProtectionField → LockProtectionField}
    (h : ∀ lpField, g (moveField f lpField) = moveField f (g' lpField)) (i : Nat) :
    (moveArray f arr).store i g = moveArray f (arr.store i g') := by
  have hfields : (arr.lpFields.map (moveField f)).modify i g = (arr.lpFields.modify i g').map (moveField f) := by
    apply List.ext_getElem?
    intro k
    rw [List.getElem?_modify, List.getElem?_map, List.getElem?_map, List.getElem?_modify]
    cases arr.lpFields[k]? with
    | none => rfl
    | some lpField =>
        by_cases hk : i = k
        · simp [hk, h]
        · simp [hk]
  exact congrArg (fun fields => (⟨fields, arr.capacity⟩ : ProtectionFieldArray)) hfields

theorem addLockProtectionField_move (pair : Option LockPrimitivePair) (va : VarAccess) (i : Nat) :
    addLockProtectionField (moveArray f arr) pair va (f i) =
      (addLockProtectionField arr pair va i).map (moveArray f) := by
  rw [addLockProtectionField, addLockProtectionField, initLpField, initLpField]
  cases pair with
  | none => rfl
  | some pair =>
      cases va.usr with
      | none => rfl
      | some usr =>
          simp only [Option.bind_eq_bind, Option.bind_some, Option.map_some, moveArray, List.map_append,
            List.length_map]
          rfl

theorem addLockProtectionCopy_move (lpField : LockProtectionField) :
    addLockProtectionCopy (moveArray f arr) (moveField f lpField) =
      moveArray f (addLockProtectionCopy arr lpField) := by
  rw [addLockProtectionCopy, addLockProtectionCopy]
  simp only [moveArray, List.map_append, List.length_map]
  rfl

theorem linkedListEnd_move (fields : List LockProtectionField) (fuel i : Nat) :
    linkedListEnd (fields.map (moveField f)) fuel i = linkedListEnd fields fuel i := by
  induction fuel generalizing i with
  | zero => rfl
  | succ fuel ih =>
      rw [linkedListEnd, linkedListEnd, List.getElem?_map]
      cases fields[i]? with
      | none => rfl
      | some lpField =>
          rw [Option.map_some, Option.bind_some, Option.bind_some, moveField_next]
          cases lpField.nextProtRange with
          | none => rfl
          | some next => exact ih next

theorem setRangeEndAt_move (objHash : UInt32) (rangeEnd i : Nat) :
    setRangeEndAt objHash (f rangeEnd) (moveArray f arr) i = moveArray f (setRangeEndAt objHash rangeEnd arr i) := by
  rw [setRangeEndAt, setRangeEndAt, moveArray_getElem?]
  cases arr.lpFields[i]? with
  | none => rfl
  | some lpField =>
      simp only [Option.map_some, moveField_open, moveField_objHash]
      split
      next =>
        have hend : getLpFieldLinkedListEnd (moveArray f arr) i = getLpFieldLinkedListEnd arr i := by
          rw [getLpFieldLinkedListEnd, moveArray_length]
          exact linkedListEnd_move f arr.lpFields _ i
        rw [hend]
        apply moveArray_store
        intro _
        rfl
      next => rfl

theorem foldl_move {step step' : ProtectionFieldArray → Nat → ProtectionFieldArray}
    (h : ∀ arr i, step' (moveArray f arr) i = moveArray f (step arr i)) (is : List Nat) :
    is.foldl step' (moveArray f arr) = moveArray f (is.foldl step arr) := by
  induction is generalizing arr with
  | nil => rfl
  | cons i is ih => rw [List.foldl_cons, List.foldl_cons, h, ih]

theorem setProtectionRangeEnd_move (usr : String) (rangeEnd : Nat) :
    setProtectionRangeEnd (moveArray f arr) usr (f rangeEnd) =
      moveArray f (setProtectionRangeEnd arr usr rangeEnd) := by
  rw [setProtectionRangeEnd, setProtectionRangeEnd, moveArray_length]
  exact foldl_move f arr (fun arr i => setRangeEndAt_move f arr _ rangeEnd i) _

theorem storeOld_move {g : LockProtectionField → LockProtectionField} (g' : LockProtectionField → LockProtectionField)
    (h : ∀ lpField, g (moveField f lpField) = moveField f (g' lpField)) (moved : Bool) (i : Nat) :
    storeOld moved (moveArray f arr) i g = moveArray f (storeOld moved arr i g') := by
  rw [storeOld, storeOld]
  split
  next => rfl
  next => exact moveArray_store h i

variable (moves : Nat → Bool)

theorem copyMoves_move : copyMoves moves (moveArray f arr) = copyMoves moves arr := by
  rw [copyMoves, copyMoves, moveArray_length, moveArray_capacity]

theorem splitActiveAt_move (start depth i : Nat) :
    splitActiveAt moves (f start) depth (moveArray f arr) i = moveArray f (splitActiveAt moves start depth arr i) := by
  rw [splitActiveAt, splitActiveAt, moveArray_getElem?]
  cases arr.lpFields[i]? with
  | none => rfl
  | some lpField =>
      simp only [Option.map_some, moveField_open]
      split
      next =>
        rw [copyMoves_move, addLockProtectionCopy_move, moveArray_length,
          storeOld_move f _ (fun lpField =>
            { lpField with nextProtRange := some arr.lpFields.length, protectionRangeEnd := some start,
                           branchDepth := depth }) (fun _ => rfl)]
        apply moveArray_store
        intro _
        rfl
      next => rfl

theorem reviveInactiveAt_move (start depth i : Nat) :
    reviveInactiveAt moves (f start) depth (moveArray f arr) i =
      moveArray f (reviveInactiveAt moves start depth arr i) := by
  rw [reviveInactiveAt, reviveInactiveAt, moveArray_getElem?]
  cases arr.lpFields[i]? with
  | none => rfl
  | some lpField =>
      simp only [Option.map_some, moveField_next, moveField_depth, ne_eq, moveField_open]
      split
      next =>
        rw [copyMoves_move, addLockProtectionCopy_move, moveArray_length,
          storeOld_move f _ (fun lpField => { lpField with nextProtRange := some arr.lpFields.length })
            (fun _ => rfl)]
        apply moveArray_store
        intro _
        rfl
      next => rfl

theorem addProtectionRangeFieldsActive_move (start depth : Nat) :
    addProtectionRangeFieldsActive moves (moveArray f arr) (f start) depth =
      moveArray f (addProtectionRangeFieldsActive moves arr start depth) := by
  rw [addProtectionRangeFieldsActive, addProtectionRangeFieldsActive, moveArray_length]
  exact foldl_move f arr (fun arr i => splitActiveAt_move f arr moves start depth i) _

theorem addProtectionRangeFieldsInactive_move (start depth : Nat) :
    addProtectionRangeFieldsInactive moves (moveArray f arr) (f start) depth =
      moveArray f (addProtectionRangeFieldsInactive moves arr start depth) := by
  rw [addProtectionRangeFieldsInactive, addProtectionRangeFieldsInactive, moveArray_length]
  exact foldl_move f arr (fun arr i => reviveInactiveAt_move f arr moves start depth i) _

end Array

section Ranges

variable {f : Nat → Nat}

theorem inProtectionRange_move (hf : StrictMono f) (vaIdx : Nat) (lpField : LockProtectionField) :
    inProtectionRange (f vaIdx) (moveField f lpField) = inProtectionRange vaIdx lpField := by
  rw [inProtectionRange, inProtectionRange, moveField, lpCondProt, lpCondProt]
  cases lpField.protectionRangeEnd with
  | none => simp [hf.lt_iff_lt]
  | some rangeEnd => simp [hf.lt_iff_lt]

theorem linkedRanges_move (f : Nat → Nat) (fields : List LockProtectionField) (fuel i : Nat) :
    linkedRanges (fields.map (moveField f)) fuel i = (linkedRanges fields fuel i).map (moveField f) := by
  rw [linkedRanges, linkedRanges]
  induction fuel generalizing i with
  | zero => rfl
  | succ fuel ih =>
      rw [follow, follow, List.getElem?_map]
      cases fields[i]? with
      | none => rfl
      | some lpField =>
          simp only [Option.map_some, moveField_next]
          cases lpField.nextProtRange with
          | none => rfl
          | some next => simp only [ih, List.map_cons]

theorem getLpFieldsInRange_move (hf : StrictMono f) (arr : ProtectionFieldArray) (vaIdx : Nat) :
    getLpFieldsInRange (moveArray f arr) (f vaIdx) = (getLpFieldsInRange arr vaIdx).map (moveField f) := by
  rw [getLpFieldsInRange, getLpFieldsInRange, moveArray_length, List.map_flatMap]
  congr 1
  funext i
  rw [moveArray_getElem?, Option.map_map]
  have hstart : LockProtectionField.isLlStart ∘ moveField f = LockProtectionField.isLlStart := rfl
  have hrange : inProtectionRange (f vaIdx) ∘ moveField f = inProtectionRange vaIdx := by
    funext lpField
    exact inProtectionRange_move hf vaIdx lpField
  rw [hstart]
  split
  next =>
    rw [← hrange, ← List.filter_map, ← linkedRanges_move]
    rfl
  next => rfl

theorem containsLpField_move (f g : Nat → Nat) (lpField : LockProtectionField) (active : List LockProtectionField) :
    containsLpField (moveField f lpField) (active.map (moveField g)) = containsLpField lpField active := by
  induction active with
  | nil => rfl
  | cons other active ih =>
      rw [List.map_cons, containsLpField, containsLpField, ih]
      rfl

theorem matchActiveProtections_move (f g : Nat → Nat) (activeA activeB : List LockProtectionField) :
    matchActiveProtections (activeA.map (moveField f)) (activeB.map (moveField g)) =
      matchActiveProtections activeA activeB := by
  induction activeA with
  | nil => rfl
  | cons lpField activeA ih =>
      rw [List.map_cons, matchActiveProtections, matchActiveProtections, containsLpField_move]
      cases containsLpField lpField activeB with
      | none => rfl
      | some found =>
          cases found with
          | false => rfl
          | true => exact ih

theorem matching_move {g : Nat → Nat} (hf : StrictMono f) (hg : StrictMono g) (arrA arrB : ProtectionFieldArray)
    (i j : Nat) : matchingProtectionFieldArrays (moveArray f arrA) (moveArray g arrB) (f i) (g j) =
      matchingProtectionFieldArrays arrA arrB i j := by
  rw [matchingProtectionFieldArrays, matchingProtectionFieldArrays, getLpFieldsInRange_move hf,
    getLpFieldsInRange_move hg, List.length_map, List.length_map, matchActiveProtections_move]

theorem badProtection_move {g : Nat → Nat} (hf : StrictMono f) (hg : StrictMono g) (arrA arrB : ProtectionFieldArray)
    (i j : Nat) : badProtection (moveArray f arrA) (moveArray g arrB) (f i) (g j) = badProtection arrA arrB i j := by
  rw [badProtection, badProtection, matching_move hf hg, moveArray_length, moveArray_length]

end Ranges

end Prongc.MovedRanges
