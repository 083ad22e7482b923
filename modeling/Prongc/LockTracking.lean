import Mathlib.Algebra.Group.Nat.Defs
import Prongc.Access
import Prongc.Library.CStrings
import Prongc.Library.LinkedArray
import Prongc.Library.SizeT

namespace Prongc.LockTracking

open Access Library.CStrings Library.SizeT

def defaultLockPairs : List LockPrimitivePair :=
  [⟨"pthread_mutex_lock", "pthread_mutex_unlock"⟩,
   ⟨"pthread_mutex_trylock", "pthread_mutex_unlock"⟩,
   ⟨"pthread_spin_lock", "pthread_spin_unlock"⟩,
   ⟨"pthread_spin_trylock", "pthread_spin_unlock"⟩,
   ⟨"mutex_lock", "mutex_unlock"⟩,
   ⟨"mutex_lock_interruptible", "mutex_unlock"⟩,
   ⟨"mutex_lock_killable", "mutex_unlock"⟩,
   ⟨"spin_lock", "spin_unlock"⟩,
   ⟨"spin_lock_irq", "spin_unlock_irq"⟩,
   ⟨"spin_lock_irqsave", "spin_unlock_irqrestore"⟩,
   ⟨"spin_lock_bh", "spin_unlock_bh"⟩,
   ⟨"raw_spin_lock", "raw_spin_unlock"⟩,
   ⟨"raw_spin_lock_irq", "raw_spin_unlock_irq"⟩,
   ⟨"raw_spin_lock_irqsave", "raw_spin_lock_irqrestore"⟩]

/-- The marking of a call's first argument, over the default table only. -/
def lockPrimitiveTypeIn (pairs : List LockPrimitivePair) (escFuncSpelling : String) : VarAccessType :=
  match pairs with
  | [] => .null
  | primPair :: pairs =>
      if escFuncSpelling = primPair.lockFunc then .lockAcquire
      else if escFuncSpelling = primPair.unlockFunc then .lockRelease
      else lockPrimitiveTypeIn pairs escFuncSpelling

def lockPrimitiveType (escFuncSpelling : String) : VarAccessType :=
  lockPrimitiveTypeIn defaultLockPairs escFuncSpelling

/-- The first pair with the given lock function; the null pair is `none`. -/
def getPairByLockFunc (lockPairArray : List LockPrimitivePair) (lockFuncName : Option String) :
    Option LockPrimitivePair :=
  lockFuncName.bind (fun name => lockPairArray.find? (fun pair => pair.lockFunc == name))

def fnvOffsetBasis : UInt32 := 0x811c9dc5

def fnvPrime : UInt32 := 0x01000193

def lockTrackingGenHash (strIn : String) : UInt32 :=
  (ascii strIn).foldl (fun hash c => (hash * fnvPrime) ^^^ c.toUInt32) fnvOffsetBasis

/-- A protection range. Links are indices into the array, and an end of
SIZE_MAX is `none`. -/
structure LockProtectionField where
  nextProtRange : Option Nat
  branchDepth : Nat
  protectionRangeStart : Nat
  protectionRangeEnd : Option Nat
  lockObjHash : UInt32
  lockFuncHash : UInt32
  unlockFuncHash : UInt32
  isLlStart : Bool
  deriving DecidableEq, Repr

/-- Hashing a null string is undefined, so a null pair or a null USR gives `none`. -/
def initLpField (primitivePair : Option LockPrimitivePair) (lockVa : VarAccess)
    (protRangeStart : Nat) : Option LockProtectionField := do
  let pair ← primitivePair
  let usr ← lockVa.usr
  some
    { nextProtRange := none
      branchDepth := 0
      protectionRangeStart := protRangeStart
      protectionRangeEnd := none
      lockObjHash := lockTrackingGenHash usr
      lockFuncHash := lockTrackingGenHash pair.lockFunc
      unlockFuncHash := lockTrackingGenHash pair.unlockFunc
      isLlStart := true }

structure ProtectionFieldArray where
  lpFields : List LockProtectionField
  capacity : Nat
  deriving DecidableEq, Repr

def ProtectionFieldArray.store (arr : ProtectionFieldArray) (i : Nat)
    (f : LockProtectionField → LockProtectionField) : ProtectionFieldArray where
  lpFields := arr.lpFields.modify i f
  capacity := arr.capacity

def numLpFields : Nat := 10

def initProtectionFieldArray : ProtectionFieldArray := ⟨[], numLpFields⟩

def addLockProtectionField (arr : ProtectionFieldArray) (primitivePair : Option LockPrimitivePair)
    (lockVa : VarAccess) (protRangeStart : Nat) : Option ProtectionFieldArray := do
  let lpField ← initLpField primitivePair lockVa protRangeStart
  some
    { lpFields := arr.lpFields ++ [lpField]
      capacity := if arr.capacity ≤ arr.lpFields.length then arr.capacity * 2 else arr.capacity }

def addLockProtectionCopy (arr : ProtectionFieldArray) (lpFieldIn : LockProtectionField) :
    ProtectionFieldArray where
  lpFields := arr.lpFields ++ [{ lpFieldIn with isLlStart := false, nextProtRange := none }]
  capacity := if arr.capacity - 1 ≤ arr.lpFields.length then arr.capacity * 2 else arr.capacity

/-- Whether the next copy moves the block. `moves` says of each capacity
whether reallocarray moves a block of that capacity when it grows it. -/
def copyMoves (moves : Nat → Bool) (arr : ProtectionFieldArray) : Bool :=
  decide (arr.capacity - 1 ≤ arr.lpFields.length) && moves arr.capacity

/-- A store through a pointer taken before the copy. It is lost when the
block has moved under the pointer. -/
def storeOld (moved : Bool) (arr : ProtectionFieldArray) (i : Nat)
    (f : LockProtectionField → LockProtectionField) : ProtectionFieldArray :=
  if moved then arr else arr.store i f

def linkedListEnd (fields : List LockProtectionField) : Nat → Nat → Nat
  | 0, i => i
  | fuel + 1, i =>
      match fields[i]?.bind LockProtectionField.nextProtRange with
      | none => i
      | some next => linkedListEnd fields fuel next

def getLpFieldLinkedListEnd (arr : ProtectionFieldArray) (i : Nat) : Nat :=
  linkedListEnd arr.lpFields arr.lpFields.length i

def setRangeEndAt (lockObjHash : UInt32) (protRangeEnd : Nat) (arr : ProtectionFieldArray) (i : Nat) :
    ProtectionFieldArray :=
  match arr.lpFields[i]? with
  | none => arr
  | some lpField =>
      if lpField.protectionRangeEnd = none ∧ lpField.lockObjHash = lockObjHash then
        arr.store (getLpFieldLinkedListEnd arr i)
          (fun f => { f with protectionRangeEnd := some protRangeEnd })
      else arr

def setProtectionRangeEnd (arr : ProtectionFieldArray) (lockObjUsr : String) (protRangeEnd : Nat) :
    ProtectionFieldArray :=
  (List.range arr.lpFields.length).foldl
    (setRangeEndAt (lockTrackingGenHash lockObjUsr) protRangeEnd) arr

def splitActiveAt (moves : Nat → Bool) (protRangeStart branchDepth : Nat)
    (arr : ProtectionFieldArray) (i : Nat) : ProtectionFieldArray :=
  match arr.lpFields[i]? with
  | none => arr
  | some lpField =>
      if lpField.protectionRangeEnd = none then
        let new := arr.lpFields.length
        let linked := storeOld (copyMoves moves arr) (addLockProtectionCopy arr lpField) i
          (fun f => { f with nextProtRange := some new, protectionRangeEnd := some protRangeStart,
                             branchDepth := branchDepth })
        linked.store new
          (fun f => { f with protectionRangeStart := protRangeStart, protectionRangeEnd := none })
      else arr

def addProtectionRangeFieldsActive (moves : Nat → Bool) (arr : ProtectionFieldArray)
    (protRangeStart branchDepth : Nat) : ProtectionFieldArray :=
  (List.range arr.lpFields.length).foldl (splitActiveAt moves protRangeStart branchDepth) arr

def reviveInactiveAt (moves : Nat → Bool) (protRangeStart branchDepth : Nat)
    (arr : ProtectionFieldArray) (i : Nat) : ProtectionFieldArray :=
  match arr.lpFields[i]? with
  | none => arr
  | some lpField =>
      if lpField.nextProtRange = none ∧ lpField.protectionRangeEnd ≠ none ∧
          lpField.branchDepth = branchDepth then
        let new := arr.lpFields.length
        let linked := storeOld (copyMoves moves arr) (addLockProtectionCopy arr lpField) i
          (fun f => { f with nextProtRange := some new })
        linked.store new
          (fun f => { f with protectionRangeStart := protRangeStart, protectionRangeEnd := none })
      else arr

def addProtectionRangeFieldsInactive (moves : Nat → Bool) (arr : ProtectionFieldArray)
    (protRangeStart branchDepth : Nat) : ProtectionFieldArray :=
  (List.range arr.lpFields.length).foldl (reviveInactiveAt moves protRangeStart branchDepth) arr

def equalLpFields (a b : LockProtectionField) : Bool := a.lockObjHash == b.lockObjHash

def lpCondProt (lpField : LockProtectionField) : Bool :=
  lpField.nextProtRange.isSome && lpField.protectionRangeEnd.isNone && lpField.branchDepth != 0

def inProtectionRange (vaIdx : Nat) (lpField : LockProtectionField) : Bool :=
  (decide (lpField.protectionRangeStart < vaIdx) &&
    lpField.protectionRangeEnd.all (fun rangeEnd => decide (vaIdx < rangeEnd))) || lpCondProt lpField

def linkedRanges (fields : List LockProtectionField) (fuel i : Nat) : List LockProtectionField :=
  Library.LinkedArray.follow LockProtectionField.nextProtRange fields fuel i

def getLpFieldsInRange (arr : ProtectionFieldArray) (vaIdx : Nat) : List LockProtectionField :=
  (List.range arr.lpFields.length).flatMap (fun i =>
    if (arr.lpFields[i]?.map LockProtectionField.isLlStart).getD false then
      (linkedRanges arr.lpFields arr.lpFields.length i).filter (inProtectionRange vaIdx)
    else [])

inductive SharedProtectionQuality
  | sharedProtected | sharedUnprotected | sharedUncertain
  deriving DecidableEq, Repr

/-- The inner loop of the comparison; `none` is the early return of Shared_Uncertain. -/
def containsLpField (lpFieldA : LockProtectionField) : List LockProtectionField → Option Bool
  | [] => some false
  | lpFieldB :: rest =>
      if lpFieldB.branchDepth ≠ 0 ∨ lpFieldB.branchDepth ≠ 0 then none
      else if equalLpFields lpFieldA lpFieldB then some true
      else containsLpField lpFieldA rest

def matchActiveProtections : List LockProtectionField → List LockProtectionField →
    SharedProtectionQuality
  | [], _ => .sharedProtected
  | lpFieldA :: rest, activeB =>
      match containsLpField lpFieldA activeB with
      | none => .sharedUncertain
      | some false => .sharedUnprotected
      | some true => matchActiveProtections rest activeB

def matchingProtectionFieldArrays (a b : ProtectionFieldArray) (vaIdxI vaIdxJ : Nat) :
    SharedProtectionQuality :=
  let activeA := getLpFieldsInRange a vaIdxI
  let activeB := getLpFieldsInRange b vaIdxJ
  if activeA.length ≠ activeB.length then .sharedUnprotected
  else matchActiveProtections activeA activeB

/-- The scan for the next then-block marker; `none` when it runs off the footprint. -/
def startOfBranch (accessFootprint : List VarAccess) (i : Nat) : Option Nat :=
  ((accessFootprint.drop (i + 1)).findIdx? (fun va => va.type == .thenBlock)).map (· + (i + 1))

def annotateAt (moves : Nat → Bool) (lockPairArray : List LockPrimitivePair)
    (accessFootprint : List VarAccess) (st : ProtectionFieldArray × Nat) (entry : VarAccess × Nat) :
    Option (ProtectionFieldArray × Nat) :=
  let workingVa := entry.1
  let i := entry.2
  match workingVa.type with
  | .lockAcquire => do
      let arr ← addLockProtectionField st.1
        (getPairByLockFunc lockPairArray workingVa.escFuncSpelling) workingVa i
      some (arr, st.2)
  | .lockRelease => do
      let usr ← workingVa.usr
      some (setProtectionRangeEnd st.1 usr i, st.2)
  | .ifStmt => do
      let start ← startOfBranch accessFootprint i
      some (addProtectionRangeFieldsActive moves st.1 start (sizeSucc st.2), sizeSucc st.2)
  | .elseStmt => some (addProtectionRangeFieldsInactive moves st.1 i (sizePred st.2), st.2)
  | .endIf => some (st.1, sizePred st.2)
  | _ => some st

def annotateLockProtectionRanges (moves : Nat → Bool) (lockPairArray : List LockPrimitivePair)
    (accessFootprint : List VarAccess) : Option ProtectionFieldArray :=
  (accessFootprint.zipIdx.foldlM (annotateAt moves lockPairArray accessFootprint)
    (initProtectionFieldArray, 0)).map Prod.fst

def badProtection (a b : ProtectionFieldArray) (i j : Nat) : Bool :=
  matchingProtectionFieldArrays a b i j != .sharedProtected ||
    (a.lpFields.length == 0 || b.lpFields.length == 0)

end Prongc.LockTracking
