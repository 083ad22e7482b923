import Prongc.ElseBranch

namespace Prongc.VerdictSides

open Access LockTracking LockRanges LockVerdict LockPaths ElseBranch

section Sides

variable (activeA activeB : List LockProtectionField)

def beforeBranches : List LockProtectionField := activeA.takeWhile fun f => f.branchDepth = 0

def anyInBranch : Bool := activeA.any fun f => f.branchDepth ≠ 0

def AllFound : Prop := ∀ a ∈ activeA, ∃ b ∈ beforeBranches activeB, equalLpFields a b = true

instance : Decidable (AllFound activeA activeB) :=
  inferInstanceAs (Decidable (∀ a ∈ activeA, ∃ b ∈ beforeBranches activeB, equalLpFields a b = true))

/-- Different numbers of active ranges on the two sides, or each side finds its ranges on the other, or
neither does and ranges in branches stand on both sides or on none. -/
def SidesAgree : Prop :=
  activeA.length ≠ activeB.length ∨ (AllFound activeA activeB ∧ AllFound activeB activeA) ∨
    (¬ AllFound activeA activeB ∧ ¬ AllFound activeB activeA ∧ anyInBranch activeA = anyInBranch activeB)

instance : Decidable (SidesAgree activeA activeB) := inferInstanceAs (Decidable (_ ∨ _ ∨ _))

variable {activeA activeB}

theorem containsLpField_eq (a : LockProtectionField) (activeB : List LockProtectionField) :
    containsLpField a activeB =
      if ∃ b ∈ beforeBranches activeB, equalLpFields a b = true then some true
      else if anyInBranch activeB = true then none else some false := by
  induction activeB with
  | nil => rfl
  | cons b rest ih =>
      rw [beforeBranches, anyInBranch] at ih ⊢
      rw [containsLpField, List.takeWhile_cons, List.any_cons]
      by_cases hdepth : b.branchDepth = 0
      · by_cases hequal : equalLpFields a b = true
        · simp [hdepth, hequal]
        · simp [hdepth, hequal, ih]
      · simp [hdepth]

/-- The verdict of the loop over the ranges of the first side. -/
theorem matchActiveProtections_eq (activeA activeB : List LockProtectionField) :
    matchActiveProtections activeA activeB =
      if AllFound activeA activeB then .sharedProtected
      else if anyInBranch activeB = true then .sharedUncertain else .sharedUnprotected := by
  induction activeA with
  | nil => simp [matchActiveProtections, AllFound]
  | cons a rest ih =>
      have hcons : AllFound (a :: rest) activeB ↔
          (∃ b ∈ beforeBranches activeB, equalLpFields a b = true) ∧ AllFound rest activeB := by
        rw [AllFound, List.forall_mem_cons]
        rfl
      rw [matchActiveProtections, containsLpField_eq]
      by_cases hfound : ∃ b ∈ beforeBranches activeB, equalLpFields a b = true
      · simp only [hcons, hfound, true_and, if_true]
        exact ih
      · rw [if_neg hfound, if_neg fun h => hfound (hcons.mp h).1]
        cases anyInBranch activeB <;> rfl

theorem verdicts_agree_iff (hlength : activeA.length = activeB.length) :
    matchActiveProtections activeA activeB = matchActiveProtections activeB activeA ↔
      SidesAgree activeA activeB := by
  rw [matchActiveProtections_eq, matchActiveProtections_eq, SidesAgree]
  by_cases hA : AllFound activeA activeB
  · by_cases hB : AllFound activeB activeA
    · simp [hA, hB]
    · simp only [hA, hB, hlength, ne_eq, not_true_eq_false, if_true, if_false, and_false, false_and, or_false]
      split <;> simp
  · by_cases hB : AllFound activeB activeA
    · simp only [hA, hB, hlength, ne_eq, not_true_eq_false, if_true, if_false, and_false, false_and, or_false]
      split <;> simp
    · cases hbranchA : anyInBranch activeA <;> cases hbranchB : anyInBranch activeB <;>
        simp [hA, hB, hlength]

/-- When the verdict on two entries is the same from both sides. -/
theorem matching_sides_iff (a b : ProtectionFieldArray) (i j : Nat) :
    matchingProtectionFieldArrays a b i j = matchingProtectionFieldArrays b a j i ↔
      SidesAgree (getLpFieldsInRange a i) (getLpFieldsInRange b j) := by
  unfold matchingProtectionFieldArrays
  by_cases hlength : (getLpFieldsInRange a i).length = (getLpFieldsInRange b j).length
  · rw [if_neg (by simp [hlength]), if_neg (by simp [hlength])]
    exact verdicts_agree_iff hlength
  · rw [if_pos hlength, if_pos (Ne.symm hlength)]
    exact iff_of_true rfl (.inl hlength)

end Sides

/-- lock(m); x = 1; -/
def lockedWrite : List VarAccess := [lockOf "m", writeOf "x"]

/-- lock(m); x = 1; if (c) { } -/
def branchBehind : List VarAccess :=
  [lockOf "m", writeOf "x", markerOf .ifStmt, readOf "c", markerOf .thenBlock, markerOf .endIf]

/-- The write is protected seen from the side with the branch, and uncertain seen from the other. -/
theorem lockedWrite_sides_differ : ∃ arrA arrB,
    annotateLockProtectionRanges inPlace defaultLockPairs lockedWrite = some arrA ∧
      annotateLockProtectionRanges inPlace defaultLockPairs branchBehind = some arrB ∧
        matchingProtectionFieldArrays arrA arrB 1 1 ≠ matchingProtectionFieldArrays arrB arrA 1 1 := by
  refine ⟨_, _, rfl, rfl, ?_⟩
  decide +kernel

end Prongc.VerdictSides
