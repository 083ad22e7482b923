import Prongc.ElseBranch
import Prongc.ArrayGrowth

namespace Prongc.OwnThenBlock

open Access LockTracking LockReach LockVerdict ArrayGrowth ElseBranch Library.BranchMarkers Library.SizeT

/-- The then-block at `t` belongs to the if at `i`: a whole condition stands between them. -/
def OwnThen (fp : List VarAccess) (i t : Nat) : Prop :=
  ∃ before va cond thenBlock rest, fp = before ++ va :: (cond ++ thenBlock :: rest) ∧
    va.type = .ifStmt ∧ thenBlock.type = .thenBlock ∧ Bracketed mark cond ∧ before.length = i ∧
      i + 1 + cond.length = t

def NoIfBetween (fp : List VarAccess) (i t : Nat) : Prop :=
  ∀ j va, i < j → j < t → fp[j]? = some va → va.type ≠ .ifStmt

section Scan

variable {lockPairArray : List LockPrimitivePair} {fp : List VarAccess} {i t : Nat} {va : VarAccess}

/-- In a bracketed footprint every if has a then-block of its own. -/
theorem exists_ownThen (hb : Bracketed mark fp) (hva : fp[i]? = some va) (hty : va.type = .ifStmt) :
    ∃ t, OwnThen fp i t := by
  obtain ⟨hi, hget⟩ := List.getElem?_eq_some_iff.mp hva
  have hfp : fp = fp.take i ++ va :: fp.drop (i + 1) := by
    rw [← hget, List.getElem_cons_drop, List.take_append_drop]
  have hrun := (bracketed_iff_run fp).mp hb
  rw [hfp] at hrun
  obtain ⟨ps, -, hrun⟩ := run_prefix hrun
  rw [run_cons_mark (mark_ifStmt_iff.mpr hty)] at hrun
  obtain ⟨cond, thenBlock, rest, hrest, hcond, hthen⟩ := exists_cond_of_run hrun
  refine ⟨i + 1 + cond.length, fp.take i, va, cond, thenBlock, rest, ?_, hty, mark_thenBlock_iff.mp hthen, hcond,
    by rw [List.length_take]; omega, rfl⟩
  rwa [hrest] at hfp

theorem ownThen_unique {t' : Nat} (h : OwnThen fp i t) (h' : OwnThen fp i t') : t = t' := by
  obtain ⟨before, va, cond, thenBlock, rest, hfp, -, hthen, hcond, hi, rfl⟩ := h
  obtain ⟨before', va', cond', thenBlock', rest', hfp', -, hthen', hcond', hi', rfl⟩ := h'
  obtain ⟨-, hrest⟩ := List.append_inj (hfp.symm.trans hfp') (hi.trans hi'.symm)
  rw [cond_unique hcond hcond' (mark_thenBlock_iff.mpr hthen) (mark_thenBlock_iff.mpr hthen')
    (List.cons.inj hrest).2]

/-- The scan stops at the if's own then-block exactly if it does not pass another if. -/
theorem startOfBranch_own_iff (h : OwnThen fp i t) : startOfBranch fp i = some t ↔ NoIfBetween fp i t := by
  obtain ⟨before, va, cond, thenBlock, rest, hfp, -, hthen, hcond, rfl, rfl⟩ := h
  have hdrop : fp.drop (before.length + 1) = cond ++ thenBlock :: rest := by
    rw [hfp]
    simp
  have hquiet : NoIfBetween fp before.length (before.length + 1 + cond.length) ↔ ∀ a ∈ cond, a.type ≠ .ifStmt := by
    have hat : ∀ k < cond.length, fp[before.length + 1 + k]? = cond[k]? := by
      intro k hk
      rw [← List.getElem?_drop, hdrop, List.getElem?_append_left hk]
    constructor
    · intro hbetween a ha
      obtain ⟨k, hk⟩ := List.mem_iff_getElem?.mp ha
      have hlt := (List.getElem?_eq_some_iff.mp hk).1
      exact hbetween _ a (by omega) (by omega) ((hat k hlt).trans hk)
    · intro hall j a hij hjt hj
      refine hall a (List.mem_of_getElem? (i := j - (before.length + 1)) ?_)
      rw [← hat _ (by omega), ← hj]
      congr 1
      omega
  rw [hquiet, startOfBranch, hdrop, List.findIdx?_append]
  constructor
  · intro hfound a ha hty
    obtain ⟨pre, post, rfl⟩ := List.append_of_mem ha
    have hrun := (bracketed_iff_run _).mp hcond
    obtain ⟨ps, -, hrun⟩ := run_prefix hrun
    rw [run_cons_mark (mark_ifStmt_iff.mpr hty)] at hrun
    obtain ⟨a', ha', hmark⟩ := exists_then_of_run ps hrun
    have hmem : a' ∈ pre ++ a :: post := List.mem_append_right _ (List.mem_cons_of_mem _ ha')
    obtain ⟨k, hk⟩ : ∃ k, (pre ++ a :: post).findIdx? (fun va => va.type == .thenBlock) = some k := by
      rw [← Option.isSome_iff_exists, List.findIdx?_isSome, List.any_eq_true]
      exact ⟨a', hmem, by simp [mark_thenBlock_iff.mp hmark]⟩
    obtain ⟨hlt, -⟩ := List.findIdx?_eq_some_iff_getElem.mp hk
    rw [hk, Option.some_or, Option.map_some, Option.some.injEq] at hfound
    omega
  · intro hall
    have hnone : cond.findIdx? (fun va => va.type == .thenBlock) = none := by
      rw [List.findIdx?_eq_none_iff]
      intro a ha
      have hevent := events_of_no_if (fun a ha => fun hmark => hall a ha (mark_ifStmt_iff.mp hmark))
        ((bracketed_iff_run cond).mp hcond) a ha
      simp only [beq_eq_false_iff_ne]
      intro hty
      rw [mark_thenBlock_iff.mpr hty] at hevent
      cases hevent
    rw [hnone, Option.none_or, List.findIdx?_cons]
    simp [hthen, Nat.add_comm]

/-- The annotation splits at the if's own then-block exactly if the condition holds no if group. -/
theorem split_at_own_iff (hb : Bracketed mark fp) (hva : fp[i]? = some va) (hty : va.type = .ifStmt) :
    ∃ t, OwnThen fp i t ∧ (∀ t', OwnThen fp i t' → t' = t) ∧ ∀ branchDepth,
      (callsAt lockPairArray fp branchDepth (va, i) = [.splitActive t (sizeSucc branchDepth)] ↔
        NoIfBetween fp i t) := by
  obtain ⟨t, ht⟩ := exists_ownThen hb hva hty
  refine ⟨t, ht, fun t' ht' => ownThen_unique ht' ht, ?_⟩
  intro branchDepth
  rw [← startOfBranch_own_iff ht, callsAt]
  simp only [hty]
  cases startOfBranch fp i <;> simp

end Scan

/-- if (c) { x = 1; } -/
def plainIf : List VarAccess :=
  [markerOf .ifStmt, readOf "c", markerOf .thenBlock, LockPaths.writeOf "x", markerOf .endIf]

theorem plainIf_bracketed : Bracketed mark plainIf := (bracketed_iff_run _).mpr rfl

theorem plainIf_split_at_own : ∃ t, OwnThen plainIf 0 t ∧ (∀ t', OwnThen plainIf 0 t' → t' = t) ∧
    ∀ branchDepth, (callsAt defaultLockPairs plainIf branchDepth (markerOf .ifStmt, 0) =
      [.splitActive t (sizeSucc branchDepth)] ↔ NoIfBetween plainIf 0 t) :=
  split_at_own_iff plainIf_bracketed rfl rfl

/-- if (h()) { x = 1; }, where h has an if of its own. -/
def nestedCondition : List VarAccess :=
  [markerOf .ifStmt, markerOf .ifStmt, readOf "c", markerOf .thenBlock, markerOf .endIf, markerOf .thenBlock,
    LockPaths.writeOf "x", markerOf .endIf]

theorem nestedCondition_split_early : Bracketed mark nestedCondition ∧ OwnThen nestedCondition 0 5 ∧
    callsAt defaultLockPairs nestedCondition 0 (markerOf .ifStmt, 0) = [.splitActive 3 1] := by
  refine ⟨(bracketed_iff_run _).mpr rfl, ?_, rfl⟩
  exact ⟨[], markerOf .ifStmt, [markerOf .ifStmt, readOf "c", markerOf .thenBlock, markerOf .endIf],
    markerOf .thenBlock, [LockPaths.writeOf "x", markerOf .endIf], rfl, rfl, rfl, (bracketed_iff_run _).mpr rfl,
    rfl, rfl⟩

end Prongc.OwnThenBlock
