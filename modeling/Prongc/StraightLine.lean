import Prongc.AnnotationRun
import Prongc.ElseBranch

namespace Prongc.StraightLine

open Access LockTracking LockRanges LockReach LockVerdict AnnotationRun ElseBranch Library.LinkedArray
  Library.BranchMarkers

def NoBranches (fp : List VarAccess) : Prop := ∀ va ∈ fp, mark va = none

instance (fp : List VarAccess) : Decidable (NoBranches fp) :=
  inferInstanceAs (Decidable (∀ va ∈ fp, mark va = none))

def HeldSince (fp : List VarAccess) (k : Nat) (objHash : UInt32) : Prop :=
  ∃ c va, c < k ∧ fp[c]? = some va ∧ acquires objHash va = true ∧
    ∀ j va', c < j → j < k → fp[j]? = some va' → releases objHash va' = false

section Straight

variable {moves : Nat → Bool} {lockPairArray : List LockPrimitivePair} {fp : List VarAccess} {k : Nat}
  {objHash : UInt32}

/-- Only branches make the array copy ranges. -/
theorem annotateAt_moves {st : ProtectionFieldArray × Nat} {entry : VarAccess × Nat}
    (h : mark entry.1 = none) :
    annotateAt moves lockPairArray fp st entry = annotateAt inPlace lockPairArray fp st entry := by
  unfold mark at h
  unfold annotateAt
  cases ht : entry.1.type <;> simp only [ht, reduceCtorEq] at h ⊢

theorem annotate_moves (h : NoBranches fp) : annotateLockProtectionRanges moves lockPairArray fp =
    annotateLockProtectionRanges inPlace lockPairArray fp := by
  unfold annotateLockProtectionRanges
  suffices hrun : ∀ (entries : List (VarAccess × Nat)) st, (∀ entry ∈ entries, mark entry.1 = none) →
      entries.foldlM (annotateAt moves lockPairArray fp) st =
        entries.foldlM (annotateAt inPlace lockPairArray fp) st by
    rw [hrun _ _ fun entry hentry => h _ (List.fst_mem_of_mem_zipIdx hentry)]
  intro entries
  induction entries with
  | nil => exact fun _ _ => rfl
  | cons entry entries ih =>
      intro st hentries
      obtain ⟨hentry, hrest⟩ := List.forall_mem_cons.mp hentries
      rw [List.foldlM_cons, List.foldlM_cons, annotateAt_moves hentry]
      exact congrArg _ (funext fun st => ih st hrest)

theorem run_noBranches {l : List VarAccess} (h : NoBranches l) (ps : List Phase) : run mark ps l = some ps := by
  induction l with
  | nil => rfl
  | cons va l ih =>
      obtain ⟨hva, hrest⟩ := List.forall_mem_cons.mp h
      rw [run_cons_event hva]
      exact ih hrest

theorem ifEntries_noBranches {l : List VarAccess} (h : NoBranches l) : ifEntries l = 0 := by
  rw [ifEntries, List.countP_eq_zero]
  intro va hva hty
  have hmark := h va hva
  rw [mark, eq_of_beq hty] at hmark
  cases hmark

theorem wellFormed_of_noBranches (h : NoBranches fp) (hnamed : NamedLocks lockPairArray fp) :
    WellFormed lockPairArray fp :=
  ⟨(bracketed_iff_run fp).mpr (run_noBranches h []), hnamed.acquire, hnamed.release,
    by rw [ifEntries_noBranches h]; exact Nat.two_pow_pos 64⟩

theorem quiet_of_noBranches (h : NoBranches fp) : QuietConditions fp := by
  intro seen va rest ps hfp hrun hcond
  rw [run_noBranches fun a ha => h a (hfp ▸ List.mem_append_left _ ha)] at hrun
  obtain rfl := Option.some.inj hrun
  cases hcond

theorem held_noBranches {l : List VarAccess} (h : NoBranches l) : (lockAfter l objHash).held = true ↔
    ∃ (c : Nat) (va : VarAccess), l[c]? = some va ∧ acquires objHash va = true ∧
      ∀ j va', c < j → l[j]? = some va' → releases objHash va' = false := by
  induction l using List.reverseRecOn with
  | nil => simp [lockAfter]
  | append_singleton l va ih =>
      have hva : va.type ≠ .elseStmt := by
        intro hty
        have hnone := h va (List.mem_append_right _ List.mem_cons_self)
        rw [mark, hty] at hnone
        cases hnone
      rw [lockAfter_snoc, next_held_iff, ih fun a ha => h a (List.mem_append_left _ ha)]
      constructor
      · rintro (hacq | ⟨hrel, ⟨c, a, ha, hacq, hquiet⟩ | ⟨hty, -⟩⟩)
        · refine ⟨l.length, va, List.getElem?_concat_length, hacq, ?_⟩
          intro j va' hj hva'
          have hlt := (List.getElem?_eq_some_iff.mp hva').1
          rw [List.length_append, List.length_singleton] at hlt
          omega
        · have hc := (List.getElem?_eq_some_iff.mp ha).1
          refine ⟨c, a, by rwa [List.getElem?_append_left hc], hacq, ?_⟩
          intro j va' hj hva'
          rcases getElem?_snoc_cases hva' with ⟨-, hold⟩ | ⟨-, rfl⟩
          · exact hquiet j va' hj hold
          · exact hrel
        · exact absurd hty hva
      · rintro ⟨c, a, ha, hacq, hquiet⟩
        rcases getElem?_snoc_cases ha with ⟨hc, hold⟩ | ⟨-, rfl⟩
        · refine .inr ⟨hquiet l.length va hc List.getElem?_concat_length, .inl ⟨c, a, hold, hacq, ?_⟩⟩
          intro j va' hj hva'
          apply hquiet j va' hj
          rw [List.getElem?_append_left (List.getElem?_eq_some_iff.mp hva').1, hva']
        · exact .inl hacq

theorem heldAt_noBranches (h : NoBranches fp) :
    heldAt fp k objHash = true ↔ HeldSince fp k objHash := by
  rw [heldAt, held_noBranches fun va hva => h va (List.mem_of_mem_take hva)]
  have hlt : ∀ {j : Nat} {va : VarAccess}, (fp.take k)[j]? = some va ↔ j < k ∧ fp[j]? = some va := by
    intro j va
    rw [List.getElem?_take]
    split <;> simp_all
  simp only [hlt]
  constructor
  · rintro ⟨c, va, ⟨hc, hva⟩, hacq, hquiet⟩
    exact ⟨c, va, hc, hva, hacq, fun j va' hcj hjk hva' => hquiet j va' hcj ⟨hjk, hva'⟩⟩
  · rintro ⟨c, va, hc, hva, hacq, hquiet⟩
    exact ⟨c, va, ⟨hc, hva⟩, hacq, fun j va' hcj hva' => hquiet j va' hcj hva'.1 hva'.2⟩

/-- Without branches the lock objects found at an access are those acquired before it and not released
since, wherever the array moves as it grows. -/
theorem straightLine_exact (h : NoBranches fp) (hnamed : NamedLocks lockPairArray fp) :
    ∃ arr, annotateLockProtectionRanges moves lockPairArray fp = some arr ∧
      ∀ (k : Nat) va, fp[k]? = some va → va.type.isAccess = true → ∀ objHash,
        objHash ∈ activeLocks arr k ↔ HeldSince fp k objHash := by
  have hfp := wellFormed_of_noBranches h hnamed
  obtain ⟨arr, -, harr, -⟩ := @annotate_view lockPairArray fp fp.length hfp (fun va hva => by simp at hva)
  refine ⟨arr, (annotate_moves h).trans harr, ?_⟩
  intro k va hva haccess objHash
  rw [mem_activeLocks_iff hfp (quiet_of_noBranches h) harr hva haccess,
    heldAt_noBranches h]

end Straight

def retaken : List VarAccess :=
  [LockPaths.lockOf "m", LockPaths.lockOf "k", LockPaths.lockOf "m", LockPaths.unlockOf "m",
    LockPaths.writeOf "x", LockPaths.lockOf "m", LockPaths.writeOf "x"]

theorem retaken_exact : ∃ arr,
    annotateLockProtectionRanges ArrayGrowth.relocates defaultLockPairs retaken = some arr ∧
      ∀ (k : Nat) va, retaken[k]? = some va → va.type.isAccess = true → ∀ objHash,
        objHash ∈ activeLocks arr k ↔ HeldSince retaken k objHash :=
  straightLine_exact (by decide) ⟨by decide +kernel, by decide +kernel⟩

end Prongc.StraightLine
