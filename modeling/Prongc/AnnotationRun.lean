import Mathlib.Data.List.Induction
import Prongc.ArrayGrowth
import Prongc.LockReach

namespace Prongc.AnnotationRun

open Access LockTracking LockRanges LockReach Library.LinkedArray Library.SizeT

section Rounds

variable {moves : Nat → Bool} {arr : ProtectionFieldArray}

/-- A copying round passes over its range, or appends a copy of it. The link to the copy is lost when the
block has moved. -/
inductive Copied (test : LockProtectionField → Bool) (link : Nat → LockProtectionField → LockProtectionField)
    (copy : LockProtectionField → LockProtectionField) (fields : List LockProtectionField) (i : Nat) :
    List LockProtectionField → Prop
  | skipped (h : ∀ f, fields[i]? = some f → test f = false) : Copied test link copy fields i fields
  | linked {f : LockProtectionField} (h : fields[i]? = some f) (tested : test f = true) :
      Copied test link copy fields i (fields.set i (link fields.length f) ++ [copy f])
  | lost {f : LockProtectionField} (h : fields[i]? = some f) (tested : test f = true) :
      Copied test link copy fields i (fields ++ [copy f])

theorem splitActiveAt_copied (start depth i : Nat) : Copied isActive (linkActive start depth) (uncapped start)
    arr.lpFields i (splitActiveAt moves start depth arr i).lpFields := by
  rw [splitActiveAt]
  cases hf : arr.lpFields[i]? with
  | none => exact .skipped fun f h => by rw [hf] at h; cases h
  | some f =>
      by_cases hopen : f.protectionRangeEnd = none
      · have htest : isActive f = true := by simp [isActive, hopen]
        simp only [hopen, if_true]
        cases copyMoves moves arr with
        | true =>
            have hlost := @Copied.lost _ (linkActive start depth) (uncapped start) _ _ _ hf htest
            simp only [storeOld, if_true, ProtectionFieldArray.store, addLockProtectionCopy,
              ArrayGrowth.modify_last]
            exact hlost
        | false =>
            have hlinked := @Copied.linked _ (linkActive start depth) (uncapped start) _ _ _ hf htest
            simp only [storeOld, Bool.false_eq_true, if_false, ProtectionFieldArray.store, addLockProtectionCopy]
            rw [modify_modify_last hf]
            exact hlinked
      · simp only [hopen, if_false]
        refine .skipped fun g hg => ?_
        obtain rfl := Option.some.inj (hf.symm.trans hg)
        exact Option.isNone_eq_false_iff.mpr (Option.isSome_iff_ne_none.mpr hopen)

theorem isInactive_iff {depth : Nat} {f : LockProtectionField} : isInactive depth f = true ↔
    f.nextProtRange = none ∧ f.protectionRangeEnd ≠ none ∧ f.branchDepth = depth := by
  simp [isInactive, Option.isSome_iff_ne_none]

theorem reviveInactiveAt_copied (start depth i : Nat) : Copied (isInactive depth) linkInactive
    (uncapped start) arr.lpFields i (reviveInactiveAt moves start depth arr i).lpFields := by
  rw [reviveInactiveAt]
  cases hf : arr.lpFields[i]? with
  | none => exact .skipped fun f h => by rw [hf] at h; cases h
  | some f =>
      by_cases htest : isInactive depth f = true
      · simp only [if_pos (isInactive_iff.mp htest)]
        cases copyMoves moves arr with
        | true =>
            have hlost := @Copied.lost _ linkInactive (uncapped start) _ _ _ hf htest
            simp only [storeOld, if_true, ProtectionFieldArray.store, addLockProtectionCopy,
              ArrayGrowth.modify_last]
            exact hlost
        | false =>
            have hlinked := @Copied.linked _ linkInactive (uncapped start) _ _ _ hf htest
            simp only [storeOld, Bool.false_eq_true, if_false, ProtectionFieldArray.store, addLockProtectionCopy]
            rw [modify_modify_last hf]
            exact hlinked
      · simp only [if_neg fun h => htest (isInactive_iff.mpr h)]
        refine .skipped fun g hg => ?_
        obtain rfl := Option.some.inj (hf.symm.trans hg)
        exact Bool.not_eq_true _ ▸ htest

variable {test : LockProtectionField → Bool} {link : Nat → LockProtectionField → LockProtectionField}
  {copy : LockProtectionField → LockProtectionField} {fields fields' : List LockProtectionField} {i : Nat}
  {P : LockProtectionField → Prop}

theorem Copied.forall (h : Copied test link copy fields i fields')
    (hlink : ∀ n f, P f → test f = true → P (link n f)) (hcopy : ∀ f, P f → test f = true → P (copy f))
    (hfields : ∀ f ∈ fields, P f) : ∀ f ∈ fields', P f := by
  cases h with
  | skipped _ => exact hfields
  | @linked f hf htest =>
      have hPf := hfields f (List.mem_of_getElem? hf)
      intro g hg
      rcases List.mem_append.mp hg with hg | hg
      · rcases List.mem_or_eq_of_mem_set hg with hg | rfl
        · exact hfields g hg
        · exact hlink _ f hPf htest
      · rw [List.mem_singleton.mp hg]
        exact hcopy f hPf htest
  | @lost f hf htest =>
      intro g hg
      rcases List.mem_append.mp hg with hg | hg
      · exact hfields g hg
      · rw [List.mem_singleton.mp hg]
        exact hcopy f (hfields f (List.mem_of_getElem? hf)) htest

theorem Copied.exists (h : Copied test link copy fields i fields')
    (hkeep : ∀ n f, P f → test f = true → P (link n f) ∨ P (copy f)) (hfields : ∃ f ∈ fields, P f) :
    ∃ f ∈ fields', P f := by
  cases h with
  | skipped _ => exact hfields
  | @linked f hf htest =>
      obtain ⟨g, hg, hP⟩ := hfields
      obtain ⟨k, hk⟩ := List.mem_iff_getElem?.mp hg
      have hi := (List.getElem?_eq_some_iff.mp hf).1
      rcases eq_or_ne i k with rfl | hik
      · obtain rfl := Option.some.inj (hf.symm.trans hk)
        rcases hkeep fields.length f hP htest with hlinked | hcopied
        · exact ⟨_, List.mem_append_left _ (List.mem_set hi _), hlinked⟩
        · exact ⟨_, List.mem_append_right _ List.mem_cons_self, hcopied⟩
      · refine ⟨g, List.mem_append_left _ (List.mem_of_getElem? (i := k) ?_), hP⟩
        rw [List.getElem?_set_ne hik, hk]
  | lost _ _ =>
      obtain ⟨g, hg, hP⟩ := hfields
      exact ⟨g, List.mem_append_left _ hg, hP⟩

theorem Copied.getElem? (h : Copied test link copy fields i fields') {j : Nat} (hij : i ≠ j)
    {f : LockProtectionField} (hf : fields[j]? = some f) : fields'[j]? = some f := by
  have hj := (List.getElem?_eq_some_iff.mp hf).1
  cases h with
  | skipped _ => exact hf
  | linked _ _ => rw [List.getElem?_append_left (by rwa [List.length_set]), List.getElem?_set_ne hij, hf]
  | lost _ _ => rw [List.getElem?_append_left hj, hf]

variable {op : ProtectionFieldArray → Nat → ProtectionFieldArray}
  (hop : ∀ arr i, Copied test link copy arr.lpFields i (op arr i).lpFields)

include hop

theorem copies_none (h : ∀ f ∈ arr.lpFields, test f = false) (is : List Nat) :
    (is.foldl op arr).lpFields = arr.lpFields := by
  apply List.foldlRecOn (motive := fun a : ProtectionFieldArray => a.lpFields = arr.lpFields) is op rfl
  intro a ha i _
  have hround := hop a i
  rw [ha] at hround
  generalize (op a i).lpFields = fields' at hround
  cases hround with
  | skipped _ => rfl
  | linked hf htest | lost hf htest =>
      rw [h _ (List.mem_of_getElem? hf)] at htest
      cases htest

theorem copies_forall (hlink : ∀ n f, P f → test f = true → P (link n f))
    (hcopy : ∀ f, P f → test f = true → P (copy f)) (is : List Nat) (h : ∀ f ∈ arr.lpFields, P f) :
    ∀ f ∈ (is.foldl op arr).lpFields, P f :=
  List.foldlRecOn (motive := fun a : ProtectionFieldArray => ∀ f ∈ a.lpFields, P f) is op h
    fun a h i _ => (hop a i).forall hlink hcopy h

theorem copies_exists (hkeep : ∀ n f, P f → test f = true → P (link n f) ∨ P (copy f)) (is : List Nat)
    (h : ∃ f ∈ arr.lpFields, P f) : ∃ f ∈ (is.foldl op arr).lpFields, P f :=
  List.foldlRecOn (motive := fun a : ProtectionFieldArray => ∃ f ∈ a.lpFields, P f) is op h
    fun a h i _ => (hop a i).exists hkeep h

theorem copy_mem {f : LockProtectionField} (hf : f ∈ arr.lpFields) (htest : test f = true) :
    copy f ∈ ((List.range arr.lpFields.length).foldl op arr).lpFields := by
  obtain ⟨j, hj⟩ := List.mem_iff_getElem?.mp hf
  have hlt := (List.getElem?_eq_some_iff.mp hj).1
  suffices hrounds : ∀ m, let a := (List.range m).foldl op arr
      (m ≤ j → a.lpFields[j]? = some f) ∧
        (j < m → m ≤ arr.lpFields.length → ∃ k, arr.lpFields.length ≤ k ∧ a.lpFields[k]? = some (copy f)) by
    obtain ⟨k, -, hk⟩ := (hrounds arr.lpFields.length).2 hlt (Nat.le_refl _)
    exact List.mem_of_getElem? hk
  intro m
  induction m with
  | zero => exact ⟨fun _ => hj, fun h => absurd h (Nat.not_lt_zero j)⟩
  | succ m ih =>
      obtain ⟨hbefore, hbehind⟩ := ih
      have hround := hop ((List.range m).foldl op arr) m
      dsimp only
      rw [List.range_succ, List.foldl_append, List.foldl_cons, List.foldl_nil]
      constructor
      · intro hm
        exact hround.getElem? (by omega) (hbefore (by omega))
      · intro hm hle
        rcases Nat.lt_or_eq_of_le (Nat.lt_succ_iff.mp hm) with hjm | rfl
        · obtain ⟨k, hk, hcopy⟩ := hbehind hjm (by omega)
          exact ⟨k, hk, hround.getElem? (by omega) hcopy⟩
        · have hat := hbefore (Nat.le_refl _)
          have hgrow : arr.lpFields.length ≤ ((List.range j).foldl op arr).lpFields.length := by
            refine List.foldlRecOn (motive := fun a : ProtectionFieldArray =>
              arr.lpFields.length ≤ a.lpFields.length) _ op (Nat.le_refl _) ?_
            intro a ha i _
            apply Nat.le_trans ha
            have hlast := hop a i
            generalize (op a i).lpFields = fields' at hlast
            cases hlast with
            | skipped _ => exact Nat.le_refl _
            | linked _ _ | lost _ _ => simp
          refine ⟨((List.range j).foldl op arr).lpFields.length, hgrow, ?_⟩
          generalize (op ((List.range j).foldl op arr) j).lpFields = fields' at hround
          cases hround with
          | skipped h => rw [h f hat] at htest; cases htest
          | linked h _ =>
              obtain rfl := Option.some.inj (hat.symm.trans h)
              rw [List.getElem?_append_right (by simp)]
              simp
          | lost h _ =>
              obtain rfl := Option.some.inj (hat.symm.trans h)
              exact List.getElem?_concat_length

end Rounds

section Entries

variable {moves : Nat → Bool} {lockPairArray : List LockPrimitivePair} {fp seen : List VarAccess}
  {va : VarAccess} {n : Nat} {st st' : ProtectionFieldArray × Nat}

def openedRange (pair : LockPrimitivePair) (usr : String) (start : Nat) : LockProtectionField where
  nextProtRange := none
  branchDepth := 0
  protectionRangeStart := start
  protectionRangeEnd := none
  lockObjHash := lockTrackingGenHash usr
  lockFuncHash := lockTrackingGenHash pair.lockFunc
  unlockFuncHash := lockTrackingGenHash pair.unlockFunc
  isLlStart := true

/-- What one entry does to the array and to branch_depth. -/
inductive EntryStep (moves : Nat → Bool) (fp : List VarAccess) (va : VarAccess) (n : Nat)
    (st : ProtectionFieldArray × Nat) : ProtectionFieldArray × Nat → Prop
  | lockAcquire {pair : LockPrimitivePair} {usr : String} {capacity : Nat} (type : va.type = .lockAcquire)
      (named : va.usr = some usr) :
      EntryStep moves fp va n st (⟨st.1.lpFields ++ [openedRange pair usr n], capacity⟩, st.2)
  | lockRelease {usr : String} (type : va.type = .lockRelease) (named : va.usr = some usr) :
      EntryStep moves fp va n st (setProtectionRangeEnd st.1 usr n, st.2)
  | ifStmt {start : Nat} (type : va.type = .ifStmt) (found : startOfBranch fp n = some start) :
      EntryStep moves fp va n st (addProtectionRangeFieldsActive moves st.1 start (sizeSucc st.2), sizeSucc st.2)
  | elseStmt (type : va.type = .elseStmt) :
      EntryStep moves fp va n st (addProtectionRangeFieldsInactive moves st.1 n (sizePred st.2), st.2)
  | other (acquire : va.type ≠ .lockAcquire) (release : va.type ≠ .lockRelease) (branch : va.type ≠ .ifStmt)
      (notElse : va.type ≠ .elseStmt) : EntryStep moves fp va n st (st.1, nextDepth st.2 va)

theorem addLockProtectionField_eq {arr arr' : ProtectionFieldArray} {pair : Option LockPrimitivePair}
    (h : addLockProtectionField arr pair va n = some arr') : ∃ p usr capacity,
      va.usr = some usr ∧ arr' = ⟨arr.lpFields ++ [openedRange p usr n], capacity⟩ := by
  simp only [addLockProtectionField, initLpField, Option.bind_eq_bind, Option.bind_eq_some_iff,
    Option.some.injEq] at h
  obtain ⟨f, ⟨p, -, usr, husr, rfl⟩, rfl⟩ := h
  exact ⟨p, usr, _, husr, rfl⟩

theorem annotateAt_step (h : annotateAt moves lockPairArray fp st (va, n) = some st') :
    EntryStep moves fp va n st st' := by
  rw [annotateAt] at h
  cases ht : va.type <;> simp only [ht] at h
  case lockAcquire =>
    obtain ⟨arr, harr, heq⟩ := Option.bind_eq_some_iff.mp h
    obtain rfl := Option.some.inj heq
    obtain ⟨p, usr, capacity, husr, rfl⟩ := addLockProtectionField_eq harr
    exact .lockAcquire ht husr
  case lockRelease =>
    obtain ⟨usr, husr, heq⟩ := Option.bind_eq_some_iff.mp h
    obtain rfl := Option.some.inj heq
    exact .lockRelease ht husr
  case ifStmt =>
    obtain ⟨start, hstart, heq⟩ := Option.bind_eq_some_iff.mp h
    obtain rfl := Option.some.inj heq
    exact .ifStmt ht hstart
  case elseStmt =>
    obtain rfl := Option.some.inj h
    exact .elseStmt ht
  all_goals
    obtain rfl := Option.some.inj h
    have hother := @EntryStep.other moves fp va n st (by simp [ht]) (by simp [ht]) (by simp [ht]) (by simp [ht])
    rwa [show nextDepth st.2 va = _ by rw [nextDepth, ht]] at hother

theorem EntryStep.depth (h : EntryStep moves fp va n st st') : st'.2 = nextDepth st.2 va := by
  cases h with
  | lockAcquire type _ | lockRelease type _ | ifStmt type _ | elseStmt type => simp [nextDepth, type]
  | other _ _ _ _ => rfl

variable (moves lockPairArray fp) in
def stateAfter (seen : List VarAccess) : Option (ProtectionFieldArray × Nat) :=
  seen.zipIdx.foldlM (annotateAt moves lockPairArray fp) (initProtectionFieldArray, 0)

theorem annotate_eq_stateAfter : annotateLockProtectionRanges moves lockPairArray fp =
    (stateAfter moves lockPairArray fp fp).map Prod.fst := rfl

theorem stateAfter_snoc (seen : List VarAccess) (va : VarAccess) :
    stateAfter moves lockPairArray fp (seen ++ [va]) = (stateAfter moves lockPairArray fp seen).bind
      fun st => annotateAt moves lockPairArray fp st (va, seen.length) := by
  unfold stateAfter
  rw [List.zipIdx_append, List.foldlM_append]
  simp

theorem stateAfter_rule {P : List VarAccess → ProtectionFieldArray × Nat → Prop}
    (hstart : P [] (initProtectionFieldArray, 0))
    (hstep : ∀ seen va rest st st', fp = seen ++ va :: rest →
      stateAfter moves lockPairArray fp seen = some st → P seen st →
        EntryStep moves fp va seen.length st st' → P (seen ++ [va]) st')
    (hseen : seen <+: fp) (hst : stateAfter moves lockPairArray fp seen = some st) : P seen st := by
  induction seen using List.reverseRecOn generalizing st with
  | nil =>
      obtain rfl := Option.some.inj hst
      exact hstart
  | append_singleton seen va ih =>
      obtain ⟨rest, hrest⟩ := hseen
      rw [List.append_assoc, List.singleton_append] at hrest
      rw [stateAfter_snoc] at hst
      obtain ⟨st₀, hst₀, hstep'⟩ := Option.bind_eq_some_iff.mp hst
      exact hstep seen va rest st₀ st hrest.symm hst₀ (ih ⟨va :: rest, hrest⟩ hst₀) (annotateAt_step hstep')

theorem stateAfter_depth (hseen : seen <+: fp) (hst : stateAfter moves lockPairArray fp seen = some st) :
    st.2 = seen.foldl nextDepth 0 := by
  refine stateAfter_rule (P := fun seen st => st.2 = seen.foldl nextDepth 0) rfl ?_ hseen hst
  intro seen va rest st st' _ _ h hstep
  rw [hstep.depth, h, List.foldl_append]
  rfl

structure NamedLocks (lockPairArray : List LockPrimitivePair) (fp : List VarAccess) : Prop where
  acquire : ∀ va ∈ fp, va.type = .lockAcquire →
    va.usr.isSome ∧ (getPairByLockFunc lockPairArray va.escFuncSpelling).isSome
  release : ∀ va ∈ fp, va.type = .lockRelease → va.usr.isSome

def ThenFollows (fp : List VarAccess) : Prop :=
  ∀ seen va rest, fp = seen ++ va :: rest → va.type = .ifStmt → ∃ a ∈ rest, a.type = .thenBlock

theorem startOfBranch_of_thenFollows (h : ThenFollows fp) {rest : List VarAccess}
    (hfp : fp = seen ++ va :: rest) (hty : va.type = .ifStmt) : (startOfBranch fp seen.length).isSome := by
  obtain ⟨a, ha, hthen⟩ := h seen va rest hfp hty
  exact startOfBranch_isSome_of_then hfp ha hthen

theorem stateAfter_isSome (hnamed : NamedLocks lockPairArray fp) (hthen : ThenFollows fp) (hseen : seen <+: fp) :
    (stateAfter moves lockPairArray fp seen).isSome := by
  induction seen using List.reverseRecOn with
  | nil => rfl
  | append_singleton seen va ih =>
      obtain ⟨rest, hrest⟩ := hseen
      rw [List.append_assoc, List.singleton_append] at hrest
      obtain ⟨st, hst⟩ := Option.isSome_iff_exists.mp (ih ⟨va :: rest, hrest⟩)
      have hmem : va ∈ fp := hrest ▸ List.mem_append_right _ List.mem_cons_self
      rw [stateAfter_snoc, hst, Option.bind_some, annotateAt]
      cases ht : va.type <;> simp only
      case lockAcquire =>
        obtain ⟨husr, hpair⟩ := hnamed.acquire va hmem ht
        obtain ⟨usr, husr⟩ := Option.isSome_iff_exists.mp husr
        obtain ⟨pair, hpair⟩ := Option.isSome_iff_exists.mp hpair
        simp [addLockProtectionField, initLpField, hpair, husr]
      case lockRelease =>
        obtain ⟨usr, husr⟩ := Option.isSome_iff_exists.mp (hnamed.release va hmem ht)
        simp [husr]
      case ifStmt =>
        obtain ⟨start, hstart⟩ := Option.isSome_iff_exists.mp
          (startOfBranch_of_thenFollows hthen hrest.symm ht)
        simp [hstart]
      all_goals rfl

end Entries

end Prongc.AnnotationRun
