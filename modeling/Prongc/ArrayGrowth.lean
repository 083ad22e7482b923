import Prongc.LockRanges

namespace Prongc.ArrayGrowth

open Access LockTracking LockRanges Library.LinkedArray Library.SizeT

inductive Call
  | addField (primitivePair : Option LockPrimitivePair) (lockVa : VarAccess) (protRangeStart : Nat)
  | setEnd (lockObjUsr : String) (protRangeEnd : Nat)
  | splitActive (protRangeStart branchDepth : Nat)
  | reviveInactive (protRangeStart branchDepth : Nat)

def Call.run (moves : Nat → Bool) : Call → ProtectionFieldArray → Option ProtectionFieldArray
  | .addField primitivePair lockVa protRangeStart, arr =>
      addLockProtectionField arr primitivePair lockVa protRangeStart
  | .setEnd lockObjUsr protRangeEnd, arr => some (setProtectionRangeEnd arr lockObjUsr protRangeEnd)
  | .splitActive protRangeStart branchDepth, arr =>
      some (addProtectionRangeFieldsActive moves arr protRangeStart branchDepth)
  | .reviveInactive protRangeStart branchDepth, arr =>
      some (addProtectionRangeFieldsInactive moves arr protRangeStart branchDepth)

def runCalls (moves : Nat → Bool) : List Call → ProtectionFieldArray → Option ProtectionFieldArray
  | [], arr => some arr
  | c :: calls, arr => (c.run moves arr).bind (runCalls moves calls)

/-- Array growth that always moves the block. -/
def relocates : Nat → Bool := fun _ => true

def Call.copied : Call → List LockProtectionField → Nat
  | .addField _ _ _, _ => 0
  | .setEnd _ _, _ => 0
  | .splitActive _ _, fields => fields.countP isActive
  | .reviveInactive _ branchDepth, fields => fields.countP (isInactive branchDepth)

def Call.Fits (c : Call) (arr : ProtectionFieldArray) : Prop :=
  c.copied arr.lpFields = 0 ∨ arr.lpFields.length + c.copied arr.lpFields < arr.capacity

def CallsFit : List Call → ProtectionFieldArray → Prop
  | [], _ => True
  | c :: calls, arr => c.Fits arr ∧ ∀ arr', c.run relocates arr = some arr' → CallsFit calls arr'

def callsAt (lockPairArray : List LockPrimitivePair) (accessFootprint : List VarAccess) (branchDepth : Nat)
    (entry : VarAccess × Nat) : List Call :=
  match entry.1.type with
  | .lockAcquire => [.addField (getPairByLockFunc lockPairArray entry.1.escFuncSpelling) entry.1 entry.2]
  | .lockRelease => entry.1.usr.toList.map fun usr => .setEnd usr entry.2
  | .ifStmt => (startOfBranch accessFootprint entry.2).toList.map fun start => .splitActive start (sizeSucc branchDepth)
  | .elseStmt => [.reviveInactive entry.2 (sizePred branchDepth)]
  | _ => []

theorem runCalls_append (moves : Nat → Bool) (calls calls' : List Call) (arr : ProtectionFieldArray) :
    runCalls moves (calls ++ calls') arr = (runCalls moves calls arr).bind (runCalls moves calls') := by
  induction calls generalizing arr with
  | nil => rfl
  | cons c calls ih =>
      rw [List.cons_append, runCalls, runCalls]
      cases c.run moves arr with
      | none => rfl
      | some arr' => exact ih arr'

theorem annotateAt_calls {moves : Nat → Bool} {lockPairArray : List LockPrimitivePair}
    {accessFootprint : List VarAccess} {st st' : ProtectionFieldArray × Nat} {entry : VarAccess × Nat}
    (h : annotateAt moves lockPairArray accessFootprint st entry = some st') :
    runCalls moves (callsAt lockPairArray accessFootprint st.2 entry) st.1 = some st'.1 := by
  rw [annotateAt] at h
  rw [callsAt]
  cases ht : entry.1.type <;> simp only [ht] at h ⊢
  case lockAcquire =>
    obtain ⟨arr, harr, heq⟩ := Option.bind_eq_some_iff.mp h
    obtain rfl := Option.some.inj heq
    simp [runCalls, Call.run, harr]
  case lockRelease =>
    obtain ⟨usr, husr, heq⟩ := Option.bind_eq_some_iff.mp h
    obtain rfl := Option.some.inj heq
    simp [runCalls, Call.run, husr]
  case ifStmt =>
    obtain ⟨start, hstart, heq⟩ := Option.bind_eq_some_iff.mp h
    obtain rfl := Option.some.inj heq
    simp [runCalls, Call.run, hstart]
  all_goals
    obtain rfl := Option.some.inj h
    simp [runCalls, Call.run]

theorem foldlM_runCalls {moves : Nat → Bool} {lockPairArray : List LockPrimitivePair}
    {accessFootprint : List VarAccess} {entries : List (VarAccess × Nat)}
    {st st' : ProtectionFieldArray × Nat}
    (h : entries.foldlM (annotateAt moves lockPairArray accessFootprint) st = some st') :
    ∃ calls, runCalls moves calls st.1 = some st'.1 := by
  induction entries generalizing st with
  | nil => exact ⟨[], congrArg (Option.map Prod.fst) h⟩
  | cons entry entries ih =>
      obtain ⟨st'', hstep, hrest⟩ := Option.bind_eq_some_iff.mp h
      obtain ⟨calls, hcalls⟩ := ih hrest
      refine ⟨callsAt lockPairArray accessFootprint st.2 entry ++ calls, ?_⟩
      rw [runCalls_append, annotateAt_calls hstep, Option.bind_some, hcalls]

theorem annotate_runCalls {moves : Nat → Bool} {lockPairArray : List LockPrimitivePair}
    {accessFootprint : List VarAccess} {arr : ProtectionFieldArray}
    (h : annotateLockProtectionRanges moves lockPairArray accessFootprint = some arr) :
    ∃ calls, runCalls moves calls initProtectionFieldArray = some arr := by
  obtain ⟨st, hst, rfl⟩ := Option.map_eq_some_iff.mp h
  exact foldlM_runCalls hst

section Rounds

/-- What the two copying loops have in common: a range that has a successor and an end is never
copied, and a copied one gets both. -/
structure Copying (test : LockProtectionField → Bool)
    (link : Nat → LockProtectionField → LockProtectionField)
    (copy : LockProtectionField → LockProtectionField) : Prop where
  next_link : ∀ n f, (link n f).nextProtRange = some n
  end_link : ∀ n f, test f = true → (link n f).protectionRangeEnd ≠ none
  next_copy : ∀ f, (copy f).nextProtRange = none
  skips : ∀ f, f.nextProtRange ≠ none → f.protectionRangeEnd ≠ none → test f = false
  unlinked : ∀ f, Tail f → test f = true → f.nextProtRange = none

theorem copying_active (start depth : Nat) :
    Copying isActive (linkActive start depth) (uncapped start) where
  next_link _ _ := rfl
  end_link _ _ _ := by simp [linkActive]
  next_copy _ := rfl
  skips f _ hend := Option.isNone_eq_false_iff.mpr (Option.isSome_iff_ne_none.mpr hend)
  unlinked f htail htest := htail (Option.isNone_iff_eq_none.mp htest)

theorem copying_inactive (start depth : Nat) :
    Copying (isInactive depth) linkInactive (uncapped start) where
  next_link _ _ := rfl
  end_link n f htest := by
    have hsome : f.protectionRangeEnd.isSome = true := by
      simp only [isInactive, Bool.and_eq_true] at htest
      exact htest.2.1
    exact Option.isSome_iff_ne_none.mp hsome
  next_copy _ := rfl
  skips f hnext _ := by simp [isInactive, hnext]
  unlinked f _ htest := by
    simp only [isInactive, Bool.and_eq_true, Option.isNone_iff_eq_none] at htest
    exact htest.1

/-- One round of a copying loop over a block that moves when it grows: then the store through the
old pointer is lost. -/
def growRound (test : LockProtectionField → Bool) (link : Nat → LockProtectionField → LockProtectionField)
    (copy : LockProtectionField → LockProtectionField) (arr : ProtectionFieldArray) (i : Nat) :
    ProtectionFieldArray :=
  match arr.lpFields[i]? with
  | none => arr
  | some f =>
      if test f = true then
        if arr.capacity - 1 ≤ arr.lpFields.length then ⟨arr.lpFields ++ [copy f], arr.capacity * 2⟩
        else ⟨arr.lpFields.set i (link arr.lpFields.length f) ++ [copy f], arr.capacity⟩
      else arr

theorem modify_last {α : Type} (l : List α) (a : α) (g : α → α) :
    (l ++ [a]).modify l.length g = l ++ [g a] := by
  rw [modify_eq_set g (by simp : (l ++ [a])[l.length]? = some a)]
  simp

theorem splitActiveAt_relocates (start depth : Nat) :
    splitActiveAt relocates start depth = growRound isActive (linkActive start depth) (uncapped start) := by
  funext arr i
  rw [splitActiveAt, growRound]
  cases hf : arr.lpFields[i]? with
  | none => rfl
  | some f =>
      by_cases ho : f.protectionRangeEnd = none
      · by_cases hfull : arr.capacity - 1 ≤ arr.lpFields.length
        · simp only [ho, isActive, Option.isNone_none, if_true, storeOld, copyMoves, relocates,
            hfull, decide_true, Bool.and_self, ProtectionFieldArray.store, addLockProtectionCopy, modify_last]
          rfl
        · simp only [ho, isActive, Option.isNone_none, if_true, storeOld, copyMoves, relocates,
            hfull, decide_false, Bool.false_and, Bool.false_eq_true, if_false, ProtectionFieldArray.store,
            addLockProtectionCopy]
          rw [modify_modify_last hf]
          rfl
      · simp [ho, isActive]

theorem reviveInactiveAt_relocates (start depth : Nat) :
    reviveInactiveAt relocates start depth = growRound (isInactive depth) linkInactive (uncapped start) := by
  funext arr i
  rw [reviveInactiveAt, growRound]
  cases hf : arr.lpFields[i]? with
  | none => rfl
  | some f =>
      have hiff : isInactive depth f = true ↔
          f.nextProtRange = none ∧ f.protectionRangeEnd ≠ none ∧ f.branchDepth = depth := by
        simp [isInactive, Option.isSome_iff_ne_none]
      by_cases ho : isInactive depth f = true
      · by_cases hfull : arr.capacity - 1 ≤ arr.lpFields.length
        · simp only [if_pos ho, if_pos (hiff.mp ho), storeOld, copyMoves, relocates,
            hfull, decide_true, Bool.and_self, ProtectionFieldArray.store, addLockProtectionCopy, modify_last,
            if_true]
          rfl
        · simp only [if_pos ho, if_pos (hiff.mp ho), storeOld, copyMoves, relocates,
            hfull, decide_false, Bool.false_and, Bool.false_eq_true, if_false, ProtectionFieldArray.store,
            addLockProtectionCopy]
          rw [modify_modify_last hf]
          rfl
      · simp only [if_neg ho, if_neg (fun h => ho (hiff.mpr h))]

end Rounds

section Loops

variable {test : LockProtectionField → Bool} {link : Nat → LockProtectionField → LockProtectionField}
  {copy : LockProtectionField → LockProtectionField}

def Linked (i n : Nat) (fields : List LockProtectionField) : Prop :=
  ∃ f, fields[i]? = some f ∧ f.nextProtRange = some n ∧ f.protectionRangeEnd ≠ none

/-- A range that will never get the successor `n`, because that place is taken. -/
def Unlinked (i n : Nat) (fields : List LockProtectionField) : Prop :=
  i < fields.length ∧ n < fields.length ∧ ∀ f, fields[i]? = some f → f.nextProtRange ≠ some n

theorem ne_of_linked {i n : Nat} {fields fields' : List LockProtectionField} (h : Linked i n fields)
    (h' : Unlinked i n fields') : fields' ≠ fields := by
  rintro rfl
  obtain ⟨f, hf, hnext, -⟩ := h
  exact h'.2.2 f hf hnext

theorem Linked.append {i n : Nat} {fields : List LockProtectionField} (h : Linked i n fields)
    (more : List LockProtectionField) : Linked i n (fields ++ more) := by
  obtain ⟨f, hf, hnext, hend⟩ := h
  exact ⟨f, by rw [List.getElem?_append_left (List.getElem?_eq_some_iff.mp hf).1, hf], hnext, hend⟩

theorem Unlinked.append {i n : Nat} {fields : List LockProtectionField} (h : Unlinked i n fields)
    (more : List LockProtectionField) : Unlinked i n (fields ++ more) := by
  obtain ⟨hi, hn, hne⟩ := h
  refine ⟨by rw [List.length_append]; omega, by rw [List.length_append]; omega, ?_⟩
  intro f hf
  rw [List.getElem?_append_left hi] at hf
  exact hne f hf

theorem Linked.extendAt (hc : Copying test link copy) {i n : Nat} {fields : List LockProtectionField}
    (h : Linked i n fields) (j : Nat) : Linked i n (extendAt test link copy fields j) := by
  rw [Library.LinkedArray.extendAt]
  split
  next => exact h
  next g hg =>
    split
    next htest =>
      obtain ⟨f, hf, hnext, hend⟩ := h
      have hne : j ≠ i := by
        rintro rfl
        obtain rfl := Option.some.inj (hf.symm.trans hg)
        rw [hc.skips f (by simp [hnext]) hend] at htest
        cases htest
      have hset : Linked i n (fields.set j (link fields.length g)) :=
        ⟨f, by rw [List.getElem?_set_ne hne, hf], hnext, hend⟩
      exact hset.append _
    next => exact h

theorem Unlinked.growRound (hc : Copying test link copy) {i n : Nat} {arr : ProtectionFieldArray}
    (h : Unlinked i n arr.lpFields) (j : Nat) : Unlinked i n (growRound test link copy arr j).lpFields := by
  rw [ArrayGrowth.growRound]
  split
  next => exact h
  next g hg =>
    split
    next htest =>
      split
      next => exact h.append _
      next =>
        have hset : Unlinked i n (arr.lpFields.set j (link arr.lpFields.length g)) := by
          obtain ⟨hi, hn, hne⟩ := h
          refine ⟨by rwa [List.length_set], by rwa [List.length_set], ?_⟩
          intro f hf
          rcases eq_or_ne j i with rfl | hji
          · rw [List.getElem?_set_self hi] at hf
            obtain rfl := Option.some.inj hf
            rw [hc.next_link]
            intro heq
            obtain rfl := Option.some.inj heq
            exact Nat.lt_irrefl _ hn
          · rw [List.getElem?_set_ne hji] at hf
            exact hne f hf
        exact hset.append _
    next => exact h

theorem growRound_capacity_le (arr : ProtectionFieldArray) (i : Nat) :
    arr.capacity ≤ (growRound test link copy arr i).capacity := by
  rw [ArrayGrowth.growRound]
  split
  next => exact Nat.le_refl _
  next =>
    split
    next =>
      split
      next => exact Nat.le_mul_of_pos_right _ Nat.two_pos
      next => exact Nat.le_refl _
    next => exact Nat.le_refl _

theorem foldl_growRound_capacity_le (is : List Nat) (arr : ProtectionFieldArray) :
    arr.capacity ≤ (is.foldl (growRound test link copy) arr).capacity :=
  List.foldlRecOn (motive := fun a : ProtectionFieldArray => arr.capacity ≤ a.capacity) is _ (Nat.le_refl _)
    fun a h i _ => Nat.le_trans h (growRound_capacity_le a i)

def toCopy (test : LockProtectionField → Bool) (fields : List LockProtectionField) (is : List Nat) : Nat :=
  is.countP fun i => fields[i]?.any test

theorem growRound_getElem? {arr : ProtectionFieldArray} {i j : Nat} (hij : i ≠ j)
    (hj : j < arr.lpFields.length) : (growRound test link copy arr i).lpFields[j]? = arr.lpFields[j]? := by
  rw [ArrayGrowth.growRound]
  split
  next => rfl
  next =>
    split
    next =>
      split
      next => rw [List.getElem?_append_left hj]
      next => rw [List.getElem?_append_left (by rwa [List.length_set]), List.getElem?_set_ne hij]
    next => rfl

theorem growRound_length_le (arr : ProtectionFieldArray) (i : Nat) :
    arr.lpFields.length ≤ (growRound test link copy arr i).lpFields.length := by
  rw [ArrayGrowth.growRound]
  split
  next => exact Nat.le_refl _
  next =>
    split
    next => split <;> simp
    next => exact Nat.le_refl _

theorem toCopy_growRound {arr : ProtectionFieldArray} {i : Nat} {is : List Nat} (hi : i ∉ is)
    (his : ∀ j ∈ is, j < arr.lpFields.length) :
    toCopy test (growRound test link copy arr i).lpFields is = toCopy test arr.lpFields is := by
  apply List.countP_congr
  intro j hj
  have hij : i ≠ j := by
    rintro rfl
    exact hi hj
  rw [growRound_getElem? hij (his j hj)]

theorem growRound_idle {arr : ProtectionFieldArray} {i : Nat} (h : arr.lpFields[i]?.any test = false) :
    growRound test link copy arr i = arr ∧ extendAt test link copy arr.lpFields i = arr.lpFields := by
  rw [ArrayGrowth.growRound, extendAt]
  cases hf : arr.lpFields[i]? with
  | none => exact ⟨rfl, rfl⟩
  | some f =>
      rw [hf, Option.any_some] at h
      simp [h]

theorem growRound_fits {arr : ProtectionFieldArray} {i : Nat} (h : arr.lpFields[i]?.any test = true)
    (hfits : arr.lpFields.length + 1 < arr.capacity) :
    growRound test link copy arr i = ⟨extendAt test link copy arr.lpFields i, arr.capacity⟩ ∧
      (extendAt test link copy arr.lpFields i).length = arr.lpFields.length + 1 := by
  rw [ArrayGrowth.growRound, extendAt]
  cases hf : arr.lpFields[i]? with
  | none => simp [hf] at h
  | some f =>
      rw [hf, Option.any_some] at h
      have hroom : ¬ arr.capacity - 1 ≤ arr.lpFields.length := by omega
      simp [h, hroom]

theorem growRound_doubles {arr : ProtectionFieldArray} {i : Nat} (h : arr.lpFields[i]?.any test = true)
    (hfull : arr.capacity - 1 ≤ arr.lpFields.length) :
    (growRound test link copy arr i).capacity = arr.capacity * 2 := by
  rw [ArrayGrowth.growRound]
  cases hf : arr.lpFields[i]? with
  | none => simp [hf] at h
  | some f =>
      rw [hf, Option.any_some] at h
      simp [h, hfull]

/-- A round that copies while the block moves: the two arrays part for good. -/
theorem growRound_parts (hc : Copying test link copy) {arr : ProtectionFieldArray} {i : Nat}
    (htail : ∀ f ∈ arr.lpFields, Tail f) (h : arr.lpFields[i]?.any test = true)
    (hfull : arr.capacity - 1 ≤ arr.lpFields.length) :
    Linked i arr.lpFields.length (extendAt test link copy arr.lpFields i) ∧
      Unlinked i arr.lpFields.length (growRound test link copy arr i).lpFields := by
  rw [ArrayGrowth.growRound, extendAt]
  cases hf : arr.lpFields[i]? with
  | none => simp [hf] at h
  | some f =>
      rw [hf, Option.any_some] at h
      obtain ⟨hi, hget⟩ := List.getElem?_eq_some_iff.mp hf
      simp only [if_pos h, if_pos hfull]
      constructor
      · have hset : Linked i arr.lpFields.length (arr.lpFields.set i (link arr.lpFields.length f)) :=
          ⟨_, List.getElem?_set_self hi, hc.next_link _ f, hc.end_link _ f h⟩
        exact hset.append _
      · refine ⟨by simp; omega, by simp, ?_⟩
        intro g hg
        rw [List.getElem?_append_left hi, hf] at hg
        obtain rfl := Option.some.inj hg
        rw [hc.unlinked f (htail f (List.mem_of_getElem? hf)) h]
        exact (Option.some_ne_none _).symm

theorem tail_extendAt (hc : Copying test link copy) {fields : List LockProtectionField} {i : Nat}
    (htail : ∀ f ∈ fields, Tail f) : ∀ f ∈ extendAt test link copy fields i, Tail f := by
  rw [extendAt]
  split
  next => exact htail
  next g hg =>
    split
    next htest =>
      intro f hf
      rcases List.mem_append.mp hf with hf | hf
      · rcases List.mem_or_eq_of_mem_set hf with hf | rfl
        · exact htail f hf
        · exact fun hend => absurd hend (hc.end_link _ g htest)
      · rw [List.mem_singleton.mp hf]
        exact fun _ => hc.next_copy g
    next => exact htail

theorem foldl_extendAt_tail (hc : Copying test link copy) {fields : List LockProtectionField}
    (is : List Nat) (htail : ∀ f ∈ fields, Tail f) :
    ∀ f ∈ is.foldl (extendAt test link copy) fields, Tail f :=
  List.foldlRecOn (motive := fun fields => ∀ f ∈ fields, Tail f) is _ htail
    fun _ h _ _ => tail_extendAt hc h

theorem foldl_growRound_fits {is : List Nat} {arr : ProtectionFieldArray} (hnodup : is.Nodup)
    (his : ∀ j ∈ is, j < arr.lpFields.length)
    (hfits : toCopy test arr.lpFields is = 0 ∨
      arr.lpFields.length + toCopy test arr.lpFields is < arr.capacity) :
    is.foldl (growRound test link copy) arr =
      ⟨is.foldl (extendAt test link copy) arr.lpFields, arr.capacity⟩ := by
  induction is generalizing arr with
  | nil => rfl
  | cons i is ih =>
      obtain ⟨hi, hnodup⟩ := List.nodup_cons.mp hnodup
      have hrest : ∀ j ∈ is, j < arr.lpFields.length := fun j hj => his j (List.mem_cons_of_mem _ hj)
      have hsame := @toCopy_growRound test link copy arr i is hi hrest
      have hgrown : ∀ j ∈ is, j < (growRound test link copy arr i).lpFields.length :=
        fun j hj => Nat.lt_of_lt_of_le (hrest j hj) (growRound_length_le arr i)
      rw [List.foldl_cons, List.foldl_cons]
      unfold toCopy at hfits hsame ih
      rw [List.countP_cons] at hfits
      cases hany : arr.lpFields[i]?.any test with
      | false =>
          obtain ⟨hgrow, hextend⟩ := @growRound_idle test link copy arr i hany
          rw [hgrow, hextend]
          simp only [hany] at hfits
          exact ih hnodup hrest (by simpa using hfits)
      | true =>
          simp only [hany, if_true] at hfits
          obtain ⟨hgrow, hlength⟩ := @growRound_fits test link copy arr i hany (by omega)
          have hnext := ih hnodup hgrown (by rw [hsame, hgrow]; simp only [hlength]; omega)
          rw [hnext, hgrow]

theorem foldl_growRound_parts (hc : Copying test link copy) {is : List Nat} {arr : ProtectionFieldArray}
    (htail : ∀ f ∈ arr.lpFields, Tail f) (hnodup : is.Nodup) (his : ∀ j ∈ is, j < arr.lpFields.length)
    (hcopies : 0 < toCopy test arr.lpFields is)
    (hfull : arr.capacity ≤ arr.lpFields.length + toCopy test arr.lpFields is) :
    (∃ i n, Linked i n (is.foldl (extendAt test link copy) arr.lpFields) ∧
      Unlinked i n (is.foldl (growRound test link copy) arr).lpFields) ∧
    (0 < arr.capacity → arr.capacity < (is.foldl (growRound test link copy) arr).capacity) := by
  induction is generalizing arr with
  | nil => exact absurd hcopies (Nat.lt_irrefl 0)
  | cons i is ih =>
      obtain ⟨hi, hnodup⟩ := List.nodup_cons.mp hnodup
      have hrest : ∀ j ∈ is, j < arr.lpFields.length := fun j hj => his j (List.mem_cons_of_mem _ hj)
      have hsame := @toCopy_growRound test link copy arr i is hi hrest
      have hgrown : ∀ j ∈ is, j < (growRound test link copy arr i).lpFields.length :=
        fun j hj => Nat.lt_of_lt_of_le (hrest j hj) (growRound_length_le arr i)
      rw [List.foldl_cons, List.foldl_cons]
      unfold toCopy at hcopies hfull hsame ih
      rw [List.countP_cons] at hcopies hfull
      cases hany : arr.lpFields[i]?.any test with
      | false =>
          obtain ⟨hgrow, hextend⟩ := @growRound_idle test link copy arr i hany
          rw [hgrow, hextend]
          simp only [hany] at hcopies hfull
          exact ih htail hnodup hrest (by simpa using hcopies) (by simpa using hfull)
      | true =>
          simp only [hany, if_true] at hcopies hfull
          by_cases hroom : arr.capacity - 1 ≤ arr.lpFields.length
          · obtain ⟨hlinked, hunlinked⟩ := growRound_parts hc htail hany hroom
            refine ⟨⟨i, _, List.foldlRecOn (motive := Linked i _) is _ hlinked fun _ h j _ => h.extendAt hc j,
              List.foldlRecOn (motive := fun a : ProtectionFieldArray => Unlinked i _ a.lpFields) is _
                hunlinked fun _ h j _ => h.growRound hc j⟩, ?_⟩
            intro hpos
            have hdoubled : (growRound test link copy arr i).capacity = arr.capacity * 2 :=
              growRound_doubles hany hroom
            have hlater := @foldl_growRound_capacity_le test link copy is (growRound test link copy arr i)
            omega
          · obtain ⟨hgrow, hlength⟩ := @growRound_fits test link copy arr i hany (by omega)
            rw [hgrow] at hsame hgrown ⊢
            have htail' : ∀ f ∈ extendAt test link copy arr.lpFields i, Tail f := tail_extendAt hc htail
            apply ih htail' hnodup hgrown
            · rw [hsame]
              omega
            · rw [hsame]
              simp only [hlength]
              omega

theorem toCopy_range (fields : List LockProtectionField) :
    toCopy test fields (List.range fields.length) = fields.countP test := by
  have hmap : (List.range fields.length).map (fun i => fields[i]?) = fields.map some := by
    apply List.ext_getElem?
    intro i
    rw [List.getElem?_map, List.getElem?_map]
    by_cases hi : i < fields.length
    · rw [List.getElem?_range hi, Option.map_some, List.getElem?_eq_getElem hi, Option.map_some]
    · rw [List.getElem?_eq_none (Nat.not_lt.mp hi), List.getElem?_eq_none (by simpa using hi)]
      rfl
  calc toCopy test fields (List.range fields.length)
      = ((List.range fields.length).map (fun i => fields[i]?)).countP (Option.any test) := by
        rw [List.countP_map]
        rfl
    _ = fields.countP test := by
        rw [hmap, List.countP_map]
        rfl

end Loops

section Calls

def Call.exact : Call → List LockProtectionField → Option (List LockProtectionField)
  | .addField primitivePair lockVa protRangeStart, fields =>
      (initLpField primitivePair lockVa protRangeStart).map fun f => fields ++ [f]
  | .setEnd lockObjUsr protRangeEnd, fields =>
      some (fields.map (closeField (lockTrackingGenHash lockObjUsr) protRangeEnd))
  | .splitActive protRangeStart branchDepth, fields =>
      some (extendLoop isActive (linkActive protRangeStart branchDepth) (uncapped protRangeStart) fields)
  | .reviveInactive protRangeStart branchDepth, fields =>
      some (extendLoop (isInactive branchDepth) linkInactive (uncapped protRangeStart) fields)

def exactCalls : List Call → List LockProtectionField → Option (List LockProtectionField)
  | [], fields => some fields
  | c :: calls, fields => (c.exact fields).bind (exactCalls calls)

variable {c : Call} {arr arr' : ProtectionFieldArray} {fields fields' : List LockProtectionField}

theorem exact_tail (htail : ∀ f ∈ fields, Tail f) (h : c.exact fields = some fields') :
    ∀ f ∈ fields', Tail f := by
  cases c with
  | addField pair va start =>
      obtain ⟨f, hf, rfl⟩ := Option.map_eq_some_iff.mp h
      intro g hg
      rcases List.mem_append.mp hg with hg | hg
      · exact htail g hg
      · simp only [initLpField, Option.bind_eq_bind, Option.bind_eq_some_iff, Option.some.injEq] at hf
        obtain ⟨p, -, usr, -, rfl⟩ := hf
        rw [List.mem_singleton.mp hg]
        exact fun _ => rfl
  | setEnd usr e =>
      obtain rfl := Option.some.inj h
      intro g hg
      obtain ⟨f, hf, rfl⟩ := List.mem_map.mp hg
      exact tail_closeField _ _ (htail f hf)
  | splitActive start depth =>
      obtain rfl := Option.some.inj h
      exact foldl_extendAt_tail (copying_active start depth) _ htail
  | reviveInactive start depth =>
      obtain rfl := Option.some.inj h
      exact foldl_extendAt_tail (copying_inactive start depth) _ htail

theorem exact_linked {i n : Nat} (hlinked : Linked i n fields) (h : c.exact fields = some fields') :
    Linked i n fields' := by
  cases c with
  | addField pair va start =>
      obtain ⟨f, -, rfl⟩ := Option.map_eq_some_iff.mp h
      exact hlinked.append _
  | setEnd usr e =>
      obtain rfl := Option.some.inj h
      obtain ⟨f, hf, hnext, hend⟩ := hlinked
      refine ⟨closeField (lockTrackingGenHash usr) e f, by rw [List.getElem?_map, hf, Option.map_some], ?_, ?_⟩
      · rw [closeField_next, hnext]
      · rwa [closeField_end, if_neg fun hopen => hend hopen.1]
  | splitActive start depth =>
      obtain rfl := Option.some.inj h
      exact List.foldlRecOn (motive := Linked i n) _ _ hlinked
        fun _ hl j _ => hl.extendAt (copying_active start depth) j
  | reviveInactive start depth =>
      obtain rfl := Option.some.inj h
      exact List.foldlRecOn (motive := Linked i n) _ _ hlinked
        fun _ hl j _ => hl.extendAt (copying_inactive start depth) j

theorem setRangeEndAt_unlinked {i n : Nat} (objHash : UInt32) (e j : Nat)
    (h : Unlinked i n arr.lpFields) : Unlinked i n (setRangeEndAt objHash e arr j).lpFields := by
  rw [setRangeEndAt]
  split
  next => exact h
  next =>
    split
    next =>
      obtain ⟨hi, hn, hne⟩ := h
      refine ⟨by simpa [ProtectionFieldArray.store] using hi, by simpa [ProtectionFieldArray.store] using hn, ?_⟩
      intro f hf
      simp only [ProtectionFieldArray.store, List.getElem?_modify] at hf
      obtain ⟨g, hg, rfl⟩ := Option.map_eq_some_iff.mp hf
      split_ifs
      · exact hne g hg
      · exact hne g hg
    next => exact h

theorem run_unlinked {i n : Nat} (hunlinked : Unlinked i n arr.lpFields)
    (h : c.run relocates arr = some arr') : Unlinked i n arr'.lpFields := by
  cases c with
  | addField pair va start =>
      simp only [Call.run, addLockProtectionField, Option.bind_eq_bind, Option.bind_eq_some_iff] at h
      obtain ⟨f, -, heq⟩ := h
      obtain rfl := Option.some.inj heq
      exact hunlinked.append _
  | setEnd usr e =>
      obtain rfl := Option.some.inj h
      exact List.foldlRecOn (motive := fun a : ProtectionFieldArray => Unlinked i n a.lpFields) _ _ hunlinked
        fun _ hu j _ => setRangeEndAt_unlinked _ e j hu
  | splitActive start depth =>
      obtain rfl := Option.some.inj h
      rw [addProtectionRangeFieldsActive, splitActiveAt_relocates]
      exact List.foldlRecOn (motive := fun a : ProtectionFieldArray => Unlinked i n a.lpFields) _ _ hunlinked
        fun _ hu j _ => hu.growRound (copying_active start depth) j
  | reviveInactive start depth =>
      obtain rfl := Option.some.inj h
      rw [addProtectionRangeFieldsInactive, reviveInactiveAt_relocates]
      exact List.foldlRecOn (motive := fun a : ProtectionFieldArray => Unlinked i n a.lpFields) _ _ hunlinked
        fun _ hu j _ => hu.growRound (copying_inactive start depth) j

theorem growLoop_fits {test : LockProtectionField → Bool}
    {link : Nat → LockProtectionField → LockProtectionField} {copy : LockProtectionField → LockProtectionField}
    (h : arr.lpFields.countP test = 0 ∨ arr.lpFields.length + arr.lpFields.countP test < arr.capacity) :
    ((List.range arr.lpFields.length).foldl (growRound test link copy) arr).lpFields =
      extendLoop test link copy arr.lpFields := by
  rw [foldl_growRound_fits List.nodup_range (fun j hj => List.mem_range.mp hj) (by rwa [toCopy_range])]
  rfl

theorem growLoop_parts {test : LockProtectionField → Bool}
    {link : Nat → LockProtectionField → LockProtectionField} {copy : LockProtectionField → LockProtectionField}
    (hc : Copying test link copy) (htail : ∀ f ∈ arr.lpFields, Tail f)
    (h : ¬ (arr.lpFields.countP test = 0 ∨ arr.lpFields.length + arr.lpFields.countP test < arr.capacity)) :
    (∃ i n, Linked i n (extendLoop test link copy arr.lpFields) ∧
      Unlinked i n ((List.range arr.lpFields.length).foldl (growRound test link copy) arr).lpFields) ∧
    (0 < arr.capacity →
      arr.capacity < ((List.range arr.lpFields.length).foldl (growRound test link copy) arr).capacity) := by
  have hcount := @toCopy_range test arr.lpFields
  exact foldl_growRound_parts hc htail List.nodup_range (fun j hj => List.mem_range.mp hj)
    (by omega) (by omega)

theorem setProtectionRangeEnd_capacity (usr : String) (e : Nat) :
    (setProtectionRangeEnd arr usr e).capacity = arr.capacity := by
  apply List.foldlRecOn (motive := fun a : ProtectionFieldArray => a.capacity = arr.capacity) _ _ rfl
  intro a ha j _
  rw [← ha]
  rw [setRangeEndAt]
  split
  · rfl
  · split <;> rfl

theorem run_fits (htail : ∀ f ∈ arr.lpFields, Tail f) (hfits : c.Fits arr)
    (h : c.run relocates arr = some arr') : c.exact arr.lpFields = some arr'.lpFields := by
  cases c with
  | addField pair va start =>
      simp only [Call.run, addLockProtectionField, Option.bind_eq_bind, Option.bind_eq_some_iff] at h
      obtain ⟨f, hf, heq⟩ := h
      obtain rfl := Option.some.inj heq
      rw [Call.exact, hf, Option.map_some]
  | setEnd usr e =>
      obtain rfl := Option.some.inj h
      rw [Call.exact, setProtectionRangeEnd_fields htail]
  | splitActive start depth =>
      obtain rfl := Option.some.inj h
      rw [Call.exact, addProtectionRangeFieldsActive, splitActiveAt_relocates, growLoop_fits hfits]
  | reviveInactive start depth =>
      obtain rfl := Option.some.inj h
      rw [Call.exact, addProtectionRangeFieldsInactive, reviveInactiveAt_relocates, growLoop_fits hfits]

theorem run_parts (htail : ∀ f ∈ arr.lpFields, Tail f) (hfits : ¬ c.Fits arr)
    (h : c.run relocates arr = some arr') (hexact : c.exact arr.lpFields = some fields') :
    (∃ i n, Linked i n fields' ∧ Unlinked i n arr'.lpFields) ∧ (0 < arr.capacity → arr.capacity < arr'.capacity) := by
  cases c with
  | addField pair va start => exact absurd (.inl rfl) hfits
  | setEnd usr e => exact absurd (.inl rfl) hfits
  | splitActive start depth =>
      obtain rfl := Option.some.inj h
      obtain rfl := Option.some.inj hexact
      rw [addProtectionRangeFieldsActive, splitActiveAt_relocates]
      exact growLoop_parts (copying_active start depth) htail hfits
  | reviveInactive start depth =>
      obtain rfl := Option.some.inj h
      obtain rfl := Option.some.inj hexact
      rw [addProtectionRangeFieldsInactive, reviveInactiveAt_relocates]
      exact growLoop_parts (copying_inactive start depth) htail hfits

theorem run_capacity_le (h : c.run relocates arr = some arr') : arr.capacity ≤ arr'.capacity := by
  cases c with
  | addField pair va start =>
      simp only [Call.run, addLockProtectionField, Option.bind_eq_bind, Option.bind_eq_some_iff] at h
      obtain ⟨f, -, heq⟩ := h
      obtain rfl := Option.some.inj heq
      dsimp only
      split <;> omega
  | setEnd usr e =>
      obtain rfl := Option.some.inj h
      exact Nat.le_of_eq (setProtectionRangeEnd_capacity usr e).symm
  | splitActive start depth =>
      obtain rfl := Option.some.inj h
      rw [addProtectionRangeFieldsActive, splitActiveAt_relocates]
      exact foldl_growRound_capacity_le _ _
  | reviveInactive start depth =>
      obtain rfl := Option.some.inj h
      rw [addProtectionRangeFieldsInactive, reviveInactiveAt_relocates]
      exact foldl_growRound_capacity_le _ _

theorem exact_isSome (h : c.run relocates arr = some arr') : ∃ fields', c.exact arr.lpFields = some fields' := by
  cases c with
  | addField pair va start =>
      simp only [Call.run, addLockProtectionField, Option.bind_eq_bind, Option.bind_eq_some_iff] at h
      obtain ⟨f, hf, -⟩ := h
      exact ⟨_, by rw [Call.exact, hf, Option.map_some]⟩
  | setEnd usr e => exact ⟨_, rfl⟩
  | splitActive start depth => exact ⟨_, rfl⟩
  | reviveInactive start depth => exact ⟨_, rfl⟩

end Calls

section Runs

variable {calls : List Call} {arr result : ProtectionFieldArray} {fields : List LockProtectionField}

theorem runCalls_parted {i n : Nat} {start : List LockProtectionField} (hlinked : Linked i n start)
    (hunlinked : Unlinked i n arr.lpFields) (hresult : runCalls relocates calls arr = some result)
    (hexact : exactCalls calls start = some fields) : result.lpFields ≠ fields := by
  induction calls generalizing arr start with
  | nil =>
      obtain rfl := Option.some.inj hresult
      obtain rfl := Option.some.inj hexact
      exact ne_of_linked hlinked hunlinked
  | cons c calls ih =>
      obtain ⟨arr', hrun, hresult⟩ := Option.bind_eq_some_iff.mp hresult
      obtain ⟨start', hstart, hexact⟩ := Option.bind_eq_some_iff.mp hexact
      exact ih (exact_linked hlinked hstart) (run_unlinked hunlinked hrun) hresult hexact

theorem runCalls_eq_exact_iff (htail : ∀ f ∈ arr.lpFields, Tail f)
    (hresult : runCalls relocates calls arr = some result)
    (hexact : exactCalls calls arr.lpFields = some fields) :
    result.lpFields = fields ↔ CallsFit calls arr := by
  induction calls generalizing arr with
  | nil =>
      obtain rfl := Option.some.inj hresult
      obtain rfl := Option.some.inj hexact
      exact iff_of_true rfl trivial
  | cons c calls ih =>
      obtain ⟨arr', hrun, hresult⟩ := Option.bind_eq_some_iff.mp hresult
      obtain ⟨fields', hfields', hexact⟩ := Option.bind_eq_some_iff.mp hexact
      rw [CallsFit]
      by_cases hfits : c.Fits arr
      · obtain rfl := Option.some.inj ((run_fits htail hfits hrun).symm.trans hfields')
        rw [ih (exact_tail htail hfields') hresult hexact]
        constructor
        · intro hrest
          refine ⟨hfits, ?_⟩
          intro arr'' harr''
          obtain rfl := Option.some.inj (hrun.symm.trans harr'')
          exact hrest
        · exact fun h => h.2 arr' hrun
      · obtain ⟨⟨i, n, hlinked, hunlinked⟩, -⟩ := run_parts htail hfits hrun hfields'
        exact iff_of_false (runCalls_parted hlinked hunlinked hresult hexact) fun h => hfits h.1

theorem runCalls_capacity_le (hresult : runCalls relocates calls arr = some result) :
    arr.capacity ≤ result.capacity := by
  induction calls generalizing arr with
  | nil =>
      obtain rfl := Option.some.inj hresult
      exact Nat.le_refl _
  | cons c calls ih =>
      obtain ⟨arr', hrun, hresult⟩ := Option.bind_eq_some_iff.mp hresult
      exact Nat.le_trans (run_capacity_le hrun) (ih hresult)

/-- A run that never grows the array gives what a block that never moves gives. -/
theorem runCalls_neverGrows (htail : ∀ f ∈ arr.lpFields, Tail f) (hpos : 0 < arr.capacity)
    (hresult : runCalls relocates calls arr = some result) (hgrow : result.capacity = arr.capacity) :
    exactCalls calls arr.lpFields = some result.lpFields := by
  induction calls generalizing arr with
  | nil =>
      obtain rfl := Option.some.inj hresult
      rfl
  | cons c calls ih =>
      obtain ⟨arr', hrun, hresult⟩ := Option.bind_eq_some_iff.mp hresult
      have hfirst := run_capacity_le hrun
      have hrest := runCalls_capacity_le hresult
      obtain ⟨fields', hfields'⟩ := exact_isSome hrun
      have hfits : c.Fits arr := by
        by_contra hfits
        have := (run_parts htail hfits hrun hfields').2 hpos
        omega
      obtain rfl := Option.some.inj ((run_fits htail hfits hrun).symm.trans hfields')
      rw [exactCalls, hfields', Option.bind_some]
      exact ih (exact_tail htail hfields') (by omega) hresult (by omega)

end Runs

/-- Growth of the array is invisible exactly if every call that copies ranges leaves a place free. -/
theorem growth_invisible_iff {calls : List Call} {capacity : Nat} {result reference : ProtectionFieldArray}
    (hresult : runCalls relocates calls initProtectionFieldArray = some result) (hpos : 0 < capacity)
    (hreference : runCalls relocates calls ⟨[], capacity⟩ = some reference)
    (hgrow : reference.capacity = capacity) :
    result.lpFields = reference.lpFields ↔ CallsFit calls initProtectionFieldArray := by
  have hnone : ∀ f ∈ ([] : List LockProtectionField), Tail f := fun f hf => by cases hf
  have hexact := @runCalls_neverGrows calls ⟨[], capacity⟩ reference hnone hpos hreference hgrow
  exact @runCalls_eq_exact_iff calls initProtectionFieldArray result _ hnone hresult hexact

def fiveLocks : List Call :=
  ((List.range 5).map fun i => .addField (some ⟨"lock", "unlock"⟩)
    (initVarAccess (some "m") (some "m") (some "lock") (some "c:@F@lock") "f" 0 1 1 .lockAcquire false) i) ++
      [.splitActive 6 1]

/-- A place for every range is not enough for the loop that copies them. -/
theorem fiveLocks_invisible_iff : ∃ result reference,
    runCalls relocates fiveLocks initProtectionFieldArray = some result ∧
      runCalls relocates fiveLocks ⟨[], 100⟩ = some reference ∧
        (result.lpFields = reference.lpFields ↔ CallsFit fiveLocks initProtectionFieldArray) := by
  refine ⟨_, _, rfl, rfl, ?_⟩
  exact @growth_invisible_iff fiveLocks 100 _ _ rfl (by decide) rfl rfl

/-- The fifth range loses its link to the copy that made the array grow. -/
theorem fiveLocks_differ : ∃ result reference,
    runCalls relocates fiveLocks initProtectionFieldArray = some result ∧
      runCalls relocates fiveLocks ⟨[], 100⟩ = some reference ∧ reference.capacity = 100 ∧
        result.lpFields ≠ reference.lpFields := by
  refine ⟨_, _, rfl, rfl, rfl, ?_⟩
  decide +kernel

end Prongc.ArrayGrowth
