import Mathlib.Algebra.Order.BigOperators.Group.List
import Mathlib.Algebra.Order.Ring.Nat
import Prongc.AnnotationRun
import Prongc.LockPaths
import Prongc.Library.LinkedPlaces

namespace Prongc.ChainStructure

open Access LockTracking LockRanges LockReach AnnotationRun Library.LinkedArray Library.LinkedPlaces

def chainFrom (arr : ProtectionFieldArray) (i : Nat) : List Nat :=
  places LockProtectionField.nextProtRange arr.lpFields arr.lpFields.length i

/-- The places met by following the links from each range with is_ll_start. -/
def visited (arr : ProtectionFieldArray) : List Nat :=
  (List.range arr.lpFields.length).flatMap fun i =>
    if (arr.lpFields[i]?.map LockProtectionField.isLlStart).getD false then chainFrom arr i else []

/-- The chains go through every range once, and what the code does along them ends. -/
structure Chained (arr : ProtectionFieldArray) : Prop where
  visited_once : (visited arr).Perm (List.range arr.lpFields.length)
  forward : ∀ (i : Nat) f j, arr.lpFields[i]? = some f → f.nextProtRange = some j →
    i < j ∧ j < arr.lpFields.length
  one_predecessor : ∀ (i i' : Nat) f f' j, arr.lpFields[i]? = some f → arr.lpFields[i']? = some f' →
    f.nextProtRange = some j → f'.nextProtRange = some j → i = i'
  ended : ∀ f ∈ arr.lpFields, f.nextProtRange ≠ none → f.protectionRangeEnd ≠ none
  walk_ends : ∀ i fuel, arr.lpFields.length ≤ fuel →
    places LockProtectionField.nextProtRange arr.lpFields fuel i = chainFrom arr i
  last_found : ∀ i < arr.lpFields.length, (∀ fuel, arr.lpFields.length ≤ fuel →
      linkedListEnd arr.lpFields fuel i = getLpFieldLinkedListEnd arr i) ∧
    ∃ f, arr.lpFields[getLpFieldLinkedListEnd arr i]? = some f ∧ f.nextProtRange = none
  never_conditional : ∀ f ∈ arr.lpFields, lpCondProt f = false
  collected : ∀ k, (getLpFieldsInRange arr k).length ≤ arr.lpFields.length

section Chains

variable {arr : ProtectionFieldArray} {z : List (LockProtectionField × Nat)}

theorem linkedListEnd_add (fields : List LockProtectionField) (fuel fuel' i : Nat) :
    linkedListEnd fields (fuel + fuel') i = linkedListEnd fields fuel' (linkedListEnd fields fuel i) := by
  induction fuel generalizing i with
  | zero => rw [Nat.zero_add, linkedListEnd]
  | succ fuel ih =>
      rw [Nat.add_right_comm, linkedListEnd]
      conv_rhs => rw [linkedListEnd]
      cases hn : fields[i]?.bind LockProtectionField.nextProtRange with
      | none =>
          cases fuel' with
          | zero => rfl
          | succ fuel' => simp [linkedListEnd, hn]
      | some j => exact ih j

theorem linkedListEnd_last {fields : List LockProtectionField}
    (hforward : ∀ (i : Nat) f j, fields[i]? = some f → f.nextProtRange = some j → i < j ∧ j < fields.length)
    {fuel i : Nat} (hi : i < fields.length) (hfuel : fields.length ≤ i + fuel) :
    ∃ f, fields[linkedListEnd fields fuel i]? = some f ∧ f.nextProtRange = none := by
  induction fuel generalizing i with
  | zero => omega
  | succ fuel ih =>
      have hf : fields[i]? = some fields[i] := List.getElem?_eq_getElem hi
      rw [linkedListEnd, hf, Option.bind_some]
      cases hn : fields[i].nextProtRange with
      | none => exact ⟨_, hf, hn⟩
      | some j =>
          obtain ⟨hij, hj⟩ := hforward i _ j hf hn
          exact ih hj (by omega)

theorem linkedListEnd_fuel {fields : List LockProtectionField}
    (hforward : ∀ (i : Nat) f j, fields[i]? = some f → f.nextProtRange = some j → i < j ∧ j < fields.length)
    {fuel i : Nat} (hi : i < fields.length) (hfuel : fields.length ≤ fuel) :
    linkedListEnd fields fuel i = linkedListEnd fields fields.length i := by
  obtain ⟨f, hf, hn⟩ := @linkedListEnd_last fields hforward fields.length i hi (by omega)
  obtain ⟨more, rfl⟩ := Nat.exists_eq_add_of_le hfuel
  rw [linkedListEnd_add]
  exact linkedListEnd_of_last hf hn more

theorem length_inRange_le (hvisited : (visited arr).Perm (List.range arr.lpFields.length)) (k : Nat) :
    (getLpFieldsInRange arr k).length ≤ arr.lpFields.length := by
  have hle : (getLpFieldsInRange arr k).length ≤ (visited arr).length := by
    rw [getLpFieldsInRange, visited]
    rw [List.length_flatMap, List.length_flatMap]
    apply List.sum_le_sum
    intro i _
    split
    · refine Nat.le_trans (List.length_filter_le _ _) (Nat.le_of_eq ?_)
      exact length_follow _ _ _ _
    · exact Nat.le_refl _
  rwa [hvisited.length_eq, List.length_range] at hle

/-- Chains threaded through the array have the structure that the code relies on. -/
theorem chained_of_threads (h : Threads arr z) : Chained arr := by
  have hat : ∀ {i : Nat} {f : LockProtectionField}, arr.lpFields[i]? = some f →
      ∃ c, z[i]? = some (f, c) := by
    intro i f hf
    rw [← h.fields, List.getElem?_map] at hf
    obtain ⟨x, hx, rfl⟩ := Option.map_eq_some_iff.mp hf
    exact ⟨x.2, hx⟩
  have hvisited : (visited arr).Perm (List.range arr.lpFields.length) := by
    have hperm := places_perm h.threaded
    rw [h.fields, ← h.length] at hperm
    exact hperm
  have hforward : ∀ (i : Nat) f j, arr.lpFields[i]? = some f → f.nextProtRange = some j →
      i < j ∧ j < arr.lpFields.length := by
    intro i f j hf hn
    obtain ⟨c, hx⟩ := hat hf
    obtain ⟨hij, hj, -⟩ := next_later h.threaded hx hn
    refine ⟨hij, ?_⟩
    have hlt := (List.getElem?_eq_some_iff.mp hj).1
    rwa [labels, List.length_map, ← h.length] at hlt
  have hended : ∀ f ∈ arr.lpFields, f.nextProtRange ≠ none → f.protectionRangeEnd ≠ none := by
    intro f hf hn hopen
    rw [← h.fields] at hf
    obtain ⟨x, hx, rfl⟩ := List.mem_map.mp hf
    exact hn (h.openLast x hx hopen)
  constructor
  · exact hvisited
  · exact hforward
  · intro i i' f f' j hf hf' hn hn'
    obtain ⟨c, hx⟩ := hat hf
    obtain ⟨c', hx'⟩ := hat hf'
    exact next_injective h.threaded hx hx' hn hn'
  · exact hended
  · intro i fuel hfuel
    have hplaces := @places_fuel _ _ _ z h.threaded fuel z.length i
      (by have := h.length; omega) (by omega)
    rwa [h.fields, ← h.length] at hplaces
  · intro i hi
    exact ⟨fun fuel hfuel => linkedListEnd_fuel hforward hi hfuel, linkedListEnd_last hforward hi (by omega)⟩
  · intro f hf
    rw [lpCondProt]
    cases hn : f.nextProtRange with
    | none => rfl
    | some j =>
        cases he : f.protectionRangeEnd with
        | none => exact absurd he (hended f hf (by simp [hn]))
        | some e => rfl
  · exact length_inRange_le hvisited

end Chains

section Rounds

/-- The arrays that the rounds of the four operations lead to, with any arguments and in any order. -/
inductive Reachable : ProtectionFieldArray → Prop
  | init : Reachable initProtectionFieldArray
  | opened {arr arr' : ProtectionFieldArray} {pair : Option LockPrimitivePair} {va : VarAccess} {start : Nat}
      (reached : Reachable arr) (h : addLockProtectionField arr pair va start = some arr') : Reachable arr'
  | closed {arr : ProtectionFieldArray} (lockObjHash : UInt32) (protRangeEnd i : Nat) (reached : Reachable arr) :
      Reachable (setRangeEndAt lockObjHash protRangeEnd arr i)
  | split {arr : ProtectionFieldArray} (protRangeStart branchDepth i : Nat) (reached : Reachable arr) :
      Reachable (splitActiveAt inPlace protRangeStart branchDepth arr i)
  | revived {arr : ProtectionFieldArray} (protRangeStart branchDepth i : Nat) (reached : Reachable arr) :
      Reachable (reviveInactiveAt inPlace protRangeStart branchDepth arr i)

variable {arr arr' : ProtectionFieldArray}

theorem Reachable.foldl {op : ProtectionFieldArray → Nat → ProtectionFieldArray}
    (hop : ∀ arr i, Reachable arr → Reachable (op arr i)) (is : List Nat) (h : Reachable arr) :
    Reachable (is.foldl op arr) :=
  List.foldlRecOn (motive := Reachable) is op h fun arr h i _ => hop arr i h

theorem reachable_stateAfter {lockPairArray : List LockPrimitivePair} {fp seen : List VarAccess}
    {st : ProtectionFieldArray × Nat} (hst : stateAfter inPlace lockPairArray fp seen = some st) :
    Reachable st.1 := by
  suffices hrun : ∀ (entries : List (VarAccess × Nat)) st₀, Reachable st₀.1 →
      entries.foldlM (annotateAt inPlace lockPairArray fp) st₀ = some st → Reachable st.1 from
    hrun _ _ .init hst
  intro entries
  induction entries with
  | nil =>
      intro st₀ h hrun
      obtain rfl := Option.some.inj hrun
      exact h
  | cons entry entries ih =>
      intro st₀ h hrun
      obtain ⟨st₁, hentry, hrest⟩ := Option.bind_eq_some_iff.mp hrun
      refine ih st₁ ?_ hrest
      rw [annotateAt] at hentry
      cases ht : entry.1.type <;> simp only [ht] at hentry
      case lockAcquire =>
        obtain ⟨arr, harr, heq⟩ := Option.bind_eq_some_iff.mp hentry
        obtain rfl := Option.some.inj heq
        exact .opened h harr
      case lockRelease =>
        obtain ⟨usr, -, heq⟩ := Option.bind_eq_some_iff.mp hentry
        obtain rfl := Option.some.inj heq
        exact h.foldl (fun _ i h => h.closed _ _ i) _
      case ifStmt =>
        obtain ⟨start, -, heq⟩ := Option.bind_eq_some_iff.mp hentry
        obtain rfl := Option.some.inj heq
        exact h.foldl (fun _ i h => h.split _ _ i) _
      case elseStmt =>
        obtain rfl := Option.some.inj hentry
        exact h.foldl (fun _ i h => h.revived _ _ i) _
      all_goals
        obtain rfl := Option.some.inj hentry
        exact h

variable {z : List (LockProtectionField × Nat)}

theorem exists_fresh (labels : List Nat) : ∃ c, c ∉ labels := by
  refine ⟨labels.sum + 1, fun hmem => ?_⟩
  have := List.le_sum_of_mem hmem
  omega

theorem threads_opened (h : Threads arr z) {pair : Option LockPrimitivePair} {va : VarAccess} {start : Nat}
    (ha : addLockProtectionField arr pair va start = some arr') : ∃ z', Threads arr' z' := by
  obtain ⟨p, usr, capacity, -, rfl⟩ := addLockProtectionField_eq ha
  obtain ⟨c, hc⟩ := exists_fresh (labels z)
  refine ⟨z ++ [(openedRange p usr start, c)], by simp [h.fields], h.threaded.push rfl rfl hc, ?_⟩
  intro x hx
  rcases List.mem_append.mp hx with hx | hx
  · exact h.openLast x hx
  · rw [List.mem_singleton.mp hx]
    exact fun _ => rfl

theorem threads_closed (h : Threads arr z) (lockObjHash : UInt32) (protRangeEnd i : Nat) :
    ∃ z', Threads (setRangeEndAt lockObjHash protRangeEnd arr i) z' := by
  rw [setRangeEndAt]
  cases hf : arr.lpFields[i]? with
  | none => exact ⟨z, h⟩
  | some f =>
      obtain ⟨x, hx, rfl⟩ : ∃ x, z[i]? = some x ∧ x.1 = f := by
        rw [← h.fields, List.getElem?_map] at hf
        exact Option.map_eq_some_iff.mp hf
      have htail := h.openLast x (List.mem_of_getElem? hx)
      dsimp only
      split
      next hopen =>
        have hlast : getLpFieldLinkedListEnd arr i = i := linkedListEnd_of_last hf (htail hopen.1) _
        have hset : ∀ {α : Type} (g : LockProtectionField × Nat → α),
            g ({ x.1 with protectionRangeEnd := some protRangeEnd }, x.2) = g x →
              (z.set i ({ x.1 with protectionRangeEnd := some protRangeEnd }, x.2)).map g = z.map g := by
          intro α g hg
          obtain ⟨hi, hget⟩ := List.getElem?_eq_some_iff.mp hx
          rw [List.map_set, hg, ← hget, ← List.getElem_map (f := g) (h := by simpa using hi)]
          exact List.set_getElem_self _
        refine ⟨z.set i ({ x.1 with protectionRangeEnd := some protRangeEnd }, x.2), ?_, ?_, ?_⟩
        · rw [List.map_set, h.fields, hlast, ProtectionFieldArray.store]
          exact (modify_eq_set (fun f => { f with protectionRangeEnd := some protRangeEnd }) hf).symm
        · exact h.threaded.congr (labels_set hx) (hset _ rfl) (hset _ rfl)
        · intro y hy
          rcases List.mem_or_eq_of_mem_set hy with hy | rfl
          · exact h.openLast y hy
          · exact fun hnone => by cases hnone
      next => exact ⟨z, h⟩

theorem threads_copied (h : Threads arr z) {test : LockProtectionField → Bool}
    {link : Nat → LockProtectionField → LockProtectionField} {start : Nat}
    (hc : ArrayGrowth.Copying test link (uncapped start)) (hstart : ∀ n f, (link n f).isLlStart = f.isLlStart)
    {i : Nat} (hfields : arr'.lpFields = extendAt test link (uncapped start) arr.lpFields i) :
    ∃ z', Threads arr' z' := by
  rw [extendAt] at hfields
  cases hf : arr.lpFields[i]? with
  | none =>
      simp only [hf] at hfields
      exact ⟨z, h.fields.trans hfields.symm, h.threaded, h.openLast⟩
  | some f =>
      simp only [hf] at hfields
      obtain ⟨x, hx, rfl⟩ : ∃ x, z[i]? = some x ∧ x.1 = f := by
        rw [← h.fields, List.getElem?_map] at hf
        exact Option.map_eq_some_iff.mp hf
      have htail := h.openLast x (List.mem_of_getElem? hx)
      split at hfields
      next htest =>
        refine ⟨z.set i (link z.length x.1, x.2) ++ [(uncapped start x.1, x.2)], ?_, ?_, ?_⟩
        · rw [hfields, ← h.fields]
          simp [List.map_set]
        · exact h.threaded.extend hx (hc.unlinked _ htail htest) (hc.next_link _ _) (hstart _ _) rfl rfl
        · intro y hy
          rcases List.mem_append.mp hy with hy | hy
          · rcases List.mem_or_eq_of_mem_set hy with hy | rfl
            · exact h.openLast y hy
            · exact fun hnone => absurd hnone (hc.end_link _ _ htest)
          · rw [List.mem_singleton.mp hy]
            exact fun _ => rfl
      next => exact ⟨z, h.fields.trans hfields.symm, h.threaded, h.openLast⟩

theorem Reachable.threads (h : Reachable arr) : ∃ z, Threads arr z := by
  induction h with
  | init => exact ⟨[], threads_init⟩
  | opened _ ha ih =>
      obtain ⟨z, hz⟩ := ih
      exact threads_opened hz ha
  | closed lockObjHash protRangeEnd i _ ih =>
      obtain ⟨z, hz⟩ := ih
      exact threads_closed hz lockObjHash protRangeEnd i
  | split protRangeStart branchDepth i _ ih =>
      obtain ⟨z, hz⟩ := ih
      exact threads_copied hz (ArrayGrowth.copying_active protRangeStart branchDepth) (fun _ _ => rfl)
        (splitActiveAt_fields _ _ _ _)
  | revived protRangeStart branchDepth i _ ih =>
      obtain ⟨z, hz⟩ := ih
      exact threads_copied hz (ArrayGrowth.copying_inactive protRangeStart branchDepth) (fun _ _ => rfl)
        (reviveInactiveAt_fields _ _ _ _)

end Rounds

/-- Wherever then-blocks follow their ifs, the annotation only meets arrays whose chains go through every
range once. -/
theorem chains_kept {lockPairArray : List LockPrimitivePair} {fp : List VarAccess} (hthen : ThenFollows fp) :
    (NamedLocks lockPairArray fp → ∀ seen, seen <+: fp → (stateAfter inPlace lockPairArray fp seen).isSome) ∧
      (∀ seen st, stateAfter inPlace lockPairArray fp seen = some st → Reachable st.1) ∧
        ∀ arr, Reachable arr → Chained arr := by
  refine ⟨fun hnamed seen => stateAfter_isSome hnamed hthen, fun seen st => reachable_stateAfter, ?_⟩
  intro arr h
  obtain ⟨z, hz⟩ := h.threads
  exact chained_of_threads hz

def lockedBranch : List VarAccess :=
  [LockPaths.lockOf "m", LockPaths.lockEntry .ifStmt "" none, LockPaths.lockEntry .thenBlock "" none,
    LockPaths.unlockOf "m", LockPaths.lockEntry .elseStmt "" none, LockPaths.lockEntry .endIf "" none]

theorem lockedBranch_chains_kept : (stateAfter inPlace defaultLockPairs lockedBranch lockedBranch).isSome ∧
    ∀ st, stateAfter inPlace defaultLockPairs lockedBranch lockedBranch = some st → Chained st.1 := by
  have hthen : ThenFollows lockedBranch := by
    intro seen va rest hsplit hty
    have hif : ∀ n < lockedBranch.length, (lockedBranch[n]?.any fun va => va.type = .ifStmt) = true →
        ∃ a ∈ lockedBranch.drop (n + 1), a.type = .thenBlock := by
      decide
    have hat := hif seen.length (by simp [hsplit]) (by simp [hsplit, hty])
    rwa [hsplit, ← List.drop_drop, List.drop_left, List.drop_one, List.tail_cons] at hat
  obtain ⟨hdefined, hreached, hchained⟩ := @chains_kept defaultLockPairs lockedBranch hthen
  refine ⟨hdefined ⟨by decide +kernel, by decide +kernel⟩ lockedBranch List.prefix_rfl, ?_⟩
  exact fun st hst => hchained st.1 (hreached lockedBranch st hst)

end Prongc.ChainStructure
