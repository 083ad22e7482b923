import Prongc.LockTracking

namespace Prongc.LockRanges

open Access LockTracking Library.LinkedArray

/-- What a protection range means, without its place in the array. -/
structure Segment where
  rangeStart : Nat
  rangeEnd : Option Nat
  depth : Nat
  objHash : UInt32
  deriving DecidableEq, Repr

def segment (f : LockProtectionField) : Segment :=
  ⟨f.protectionRangeStart, f.protectionRangeEnd, f.branchDepth, f.lockObjHash⟩

def Segment.covers (k : Nat) (s : Segment) : Bool :=
  decide (s.rangeStart < k) && s.rangeEnd.all (fun e => decide (k < e))

def Segment.isOpen (s : Segment) : Bool := s.rangeEnd.isNone

def Segment.closeAt (objHash : UInt32) (r : Nat) (s : Segment) : Segment :=
  if s.rangeEnd = none ∧ s.objHash = objHash then { s with rangeEnd := some r } else s

def Segment.splitAt (start depth : Nat) (s : Segment) : Segment :=
  if s.isOpen = true then { s with rangeEnd := some start, depth := depth } else s

def Segment.reopenAt (start : Nat) (s : Segment) : Segment :=
  { s with rangeStart := start, rangeEnd := none }

def Segment.revivable (depth : Nat) (s : Segment) : Bool := !s.isOpen && s.depth == depth

def closeSegments (objHash : UInt32) (r : Nat) (l : List Segment) : List Segment :=
  l.map (Segment.closeAt objHash r)

def splitSegments (start depth : Nat) (l : List Segment) : List Segment :=
  l.map (Segment.splitAt start depth) ++ (l.filter Segment.isOpen).map (Segment.reopenAt start)

def reviveSegments (start depth : Nat) (l : List Segment) : List Segment :=
  l ++ (l.getLast?.toList.filter (Segment.revivable depth)).map (Segment.reopenAt start)

def Tail (f : LockProtectionField) : Prop := f.protectionRangeEnd = none → f.nextProtRange = none

/-- The chains of the array, with each range labelled by the index of the
acquisition it belongs to. -/
structure Threads (arr : ProtectionFieldArray) (z : List (LockProtectionField × Nat)) : Prop where
  fields : z.map Prod.fst = arr.lpFields
  threaded : Threaded LockProtectionField.nextProtRange LockProtectionField.isLlStart z
  openLast : ∀ x ∈ z, Tail x.1

def starts (z : List (LockProtectionField × Nat)) : List Nat :=
  startLabels LockProtectionField.isLlStart z

def segmentsOf (z : List (LockProtectionField × Nat)) (c : Nat) : List Segment :=
  (members z c).map segment

variable {arr : ProtectionFieldArray} {z : List (LockProtectionField × Nat)}

theorem threads_init : Threads initProtectionFieldArray [] :=
  ⟨rfl, threaded_nil, fun x hx => by simp at hx⟩

theorem Threads.length (h : Threads arr z) : arr.lpFields.length = z.length := by
  rw [← h.fields, List.length_map]

theorem inProtectionRange_eq {f : LockProtectionField} (h : Tail f) (k : Nat) :
    inProtectionRange k f = (segment f).covers k := by
  have hc : lpCondProt f = false := by
    rw [lpCondProt]
    cases he : f.protectionRangeEnd with
    | none => simp [h he]
    | some e => simp
  rw [inProtectionRange, hc, Bool.or_false]
  rfl

/-- The active ranges at `k`, read off the chains one acquisition after the other. -/
theorem Threads.inRange (h : Threads arr z) (k : Nat) :
    (getLpFieldsInRange arr k).map segment =
      (starts z).flatMap (fun c => (segmentsOf z c).filter (Segment.covers k)) := by
  have hf := flatMap_follow_eq h.threaded (inProtectionRange k)
  rw [h.fields, ← h.length] at hf
  unfold getLpFieldsInRange linkedRanges
  rw [hf, List.map_flatMap]
  apply List.flatMap_congr
  intro c _
  rw [segmentsOf, List.filter_map]
  congr 1
  apply List.filter_congr
  intro f hm
  obtain ⟨x, hx, rfl⟩ := List.mem_map.mp hm
  exact inProtectionRange_eq (h.openLast x (List.mem_filter.mp hx).1) k

theorem Threads.add (h : Threads arr z) {pair : Option LockPrimitivePair} {va : VarAccess} {c : Nat}
    {arr' : ProtectionFieldArray} (ha : addLockProtectionField arr pair va c = some arr')
    (hc : c ∉ labels z) :
    ∃ f usr, va.usr = some usr ∧ segment f = ⟨c, none, 0, lockTrackingGenHash usr⟩ ∧
      Threads arr' (z ++ [(f, c)]) ∧ starts (z ++ [(f, c)]) = starts z ++ [c] := by
  simp only [addLockProtectionField, initLpField, Option.bind_eq_bind, Option.bind_eq_some_iff,
    Option.some.injEq] at ha
  obtain ⟨f, ⟨p, -, usr, hu, rfl⟩, rfl⟩ := ha
  refine ⟨⟨none, 0, c, none, lockTrackingGenHash usr, lockTrackingGenHash p.lockFunc,
    lockTrackingGenHash p.unlockFunc, true⟩, usr, hu, rfl,
    ⟨by simp [h.fields], h.threaded.push rfl rfl hc, ?_⟩, ?_⟩
  · intro x hx
    rcases List.mem_append.mp hx with hx | hx
    · exact h.openLast x hx
    · rw [List.mem_singleton.mp hx]
      exact fun _ => rfl
  · simp [starts, startLabels]

/-- A loop whose rounds rewrite only their own element is a map. -/
theorem foldl_range_store {α : Type} {P : α → Prop} (f : α → α) (g : List α → Nat → List α)
    (hg : ∀ l i x, P x → l[i]? = some x → g l i = l.set i (f x)) {l : List α}
    (hl : ∀ x ∈ l, P x) : (List.range l.length).foldl g l = l.map f := by
  suffices hs : ∀ post pre : List α, (∀ x ∈ post, P x) →
      (List.range' pre.length post.length).foldl g (pre ++ post) = pre ++ post.map f by
    simpa [List.range_eq_range'] using hs l [] hl
  intro post
  induction post with
  | nil => intro pre _; simp
  | cons x post ih =>
      intro pre hp
      have hx : (pre ++ x :: post)[pre.length]? = some x := by simp
      have hset : (pre ++ x :: post).set pre.length (f x) = (pre ++ [f x]) ++ post := by simp
      rw [List.length_cons, List.range'_succ, List.foldl_cons,
        hg _ _ x (hp x List.mem_cons_self) hx, hset]
      simpa using ih (pre ++ [f x]) (fun y hy => hp y (List.mem_cons_of_mem _ hy))

theorem modify_eq_set {α : Type} {l : List α} {i : Nat} {x : α} (f : α → α) (h : l[i]? = some x) :
    l.modify i f = l.set i (f x) := by
  obtain ⟨hi, rfl⟩ := List.getElem?_eq_some_iff.mp h
  exact List.modify_eq_set_get f hi

def closeField (objHash : UInt32) (r : Nat) (f : LockProtectionField) : LockProtectionField :=
  if f.protectionRangeEnd = none ∧ f.lockObjHash = objHash then { f with protectionRangeEnd := some r }
  else f

theorem closeField_next (objHash : UInt32) (r : Nat) (f : LockProtectionField) :
    (closeField objHash r f).nextProtRange = f.nextProtRange := by
  rw [closeField]
  split <;> rfl

theorem closeField_start (objHash : UInt32) (r : Nat) (f : LockProtectionField) :
    (closeField objHash r f).protectionRangeStart = f.protectionRangeStart := by
  rw [closeField]
  split <;> rfl

theorem closeField_depth (objHash : UInt32) (r : Nat) (f : LockProtectionField) :
    (closeField objHash r f).branchDepth = f.branchDepth := by
  rw [closeField]
  split <;> rfl

theorem closeField_objHash (objHash : UInt32) (r : Nat) (f : LockProtectionField) :
    (closeField objHash r f).lockObjHash = f.lockObjHash := by
  rw [closeField]
  split <;> rfl

theorem closeField_end (objHash : UInt32) (r : Nat) (f : LockProtectionField) :
    (closeField objHash r f).protectionRangeEnd =
      if f.protectionRangeEnd = none ∧ f.lockObjHash = objHash then some r else f.protectionRangeEnd := by
  rw [closeField]
  split <;> rfl

theorem closeField_isLlStart (objHash : UInt32) (r : Nat) (f : LockProtectionField) :
    (closeField objHash r f).isLlStart = f.isLlStart := by
  rw [closeField]
  split <;> rfl

theorem tail_closeField (objHash : UInt32) (r : Nat) {f : LockProtectionField} (h : Tail f) :
    Tail (closeField objHash r f) := by
  rw [closeField]
  split_ifs
  · exact fun hend => by cases hend
  · exact h

theorem linkedListEnd_of_last {fields : List LockProtectionField} {i : Nat} {f : LockProtectionField}
    (hf : fields[i]? = some f) (hn : f.nextProtRange = none) (fuel : Nat) :
    linkedListEnd fields fuel i = i := by
  cases fuel with
  | zero => rfl
  | succ fuel => simp [linkedListEnd, hf, hn]

theorem foldl_fields {op : ProtectionFieldArray → Nat → ProtectionFieldArray}
    {g : List LockProtectionField → Nat → List LockProtectionField}
    (h : ∀ arr i, (op arr i).lpFields = g arr.lpFields i) (is : List Nat) (arr : ProtectionFieldArray) :
    (is.foldl op arr).lpFields = is.foldl g arr.lpFields := by
  induction is generalizing arr with
  | nil => rfl
  | cons i is ih => rw [List.foldl_cons, ih, h, List.foldl_cons]

theorem setProtectionRangeEnd_fields (hopen : ∀ f ∈ arr.lpFields, Tail f) (usr : String) (r : Nat) :
    (setProtectionRangeEnd arr usr r).lpFields =
      arr.lpFields.map (closeField (lockTrackingGenHash usr) r) := by
  have hop : ∀ a i, (setRangeEndAt (lockTrackingGenHash usr) r a i).lpFields =
      (setRangeEndAt (lockTrackingGenHash usr) r ⟨a.lpFields, 0⟩ i).lpFields := by
    intro a i
    cases hf : a.lpFields[i]? with
    | none => simp [setRangeEndAt, hf]
    | some f =>
        simp only [setRangeEndAt, hf]
        split_ifs <;> rfl
  rw [setProtectionRangeEnd]
  rw [foldl_fields (g := fun l i => (setRangeEndAt (lockTrackingGenHash usr) r ⟨l, 0⟩ i).lpFields) hop]
  refine foldl_range_store (P := Tail)
    (closeField (lockTrackingGenHash usr) r) _ ?_ hopen
  intro l i f hgood hf
  simp only [setRangeEndAt, hf, closeField]
  split_ifs with hc
  · have hlast : getLpFieldLinkedListEnd ⟨l, 0⟩ i = i :=
      linkedListEnd_of_last hf (hgood hc.1) _
    rw [hlast]
    exact modify_eq_set _ hf
  · obtain ⟨hi, rfl⟩ := List.getElem?_eq_some_iff.mp hf
    exact (List.set_getElem_self hi).symm

theorem segment_closeField (objHash : UInt32) (r : Nat) (f : LockProtectionField) :
    segment (closeField objHash r f) = (segment f).closeAt objHash r := by
  by_cases hc : f.protectionRangeEnd = none ∧ f.lockObjHash = objHash <;>
    simp [closeField, Segment.closeAt, segment, hc]

theorem Threads.close (h : Threads arr z) (usr : String) (r : Nat) :
    ∃ z', Threads (setProtectionRangeEnd arr usr r) z' ∧ starts z' = starts z ∧
      labels z' = labels z ∧
      ∀ c, segmentsOf z' c = closeSegments (lockTrackingGenHash usr) r (segmentsOf z c) := by
  have hopen : ∀ f ∈ arr.lpFields, Tail f := by
    rw [← h.fields]
    intro f hf
    obtain ⟨x, hx, rfl⟩ := List.mem_map.mp hf
    exact h.openLast x hx
  have hlabels : labels (z.map (fun x => (closeField (lockTrackingGenHash usr) r x.1, x.2))) =
      labels z := by
    simp [labels]
  refine ⟨z.map (fun x => (closeField (lockTrackingGenHash usr) r x.1, x.2)), ⟨?_, ?_, ?_⟩, ?_,
    hlabels, ?_⟩
  · rw [setProtectionRangeEnd_fields hopen, ← h.fields]
    simp
  · exact h.threaded.congr hlabels (by simp [closeField_next]) (by simp [closeField_isLlStart])
  · intro x hx
    obtain ⟨y, hy, rfl⟩ := List.mem_map.mp hx
    exact tail_closeField _ _ (h.openLast y hy)
  · simp [starts, startLabels, List.filter_map, Function.comp_def, closeField_isLlStart]
  · intro c
    simp [segmentsOf, members, closeSegments, List.filter_map, Function.comp_def, segment_closeField]

def inPlace : Nat → Bool := fun _ => false

theorem modify_modify_last {α : Type} {l : List α} {i : Nat} {x : α} (hx : l[i]? = some x) (a : α)
    (f g : α → α) : ((l ++ [a]).modify i f).modify l.length g = l.set i (f x) ++ [g a] := by
  have hi := (List.getElem?_eq_some_iff.mp hx).1
  have hlen : l.length = (l.set i (f x)).length := by simp
  rw [modify_eq_set f (by rwa [List.getElem?_append_left hi]), List.set_append_left _ _ hi, hlen,
    modify_eq_set (x := a) g (by simp)]
  simp

def isActive (f : LockProtectionField) : Bool := f.protectionRangeEnd.isNone

def linkActive (start depth n : Nat) (f : LockProtectionField) : LockProtectionField :=
  { f with nextProtRange := some n, protectionRangeEnd := some start, branchDepth := depth }

def isInactive (depth : Nat) (f : LockProtectionField) : Bool :=
  f.nextProtRange.isNone && (f.protectionRangeEnd.isSome && f.branchDepth == depth)

def linkInactive (n : Nat) (f : LockProtectionField) : LockProtectionField :=
  { f with nextProtRange := some n }

def uncapped (start : Nat) (f : LockProtectionField) : LockProtectionField :=
  { f with isLlStart := false, nextProtRange := none, protectionRangeStart := start,
           protectionRangeEnd := none }

theorem splitActiveAt_fields (start depth i : Nat) (arr : ProtectionFieldArray) :
    (splitActiveAt inPlace start depth arr i).lpFields =
      extendAt isActive (linkActive start depth) (uncapped start) arr.lpFields i := by
  rw [splitActiveAt, extendAt]
  cases hf : arr.lpFields[i]? with
  | none => rfl
  | some f =>
      by_cases ho : f.protectionRangeEnd = none
      · simp only [ho, if_true, isActive, Option.isNone_none, ProtectionFieldArray.store, storeOld,
          copyMoves, inPlace, Bool.and_false, Bool.false_eq_true, if_false, addLockProtectionCopy]
        rw [modify_modify_last hf]
        rfl
      · simp [ho, isActive]

theorem reviveInactiveAt_fields (start depth i : Nat) (arr : ProtectionFieldArray) :
    (reviveInactiveAt inPlace start depth arr i).lpFields =
      extendAt (isInactive depth) linkInactive (uncapped start) arr.lpFields i := by
  rw [reviveInactiveAt, extendAt]
  cases hf : arr.lpFields[i]? with
  | none => rfl
  | some f =>
      by_cases ho : isInactive depth f = true
      · have ho' : f.nextProtRange = none ∧ f.protectionRangeEnd ≠ none ∧ f.branchDepth = depth := by
          simpa [isInactive, Option.isSome_iff_ne_none] using ho
        simp only [ho, if_true, if_pos ho', ProtectionFieldArray.store, storeOld,
          copyMoves, inPlace, Bool.and_false, Bool.false_eq_true, if_false, addLockProtectionCopy]
        rw [modify_modify_last hf]
        rfl
      · have ho' : ¬ (f.nextProtRange = none ∧ f.protectionRangeEnd ≠ none ∧ f.branchDepth = depth) := by
          simpa [isInactive, Option.isSome_iff_ne_none] using ho
        simp [ho, ho']

theorem Threads.extend (h : Threads arr z) {op : ProtectionFieldArray → Nat → ProtectionFieldArray}
    {test : LockProtectionField → Bool} (link : Nat → LockProtectionField → LockProtectionField)
    (upd : LockProtectionField → Segment) {start : Nat}
    (hop : ∀ arr i, (op arr i).lpFields = extendAt test link (uncapped start) arr.lpFields i)
    (hnext : ∀ n f, (link n f).nextProtRange = some n)
    (hstart : ∀ n f, (link n f).isLlStart = f.isLlStart)
    (htest : ∀ f, Tail f → test f = true → f.nextProtRange = none)
    (hlink : ∀ n f, Tail f → test f = true → Tail (link n f)) (hseg : ∀ n f, segment (link n f) = upd f) :
    ∃ z', Threads ((List.range arr.lpFields.length).foldl op arr) z' ∧ starts z' = starts z ∧
      (∀ c, c ∈ labels z' ↔ c ∈ labels z) ∧
      ∀ c, segmentsOf z' c =
        (members z c).map (fun f => if test f = true then upd f else segment f) ++
          ((members z c).filter test).map (fun f => segment (uncapped start f)) := by
  have hgoodCopy (f : LockProtectionField) (_ : Tail f) : Tail (uncapped start f) := fun _ => rfl
  obtain ⟨z', hz', hth, hlast, hst, hl, hc⟩ := extendLoop_spec hnext hstart (fun _ => rfl) (fun _ => rfl)
    htest hlink hgoodCopy hseg h.threaded h.openLast
  refine ⟨z', ⟨?_, hth, hlast⟩, hst, hl, hc⟩
  rw [hz', foldl_fields hop, h.fields, extendLoop]

theorem Threads.split (h : Threads arr z) (start depth : Nat) :
    ∃ z', Threads (addProtectionRangeFieldsActive inPlace arr start depth) z' ∧
      starts z' = starts z ∧ (∀ c, c ∈ labels z' ↔ c ∈ labels z) ∧
      ∀ c, segmentsOf z' c = splitSegments start depth (segmentsOf z c) := by
  obtain ⟨z', hz', hst, hl, hc⟩ := h.extend (linkActive start depth)
    (fun f => ⟨f.protectionRangeStart, some start, depth, f.lockObjHash⟩)
    (fun arr i => splitActiveAt_fields start depth i arr) (fun _ _ => rfl) (fun _ _ => rfl)
    (fun f hf ht => hf (Option.isNone_iff_eq_none.mp ht)) (fun _ _ _ _ hn => by simp [linkActive] at hn)
    (fun _ _ => rfl)
  refine ⟨z', hz', hst, hl, fun c => ?_⟩
  rw [hc, splitSegments, segmentsOf, List.map_map, List.filter_map, List.map_map]
  congr 1

theorem Threads.revive (h : Threads arr z) (start depth : Nat) :
    ∃ z', Threads (addProtectionRangeFieldsInactive inPlace arr start depth) z' ∧
      starts z' = starts z ∧ (∀ c, c ∈ labels z' ↔ c ∈ labels z) ∧
      ∀ c, segmentsOf z' c = reviveSegments start depth (segmentsOf z c) := by
  obtain ⟨z', hz', hst, hl, hc⟩ := h.extend linkInactive segment
    (fun arr i => reviveInactiveAt_fields start depth i arr) (fun _ _ => rfl) (fun _ _ => rfl)
    (fun f _ ht => by simp only [isInactive, Bool.and_eq_true, Option.isNone_iff_eq_none] at ht; exact ht.1)
    (fun n f _ ht hn => by simp_all [isInactive, linkInactive]) (fun _ _ => rfl)
  refine ⟨z', hz', hst, hl, fun c => ?_⟩
  have hlast : (members z c).filter (isInactive depth) =
      (members z c).getLast?.toList.filter (fun f => f.protectionRangeEnd.isSome && f.branchDepth == depth) := by
    rw [← filter_next_none h.threaded c, List.filter_filter]
    exact List.filter_congr fun f _ => Bool.and_comm _ _
  rw [hc, reviveSegments, segmentsOf, hlast, List.getLast?_map]
  simp only [ite_self]
  congr 1
  cases (members z c).getLast? with
  | none => rfl
  | some f =>
      have hrev : (f.protectionRangeEnd.isSome && f.branchDepth == depth) =
          (segment f).revivable depth := by
        simp [Segment.revivable, Segment.isOpen, segment]
      simp only [Option.toList_some, Option.map_some, List.filter_singleton, hrev]
      cases (segment f).revivable depth <;> rfl

end Prongc.LockRanges
