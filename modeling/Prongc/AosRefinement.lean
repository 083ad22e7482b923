import Prongc.AosMemory

namespace Prongc.AosRefinement

open ParseCall Library.CStrings SplitLists Library.Blocks AosMemory
open Library.SizeT
open DynAos (packedData startsFrom packedData_append packedData_singleton startsFrom_append)

variable {heap : Heap} {limit : Nat} {array : DynamicAOS} {st st' : AosState} {strs front back : List CString}
  {str : CString}

section Strings

theorem startsFrom_length (offset : Nat) (strs : List CString) : (startsFrom offset strs).length = strs.length := by
  induction strs generalizing offset with
  | nil => rfl
  | cons str strs ih => rw [startsFrom, List.length_cons, List.length_cons, ih]

theorem packedData_cons (front back : List CString) (str : CString) :
    packedData (front ++ str :: back) = packedData front ++ (str.bytes ++ 0 :: packedData back) := by
  rw [packedData_append, ← List.singleton_append, packedData_append, packedData_singleton, List.append_assoc,
    List.singleton_append]

theorem count_live (h : Represents array (front ++ str :: back)) : front.length < array.count := by
  rw [h.count_eq, List.length_append, List.length_cons]
  omega

theorem slot_live (h : Represents array (front ++ str :: back)) :
    array.strings[front.length]? = some (pointerTo array.data (packedData front).length) := by
  rw [← List.getElem?_take_of_lt (count_live h), h.slots, startsFrom_append, Nat.zero_add, startsFrom,
    List.getElem?_map, List.getElem?_append_right (Nat.le_of_eq (startsFrom_length 0 front)), startsFrom_length,
    Nat.sub_self, List.getElem?_cons_zero, Option.map_some]

theorem slotAt_live (h : Represents array (front ++ str :: back)) :
    slotAt array front.length = .ok (pointerTo array.data (packedData front).length) := by
  rw [slotAt, slot_live h]

theorem size_live (h : Represents array (front ++ str :: back)) :
    (packedData front).length + (str.bytes.length + 1) ≤ array.size := by
  rw [h.size_eq, packedData_cons, List.length_append, List.length_append, List.length_cons]
  omega

theorem stringAt_live (h : Represents array (front ++ str :: back)) :
    stringAt array.data (pointerTo array.data (packedData front).length) = .ok str := by
  have hsize := size_live h
  have hle := h.size_le
  have hlt := h.capacity_lt
  have hdata : array.data.bytes = packedData (front ++ str :: back) ++ array.data.bytes.drop array.size := by
    rw [← h.packed, List.take_append_drop]
  have hoffset : (pointerTo array.data (packedData front).length - array.data.addr).toNat = (packedData front).length :=
    offset_pointer (by omega)
  rw [stringAt, hoffset, hdata, packedData_cons, List.append_assoc, List.drop_left, List.append_assoc,
    List.cons_append, readCString_append_zero]

theorem pointer_live (h : Represents array (front ++ str :: back)) :
    pointerTo array.data (packedData front).length ≠ null := by
  have hsize := size_live h
  have hle := h.size_le
  have hend := h.data_end
  exact pointer_ne_zero h.data_ne_null (by omega)

end Strings

section Push

theorem represents_append {bytes : List UInt8} {strings : List UInt64} (h : Represents array strs)
    (hcount : array.count < array.stringsCap) (hsize : array.size + (str.bytes.length + 1) ≤ array.capacity)
    (hbytes : bytes.length = array.data.bytes.length)
    (hcopied : bytes.take (array.size + (str.bytes.length + 1)) = array.data.bytes.take array.size ++ (str.bytes ++ [0]))
    (hstrings : strings.length = array.strings.length)
    (hslot : strings.take (array.count + 1) = array.strings.take array.count ++ [pointerTo array.data array.size]) :
    Represents
      { array with
        size := array.size + (str.bytes.length + 1)
        count := array.count + 1
        data := ⟨array.data.addr, bytes⟩
        strings := strings } (strs ++ [str]) := by
  refine ⟨{ h.toAllocated with
    data_length := hbytes.trans h.data_length
    strings_length := hstrings.trans h.strings_length }, hsize, hcount, ?_, ?_, ?_, ?_⟩
  · rw [packedData_append, packedData_singleton, List.length_append, List.length_append, List.length_singleton,
      ← h.size_eq]
  · rw [List.length_append, List.length_singleton, ← h.count_eq]
  · rw [hcopied, h.packed, packedData_append, packedData_singleton]
  · rw [hslot, h.slots, startsFrom_append, Nat.zero_add, ← h.size_eq, List.map_append]
    rfl

theorem storeString_represents (hstr : str.bytes.length + 1 < 2 ^ 63) (h : Holding st strs)
    (hcount : st.array.count < st.array.stringsCap)
    (hsize : st.array.size + (str.bytes.length + 1) ≤ st.array.capacity) :
    ∃ st', storeString st str = .ok st' ∧ Holding st' (strs ++ [str]) := by
  obtain ⟨h, hclean⟩ := h
  have hlt := h.capacity_lt
  have hslots := h.stringsCap_lt
  have hnew : (str.bytes ++ [0]).length = str.bytes.length + 1 := List.length_append
  obtain ⟨bytes, hwrite, hbytes, hcopied⟩ := @overwrite_spec _ st.array.data.bytes (str.bytes ++ [0]) st.array.size
    (by rw [h.data_length, hnew]; exact hsize)
  obtain ⟨strings, hstore, hstrings, hslot⟩ :=
    @overwrite_spec _ st.array.strings [pointerTo st.array.data st.array.size] st.array.count
      (by rw [h.strings_length]; exact hcount)
  rw [hnew] at hcopied
  have hpushed := represents_append h hcount hsize hbytes hcopied hstrings hslot
  rw [pointerTo] at hstore
  rw [storeString, hwrite, hstore, sizeT_of_lt (n := str.bytes.length + 1) (by omega), sizeT_of_lt (by omega),
    sizeT_of_lt (by omega)]
  exact ⟨_, rfl, hpushed, hclean⟩

theorem room_push : roomFor (strs ++ [str]) =
    max 512 (max (2 * ((packedData strs).length + (str.bytes.length + 1))) (16 * (strs.length + 1))) := by
  rw [roomFor, packedData_append, packedData_singleton, List.length_append, List.length_append, List.length_append,
    List.length_singleton, List.length_singleton]

/-- A push appends the string, or it returns ERR_OUT_OF_MEMORY. -/
theorem aosPushString_represents (hstr : str.bytes.length + 1 < 2 ^ 63) (hlimit : roomFor (strs ++ [str]) ≤ limit)
    (h : Holding st strs) : ∃ r, aosPushString heap st str = .ok r ∧ Pushes heap limit r fun st' =>
      Holding st' (strs ++ [str]) := by
  rw [room_push] at hlimit
  have hgrow := @growStrings_represents heap limit st strs (by omega) (by omega) h
  rw [aosPushString, sizeT_of_lt (by omega)]
  obtain ⟨hcode, hgrown, hcount⟩ | ⟨hrefused, hcode, hlost⟩ := hgrow
  · have hpos := hgrown.1.capacity_pos
    obtain ⟨r, hbounds, hroom⟩ := @boundsCheckData_represents heap limit _ strs (str.bytes.length + 1) 64
      (Nat.le_of_lt hstr) (by omega) (by omega) hgrown hcount
    rw [unlessFailed, if_neg (by simp [hcode]), hbounds, ok_bind]
    obtain ⟨hcode, hroomy, hcount, hsize⟩ | hfailed := hroom
    · obtain ⟨st', hstored, hpushed⟩ := storeString_represents hstr hroomy hcount hsize
      rw [unlessFailed, if_neg (by simp [hcode]), hstored]
      exact ⟨(.ok, st'), rfl, .inl ⟨rfl, hpushed⟩⟩
    · rw [unlessFailed, if_pos (by simp [hfailed.2.1])]
      exact ⟨r, rfl, .inr hfailed⟩
  · rw [unlessFailed, if_pos (by simp [hcode])]
    exact ⟨_, rfl, .inr ⟨hrefused, hcode, hlost⟩⟩

theorem unlessFailed_lost {r last : ParseCall.ProngError × AosState}
    {next : AosState → Except Failure (ParseCall.ProngError × AosState)} (h : r.2.lost = true)
    (hnext : ∀ last, next r.2 = .ok last → last.2.lost = true) (hlast : unlessFailed r next = .ok last) :
    last.2.lost = true := by
  rw [unlessFailed] at hlast
  split at hlast
  next =>
    cases hlast
    exact h
  next => exact hnext last hlast

theorem growStrings_lost (h : st.lost = true) : (growStrings heap st).2.lost = true := by
  rw [growStrings]
  split
  next =>
    split
    next => rfl
    next => exact h
  next => exact h

theorem boundsCheckData_lost {strSize rounds : Nat} {r : ParseCall.ProngError × AosState} (h : st.lost = true)
    (hr : boundsCheckData heap strSize rounds st = .ok r) : r.2.lost = true := by
  induction rounds generalizing st with
  | zero => cases hr
  | succ rounds ih =>
      rw [boundsCheckData] at hr
      split at hr
      next =>
        split at hr
        next =>
          cases hr
          rfl
        next addr hgrant =>
          apply ih _ hr
          exact h
      next =>
        cases hr
        exact h

theorem storeString_lost (h : st.lost = true) (hst : storeString st str = .ok st') : st'.lost = true := by
  rw [storeString] at hst
  cases hbytes : overwrite st.array.data.bytes st.array.size (str.bytes ++ [0]) with
  | error => rw [hbytes] at hst; cases hst
  | ok bytes =>
      rw [hbytes] at hst
      cases hstrings : overwrite st.array.strings st.array.count
          [st.array.data.addr + UInt64.ofNat st.array.size] with
      | error => rw [hstrings] at hst; cases hst
      | ok strings =>
          rw [hstrings] at hst
          cases hst
          exact h

theorem aosPushString_lost {r : ParseCall.ProngError × AosState} (h : st.lost = true)
    (hr : aosPushString heap st str = .ok r) : r.2.lost = true := by
  refine unlessFailed_lost (growStrings_lost h) (fun last hlast => ?_) hr
  cases hbounds : boundsCheckData heap (sizeT (str.bytes.length + 1)) 64 (growStrings heap st).2 with
  | error => rw [hbounds] at hlast; cases hlast
  | ok bounded =>
      rw [hbounds, ok_bind] at hlast
      refine unlessFailed_lost (boundsCheckData_lost (growStrings_lost h) hbounds) (fun last hlast => ?_) hlast
      cases hstored : storeString bounded.2 str with
      | error => rw [hstored] at hlast; cases hlast
      | ok st' =>
          rw [hstored] at hlast
          cases hlast
          exact storeString_lost (boundsCheckData_lost (growStrings_lost h) hbounds) hstored

end Push

section Pop

theorem represents_dropLast (h : Represents array (strs ++ [str])) :
    Represents { array with size := array.size - (str.bytes.length + 1), count := array.count - 1 } strs := by
  have hsize := h.size_eq
  have hcount := h.count_eq
  rw [packedData_append, packedData_singleton, List.length_append, List.length_append, List.length_singleton] at hsize
  rw [List.length_append, List.length_singleton] at hcount
  have hleft : array.size - (str.bytes.length + 1) = (packedData strs).length := by omega
  have hless : array.count - 1 = strs.length := by omega
  refine ⟨{ h.toAllocated with }, Nat.le_trans (Nat.sub_le _ _) h.size_le, Nat.le_trans (Nat.sub_le _ _) h.count_le,
    hleft, hless, ?_, ?_⟩
  · change array.data.bytes.take (array.size - (str.bytes.length + 1)) = packedData strs
    rw [← Nat.min_eq_left (Nat.sub_le array.size (str.bytes.length + 1)), ← List.take_take, h.packed, hleft,
      packedData_append, List.take_left]
  · change array.strings.take (array.count - 1) = (startsFrom 0 strs).map (pointerTo array.data)
    rw [← Nat.min_eq_left (Nat.sub_le array.count 1), ← List.take_take, h.slots, hless, startsFrom_append,
      List.map_append, List.take_left' (by rw [List.length_map, startsFrom_length])]

theorem aosPopString_represents (h : Holding st strs) : ∃ r, aosPopString st = .ok r ∧
    r.1 = (if strs.isEmpty then .aosEmpty else .ok) ∧ Holding r.2 strs.dropLast := by
  obtain ⟨h, hclean⟩ := h
  have hcount := h.count_eq
  rw [aosPopString]
  rcases List.eq_nil_or_concat strs with rfl | ⟨front, last, rfl⟩
  · rw [if_pos (hcount.trans List.length_nil)]
    exact ⟨_, rfl, rfl, h, hclean⟩
  · rw [List.concat_eq_append] at h hcount ⊢
    have hlive : sizePred st.array.count = front.length := by
      rw [hcount, sizePred, List.length_append, List.length_singleton, if_neg (Nat.succ_ne_zero _), Nat.add_sub_cancel]
    have hlast : aosStringAt st.array (sizePred st.array.count) =
        .ok (pointerTo st.array.data (packedData front).length) := by
      rw [aosStringAt, if_neg (Nat.lt_irrefl _), hlive, slotAt_live h]
    have hsize := size_live h
    have hle := h.size_le
    have hlt := h.capacity_lt
    have hpopped := represents_dropLast h
    have hshrunk : sizeT (st.array.size + 2 ^ 64 - sizeT (last.bytes.length + 1)) =
        st.array.size - (last.bytes.length + 1) := sizeT_sub (by omega) (by omega)
    have hless : sizePred st.array.count = st.array.count - 1 := by
      rw [hlive, hcount, List.length_append, List.length_singleton, Nat.add_sub_cancel]
    rw [if_neg (by rw [hcount]; simp), hlast, ok_bind, stringAt_live h, ok_bind]
    rw [hshrunk, hless, List.dropLast_concat]
    exact ⟨_, rfl, by simp, hpopped, hclean⟩

end Pop

section Append

variable {array2 : DynamicAOS}

theorem Pushes.yields {result : Except Failure (ParseCall.ProngError × AosState)} {P : AosState → Prop}
    (h : ∃ r, result = .ok r ∧ Pushes heap limit r P) :
    Yields heap limit (fun r => r.2.lost = true) result fun r => r.1 = .ok ∧ P r.2 := by
  obtain ⟨r, rfl, ⟨hcode, hP⟩ | ⟨hrefused, hcode, hlost⟩⟩ := h
  · exact .pure ⟨hcode, hP⟩
  · refine .inr ⟨hrefused, fun a ha => ?_⟩
    cases ha
    exact hlost

theorem appendAt_represents (h2 : Represents array2 (front ++ str :: back)) (hlimit : roomFor (strs ++ [str]) ≤ limit)
    (h : Holding st strs) : Yields heap limit (fun st' => st'.lost = true) (appendAt heap array2 st front.length)
      fun st' => Holding st' (strs ++ [str]) := by
  have hsize := size_live h2
  have hle := h2.size_le
  have hlt := h2.capacity_lt
  rw [appendAt, slotAt_live h2]
  change Yields heap limit _ (stringAt _ _ >>= _) _
  rw [stringAt_live h2]
  refine (Pushes.yields (aosPushString_represents (by omega) hlimit h)).bind (fun r hr => .pure hr.2) ?_
  intro r st' hlost hst
  cases hst
  exact hlost

theorem appendAt_lost {i : Nat} (h : st.lost = true) (hst : appendAt heap array2 st i = .ok st') :
    st'.lost = true := by
  rw [appendAt] at hst
  cases hslot : slotAt array2 i with
  | error => rw [hslot] at hst; cases hst
  | ok current =>
      rw [hslot] at hst
      change stringAt _ _ >>= _ = _ at hst
      cases hstr : stringAt array2.data current with
      | error => rw [hstr] at hst; cases hst
      | ok str =>
          rw [hstr] at hst
          change aosPushString heap st str >>= _ = _ at hst
          cases hpush : aosPushString heap st str with
          | error => rw [hpush] at hst; cases hst
          | ok r =>
              rw [hpush] at hst
              cases hst
              exact aosPushString_lost h hpush

theorem appendLoop_lost {is : List Nat} (h : st.lost = true)
    (hst : is.foldlM (appendAt heap array2) st = .ok st') : st'.lost = true := by
  induction is generalizing st with
  | nil =>
      cases hst
      exact h
  | cons i is ih =>
      rw [List.foldlM_cons] at hst
      cases hfirst : appendAt heap array2 st i with
      | error => rw [hfirst] at hst; cases hst
      | ok mid =>
          rw [hfirst] at hst
          exact ih (appendAt_lost h hfirst) hst

theorem room_mono {front back : List CString} : roomFor front ≤ roomFor (front ++ back) := by
  rw [roomFor, roomFor, packedData_append, List.length_append, List.length_append]
  omega

theorem appendLoop_represents (h2 : Represents array2 (front ++ back)) (hlimit : roomFor (strs ++ back) ≤ limit)
    (h : Holding st strs) :
    Yields heap limit (fun st' => st'.lost = true)
      ((List.range' front.length back.length).foldlM (appendAt heap array2) st) fun st' =>
        Holding st' (strs ++ back) := by
  induction back generalizing front strs st with
  | nil =>
      rw [List.append_nil]
      exact .pure h
  | cons str back ih =>
      rw [List.length_cons, List.range'_succ, List.foldlM_cons]
      rw [List.append_cons] at hlimit ⊢
      refine (appendAt_represents h2 (Nat.le_trans room_mono hlimit) h).bind ?_ fun _ _ => appendLoop_lost
      intro st' h'
      have hnext := @ih st' (strs ++ [str]) (front ++ [str]) (by rwa [List.append_assoc]) hlimit h'
      rwa [List.length_append] at hnext

def appendStrings (strs strs2 : List CString) : ProngError × List CString :=
  if strs.isEmpty || strs2.isEmpty then (.invalidArg, strs) else (.ok, strs ++ strs2)

theorem empty_iff {strs2 : List CString} {count count2 : Nat} (h : count = strs.length) (h2 : count2 = strs2.length) :
    (count = 0 ∨ count2 = 0) ↔ (strs.isEmpty || strs2.isEmpty) = true := by
  rw [h, h2, Bool.or_eq_true, List.isEmpty_iff_length_eq_zero, List.isEmpty_iff_length_eq_zero]

theorem aosAppendStrings_represents {strs2 : List CString} (h2 : Represents array2 strs2)
    (hlimit : roomFor (appendStrings strs strs2).2 ≤ limit) (h : Holding st strs) :
    Yields heap limit (fun r => r.2.lost = true) (aosAppendStrings heap st array2) fun r =>
      r.1 = (appendStrings strs strs2).1 ∧ Holding r.2 (appendStrings strs strs2).2 := by
  have hempty := empty_iff h.1.count_eq h2.count_eq
  rw [appendStrings] at hlimit
  rw [aosAppendStrings, appendStrings]
  by_cases hskip : (strs.isEmpty || strs2.isEmpty) = true
  · rw [if_pos (hempty.mpr hskip), if_pos hskip]
    exact .pure ⟨rfl, h⟩
  · rw [if_neg hskip] at hlimit
    rw [if_neg (mt hempty.mp hskip), if_neg hskip, List.range_eq_range', h2.count_eq]
    have hloop := @appendLoop_represents heap limit st strs [] strs2 array2 h2 hlimit h
    refine hloop.bind (fun st' h' => .pure ⟨rfl, h'⟩) fun st' r hlost hr => ?_
    cases hr
    exact hlost

end Append

section Search

def startOf (array : DynamicAOS) (strs : List CString) (i : Nat) : UInt64 :=
  pointerTo array.data (packedData (strs.take i)).length

theorem startOf_live (array : DynamicAOS) (front back : List CString) :
    startOf array (front ++ back) front.length = pointerTo array.data (packedData front).length := by
  rw [startOf, List.take_left]

theorem searchFrom_eq (h : Represents array (front ++ back)) (needle : CString) :
    searchFrom array needle (List.range' front.length back.length) =
      .ok (((back.map CString.bytes).idxOf? needle.bytes).map fun i =>
        (front.length + i, startOf array (front ++ back) (front.length + i))) := by
  induction back generalizing front with
  | nil => rfl
  | cons str back ih =>
      rw [List.length_cons, List.range'_succ, searchFrom, slotAt_live h]
      change stringAt _ _ >>= _ = _
      rw [stringAt_live h, List.map_cons, List.idxOf?_cons]
      change (if str.bytes = needle.bytes then _ else _) = _
      by_cases heq : str.bytes = needle.bytes
      · rw [if_pos heq, if_pos (beq_iff_eq.mpr heq), Option.map_some, Nat.add_zero, startOf_live]
      · have hrest := @ih (front ++ [str]) (by rwa [List.append_assoc])
        rw [List.length_append, List.length_singleton, List.append_assoc, List.singleton_append] at hrest
        rw [if_neg heq, if_neg (mt beq_iff_eq.mp heq), hrest, Option.map_map]
        simp only [Function.comp_def, Nat.add_assoc, Nat.add_comm 1]

theorem search_eq (h : Represents array strs) (needle : CString) :
    search array needle =
      .ok (((strs.map CString.bytes).idxOf? needle.bytes).map fun i => (i, startOf array strs i)) := by
  have hfound := @searchFrom_eq array [] strs h needle
  rw [search, List.range_eq_range', h.count_eq]
  simpa using hfound

end Search

section Runs

/-- A string outside of the array, no larger than an object can be. -/
structure OutsideString extends CString where
  object : bytes.length + 1 < 2 ^ 63

structure Source where
  array : DynamicAOS
  strs : List CString
  represents : Represents array strs

inductive Op
  | push (str : OutsideString)
  | pop
  | append (source : Source)
  | reset

def Op.run (heap : Heap) : Op → AosState → Except Failure (ProngError × AosState)
  | .push str, st => aosPushString heap st str.toCString
  | .pop, st => aosPopString st
  | .append source, st => aosAppendStrings heap st source.array
  | .reset, st => do
      let st ← resetAos heap st
      .ok (.ok, st)

def runOps (heap : Heap) : List Op → AosState → Except Failure (List ProngError × AosState)
  | [], st => if st.lost then .error .outOfMemory else .ok ([], st)
  | op :: ops, st =>
      if st.lost then .error .outOfMemory
      else do
        let (code, st) ← op.run heap st
        let (codes, st) ← runOps heap ops st
        .ok (code :: codes, st)

def build (heap : Heap) (ops : List Op) : Except Failure (List ProngError × AosState) := do
  let st ← initAos heap 0 false
  runOps heap ops st

def Op.onList : Op → List CString → ProngError × List CString
  | .push str, strs => (.ok, strs ++ [str.toCString])
  | .pop, strs => (if strs.isEmpty then .aosEmpty else .ok, strs.dropLast)
  | .append source, strs => appendStrings strs source.strs
  | .reset, _ => (.ok, [])

def listRun : List Op → List CString → List ProngError × List CString
  | [], strs => ([], strs)
  | op :: ops, strs =>
      let next := op.onList strs
      let last := listRun ops next.2
      (next.1 :: last.1, last.2)

def peak : List Op → List CString → Nat
  | [], strs => roomFor strs
  | op :: ops, strs => max (roomFor strs) (peak ops (op.onList strs).2)

theorem room_le_peak (ops : List Op) (strs : List CString) : roomFor strs ≤ peak ops strs := by
  cases ops with
  | nil => exact Nat.le_refl _
  | cons op ops => exact Nat.le_max_left _ _

theorem run_represents (op : Op) (hlimit : roomFor (op.onList strs).2 ≤ limit) (h : Holding st strs) :
    Yields heap limit (fun r => r.2.lost = true) (op.run heap st) fun r =>
      r.1 = (op.onList strs).1 ∧ Holding r.2 (op.onList strs).2 := by
  cases op with
  | push str => exact Pushes.yields (aosPushString_represents str.object hlimit h)
  | pop =>
      obtain ⟨r, hr, hpopped⟩ := aosPopString_represents h
      rw [Op.run, hr]
      exact .pure hpopped
  | append source => exact aosAppendStrings_represents source.represents hlimit h
  | reset =>
      rw [Op.run, resetAos, h.2]
      refine (initAos_represents st.requests hlimit).bind (fun st' h' => .pure ⟨rfl, h'⟩) fun st' r hlost hr => ?_
      cases hr
      exact hlost

theorem runOps_lost {ops : List Op} (h : st.lost = true) : runOps heap ops st = .error .outOfMemory := by
  cases ops <;> rw [runOps, if_pos h]

theorem runOps_represents (ops : List Op) (hlimit : peak ops strs ≤ limit) (h : Holding st strs) :
    Yields heap limit (fun _ => False) (runOps heap ops st) fun r =>
      r.1 = (listRun ops strs).1 ∧ Represents r.2.array (listRun ops strs).2 := by
  induction ops generalizing st strs with
  | nil =>
      rw [runOps, if_neg (by simp [h.2])]
      exact .pure ⟨rfl, h.1⟩
  | cons op ops ih =>
      rw [peak] at hlimit
      have hlater := Nat.le_trans (Nat.le_max_right _ _) hlimit
      rw [runOps, if_neg (by simp [h.2])]
      refine (run_represents op (Nat.le_trans (room_le_peak ops _) hlater) h).bind ?_ ?_
      · intro r hr
        refine (ih hlater hr.2).bind (fun r' hr' => .pure ⟨?_, hr'.2⟩) fun _ _ hno => hno.elim
        rw [listRun, hr.1, hr'.1]
      · intro r codes hlost hcodes
        change runOps heap ops r.2 >>= _ = _ at hcodes
        rw [runOps_lost hlost] at hcodes
        cases hcodes

theorem build_represents (ops : List Op) (hlimit : peak ops [] ≤ limit) :
    Yields heap limit (fun _ => False) (build heap ops) fun r =>
      r.1 = (listRun ops []).1 ∧ Represents r.2.array (listRun ops []).2 := by
  refine (initAos_represents 0 (Nat.le_trans (room_le_peak ops []) hlimit)).bind
    (fun st h => runOps_represents ops hlimit h) fun st r hlost hr => ?_
  rw [runOps_lost hlost] at hr
  cases hr

theorem built_represents {ops : List Op} {r : List ProngError × AosState} (h : build heap ops = .ok r) :
    r.1 = (listRun ops []).1 ∧ Represents r.2.array (listRun ops []).2 :=
  (build_represents ops (Nat.le_refl _)).of_ok h id

/-- The array is the list: each slot below the count leads to its string inside the block, where the strings
stand back to back, and the lookups answer as membership and the first index do. -/
structure Refines (array : DynamicAOS) (strs : List CString) : Prop where
  count_eq : array.count = strs.length
  size_eq : array.size = (strs.map fun str => str.bytes.length + 1).sum
  size_le : array.size ≤ array.capacity ∧ array.data.bytes.length = array.capacity
  count_le : array.count ≤ array.stringsCap ∧ array.strings.length = array.stringsCap
  packed : array.data.bytes.take array.size = packedData strs
  slots : ∀ i str, strs[i]? = some str → array.strings[i]? = some (startOf array strs i) ∧
    startOf array strs i ≠ null ∧ stringAt array.data (startOf array strs i) = .ok str ∧
      (startOf array strs i - array.data.addr).toNat + (str.bytes.length + 1) ≤ array.size
  contains : ∀ needle, aosContainsString array needle = .ok (decide (needle.bytes ∈ strs.map CString.bytes))
  findIdx : ∀ needle, aosFindStringIdx array needle =
    .ok (((strs.map CString.bytes).idxOf? needle.bytes).elim (-1) fun i => (i : Int))
  find : ∀ needle, aosFindString array needle =
    .ok (((strs.map CString.bytes).idxOf? needle.bytes).elim null (startOf array strs))

theorem packedData_length (strs : List CString) :
    (packedData strs).length = (strs.map fun str => str.bytes.length + 1).sum := by
  rw [packedData, List.length_flatMap]
  simp

theorem slots_refine (h : Represents array strs) {i : Nat} (hi : strs[i]? = some str) :
    array.strings[i]? = some (startOf array strs i) ∧ startOf array strs i ≠ null ∧
      stringAt array.data (startOf array strs i) = .ok str ∧
        (startOf array strs i - array.data.addr).toNat + (str.bytes.length + 1) ≤ array.size := by
  obtain ⟨hlt, hstr⟩ := List.getElem?_eq_some_iff.mp hi
  have hsplit : strs = strs.take i ++ str :: strs.drop (i + 1) := by
    rw [← hstr, ← List.drop_eq_getElem_cons hlt, List.take_append_drop]
  have hi : (strs.take i).length = i := by rw [List.length_take, Nat.min_eq_left (Nat.le_of_lt hlt)]
  have hlive := h
  rw [hsplit] at hlive
  have hsize := size_live hlive
  have hle := h.size_le
  have hcap := h.capacity_lt
  have hslot := slot_live hlive
  rw [hi] at hslot
  refine ⟨hslot, pointer_live hlive, stringAt_live hlive, ?_⟩
  · rw [startOf, pointerTo, offset_pointer (by omega)]
    exact hsize

theorem represents_refines (h : Represents array strs) : Refines array strs := by
  refine ⟨h.count_eq, h.size_eq.trans (packedData_length strs), ⟨h.size_le, h.data_length⟩,
    ⟨h.count_le, h.strings_length⟩, h.packed, fun i str hi => slots_refine h hi, ?_, ?_, ?_⟩
  · intro needle
    have hmem := @List.isSome_idxOf? _ _ _ (strs.map CString.bytes) needle.bytes
    rw [aosContainsString, search_eq h]
    change Except.ok (Option.map _ _).isSome = _
    rw [Option.isSome_map, Bool.eq_iff_iff.mpr (hmem.trans decide_eq_true_iff.symm)]
  · intro needle
    rw [aosFindStringIdx, search_eq h]
    cases (strs.map CString.bytes).idxOf? needle.bytes <;> rfl
  · intro needle
    rw [aosFindString, search_eq h]
    cases (strs.map CString.bytes).idxOf? needle.bytes <;> rfl

def Grants (heap : Heap) (limit : Nat) : Prop := ∀ request size, size ≤ limit → (heap.grant request size).isSome = true

theorem not_refuses (h : Grants heap limit) : ¬ Refuses heap limit := by
  rintro ⟨request, size, hsize, hrefused⟩
  have hgranted := h request size hsize
  rw [hrefused] at hgranted
  cases hgranted

/-- Whatever is pushed, popped and appended, the array is the list of strings that this leaves; and all operations
go through on a heap that grants what init_aos takes and twice what the strings and their pointers need. -/
theorem build_refines (heap : Heap) (ops : List Op) :
    (Grants heap (peak ops []) → ∃ r, build heap ops = .ok r) ∧
      ∀ r, build heap ops = .ok r → r.1 = (listRun ops []).1 ∧ Refines r.2.array (listRun ops []).2 := by
  constructor
  · intro hgrants
    obtain ⟨r, hr, -⟩ := (build_represents ops (Nat.le_refl _)).of_grants (not_refuses hgrants)
    exact ⟨r, hr⟩
  · intro r hr
    obtain ⟨hcodes, h⟩ := built_represents hr
    exact ⟨hcodes, represents_refines h⟩

/-- A heap with blocks of up to 4096 bytes, one of the pages behind the first one for each. Slots are left with a
pointer. -/
def pages : Heap where
  grant request size := if size ≤ 4096 then some (UInt64.ofNat (4096 * (request % 64 + 1))) else none
  byte _ _ := 0
  word _ _ := 0xdead
  grant_spec := by
    intro request size addr h
    split at h
    next hsmall =>
      have haddr : (UInt64.ofNat (4096 * (request % 64 + 1))).toNat = 4096 * (request % 64 + 1) :=
        UInt64.toNat_ofNat_of_lt' (Nat.lt_of_le_of_lt (m := 4096 * 64) (by omega) (by decide))
      rw [← Option.some.inj h, haddr]
      refine ⟨?_, by omega, by omega⟩
      intro hzero
      rw [hzero] at haddr
      have hnull : (0 : UInt64).toNat = 0 := rfl
      omega
    next => cases h

theorem pages_grants {n : Nat} (h : n ≤ 4096) : Grants pages n := by
  intro request size hsize
  simp [pages, Nat.le_trans hsize h]

def ab : OutsideString := ⟨⟨ascii "ab", by decide, by decide⟩, by decide⟩

def seventyBytes : OutsideString := ⟨⟨List.replicate 70 97, by decide, by decide⟩, by decide⟩

theorem seventyBytes_refine : ∃ r, build pages [.push ab, .push seventyBytes, .pop, .pop, .pop, .push seventyBytes] =
    .ok r ∧ r.1 = [.ok, .ok, .ok, .ok, .aosEmpty, .ok] ∧ Refines r.2.array [seventyBytes.toCString] := by
  have hall := build_refines pages [.push ab, .push seventyBytes, .pop, .pop, .pop, .push seventyBytes]
  obtain ⟨r, hr⟩ := hall.1 (pages_grants (by decide +kernel))
  obtain ⟨hcodes, hrefines⟩ := hall.2 r hr
  exact ⟨r, hr, hcodes, hrefines⟩

end Runs

section Offsets

/-- The packed block with pointers as offsets, on which the rest of the program works. -/
def offsets (strs : List CString) : DynAos.DynamicAOS := ⟨packedData strs, startsFrom 0 strs, strs, rfl, rfl⟩

/-- The array in memory holds an array of offsets: the same bytes, and pointers to where the offsets say. -/
structure Holds (array : DynamicAOS) (dyn : DynAos.DynamicAOS) : Prop where
  data : array.data.bytes.take array.size = dyn.data
  strings : array.strings.take array.count = dyn.strings.map (pointerTo array.data)

def Op.onOffsets : Op → DynAos.DynamicAOS → ProngError × DynAos.DynamicAOS
  | .push str, dyn => DynAos.aosPushString dyn str.toCString
  | .pop, dyn => DynAos.aosPopString dyn
  | .append source, dyn =>
      if dyn.count = 0 ∨ source.array.count = 0 then (.invalidArg, dyn)
      else (.ok, source.strs.foldl (fun dyn str => (DynAos.aosPushString dyn str).2) dyn)
  | .reset, _ => (.ok, DynAos.initAos)

def offsetRun : List Op → DynAos.DynamicAOS → List ProngError × DynAos.DynamicAOS
  | [], dyn => ([], dyn)
  | op :: ops, dyn =>
      let next := op.onOffsets dyn
      let last := offsetRun ops next.2
      (next.1 :: last.1, last.2)

theorem push_offsets (strs : List CString) (str : CString) :
    DynAos.aosPushString (offsets strs) str = (.ok, offsets (strs ++ [str])) := by
  simp only [DynAos.aosPushString, offsets, packedData_append, packedData_singleton, startsFrom_append, Nat.zero_add,
    DynAos.DynamicAOS.size]
  rfl

theorem pop_offsets (strs : List CString) :
    DynAos.aosPopString (offsets strs) = (if strs.isEmpty then .aosEmpty else .ok, offsets strs.dropLast) := by
  rcases List.eq_nil_or_concat strs with rfl | ⟨front, last, rfl⟩
  · rfl
  · have hpushed := DynAos.pop_push (offsets front) last
    rw [push_offsets] at hpushed
    rw [List.concat_eq_append, hpushed, List.dropLast_concat]
    simp

theorem foldl_offsets (strs strs2 : List CString) :
    strs2.foldl (fun dyn str => (DynAos.aosPushString dyn str).2) (offsets strs) = offsets (strs ++ strs2) := by
  induction strs2 generalizing strs with
  | nil => rw [List.foldl_nil, List.append_nil]
  | cons str strs2 ih => rw [List.foldl_cons, push_offsets, ih, List.append_assoc, List.singleton_append]

theorem onOffsets_eq (op : Op) (strs : List CString) :
    op.onOffsets (offsets strs) = ((op.onList strs).1, offsets (op.onList strs).2) := by
  cases op with
  | push str => exact push_offsets strs str.toCString
  | pop => exact pop_offsets strs
  | append source =>
      have hempty := empty_iff (startsFrom_length 0 strs) source.represents.count_eq
      change (if (startsFrom 0 strs).length = 0 ∨ source.array.count = 0 then _ else _) = _
      rw [Op.onList, appendStrings]
      by_cases hskip : (strs.isEmpty || source.strs.isEmpty) = true
      · rw [if_pos (hempty.mpr hskip), if_pos hskip]
      · rw [if_neg (mt hempty.mp hskip), if_neg hskip, foldl_offsets]
  | reset => rfl

theorem offsetRun_eq (ops : List Op) (strs : List CString) :
    offsetRun ops (offsets strs) = ((listRun ops strs).1, offsets (listRun ops strs).2) := by
  induction ops generalizing strs with
  | nil => rfl
  | cons op ops ih =>
      rw [offsetRun, onOffsets_eq, listRun]
      simp only [ih]

theorem represents_holds (h : Represents array strs) : Holds array (offsets strs) := ⟨h.packed, h.slots⟩

/-- The array in memory does what the array of offsets does, wherever its blocks move. -/
theorem build_holds {ops : List Op} {r : List ProngError × AosState} (h : build heap ops = .ok r) :
    r.1 = (offsetRun ops DynAos.initAos).1 ∧ Holds r.2.array (offsetRun ops DynAos.initAos).2 := by
  have hrun := offsetRun_eq ops []
  change offsetRun ops DynAos.initAos = _ at hrun
  rw [hrun]
  obtain ⟨hcodes, hrepresents⟩ := built_represents h
  exact ⟨hcodes, represents_holds hrepresents⟩

end Offsets

end Prongc.AosRefinement
