import Prongc.Library.Blocks
import Prongc.Library.SizeT
import Prongc.SplitLists

namespace Prongc.AosMemory

open ParseCall Library.CStrings SplitLists Library.Blocks
open Library.SizeT
open DynAos (packedData startsFrom)

def aosInitialCap : Nat := 64

def aosMaxStrCount : Nat := 64

structure DynamicAOS where
  capacity : Nat
  size : Nat
  count : Nat
  stringsCap : Nat
  data : Block
  strings : List UInt64

structure AosState where
  array : DynamicAOS
  requests : Nat
  lost : Bool

def sizeT (n : Nat) : Nat := n % 2 ^ 64

def null : UInt64 := 0

section Operations

variable (heap : Heap)

/-- What malloc returns, as a block. NULL has no bytes. -/
def mallocData (request size : Nat) : Block :=
  match heap.grant request size with
  | some addr => ⟨addr, resize [] size (heap.byte request)⟩
  | none => ⟨null, []⟩

def mallocStrings (request count : Nat) : List UInt64 :=
  match heap.grant request (8 * count) with
  | some _ => resize [] count (heap.word request)
  | none => []

/-- An array struct of 48 bytes with blocks for 64 bytes and for 64 pointers, none of them checked for NULL. -/
def initAos (requests : Nat) (lost : Bool) : Except Failure AosState :=
  match heap.grant requests 48 with
  | none => .error .outOfBounds
  | some _ =>
      let array : DynamicAOS :=
        { capacity := aosInitialCap
          size := 0
          count := 0
          stringsCap := aosMaxStrCount
          data := mallocData heap (requests + 1) aosInitialCap
          strings := mallocStrings heap (requests + 2) aosMaxStrCount }
      .ok ⟨array, requests + 3, lost || (heap.grant (requests + 1) aosInitialCap).isNone ||
        (heap.grant (requests + 2) (8 * aosMaxStrCount)).isNone⟩

def resetAos (st : AosState) : Except Failure AosState := initAos heap st.requests st.lost

def aosUpdateOldStrings (array : DynamicAOS) (oldData : UInt64) : DynamicAOS :=
  { array with
    strings := (array.strings.take array.count).map (· + (array.data.addr - oldData)) ++
      array.strings.drop array.count }

def newStringsCap (array : DynamicAOS) : Nat :=
  if array.stringsCap ≠ 0 then sizeT (array.stringsCap * 2) else aosMaxStrCount

/-- A refused block is lost: the pointer to it has become NULL. -/
def growStrings (st : AosState) : ProngError × AosState :=
  if sizeT (st.array.count + 1) > st.array.stringsCap then
    match heap.grant st.requests (newStringsCap st.array * 8) with
    | none => (.outOfMemory, ⟨{ st.array with strings := [] }, st.requests + 1, true⟩)
    | some _ =>
        (.ok, ⟨{ st.array with
          strings := resize st.array.strings (newStringsCap st.array) (heap.word st.requests)
          stringsCap := newStringsCap st.array }, st.requests + 1, st.lost⟩)
  else (.ok, st)

def newCap (array : DynamicAOS) : Nat := if array.capacity ≠ 0 then sizeT (array.capacity * 2) else aosInitialCap

/-- The jump back to the bounds check, at most so many times. -/
def boundsCheckData (strSize : Nat) : Nat → AosState → Except Failure (ProngError × AosState)
  | 0, _ => .error .endless
  | rounds + 1, st =>
      if sizeT (st.array.size + strSize) > st.array.capacity then
        match heap.grant st.requests (newCap st.array) with
        | none => .ok (.outOfMemory, ⟨{ st.array with data := ⟨null, []⟩ }, st.requests + 1, true⟩)
        | some addr =>
            boundsCheckData strSize rounds ⟨aosUpdateOldStrings { st.array with
              data := ⟨addr, resize st.array.data.bytes (newCap st.array) (heap.byte st.requests)⟩
              capacity := newCap st.array } st.array.data.addr, st.requests + 1, st.lost⟩
      else .ok (.ok, st)

def storeString (st : AosState) (str : CString) : Except Failure AosState := do
  let bytes ← overwrite st.array.data.bytes st.array.size (str.bytes ++ [0])
  let strings ← overwrite st.array.strings st.array.count [st.array.data.addr + UInt64.ofNat st.array.size]
  let array : DynamicAOS :=
    { st.array with
      size := sizeT (st.array.size + sizeT (str.bytes.length + 1))
      count := sizeT (st.array.count + 1)
      data := ⟨st.array.data.addr, bytes⟩
      strings := strings }
  .ok ⟨array, st.requests, st.lost⟩

def unlessFailed (r : ProngError × AosState) (next : AosState → Except Failure (ProngError × AosState)) :
    Except Failure (ProngError × AosState) :=
  if r.1 ≠ .ok then .ok r else next r.2

def aosPushString (st : AosState) (str : CString) : Except Failure (ProngError × AosState) :=
  unlessFailed (growStrings heap st) fun st => do
    -- a capacity of one byte already gets past every size in 63 doublings
    let r ← boundsCheckData heap (sizeT (str.bytes.length + 1)) 64 st
    unlessFailed r fun st => do
      let st ← storeString st str
      .ok (.ok, st)

def slotAt (array : DynamicAOS) (i : Nat) : Except Failure UInt64 :=
  match array.strings[i]? with
  | some p => .ok p
  | none => .error .outOfBounds

def stringAt (block : Block) (p : UInt64) : Except Failure CString :=
  match readCString (block.bytes.drop (p - block.addr).toNat) with
  | some str => .ok str
  | none => .error .outOfBounds

def aosStringAt (array : DynamicAOS) (idx : Nat) : Except Failure UInt64 :=
  if idx > sizePred array.count then .ok null else slotAt array idx

def AosState.shrink (st : AosState) (size count : Nat) : AosState :=
  ⟨{ st.array with size := size, count := count }, st.requests, st.lost⟩

def aosPopString (st : AosState) : Except Failure (ProngError × AosState) :=
  if st.array.count = 0 then .ok (.aosEmpty, st)
  else do
    let last ← aosStringAt st.array (sizePred st.array.count)
    let lastStr ← stringAt st.array.data last
    .ok (.ok, st.shrink (sizeT (st.array.size + 2 ^ 64 - sizeT (lastStr.bytes.length + 1))) (sizePred st.array.count))

/-- What a push returns is dropped. -/
def appendAt (array2 : DynamicAOS) (st : AosState) (i : Nat) : Except Failure AosState := do
  let current ← slotAt array2 i
  let str ← stringAt array2.data current
  let (_, st) ← aosPushString heap st str
  .ok st

def aosAppendStrings (st : AosState) (array2 : DynamicAOS) : Except Failure (ProngError × AosState) :=
  if st.array.count = 0 ∨ array2.count = 0 then .ok (.invalidArg, st)
  else do
    let st ← (List.range array2.count).foldlM (appendAt heap array2) st
    .ok (.ok, st)

end Operations

def searchFrom (array : DynamicAOS) (needle : CString) : List Nat → Except Failure (Option (Nat × UInt64))
  | [] => .ok none
  | i :: rest => do
      let current ← slotAt array i
      let str ← stringAt array.data current
      if str.bytes = needle.bytes then .ok (some (i, current)) else searchFrom array needle rest

def search (array : DynamicAOS) (needle : CString) : Except Failure (Option (Nat × UInt64)) :=
  searchFrom array needle (List.range array.count)

def aosFindString (array : DynamicAOS) (needle : CString) : Except Failure UInt64 := do
  let found ← search array needle
  .ok (found.elim null Prod.snd)

def aosContainsString (array : DynamicAOS) (needle : CString) : Except Failure Bool := do
  let found ← search array needle
  .ok found.isSome

def aosFindStringIdx (array : DynamicAOS) (needle : CString) : Except Failure Int := do
  let found ← search array needle
  .ok (found.elim (-1) fun hit => hit.1)

/-- The blocks are as large as the capacities say, and a doubled capacity is still in range. -/
structure Allocated (array : DynamicAOS) : Prop where
  data_length : array.data.bytes.length = array.capacity
  capacity_pos : 0 < array.capacity
  capacity_lt : array.capacity < 2 ^ 63
  data_ne_null : array.data.addr ≠ 0
  data_end : array.data.addr.toNat + array.capacity ≤ 2 ^ 64
  strings_length : array.strings.length = array.stringsCap
  stringsCap_lt : array.stringsCap * 8 < 2 ^ 63

def pointerTo (block : Block) (offset : Nat) : UInt64 := block.addr + UInt64.ofNat offset

/-- The strings stand packed at the front of the data block, and the pointers below the count lead to their
starts. -/
structure Represents (array : DynamicAOS) (strs : List CString) : Prop extends Allocated array where
  size_le : array.size ≤ array.capacity
  count_le : array.count ≤ array.stringsCap
  size_eq : array.size = (packedData strs).length
  count_eq : array.count = strs.length
  packed : array.data.bytes.take array.size = packedData strs
  slots : array.strings.take array.count = (startsFrom 0 strs).map (pointerTo array.data)

theorem sizeT_of_lt {n : Nat} (h : n < 2 ^ 64) : sizeT n = n := Nat.mod_eq_of_lt h

theorem sizeT_sub {m n : Nat} (h : n ≤ m) (hm : m < 2 ^ 64) : sizeT (m + 2 ^ 64 - sizeT n) = m - n := by
  rw [sizeT_of_lt (Nat.lt_of_le_of_lt h hm), Nat.sub_add_comm h, sizeT, Nat.add_mod_right,
    Nat.mod_eq_of_lt (Nat.lt_of_le_of_lt (Nat.sub_le m n) hm)]

section Growth

variable {heap : Heap} {limit : Nat} {array : DynamicAOS} {st : AosState} {strs : List CString}

/-- The bytes that the array of the strings asks for at most: what init_aos takes, and twice what the strings and
the pointers to them need. -/
def roomFor (strs : List CString) : Nat := max 512 (max (2 * (packedData strs).length) (16 * strs.length))

def Holding (st : AosState) (strs : List CString) : Prop := Represents st.array strs ∧ st.lost = false

theorem initAos_represents (requests : Nat) (hlimit : roomFor [] ≤ limit) :
    Yields heap limit (fun st => st.lost = true) (initAos heap requests false) fun st => Holding st [] := by
  have hmost : ∀ n ≤ 512, n ≤ limit := fun n hn => by
    rw [roomFor] at hlimit
    omega
  rw [initAos]
  cases hstruct : heap.grant requests 48 with
  | none => exact .inr ⟨⟨requests, 48, hmost _ (by decide), hstruct⟩, fun a ha => by cases ha⟩
  | some _ =>
      cases hdata : heap.grant (requests + 1) aosInitialCap with
      | none => exact .inr ⟨⟨_, _, hmost _ (by decide), hdata⟩, fun a ha => by cases ha; simp⟩
      | some addr =>
          cases hstrings : heap.grant (requests + 2) (8 * aosMaxStrCount) with
          | none => exact .inr ⟨⟨_, _, hmost _ (by decide), hstrings⟩, fun a ha => by cases ha; simp⟩
          | some _ =>
              have hgrant := heap.grant_spec hdata
              have hcap : 0 < aosInitialCap ∧ aosInitialCap < 2 ^ 63 ∧ aosMaxStrCount * 8 < 2 ^ 63 := by decide
              have hblock : mallocData heap (requests + 1) aosInitialCap =
                  ⟨addr, resize [] aosInitialCap (heap.byte (requests + 1))⟩ := by rw [mallocData, hdata]
              have hslots : mallocStrings heap (requests + 2) aosMaxStrCount =
                  resize [] aosMaxStrCount (heap.word (requests + 2)) := by rw [mallocStrings, hstrings]
              simp only [hblock, hslots]
              exact .pure ⟨⟨⟨length_resize _ _ _, hcap.1, hcap.2.1, hgrant.1, hgrant.2.1, length_resize _ _ _,
                hcap.2.2⟩, Nat.zero_le _, Nat.zero_le _, rfl, rfl, List.take_zero, List.take_zero⟩, rfl⟩

theorem Represents.move (h : Represents array strs) {addr : UInt64} {newCap : Nat} (haddr : addr ≠ 0)
    (hend : addr.toNat + newCap ≤ 2 ^ 64) (hlt : newCap < 2 ^ 63) (hgrows : array.capacity ≤ newCap)
    (rest : Nat → UInt8) :
    Represents (aosUpdateOldStrings { array with
      data := ⟨addr, resize array.data.bytes newCap rest⟩
      capacity := newCap } array.data.addr) strs := by
  have hcount : array.count ≤ array.strings.length := h.strings_length.symm ▸ h.count_le
  have hfront : ((array.strings.take array.count).map (· + (addr - array.data.addr))).length = array.count := by
    rw [List.length_map, List.length_take, Nat.min_eq_left hcount]
  refine ⟨⟨length_resize _ _ _, Nat.lt_of_lt_of_le h.capacity_pos hgrows, hlt, haddr, hend, ?_, h.stringsCap_lt⟩,
    Nat.le_trans h.size_le hgrows, h.count_le, h.size_eq, h.count_eq, ?_, ?_⟩
  · rw [aosUpdateOldStrings, List.length_append, hfront, List.length_drop, Nat.add_sub_cancel' hcount]
    exact h.strings_length
  · change (resize array.data.bytes newCap rest).take array.size = _
    rw [take_resize (h.data_length.symm ▸ h.size_le) (Nat.le_trans h.size_le hgrows), h.packed]
  · change ((array.strings.take array.count).map (· + (addr - array.data.addr)) ++ _).take array.count = _
    rw [List.take_left' hfront, h.slots, List.map_map]
    apply List.map_congr_left
    intro offset _
    exact pointer_rebase (UInt64.ofNat offset)

/-- What a step of a push returns: the array as told, or ERR_OUT_OF_MEMORY and a block lost. -/
def Pushes (heap : Heap) (limit : Nat) (r : ProngError × AosState) (P : AosState → Prop) : Prop :=
  r.1 = .ok ∧ P r.2 ∨ Refuses heap limit ∧ r.1 = .outOfMemory ∧ r.2.lost = true

theorem growStrings_represents (hmost : 512 ≤ limit) (hlimit : 16 * strs.length ≤ limit) (h : Holding st strs) :
    Pushes heap limit (growStrings heap st) fun st' =>
      Holding st' strs ∧ st'.array.count < st'.array.stringsCap := by
  obtain ⟨h, hclean⟩ := h
  have hstringsCap := h.stringsCap_lt
  have hcount := h.count_le
  have hlength := h.count_eq
  have hgrown : newStringsCap st.array = st.array.stringsCap * 2 ∧ 0 < st.array.stringsCap ∨
      newStringsCap st.array = 64 ∧ st.array.stringsCap = 0 := by
    rw [newStringsCap, sizeT_of_lt (by omega)]
    split
    next hpos => exact .inl ⟨rfl, Nat.pos_of_ne_zero hpos⟩
    next hzero => exact .inr ⟨rfl, not_not.mp hzero⟩
  rw [growStrings, sizeT_of_lt (by omega)]
  split
  next hfull =>
    cases hgrant : heap.grant st.requests (newStringsCap st.array * 8) with
    | none => exact .inr ⟨⟨_, _, by omega, hgrant⟩, rfl, rfl⟩
    | some addr =>
        have hle : st.array.count ≤ newStringsCap st.array := by omega
        have hkept := take_resize (h.strings_length.symm ▸ hcount) hle (heap.word st.requests)
        refine .inl ⟨rfl, ⟨{ h with
          strings_length := length_resize _ _ _
          stringsCap_lt := (heap.grant_spec hgrant).2.2
          count_le := hle
          slots := hkept.trans h.slots }, hclean⟩, ?_⟩
        change st.array.count < newStringsCap st.array
        omega
  next hroom =>
    refine .inl ⟨rfl, ⟨h, hclean⟩, ?_⟩
    change st.array.count < st.array.stringsCap
    omega

/-- The data block doubles until there is room, which it does before the rounds run out. -/
theorem boundsCheckData_represents {strSize rounds : Nat} (hsize : strSize ≤ 2 ^ 63)
    (hrounds : 2 ^ 63 ≤ st.array.capacity * 2 ^ rounds)
    (hlimit : 2 * ((packedData strs).length + strSize) ≤ limit) (h : Holding st strs)
    (hcount : st.array.count < st.array.stringsCap) :
    ∃ r, boundsCheckData heap strSize rounds st = .ok r ∧ Pushes heap limit r fun st' =>
      Holding st' strs ∧ st'.array.count < st'.array.stringsCap ∧
        st'.array.size + strSize ≤ st'.array.capacity := by
  induction rounds generalizing st with
  | zero =>
      have hlt := h.1.capacity_lt
      omega
  | succ rounds ih =>
      obtain ⟨h, hclean⟩ := h
      have hlt := h.capacity_lt
      have hpos := h.capacity_pos
      have hle := h.size_le
      have hpacked := h.size_eq
      have hdouble : newCap st.array = st.array.capacity * 2 := by
        rw [newCap, if_pos (Nat.ne_of_gt hpos), sizeT_of_lt (by omega)]
      rw [boundsCheckData, sizeT_of_lt (by omega)]
      simp only [hdouble]
      split
      next hfull =>
        cases hgrant : heap.grant st.requests (st.array.capacity * 2) with
        | none => exact ⟨_, rfl, .inr ⟨⟨_, _, by omega, hgrant⟩, rfl, rfl⟩⟩
        | some addr =>
            have hspec := heap.grant_spec hgrant
            refine ih ?_ ⟨h.move hspec.1 hspec.2.1 hspec.2.2 (by omega) _, hclean⟩ hcount
            change 2 ^ 63 ≤ st.array.capacity * 2 * 2 ^ rounds
            rwa [Nat.mul_assoc, ← Nat.pow_succ']
      next hroom =>
        refine ⟨_, rfl, .inl ⟨rfl, ⟨h, hclean⟩, hcount, ?_⟩⟩
        change st.array.size + strSize ≤ st.array.capacity
        omega

end Growth

end Prongc.AosMemory
