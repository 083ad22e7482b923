import Mathlib.Data.List.Forall2
import Prongc.Library.Traversal

namespace Prongc.Library.MovingTrees

open Traversal

structure Pointer where
  block : Nat
  index : Nat
  deriving DecidableEq

structure Cell (α : Type) where
  label : α
  children : Option Nat

structure Block (α : Type) where
  room : Nat
  cells : List (Cell α)

/-- An array keeps its number, whereas its elements may move to another block. -/
structure Header where
  capacity : Nat
  block : Nat

/-- No block is given out twice, and a freed one is `none`. -/
structure Memory (α : Type) where
  headers : List Header
  blocks : List (Option (Block α))

structure Growth where
  initial : Nat
  full : Nat → Nat → Bool
  grown : Nat → Nat
  initial_pos : 0 < initial
  room : ∀ size capacity, 0 < capacity → size ≤ capacity →
    size < if full size capacity then grown capacity else capacity

variable {α : Type}

section Operations

variable (growth : Growth) (moves : Memory α → Nat → Bool) (m : Memory α)

def liveBlock (b : Nat) : Option (Block α) := m.blocks[b]?.join

def setBlock (b : Nat) (block : Block α) : Memory α := { m with blocks := m.blocks.set b (some block) }

/-- `none` for a pointer into a freed block or behind its elements. -/
def load (p : Pointer) : Option (Cell α) := do
  let block ← liveBlock m p.block
  block.cells[p.index]?

def store (p : Pointer) (cell : Cell α) : Option (Memory α) := do
  let block ← liveBlock m p.block
  if p.index < block.cells.length then
    some (setBlock m p.block { block with cells := block.cells.set p.index cell })
  else none

def newArray : Memory α × Nat :=
  (⟨m.headers ++ [⟨growth.initial, m.blocks.length⟩], m.blocks ++ [some ⟨growth.initial, []⟩]⟩, m.headers.length)

def reallocate (moved : Bool) (id b capacity : Nat) (block : Block α) : Memory α :=
  if moved then
    ⟨m.headers.set id ⟨capacity, m.blocks.length⟩, m.blocks.set b none ++ [some { block with room := capacity }]⟩
  else
    ⟨m.headers.set id ⟨capacity, b⟩, m.blocks.set b (some { block with room := capacity })⟩

def ensureRoom (id : Nat) : Option (Memory α) := do
  let header ← m.headers[id]?
  let block ← liveBlock m header.block
  if growth.full block.cells.length header.capacity then
    some (reallocate m (moves m id) id header.block (growth.grown header.capacity) block)
  else some m

/-- `none` for a write behind the block. -/
def writeNext (id : Nat) (cell : Cell α) : Option (Memory α) := do
  let header ← m.headers[id]?
  let block ← liveBlock m header.block
  if block.cells.length < block.room then
    some (setBlock m header.block { block with cells := block.cells ++ [cell] })
  else none

def push (id : Nat) (cell : Cell α) : Option (Memory α) := do
  let m ← ensureRoom growth moves m id
  writeNext m id cell

def tail (id : Nat) : Option Pointer := do
  let header ← m.headers[id]?
  let block ← liveBlock m header.block
  some ⟨header.block, block.cells.length - 1⟩

end Operations

section Contents

variable (m m' : Memory α)

def cellsOf (id : Nat) : Option (List (Cell α)) := do
  let header ← m.headers[id]?
  let block ← liveBlock m header.block
  some block.cells

/-- Each array has a block of its own, with room for its capacity. -/
structure Valid : Prop where
  sound : ∀ (id : Nat) (header : Header), m.headers[id]? = some header →
    ∃ block, liveBlock m header.block = some block ∧ block.room = header.capacity ∧ 0 < header.capacity ∧
      block.cells.length ≤ header.capacity
  apart : ∀ (i j : Nat) (hi hj : Header), m.headers[i]? = some hi → m.headers[j]? = some hj →
    hi.block = hj.block → i = j

structure Keeps (id : Nat) : Prop where
  header : m'.headers[id]? = m.headers[id]?
  cells : cellsOf m' id = cellsOf m id

def PointsInto (id : Nat) (p : Pointer) : Prop := ∃ header, m.headers[id]? = some header ∧ header.block = p.block

end Contents

section Blocks

variable {m m' : Memory α} {id b : Nat} {header : Header} {block block' : Block α} {cells : List (Cell α)}
  {cell : Cell α}

theorem cellsOf_eq_some : cellsOf m id = some cells ↔
    ∃ header block, m.headers[id]? = some header ∧ liveBlock m header.block = some block ∧ block.cells = cells := by
  rw [cellsOf]
  simp [Option.bind_eq_some_iff]

theorem lt_of_cellsOf (h : cellsOf m id = some cells) : id < m.headers.length := by
  obtain ⟨header, block, hheader, -⟩ := cellsOf_eq_some.mp h
  exact (List.getElem?_eq_some_iff.mp hheader).1

theorem lt_of_live (h : liveBlock m b = some block) : b < m.blocks.length := by
  rw [liveBlock, Option.join_eq_some_iff] at h
  exact (List.getElem?_eq_some_iff.mp h).1

theorem liveBlock_set (hb : b < m.blocks.length) : liveBlock (setBlock m b block) b = some block := by
  rw [liveBlock, setBlock, List.getElem?_set_self hb, Option.join_some]

theorem liveBlock_set_ne {c : Nat} (hne : b ≠ c) : liveBlock (setBlock m b block) c = liveBlock m c := by
  rw [liveBlock, setBlock, List.getElem?_set_ne hne, ← liveBlock]

theorem Keeps.of_block (hheader : m'.headers[id]? = m.headers[id]?)
    (hblock : ∀ header, m.headers[id]? = some header → liveBlock m' header.block = liveBlock m header.block) :
    Keeps m m' id where
  header := hheader
  cells := by
    rw [cellsOf, cellsOf, hheader]
    cases hid : m.headers[id]? with
    | none => rfl
    | some header =>
        rw [Option.bind_eq_bind, Option.bind_some, hblock header hid]
        rfl

theorem Keeps.refl (m : Memory α) (id : Nat) : Keeps m m id := ⟨rfl, rfl⟩

theorem Keeps.trans {m'' : Memory α} (h : Keeps m m' id) (h' : Keeps m' m'' id) : Keeps m m'' id :=
  ⟨h'.header.trans h.header, h'.cells.trans h.cells⟩

theorem PointsInto.kept {p : Pointer} (h : PointsInto m id p) (hkeep : m'.headers[id]? = m.headers[id]?) :
    PointsInto m' id p := by
  obtain ⟨header, hheader, hblock⟩ := h
  exact ⟨header, hkeep.trans hheader, hblock⟩

theorem load_eq {p : Pointer} (hp : PointsInto m id p) (hcells : cellsOf m id = some cells) :
    load m p = cells[p.index]? := by
  obtain ⟨header, block, hheader, hlive, rfl⟩ := cellsOf_eq_some.mp hcells
  obtain ⟨_, hheader', hblock⟩ := hp
  obtain rfl := Option.some.inj (hheader.symm.trans hheader')
  rw [load, ← hblock, hlive]
  rfl

/-- What an operation on one array does: the others keep their elements. -/
structure Updates (m m' : Memory α) (id : Nat) (cells : List (Cell α)) : Prop where
  valid : Valid m'
  length : m'.headers.length = m.headers.length
  cells : cellsOf m' id = some cells
  others : ∀ j, j ≠ id → Keeps m m' j

theorem Updates.trans {m'' : Memory α} {cells' : List (Cell α)} (h : Updates m m' id cells)
    (h' : Updates m' m'' id cells') : Updates m m'' id cells' where
  valid := h'.valid
  length := h'.length.trans h.length
  cells := h'.cells
  others j hj := (h.others j hj).trans (h'.others j hj)

variable (block') in
theorem setBlock_updates (hm : Valid m) (hheader : m.headers[id]? = some header)
    (hlive : liveBlock m header.block = some block) (hroom : block'.room = block.room)
    (hfits : block'.cells.length ≤ header.capacity) :
    Updates m (setBlock m header.block block') id block'.cells where
  valid := by
    constructor
    · intro j other hother
      obtain ⟨old, hold, hcapacity, hpos, hsize⟩ := hm.sound j other hother
      by_cases hsame : header.block = other.block
      · obtain rfl := hm.apart id j header other hheader hother hsame
        obtain rfl := Option.some.inj (hheader.symm.trans hother)
        obtain rfl := Option.some.inj (hlive.symm.trans hold)
        exact ⟨block', liveBlock_set (lt_of_live hlive), hroom.trans hcapacity, hpos, hfits⟩
      · exact ⟨old, (liveBlock_set_ne hsame).trans hold, hcapacity, hpos, hsize⟩
    · exact hm.apart
  length := rfl
  cells := cellsOf_eq_some.mpr ⟨header, block', hheader, liveBlock_set (lt_of_live hlive), rfl⟩
  others j hj := by
    refine @Keeps.of_block _ _ (setBlock m header.block block') _ rfl ?_
    intro other hother
    apply liveBlock_set_ne
    intro hsame
    exact hj (hm.apart id j header other hheader hother hsame).symm

theorem store_spec {p : Pointer} (hm : Valid m) (hp : PointsInto m id p) (hcells : cellsOf m id = some cells)
    (hlt : p.index < cells.length) (cell : Cell α) :
    ∃ m', store m p cell = some m' ∧ Updates m m' id (cells.set p.index cell) ∧ m'.headers = m.headers := by
  obtain ⟨header, block, hheader, hlive, rfl⟩ := cellsOf_eq_some.mp hcells
  obtain ⟨_, hheader', hblock⟩ := hp
  obtain rfl := Option.some.inj (hheader.symm.trans hheader')
  obtain ⟨_, hlive', -, -, hsize⟩ := hm.sound id header hheader
  obtain rfl := Option.some.inj (hlive.symm.trans hlive')
  refine ⟨_, ?_, setBlock_updates { block with cells := block.cells.set p.index cell } hm hheader hlive rfl ?_,
    rfl⟩
  · rw [store, ← hblock, hlive, Option.bind_eq_bind, Option.bind_some, if_pos hlt]
  · rwa [List.length_set]

end Blocks

section Arrays

variable {growth : Growth} {moves : Memory α → Nat → Bool} {m : Memory α} {id : Nat} {header : Header}
  {block : Block α} {cells : List (Cell α)}

theorem liveBlock_push (blocks : List (Option (Block α))) (headers : List Header) {b : Nat}
    (hb : b < blocks.length) (last : Option (Block α)) :
    liveBlock ⟨headers, blocks ++ [last]⟩ b = liveBlock ⟨headers, blocks⟩ b := by
  rw [liveBlock, liveBlock, List.getElem?_append_left hb]

theorem liveBlock_last (blocks : List (Option (Block α))) (headers : List Header) (block : Block α) :
    liveBlock ⟨headers, blocks ++ [some block]⟩ blocks.length = some block := by
  rw [liveBlock, List.getElem?_append_right (Nat.le_refl _), Nat.sub_self]
  rfl

theorem newArray_spec (hm : Valid m) : Valid (newArray growth m).1 ∧
    (newArray growth m).1.headers.length = m.headers.length + 1 ∧
    cellsOf (newArray growth m).1 m.headers.length = some [] ∧
    ∀ j < m.headers.length, Keeps m (newArray growth m).1 j := by
  have hlast : (newArray growth m).1.headers[m.headers.length]? = some ⟨growth.initial, m.blocks.length⟩ := by
    rw [newArray, List.getElem?_append_right (Nat.le_refl _), Nat.sub_self]
    rfl
  have hlive : liveBlock (newArray growth m).1 m.blocks.length = some ⟨growth.initial, []⟩ := liveBlock_last _ _ _
  have hold : ∀ j < m.headers.length, (newArray growth m).1.headers[j]? = m.headers[j]? := fun j hj =>
    List.getElem?_append_left hj
  have hkeep : ∀ (j : Nat) (header : Header), m.headers[j]? = some header →
      liveBlock (newArray growth m).1 header.block = liveBlock m header.block ∧ header.block < m.blocks.length := by
    intro j header hheader
    obtain ⟨block, hblock, -⟩ := hm.sound j header hheader
    have hb := lt_of_live hblock
    exact ⟨liveBlock_push _ _ hb _, hb⟩
  have hsplit : ∀ (j : Nat) (header : Header), (newArray growth m).1.headers[j]? = some header →
      m.headers[j]? = some header ∨ j = m.headers.length ∧ header = ⟨growth.initial, m.blocks.length⟩ := by
    intro j header hheader
    rcases Nat.lt_trichotomy j m.headers.length with hj | rfl | hj
    · exact .inl ((hold j hj).symm.trans hheader)
    · exact .inr ⟨rfl, Option.some.inj (hheader.symm.trans hlast)⟩
    · have hlength : (newArray growth m).1.headers.length = m.headers.length + 1 := List.length_append
      have := (List.getElem?_eq_some_iff.mp hheader).1
      omega
  refine ⟨⟨?_, ?_⟩, List.length_append, cellsOf_eq_some.mpr ⟨_, _, hlast, hlive, rfl⟩, ?_⟩
  · intro j header hheader
    rcases hsplit j header hheader with hj | ⟨rfl, rfl⟩
    · rw [(hkeep j header hj).1]
      exact hm.sound j header hj
    · exact ⟨_, hlive, rfl, growth.initial_pos, Nat.zero_le _⟩
  · intro i j hi hj hheaderi hheaderj hblock
    rcases hsplit i hi hheaderi with hi' | ⟨rfl, rfl⟩
    · rcases hsplit j hj hheaderj with hj' | ⟨rfl, rfl⟩
      · exact hm.apart i j hi hj hi' hj' hblock
      · exact absurd hblock (Nat.ne_of_lt (hkeep i hi hi').2)
    · rcases hsplit j hj hheaderj with hj' | ⟨rfl, rfl⟩
      · exact absurd hblock.symm (Nat.ne_of_lt (hkeep j hj hj').2)
      · rfl
  · intro j hj
    exact Keeps.of_block (hold j hj) fun header hheader => (hkeep j header hheader).1

theorem reallocate_updates (moved : Bool) (hm : Valid m) (hheader : m.headers[id]? = some header)
    (hlive : liveBlock m header.block = some block) {capacity : Nat} (hfits : block.cells.length < capacity) :
    Updates m (reallocate m moved id header.block capacity block) id block.cells := by
  obtain ⟨hid, -⟩ := List.getElem?_eq_some_iff.mp hheader
  have hb := lt_of_live hlive
  obtain ⟨b, hnew, hfresh, hat, hother⟩ : ∃ b, (reallocate m moved id header.block capacity block).headers =
      m.headers.set id ⟨capacity, b⟩ ∧ (b = header.block ∨ b = m.blocks.length) ∧
      liveBlock (reallocate m moved id header.block capacity block) b = some { block with room := capacity } ∧
      ∀ c, c ≠ header.block → c < m.blocks.length →
        liveBlock (reallocate m moved id header.block capacity block) c = liveBlock m c := by
    cases moved with
    | true =>
        refine ⟨m.blocks.length, rfl, .inr rfl, ?_, ?_⟩
        · have hlast := liveBlock_last (m.blocks.set header.block none) (m.headers.set id ⟨capacity, m.blocks.length⟩)
            { block with room := capacity }
          rwa [List.length_set] at hlast
        · intro c hc hlt
          rw [reallocate, if_pos rfl, liveBlock_push _ _ (by rwa [List.length_set]), liveBlock,
            List.getElem?_set_ne (Ne.symm hc), ← liveBlock]
    | false =>
        refine ⟨header.block, rfl, .inl rfl, ?_, ?_⟩
        · rw [reallocate, if_neg (by decide), liveBlock, List.getElem?_set_self hb, Option.join_some]
        · intro c hc _
          rw [reallocate, if_neg (by decide), liveBlock, List.getElem?_set_ne (Ne.symm hc), ← liveBlock]
  have hself : (reallocate m moved id header.block capacity block).headers[id]? = some ⟨capacity, b⟩ := by
    rw [hnew, List.getElem?_set_self hid]
  have hne : ∀ j, j ≠ id → (reallocate m moved id header.block capacity block).headers[j]? = m.headers[j]? := by
    intro j hj
    rw [hnew, List.getElem?_set_ne (Ne.symm hj)]
  have hapart : ∀ j other, j ≠ id → m.headers[j]? = some other → other.block ≠ header.block ∧ other.block ≠ b := by
    intro j other hj hother
    obtain ⟨old, hold, -⟩ := hm.sound j other hother
    have hdiff : other.block ≠ header.block := fun hsame => hj (hm.apart j id other header hother hheader hsame)
    refine ⟨hdiff, ?_⟩
    rcases hfresh with rfl | rfl
    · exact hdiff
    · exact Nat.ne_of_lt (lt_of_live hold)
  have hkept : ∀ j other, j ≠ id → m.headers[j]? = some other →
      liveBlock (reallocate m moved id header.block capacity block) other.block = liveBlock m other.block := by
    intro j other hj hotherj
    obtain ⟨old, hold, -⟩ := hm.sound j other hotherj
    exact hother _ (hapart j other hj hotherj).1 (lt_of_live hold)
  refine ⟨⟨?_, ?_⟩, by rw [hnew, List.length_set], cellsOf_eq_some.mpr ⟨_, _, hself, hat, rfl⟩, ?_⟩
  · intro j other hotherj
    by_cases hj : j = id
    · subst hj
      obtain rfl := Option.some.inj (hself.symm.trans hotherj)
      exact ⟨_, hat, rfl, Nat.lt_of_le_of_lt (Nat.zero_le _) hfits, Nat.le_of_lt hfits⟩
    · rw [hne j hj] at hotherj
      rw [hkept j other hj hotherj]
      exact hm.sound j other hotherj
  · intro i j hi hj hheaderi hheaderj hblock
    by_cases hii : i = id
    · subst hii
      by_cases hjj : j = i
      · exact hjj.symm
      · obtain rfl := Option.some.inj (hself.symm.trans hheaderi)
        rw [hne j hjj] at hheaderj
        exact absurd hblock.symm (hapart j hj hjj hheaderj).2
    · rw [hne i hii] at hheaderi
      by_cases hjj : j = id
      · subst hjj
        obtain rfl := Option.some.inj (hself.symm.trans hheaderj)
        exact absurd hblock (hapart i hi hii hheaderi).2
      · rw [hne j hjj] at hheaderj
        exact hm.apart i j hi hj hheaderi hheaderj hblock
  · intro j hj
    exact Keeps.of_block (hne j hj) fun other hotherj => hkept j other hj hotherj

theorem reallocate_capacity (moved : Bool) (hheader : m.headers[id]? = some header) {capacity : Nat} :
    ∃ b, (reallocate m moved id header.block capacity block).headers[id]? = some ⟨capacity, b⟩ := by
  obtain ⟨hid, -⟩ := List.getElem?_eq_some_iff.mp hheader
  cases moved with
  | true => exact ⟨_, List.getElem?_set_self hid⟩
  | false => exact ⟨_, List.getElem?_set_self hid⟩

theorem ensureRoom_spec (growth : Growth) (moves : Memory α → Nat → Bool) (hm : Valid m)
    (hcells : cellsOf m id = some cells) : ∃ m', ensureRoom growth moves m id = some m' ∧ Updates m m' id cells ∧
      ∃ header, m'.headers[id]? = some header ∧ cells.length < header.capacity := by
  obtain ⟨header, block, hheader, hlive, rfl⟩ := cellsOf_eq_some.mp hcells
  obtain ⟨_, hlive', -, hpos, hsize⟩ := hm.sound id header hheader
  obtain rfl := Option.some.inj (hlive.symm.trans hlive')
  have hroom := growth.room block.cells.length header.capacity hpos hsize
  rw [ensureRoom, hheader, Option.bind_eq_bind, Option.bind_some, hlive, Option.bind_eq_bind, Option.bind_some]
  split
  next hfull =>
    rw [if_pos hfull] at hroom
    obtain ⟨b, hb⟩ := @reallocate_capacity _ m id header block (moves m id) hheader (growth.grown header.capacity)
    exact ⟨_, rfl, reallocate_updates _ hm hheader hlive hroom, _, hb, hroom⟩
  next hfull =>
    rw [if_neg hfull] at hroom
    exact ⟨m, rfl, ⟨hm, rfl, hcells, fun j _ => Keeps.refl m j⟩, header, hheader, hroom⟩

theorem push_spec (growth : Growth) (moves : Memory α → Nat → Bool) (hm : Valid m)
    (hcells : cellsOf m id = some cells) (cell : Cell α) :
    ∃ m', push growth moves m id cell = some m' ∧ Updates m m' id (cells ++ [cell]) := by
  obtain ⟨mid, hensure, hmid, header, hheader, hlt⟩ := ensureRoom_spec growth moves hm hcells
  obtain ⟨header', block, hheader', hlive, rfl⟩ := cellsOf_eq_some.mp hmid.cells
  obtain rfl := Option.some.inj (hheader.symm.trans hheader')
  obtain ⟨_, hlive', hcapacity, -, -⟩ := hmid.valid.sound id header hheader
  obtain rfl := Option.some.inj (hlive.symm.trans hlive')
  refine ⟨_, ?_, hmid.trans (setBlock_updates { block with cells := block.cells ++ [cell] }
    hmid.valid hheader hlive rfl ?_)⟩
  · rw [push, hensure, Option.bind_eq_bind, Option.bind_some, writeNext, hheader, Option.bind_eq_bind,
      Option.bind_some, hlive, Option.bind_eq_bind, Option.bind_some, if_pos (hcapacity ▸ hlt)]
  · rw [List.length_append]
    exact hlt

theorem tail_spec (hcells : cellsOf m id = some cells) : ∃ p, tail m id = some p ∧ PointsInto m id p ∧
    p.index = cells.length - 1 := by
  obtain ⟨header, block, hheader, hlive, rfl⟩ := cellsOf_eq_some.mp hcells
  refine ⟨⟨header.block, block.cells.length - 1⟩, ?_, ⟨header, hheader, rfl⟩, rfl⟩
  rw [tail, hheader, Option.bind_eq_bind, Option.bind_some, hlive]
  rfl

end Arrays

section Trees

variable (m : Memory α)

mutual

/-- The element is the root of the tree, and the arrays below it are numbered from some number on. -/
def Holds : RoseTree α → Nat → Cell α → Prop
  | .node label children, low, cell => cell.label = label ∧
      match cell.children with
      | none => children = []
      | some id => children ≠ [] ∧ low ≤ id ∧ ∃ cells, cellsOf m id = some cells ∧ HoldsAll children (id + 1) cells

def HoldsAll : List (RoseTree α) → Nat → List (Cell α) → Prop
  | [], _, cells => cells = []
  | t :: ts, low, cells => ∃ first rest, cells = first :: rest ∧ Holds t low first ∧ HoldsAll ts low rest

end

def Row (id : Nat) (ts : List (RoseTree α)) : Prop :=
  ∃ cells, cellsOf m id = some cells ∧ List.Forall₂ (fun t cell => Holds m t (id + 1) cell) ts cells

variable {m}
variable {m' : Memory α} {id low : Nat} {label : α} {ts : List (RoseTree α)} {t : RoseTree α} {cell : Cell α}

theorem holdsAll_iff {cells : List (Cell α)} :
    HoldsAll m ts low cells ↔ List.Forall₂ (fun t cell => Holds m t low cell) ts cells := by
  induction ts generalizing cells with
  | nil => rw [HoldsAll, List.forall₂_nil_left_iff]
  | cons t ts ih =>
      rw [HoldsAll, List.forall₂_cons_left_iff]
      constructor
      · rintro ⟨first, rest, rfl, hfirst, hrest⟩
        exact ⟨first, rest, hfirst, ih.mp hrest, rfl⟩
      · rintro ⟨first, rest, hfirst, hrest, rfl⟩
        exact ⟨first, rest, rfl, hfirst, ih.mpr hrest⟩

theorem holds_node_iff : Holds m (.node label ts) low cell ↔
    cell = ⟨label, none⟩ ∧ ts = [] ∨ ∃ id, cell = ⟨label, some id⟩ ∧ ts ≠ [] ∧ low ≤ id ∧ Row m id ts := by
  obtain ⟨label', children⟩ := cell
  rw [Holds]
  cases children with
  | none => simp
  | some id => simp [Row, holdsAll_iff, and_assoc]

theorem Holds.keep {low' : Nat} (h : Holds m t low cell) (hlow : low' ≤ low)
    (hkeep : ∀ id cells, low ≤ id → cellsOf m id = some cells → cellsOf m' id = some cells) :
    Holds m' t low' cell := by
  induction t using RoseTree.childInduction generalizing low low' cell with
  | hnode label ts ih =>
      rw [holds_node_iff] at h ⊢
      rcases h with hleaf | ⟨id, rfl, hts, hid, cells, hcells, hall⟩
      · exact .inl hleaf
      · refine .inr ⟨id, rfl, hts, Nat.le_trans hlow hid, cells, hkeep id cells hid hcells, ?_⟩
        have hkept : ∀ t ∈ ts, ∀ cell, Holds m t (id + 1) cell → Holds m' t (id + 1) cell := by
          intro t ht cell hcell
          exact ih t ht hcell (Nat.le_refl _) fun j cells hj => hkeep j cells (by omega)
        apply ((List.forall₂_and_left _ _).mpr ⟨hkept, hall⟩).imp
        rintro t cell ⟨hcell, ht⟩
        exact hcell cell ht

theorem Row.length {cells : List (Cell α)} (h : Row m id ts) (hcells : cellsOf m id = some cells) :
    ts.length = cells.length := by
  obtain ⟨_, hcells', hall⟩ := h
  obtain rfl := Option.some.inj (hcells.symm.trans hcells')
  exact hall.length_eq

theorem Row.push {cells : List (Cell α)} (h : Row m id ts) (hcells : cellsOf m id = some cells)
    (hpush : Updates m m' id (cells ++ [⟨label, none⟩])) : Row m' id (ts ++ [.node label []]) := by
  obtain ⟨_, hcells', hall⟩ := h
  obtain rfl := Option.some.inj (hcells.symm.trans hcells')
  refine ⟨_, hpush.cells, List.rel_append ?_ (.cons (holds_node_iff.mpr (.inl ⟨rfl, rfl⟩)) .nil)⟩
  apply hall.imp
  intro t cell ht
  apply ht.keep (Nat.le_refl _)
  intro j cells hj hread
  exact (hpush.others j (by omega)).cells.trans hread

/-- Of what was there before, only one element of one array has changed. -/
structure Changes (m m' : Memory α) (id i : Nat) (cell : Cell α) : Prop where
  valid : Valid m'
  length : m.headers.length ≤ m'.headers.length
  header : m'.headers[id]? = m.headers[id]?
  root : ∃ cells, cellsOf m id = some cells ∧ i < cells.length ∧ cellsOf m' id = some (cells.set i cell)
  others : ∀ j < m.headers.length, j ≠ id → Keeps m m' j

/-- The tree has grown at an element of an array, with all its arrays new. -/
def Grows (m m' : Memory α) (id i : Nat) (t : RoseTree α) : Prop :=
  ∃ cell, Changes m m' id i cell ∧ Holds m' t m.headers.length cell

theorem Row.grow {i : Nat} (h : Row m id ts) (hgrow : Grows m m' id i t) : Row m' id (ts.set i t) := by
  obtain ⟨cells, hcells, hall⟩ := h
  obtain ⟨cell, hchanges, ht⟩ := hgrow
  obtain ⟨_, hcells', hi, hnew⟩ := hchanges.root
  obtain rfl := Option.some.inj (hcells.symm.trans hcells')
  refine ⟨_, hnew, ?_⟩
  rw [List.forall₂_iff_get] at hall ⊢
  obtain ⟨hlength, hall⟩ := hall
  refine ⟨by rw [List.length_set, List.length_set, hlength], ?_⟩
  intro k hk hk'
  rw [List.get_eq_getElem, List.get_eq_getElem, List.getElem_set, List.getElem_set]
  split
  next =>
    apply ht.keep (lt_of_cellsOf hcells)
    exact fun _ _ _ hread => hread
  next hne =>
    rw [List.length_set] at hk hk'
    apply (hall k hk hk').keep (Nat.le_refl _)
    intro j cells hj hread
    exact (hchanges.others j (lt_of_cellsOf hread) (by omega)).cells.trans hread

end Trees

section Growing

variable (growth : Growth) (moves : Memory α → Nat → Bool)

def childArray (m : Memory α) (p : Pointer) : Option (Memory α × Nat) := do
  let cell ← load m p
  match cell.children with
  | some id => some (m, id)
  | none =>
      let (m, id) := newArray growth m
      (store m p { cell with children := some id }).map (·, id)

def addChild (m : Memory α) (p : Pointer) (label : α) : Option (Memory α) := do
  let (m, id) ← childArray growth m p
  push growth moves m id ⟨label, none⟩

def lastChild (m : Memory α) (p : Pointer) : Option Pointer := do
  let cell ← load m p
  let id ← cell.children
  tail m id

variable {m m' m'' : Memory α} {id child : Nat} {p : Pointer} {label label' : α} {ts : List (RoseTree α)}
  {t t' : RoseTree α} {cell cell' : Cell α}

theorem Changes.start {cells : List (Cell α)} {i : Nat} (hm : Valid m) (hcells : cellsOf m id = some cells)
    (hcell : cells[i]? = some cell) : Changes m m id i cell where
  valid := hm
  length := Nat.le_refl _
  header := rfl
  root := by
    obtain ⟨hlt, rfl⟩ := List.getElem?_eq_some_iff.mp hcell
    refine ⟨cells, hcells, hlt, ?_⟩
    rw [List.set_getElem_self]
    exact hcells
  others j _ _ := Keeps.refl m j

theorem Changes.extend {i : Nat} (h : Changes m m' id i cell) (hvalid : Valid m'')
    (hlength : m'.headers.length ≤ m''.headers.length) (hkeep : ∀ j < m.headers.length, Keeps m' m'' j) :
    Changes m m'' id i cell where
  valid := hvalid
  length := Nat.le_trans h.length hlength
  header := by
    obtain ⟨cells, hcells, -⟩ := h.root
    exact (hkeep id (lt_of_cellsOf hcells)).header.trans h.header
  root := by
    obtain ⟨cells, hcells, hi, hnew⟩ := h.root
    exact ⟨cells, hcells, hi, (hkeep id (lt_of_cellsOf hcells)).cells.trans hnew⟩
  others j hj hne := (h.others j hj hne).trans (hkeep j hj)

theorem Changes.load (h : Changes m m' id p.index cell) (hp : PointsInto m id p) : load m' p = some cell := by
  obtain ⟨cells, -, hlt, hcells⟩ := h.root
  rw [load_eq (hp.kept h.header) hcells, List.getElem?_set_self hlt]

theorem Changes.store (h : Changes m m' id p.index cell) (hp : PointsInto m id p) (cell' : Cell α) :
    ∃ m'', store m' p cell' = some m'' ∧ Changes m m'' id p.index cell' ∧ ∀ j, j ≠ id → Keeps m' m'' j := by
  obtain ⟨cells, hold, hlt, hcells⟩ := h.root
  obtain ⟨m'', hstore, hupdates, hheaders⟩ :=
    store_spec h.valid (hp.kept h.header) hcells (by rwa [List.length_set]) cell'
  refine ⟨m'', hstore, ⟨hupdates.valid, ?_, ?_, ⟨cells, hold, hlt, ?_⟩, ?_⟩, hupdates.others⟩
  · rw [hupdates.length]
    exact h.length
  · rw [hheaders]
    exact h.header
  · rw [hupdates.cells, List.set_set]
  · intro j hj hne
    exact (h.others j hj hne).trans (hupdates.others j hne)

theorem Changes.lt {i : Nat} (h : Changes m m' id i cell) : id < m.headers.length := by
  obtain ⟨cells, hcells, -⟩ := h.root
  exact lt_of_cellsOf hcells

theorem Grows.start {i : Nat} (hm : Valid m) (hrow : Row m id ts) (hi : ts[i]? = some (.node label [])) :
    Grows m m id i (.node label []) := by
  have ⟨cells, hcells, hall⟩ := hrow
  obtain ⟨hlt, hi⟩ := List.getElem?_eq_some_iff.mp hi
  have hlt' := hall.length_eq ▸ hlt
  have hroot := hall.get hlt hlt'
  rw [List.get_eq_getElem, List.get_eq_getElem, hi] at hroot
  rcases holds_node_iff.mp hroot with ⟨hcell, -⟩ | ⟨_, -, hnil, -⟩
  · refine ⟨⟨label, none⟩, Changes.start hm hcells ?_, holds_node_iff.mpr (.inl ⟨rfl, rfl⟩)⟩
    rw [List.getElem?_eq_getElem hlt', ← hcell]
  · exact absurd rfl hnil

theorem Grows.load (h : Grows m m' id p.index t) (hp : PointsInto m id p) :
    ∃ cell, MovingTrees.load m' p = some cell ∧ cell.label = t.label := by
  obtain ⟨cell, hchanges, ht⟩ := h
  refine ⟨cell, hchanges.load hp, ?_⟩
  cases t with
  | node label ts => rcases holds_node_iff.mp ht with ⟨rfl, -⟩ | ⟨_, rfl, -⟩ <;> rfl

theorem Grows.relabel (h : Grows m m' id p.index (.node label ts)) (hp : PointsInto m id p) (label' : α) :
    ∃ cell m'', MovingTrees.load m' p = some cell ∧ cell.label = label ∧
      store m' p { cell with label := label' } = some m'' ∧ Grows m m'' id p.index (.node label' ts) := by
  obtain ⟨cell, hchanges, ht⟩ := h
  obtain ⟨m'', hstore, hchanges', hothers⟩ := hchanges.store hp { cell with label := label' }
  have hlt := hchanges.lt
  have hroot : cell.label = label ∧ Holds m' (.node label' ts) m.headers.length { cell with label := label' } := by
    rw [holds_node_iff] at ht ⊢
    rcases ht with ⟨rfl, rfl⟩ | ⟨child, rfl, hts, hlow, hrow⟩
    · exact ⟨rfl, .inl ⟨rfl, rfl⟩⟩
    · exact ⟨rfl, .inr ⟨child, rfl, hts, hlow, hrow⟩⟩
  refine ⟨cell, m'', hchanges.load hp, hroot.1, hstore, _, hchanges', ?_⟩
  apply hroot.2.keep (Nat.le_refl _)
  intro j cells hj hread
  exact (hothers j (by omega)).cells.trans hread

theorem childArray_spec (growth : Growth) (h : Grows m m' id p.index (.node label ts)) (hp : PointsInto m id p) :
    ∃ m'' child, childArray growth m' p = some (m'', child) ∧ Changes m m'' id p.index ⟨label, some child⟩ ∧
      m.headers.length ≤ child ∧ Row m'' child ts := by
  obtain ⟨cell, hchanges, ht⟩ := h
  rw [childArray, hchanges.load hp, Option.bind_eq_bind, Option.bind_some]
  rcases holds_node_iff.mp ht with ⟨rfl, rfl⟩ | ⟨child, rfl, -, hlow, hrow⟩
  · obtain ⟨hvalid, hlength, hempty, hkeep⟩ := @newArray_spec _ growth m' hchanges.valid
    have hnew := hchanges.extend hvalid (by omega) fun j hj => hkeep j (Nat.lt_of_lt_of_le hj hchanges.length)
    obtain ⟨m'', hstore, hchanges', hothers⟩ := hnew.store hp ⟨label, some m'.headers.length⟩
    refine ⟨m'', m'.headers.length, ?_, hchanges', hchanges.length, [], ?_, .nil⟩
    · exact Option.map_eq_some_iff.mpr ⟨m'', hstore, rfl⟩
    · have hne : m'.headers.length ≠ id := Nat.ne_of_gt (Nat.lt_of_lt_of_le hchanges.lt hchanges.length)
      exact (hothers _ hne).cells.trans hempty
  · exact ⟨m', child, rfl, hchanges, hlow, hrow⟩

theorem Grows.addChild (growth : Growth) (moves : Memory α → Nat → Bool)
    (h : Grows m m' id p.index (.node label ts)) (hp : PointsInto m id p) (label' : α) :
    ∃ m'', addChild growth moves m' p label' = some m'' ∧
      Grows m m'' id p.index (.node label (ts ++ [.node label' []])) := by
  obtain ⟨mid, child, harray, hchanges, hlow, hrow⟩ := childArray_spec growth h hp
  have ⟨cells, hcells, _⟩ := hrow
  obtain ⟨m'', hpush, hupdates⟩ := push_spec growth moves hchanges.valid hcells ⟨label', none⟩
  refine ⟨m'', ?_, ⟨label, some child⟩, ?_, ?_⟩
  · rw [MovingTrees.addChild, harray]
    exact hpush
  · apply hchanges.extend hupdates.valid (Nat.le_of_eq hupdates.length.symm)
    intro j hj
    exact hupdates.others j (by omega)
  · exact holds_node_iff.mpr (.inr ⟨child, rfl, by simp, hlow, hrow.push hcells hupdates⟩)

theorem Grows.lastChild (h : Grows m m' id p.index (.node label (ts ++ [.node label' []]))) (hp : PointsInto m id p) :
    ∃ child q, lastChild m' p = some q ∧ PointsInto m' child q ∧ q.index = ts.length ∧
      Grows m' m' child q.index (.node label' []) ∧ ∀ m'' t', Grows m' m'' child q.index t' →
        Grows m m'' id p.index (.node label (ts ++ [t'])) := by
  obtain ⟨cell, hchanges, ht⟩ := h
  rcases holds_node_iff.mp ht with ⟨-, hnil⟩ | ⟨child, rfl, -, hlow, hrow⟩
  · simp at hnil
  have ⟨cells, hcells, hall⟩ := hrow
  obtain ⟨q, htail, hq, hindex⟩ := tail_spec hcells
  rw [← hrow.length hcells, List.length_append, List.length_singleton, Nat.add_sub_cancel] at hindex
  refine ⟨child, q, ?_, hq, hindex, ?_, ?_⟩
  · rw [MovingTrees.lastChild, hchanges.load hp]
    exact htail
  · apply Grows.start hchanges.valid hrow
    rw [hindex, List.getElem?_append_right (Nat.le_refl _), Nat.sub_self]
    rfl
  · intro m'' t' hgrow
    have ⟨cell', hinner, _⟩ := hgrow
    refine ⟨⟨label, some child⟩, ?_, ?_⟩
    · apply hchanges.extend hinner.valid hinner.length
      intro j hj
      exact hinner.others j (Nat.lt_of_lt_of_le hj hchanges.length) (by omega)
    · have hset := hrow.grow hgrow
      rw [hindex, List.set_append_right _ _ (Nat.le_refl _), Nat.sub_self, List.set_cons_zero] at hset
      exact holds_node_iff.mpr (.inr ⟨child, rfl, by simp, hlow, hset⟩)

end Growing

end Prongc.Library.MovingTrees
