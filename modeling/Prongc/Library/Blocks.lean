import Mathlib.Data.UInt

namespace Prongc.Library.Blocks

/-- What may stop a program that works in memory it asks for: memory that is used up, an access outside of the
block it is meant for, or a loop that does not end. -/
inductive Failure
  | outOfMemory
  | outOfBounds
  | endless
  deriving DecidableEq

/-- The memory a program asks for, one request after the other. A block is at an address from which it fits,
with contents left there from before. -/
structure Heap where
  grant : Nat → Nat → Option UInt64
  byte : Nat → Nat → UInt8
  word : Nat → Nat → UInt64
  grant_spec : ∀ {request size addr}, grant request size = some addr →
    addr ≠ 0 ∧ addr.toNat + size ≤ 2 ^ 64 ∧ size < 2 ^ 63

structure Block where
  addr : UInt64
  bytes : List UInt8

def Refuses (heap : Heap) (limit : Nat) : Prop := ∃ request size, size ≤ limit ∧ heap.grant request size = none

section Contents

variable {α : Type}

def resize (old : List α) (room : Nat) (rest : Nat → α) : List α :=
  (List.range room).map fun i => old.getD i (rest i)

def overwrite (old : List α) (i : Nat) (new : List α) : Except Failure (List α) :=
  if i + new.length ≤ old.length then .ok (old.take i ++ new ++ old.drop (i + new.length))
  else .error .outOfBounds

theorem length_resize (old : List α) (room : Nat) (rest : Nat → α) : (resize old room rest).length = room := by
  rw [resize, List.length_map, List.length_range]

theorem take_resize {old : List α} {room k : Nat} (hold : k ≤ old.length) (hroom : k ≤ room) (rest : Nat → α) :
    (resize old room rest).take k = old.take k := by
  apply List.ext_getElem?
  intro i
  by_cases hi : i < k
  · have hlt : i < old.length := by omega
    rw [List.getElem?_take_of_lt hi, List.getElem?_take_of_lt hi, resize, List.getElem?_map,
      List.getElem?_range (by omega), Option.map_some, List.getD_eq_getElem?_getD, List.getElem?_eq_getElem hlt,
      Option.getD_some]
  · rw [List.getElem?_take_eq_none (by omega), List.getElem?_take_eq_none (by omega)]

theorem overwrite_spec {old new : List α} {i : Nat} (h : i + new.length ≤ old.length) :
    ∃ l, overwrite old i new = .ok l ∧ l.length = old.length ∧ l.take (i + new.length) = old.take i ++ new := by
  have hfront : (old.take i ++ new).length = i + new.length := by
    rw [List.length_append, List.length_take]
    omega
  refine ⟨_, if_pos h, ?_, ?_⟩
  · rw [List.length_append, hfront, List.length_drop]
    omega
  · rw [← hfront, List.take_left]

end Contents

section Pointers

variable {addr addr' : UInt64} {n : Nat}

theorem offset_pointer (h : n < 2 ^ 64) : (addr + UInt64.ofNat n - addr).toNat = n := by
  rw [add_sub_cancel_left, UInt64.toNat_ofNat_of_lt' h]

theorem pointer_rebase (p : UInt64) : addr + p + (addr' - addr) = addr' + p := by
  rw [UInt64.add_comm addr, UInt64.add_assoc, add_sub_cancel, UInt64.add_comm]

theorem pointer_ne_zero (haddr : addr ≠ 0) (h : addr.toNat + n < 2 ^ 64) : addr + UInt64.ofNat n ≠ 0 := by
  intro hzero
  have hnat := congrArg UInt64.toNat hzero
  have hn : n < 2 ^ 64 := by omega
  rw [UInt64.toNat_add, UInt64.toNat_ofNat_of_lt' hn, Nat.mod_eq_of_lt h] at hnat
  have hne : addr.toNat ≠ (0 : UInt64).toNat := fun h => haddr (UInt64.toNat_inj.mp h)
  have hz : (0 : UInt64).toNat = 0 := rfl
  omega

end Pointers

section Results

variable {heap : Heap} {limit : Nat} {α β : Type} {result : Except Failure α} {f : α → Except Failure β}
  {marked : α → Prop} {marked' : β → Prop} {P Q : α → Prop} {R : β → Prop}

/-- The result is as told, or a request has been refused, and what comes out then bears a mark of it. -/
def Yields (heap : Heap) (limit : Nat) (marked : α → Prop) (result : Except Failure α) (P : α → Prop) : Prop :=
  (∃ a, result = .ok a ∧ P a) ∨ (Refuses heap limit ∧ ∀ a, result = .ok a → marked a)

theorem ok_bind (a : α) (f : α → Except Failure β) : (Except.ok a >>= f) = f a := rfl

theorem Yields.pure {a : α} (h : P a) : Yields heap limit marked (.ok a) P := .inl ⟨a, rfl, h⟩

theorem Yields.bind (h : Yields heap limit marked result P) (hf : ∀ a, P a → Yields heap limit marked' (f a) R)
    (hmark : ∀ a b, marked a → f a = .ok b → marked' b) : Yields heap limit marked' (result >>= f) R := by
  rcases h with ⟨a, rfl, ha⟩ | ⟨hrefused, hmarked⟩
  · exact hf a ha
  · refine .inr ⟨hrefused, fun b hb => ?_⟩
    cases result with
    | error failure => cases hb
    | ok a => exact hmark a b (hmarked a rfl) hb

theorem Yields.mono (h : Yields heap limit marked result P) (hPQ : ∀ a, P a → Q a) :
    Yields heap limit marked result Q := by
  rcases h with ⟨a, hresult, ha⟩ | hrefused
  · exact .inl ⟨a, hresult, hPQ a ha⟩
  · exact .inr hrefused

theorem Yields.of_ok {a : α} (h : Yields heap limit marked result P) (hresult : result = .ok a)
    (hclean : ¬ marked a) : P a := by
  rcases h with ⟨a', hok, ha⟩ | ⟨-, hmarked⟩
  · obtain rfl := Except.ok.inj (hresult.symm.trans hok)
    exact ha
  · exact absurd (hmarked a hresult) hclean

theorem Yields.of_grants (h : Yields heap limit marked result P) (hgrants : ¬ Refuses heap limit) :
    ∃ a, result = .ok a ∧ P a := h.resolve_right fun hrefused => hgrants hrefused.1

end Results

end Prongc.Library.Blocks
