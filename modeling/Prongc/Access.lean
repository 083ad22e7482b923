import Mathlib.Data.List.Basic

namespace Prongc.Access

/-- Variable access types, numbered as in the enumeration of the source. -/
inductive VarAccessType
  | null | read | write | ptrRead | ptrWrite | escape
  | lockAcquire | lockRelease | call | ifStmt | thenBlock | elseStmt | endIf
  deriving DecidableEq, Repr

namespace VarAccessType

def toNat : VarAccessType → Nat
  | null => 0
  | read => 1
  | write => 2
  | ptrRead => 3
  | ptrWrite => 4
  | escape => 5
  | lockAcquire => 6
  | lockRelease => 7
  | call => 8
  | ifStmt => 9
  | thenBlock => 10
  | elseStmt => 11
  | endIf => 12

def isAccess : VarAccessType → Bool
  | read | write | ptrRead | ptrWrite | escape => true
  | _ => false

end VarAccessType

open VarAccessType in
def vaIsPlaceholderType (vaType : VarAccessType) : Bool :=
  vaType == .null || (decide (call.toNat ≤ vaType.toNat) && decide (vaType.toNat ≤ endIf.toNat))

/-- UINT_MAX, which stands for a missing parameter index and for a missing ancestor. -/
def noIdx : Nat := 4294967295

def ancestorNotFound : Nat := 4294967295

/-- A single variable access. A null string pointer is `none`. -/
structure VarAccess where
  usr : Option String
  name : Option String
  parentFuncName : String
  escFuncSpelling : Option String
  escFuncUsr : Option String
  escParamIdx : Nat
  line : Nat
  column : Nat
  type : VarAccessType
  isPtrType : Bool
  deriving DecidableEq, Repr

namespace VarAccess

/-- The entry as the comparisons of the source leave it once it has been reported. -/
def nullify (va : VarAccess) : VarAccess := { va with type := .null }

def live (va : VarAccess) : Bool := !vaIsPlaceholderType va.type

@[simp] theorem nullify_type (va : VarAccess) : va.nullify.type = .null := rfl

@[simp] theorem nullify_usr (va : VarAccess) : va.nullify.usr = va.usr := rfl

@[simp] theorem nullify_live (va : VarAccess) : va.nullify.live = false := rfl

theorem live_of_isAccess {va : VarAccess} (h : va.type.isAccess = true) : va.live = true := by
  rw [live, vaIsPlaceholderType]
  cases ht : va.type <;> simp_all [VarAccessType.isAccess, VarAccessType.toNat]

theorem live_iff (va : VarAccess) :
    va.live = true ↔ va.type.isAccess = true ∨ va.type = .lockAcquire ∨ va.type = .lockRelease := by
  rw [live, vaIsPlaceholderType]
  cases ht : va.type <;> simp [VarAccessType.isAccess, VarAccessType.toNat]

end VarAccess

/-- strcmp on the two USRs. Live entries carry a USR, so neither pointer is null there. -/
def equalVarAccesses (a b : VarAccess) : Bool :=
  match a.usr, b.usr with
  | some u, some v => u == v
  | _, _ => false

theorem equalVarAccesses_iff (a b : VarAccess) :
    equalVarAccesses a b = true ↔ ∃ u, a.usr = some u ∧ b.usr = some u := by
  rw [equalVarAccesses]
  cases a.usr with
  | none => simp
  | some u =>
      cases b.usr with
      | none => simp
      | some v =>
          simp only [beq_iff_eq, Option.some.injEq, exists_eq_left']
          exact eq_comm

theorem equalVarAccesses_symm (x y : VarAccess) (h : equalVarAccesses x y = true) :
    equalVarAccesses y x = true := by
  obtain ⟨u, hx, hy⟩ := (equalVarAccesses_iff x y).mp h
  exact (equalVarAccesses_iff y x).mpr ⟨u, hy, hx⟩

theorem equalVarAccesses_trans (x y z : VarAccess) (h : equalVarAccesses x y = true)
    (h' : equalVarAccesses y z = true) : equalVarAccesses x z = true := by
  rw [equalVarAccesses_iff] at *
  obtain ⟨u, hx, hy⟩ := h
  obtain ⟨v, hy', hz⟩ := h'
  exact ⟨u, hx, by rw [hz, ← hy', hy]⟩

/-- A call of init_var_access: a Call entry takes its USR and name from the callee. -/
def initVarAccess (usr name escFuncSpelling escFuncUsr : Option String) (parentFuncName : String)
    (escParamIdx line column : Nat) (type : VarAccessType) (isPtrType : Bool) : VarAccess where
  usr := if type = .call then escFuncUsr else usr
  name := if type = .call then escFuncSpelling else name
  parentFuncName := parentFuncName
  escFuncSpelling := escFuncSpelling
  escFuncUsr := escFuncUsr
  escParamIdx := escParamIdx
  line := line
  column := column
  type := type
  isPtrType := isPtrType

@[simp] theorem initVarAccess_type (usr name esc escUsr : Option String) (parent : String)
    (idx line column : Nat) (type : VarAccessType) (isPtr : Bool) :
    (initVarAccess usr name esc escUsr parent idx line column type isPtr).type = type := rfl

structure LockPrimitivePair where
  lockFunc : String
  unlockFunc : String
  deriving DecidableEq, Repr

end Prongc.Access
