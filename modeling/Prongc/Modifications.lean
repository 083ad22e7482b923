import Prongc.References

namespace Prongc.Modifications

open Access Ast DeclRef WalkFunc Callbacks References Library.Traversal

inductive Reach
  | direct | throughPointer
  deriving DecidableEq, Repr

def Reach.recordedType : Reach → VarAccessType
  | .direct => .write
  | .throughPointer => .ptrWrite

def isFirstChild (child parent : Cursor) : Bool :=
  match parent.children.head? with
  | some c => clangEqualCursors c child
  | none => false

/-- The operand points to something, also by way of a typedef or as an array parameter. -/
def isPointerOperand (c : Cursor) : Bool := isPtrType c.label.canonicalTypeKind

/-- The modification whose lvalue has an expression at its base, found by climbing from the
expression through its ancestors: parentheses, casts, member selections, dereferences,
address-of, subscripts and pointer arithmetic of which it is the base, up to an increment, a
decrement or an assignment. -/
def modification (reach : Reach) (child : Cursor) : List Cursor → Option Reach
  | [] => none
  | parent :: above =>
      match kindOf parent with
      | .parenExpr | .unexposedExpr | .memberRefExpr => modification reach parent above
      | .arraySubscriptExpr =>
          if isPointerOperand child then modification .throughPointer parent above else none
      | .unaryOperator =>
          match parent.label.unaryOperatorKind with
          | .deref => modification .throughPointer parent above
          | .addrOf => modification reach parent above
          | .preInc | .postInc | .preDec | .postDec => some reach
          | _ => none
      | .binaryOperator =>
          if operatorIsAssignment parent then
            if isFirstChild child parent then some reach else none
          else
            match parent.label.binaryOperatorKind with
            | .add | .sub => if isPointerOperand child then modification reach parent above else none
            | _ => none
      | .compoundAssignOperator => if isFirstChild child parent then some reach else none
      | _ => none

section Classification

variable (stack : CursorArr) (current : Cursor)

def isIncDec (c : Option Cursor) : Bool :=
  match unopKind c with
  | .preInc | .postInc | .preDec | .postDec => true
  | _ => false

def AssignedOnLeft : Prop :=
  getBinopAssignmentOffset stack ≠ ancestorNotFound ∧ onLhsOf stack current (getBinopAssignment stack) = true

/-- The closest of the assignment, the unary operator and the subscript on the stack is an
increment, a decrement or an assignment to the reference. -/
def ModifiesDirectly : Prop :=
  (inUnop (closestAncestors stack) = true ∧ isIncDec (getCursorOfKind stack .unaryOperator) = true) ∨
    (inAssignment (closestAncestors stack) = true ∧ onLhsOf stack current (getBinopAssignment stack) = true)

/-- An assignment to the left of which the reference stands is on the stack, and a subscript with
the reference in its base, or a dereference, is closer. Under a dereference the reference has to
stand on the left of the closest binary operator as well. -/
def ModifiesThroughPointer : Prop :=
  AssignedOnLeft stack current ∧
    ((inSubscript (closestAncestors stack) = true ∧
        onLhsOf stack current (getCursorOfKind stack .arraySubscriptExpr) = true) ∨
      (inUnop (closestAncestors stack) = true ∧
        unopKind (getCursorOfKind stack .unaryOperator) = .deref ∧
        (cursorsAreEqual (some current) (getCursorFirstChild (getBinopAssignment stack)) = true ∨
          inCursorStack stack (getCursorFirstChild (getCursorOfKind stack .binaryOperator)) = true)))

def ShowsModification : Reach → Prop
  | .direct => inCall (closestAncestors stack) = false ∧ ModifiesDirectly stack current
  | .throughPointer => inCall (closestAncestors stack) = false ∧ ModifiesThroughPointer stack current

variable (closest : ClosestAncestors)

theorem not_inSubscript_of_inUnop {closest : ClosestAncestors} (h : inUnop closest = true) :
    inSubscript closest = false := by
  rw [inUnop] at h
  rw [inSubscript]
  grind

theorem not_inSubscript_of_inAssignment {closest : ClosestAncestors} (h : inAssignment closest = true) :
    inSubscript closest = false ∧ inUnop closest = false := by
  rw [inAssignment] at h
  rw [inSubscript, inUnop]
  grind

theorem subscriptType_ne_write : subscriptType stack current closest ≠ some .write := by
  rw [subscriptType]
  grind

theorem subscriptType_ptrWrite_iff : subscriptType stack current closest = some .ptrWrite ↔
    onLhsOf stack current closest.arrsubexp = true ∧ closest.binopOffset ≠ ancestorNotFound ∧
      onLhsOf stack current closest.binop = true := by
  rw [subscriptType]
  grind

theorem derefType_ne_write : derefType stack current closest ≠ .write := by
  rw [derefType]
  grind

theorem derefType_ptrWrite_iff : derefType stack current closest = .ptrWrite ↔
    closest.binopOffset ≠ ancestorNotFound ∧ onLhsOf stack current closest.binop = true ∧
      (cursorsAreEqual (some current) (getCursorFirstChild closest.binop) = true ∨
        inCursorStack stack (getCursorFirstChild closest.nonAssignBinop) = true) := by
  rw [derefType]
  grind

theorem unopType_write_iff : unopType stack current closest = .write ↔ isIncDec closest.unop = true := by
  rw [unopType, isIncDec]
  cases unopKind closest.unop <;> simp [derefType_ne_write]

theorem unopType_ptrWrite_iff : unopType stack current closest = .ptrWrite ↔
    unopKind closest.unop = .deref ∧ derefType stack current closest = .ptrWrite := by
  rw [unopType]
  cases unopKind closest.unop <;> simp

theorem assignmentType_write_iff :
    assignmentType stack current closest = .write ↔ onLhsOf stack current closest.binop = true := by
  rw [assignmentType]
  grind

theorem assignmentType_ne_ptrWrite : assignmentType stack current closest ≠ .ptrWrite := by
  rw [assignmentType]
  grind

theorem operandType_write_iff :
    operandType stack current (closestAncestors stack) = some .write ↔ ModifiesDirectly stack current := by
  rw [operandType, ModifiesDirectly]
  by_cases hsub : inSubscript (closestAncestors stack) = true
  · rw [if_pos hsub]
    have hno := subscriptType_ne_write stack current (closestAncestors stack)
    grind [not_inSubscript_of_inUnop, not_inSubscript_of_inAssignment]
  · rw [if_neg hsub]
    by_cases hunop : inUnop (closestAncestors stack) = true
    · rw [if_pos hunop, Option.some.injEq, unopType_write_iff]
      grind [not_inSubscript_of_inAssignment, closestAncestors]
    · rw [if_neg hunop]
      by_cases hassign : inAssignment (closestAncestors stack) = true
      · rw [if_pos hassign, Option.some.injEq, assignmentType_write_iff]
        grind [closestAncestors]
      · rw [if_neg hassign]
        grind

theorem operandType_ptrWrite_iff :
    operandType stack current (closestAncestors stack) = some .ptrWrite ↔
      ModifiesThroughPointer stack current := by
  rw [operandType, ModifiesThroughPointer, AssignedOnLeft]
  by_cases hsub : inSubscript (closestAncestors stack) = true
  · rw [if_pos hsub, subscriptType_ptrWrite_iff]
    grind [not_inSubscript_of_inUnop, closestAncestors]
  · rw [if_neg hsub]
    by_cases hunop : inUnop (closestAncestors stack) = true
    · rw [if_pos hunop, Option.some.injEq, unopType_ptrWrite_iff, derefType_ptrWrite_iff]
      grind [closestAncestors]
    · rw [if_neg hunop]
      have hno := assignmentType_ne_ptrWrite stack current (closestAncestors stack)
      grind

end Classification

theorem callArgumentType_ne (closest : ClosestAncestors) (isPtr : Bool) (reach : Reach) :
    callArgumentType closest isPtr ≠ reach.recordedType := by
  unfold callArgumentType Reach.recordedType
  grind

/-- An entry of the type that a modification asks for is pushed exactly when the closest
ancestors show this modification. -/
theorem declRefAccess_type_iff {program : Program} {stack : CursorArr} {spelling : String}
    {current : Cursor} (href : (referencedVariable program current).isSome = true) (reach : Reach) :
    (declRefAccess program stack spelling current).map VarAccess.type = some reach.recordedType ↔
      ShowsModification stack current reach := by
  obtain ⟨referenced, href⟩ := Option.isSome_iff_exists.mp href
  rw [declRefAccess]
  rw [href]
  dsimp only [Option.bind_some]
  by_cases hcall : inCall (closestAncestors stack) = true
  · rw [if_pos hcall]
    have hno := callArgumentType_ne (closestAncestors stack) (isPtrType referenced.label.typeKind) reach
    cases reach <;> simpa [ShowsModification, hcall] using hno
  · rw [if_neg hcall, Option.map_map]
    have htype : VarAccess.type ∘ (fun type => initVarAccess
        (some (declNames program stack referenced).usr) (some (declNames program stack referenced).name)
        none none spelling noIdx current.label.line current.label.column type
        (isPtrType referenced.label.typeKind)) = id := by
      funext type
      rfl
    rw [htype, Option.map_id]
    cases reach with
    | direct => simpa [ShowsModification, hcall, Reach.recordedType] using operandType_write_iff stack current
    | throughPointer => simpa [ShowsModification, hcall, Reach.recordedType] using operandType_ptrWrite_iff stack current

section Run

variable (program : Program) (trackLocking : Bool)

def modificationAt (cb : Callback) : Option Reach :=
  if isReference program cb then modification .direct cb.visit.node cb.visit.path else none

def recordsModification (cb : Callback) (reach : Reach) : Bool :=
  (pushedAccesses program trackLocking cb).map VarAccess.type == [reach.recordedType]

theorem recordsModification_iff {cb : Callback} (h : isReference program cb = true) (reach : Reach) :
    recordsModification program trackLocking cb reach = true ↔
      ShowsModification (stackAt program cb.visit.parent cb.before) cb.visit.node reach := by
  have href := (Bool.and_eq_true_iff.mp h).2
  rw [← @declRefAccess_type_iff program _ cb.before.currentFunc.spelling _ href]
  rw [recordsModification]
  rw [pushedAccesses_reference program trackLocking h, beq_iff_eq]
  cases hva : declRefAccess program (stackAt program cb.visit.parent cb.before)
      cb.before.currentFunc.spelling cb.visit.node with
  | none => simp
  | some va => simp [(declRefAccess_isAccess hva).1]

end Run

/-- void f() { x += 1; } with the global variable x. -/
def incrementer : Cursor :=
  definitionOf 1 "f" []
    [.node { id := 3, kind := .compoundAssignOperator, binaryOperatorKind := .addAssign }
      [.node { id := 4, kind := .declRefExpr, referenced := some 10 } [],
       .node { id := 5, kind := .other 106 } []]]

def incrementProgram : Program where
  tuArray := []
  fileNames := []
  decls := [.node { id := 10, kind := .varDecl, usr := "c:@x" } []]
  zeroCursorIsNull := false

end Prongc.Modifications
