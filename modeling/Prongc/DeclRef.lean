import Prongc.Ast

namespace Prongc.DeclRef

open Access Ast

def isPtrType : TypeKind → Bool
  | .pointer | .constantArray | .incompleteArray | .variableArray => true
  | _ => false

structure ClosestAncestors where
  binop : Option Cursor
  unop : Option Cursor
  arrsubexp : Option Cursor
  callexpr : Option Cursor
  nonAssignBinop : Option Cursor
  binopOffset : Nat
  unopOffset : Nat
  arrsubexpOffset : Nat
  callexprOffset : Nat

def closestAncestors (stack : CursorArr) : ClosestAncestors where
  binop := getBinopAssignment stack
  unop := getCursorOfKind stack .unaryOperator
  arrsubexp := getCursorOfKind stack .arraySubscriptExpr
  callexpr := getCursorOfKind stack .callExpr
  nonAssignBinop := getCursorOfKind stack .binaryOperator
  binopOffset := getBinopAssignmentOffset stack
  unopOffset := getCursorOffsetOfKind stack .unaryOperator
  arrsubexpOffset := getCursorOffsetOfKind stack .arraySubscriptExpr
  callexprOffset := getCursorOffsetOfKind stack .callExpr

/-- The name and USR built so far, and the cursor whose type chooses the next selector. -/
structure MemberChain where
  name : String
  usr : String
  previousMemberref : Option Cursor

def typeKindOf : Option Cursor → TypeKind
  | some c => c.label.typeKind
  | none => .other 0

def appendMember (program : Program) (chain : MemberChain) (memberCursor : Cursor) : MemberChain :=
  if isOfKind .memberRefExpr memberCursor then
    let memberReferenced := clangGetCursorReferenced program memberCursor
    let selector := if typeKindOf chain.previousMemberref = .pointer then "->" else "."
    { name := chain.name ++ selector ++ cursorSpelling memberReferenced
      usr := chain.usr ++ "::" ++ cursorSpelling memberReferenced
      previousMemberref := memberReferenced }
  else chain

/-- The name of the variable followed by the members selected from it. The loop starts at the
closest member selection and never reaches the bottom of the stack. -/
def declNames (program : Program) (stack : CursorArr) (referenced : Cursor) : MemberChain :=
  let start : MemberChain := ⟨referenced.label.displayName, referenced.label.usr, some referenced⟩
  let closestMembexprOffset := getCursorOffsetOfKind stack .memberRefExpr
  if closestMembexprOffset ≠ ancestorNotFound then
    (stack.dropLast.drop (closestMembexprOffset - 1)).foldl (appendMember program) start
  else start

def unopKind : Option Cursor → UnaryOperatorKind
  | some c => c.label.unaryOperatorKind
  | none => .invalid

section Classification

variable (stack : CursorArr) (current : Cursor)

def onLhsOf (operator : Option Cursor) : Bool :=
  cursorsAreEqual (some current) (getCursorFirstChild operator) ||
    inCursorStack stack (getCursorFirstChild operator)

variable (closest : ClosestAncestors)

def inCall : Bool :=
  decide (closest.callexprOffset < closest.binopOffset) &&
    decide (closest.callexprOffset < closest.arrsubexpOffset)

def inSubscript : Bool :=
  decide (closest.arrsubexpOffset < closest.binopOffset) &&
    decide (closest.arrsubexpOffset < closest.unopOffset)

def inUnop : Bool :=
  decide (closest.unopOffset < closest.binopOffset) &&
    decide (closest.unopOffset < closest.arrsubexpOffset)

def inAssignment : Bool :=
  decide (closest.binopOffset < closest.unopOffset) &&
    decide (closest.binopOffset < closest.arrsubexpOffset)

def callArgumentType (isPtr : Bool) : VarAccessType :=
  if closest.unopOffset < closest.callexprOffset ∧ closest.unopOffset < closest.arrsubexpOffset then
    if unopKind closest.unop = .addrOf then .escape else .read
  else if isPtr then .escape
  else .read

/-- `none` is the branch that pushes nothing. -/
def subscriptType : Option VarAccessType :=
  if onLhsOf stack current closest.arrsubexp then
    if closest.binopOffset ≠ ancestorNotFound then
      if onLhsOf stack current closest.binop then some .ptrWrite else some .ptrRead
    else none
  else some .read

def derefType : VarAccessType :=
  if closest.binopOffset ≠ ancestorNotFound then
    if onLhsOf stack current closest.binop then
      if cursorsAreEqual (some current) (getCursorFirstChild closest.binop) ||
          inCursorStack stack (getCursorFirstChild closest.nonAssignBinop) then .ptrWrite
      else .read
    else .ptrRead
  else .ptrRead

def unopType : VarAccessType :=
  match unopKind closest.unop with
  | .deref => derefType stack current closest
  | .preInc | .postInc | .preDec | .postDec => .write
  | _ => .read

def assignmentType : VarAccessType :=
  if onLhsOf stack current closest.binop then .write else .read

/-- The type of the entry pushed for a reference that is not taken as a call argument. -/
def operandType : Option VarAccessType :=
  if inSubscript closest then subscriptType stack current closest
  else if inUnop closest then some (unopType stack current closest)
  else if inAssignment closest then some (assignmentType stack current closest)
  else some .read

def declRefType (isPtr : Bool) : Option VarAccessType :=
  if inCall closest then some (callArgumentType closest isPtr)
  else operandType stack current closest

end Classification

def referencedVariable (program : Program) (current : Cursor) : Option Cursor :=
  (clangGetCursorReferenced program current).filter fun referenced =>
    isOfKind .varDecl referenced || isOfKind .parmDecl referenced

def declRefAccess (program : Program) (stack : CursorArr) (funcSpelling : String) (current : Cursor) :
    Option VarAccess :=
  (referencedVariable program current).bind fun referenced =>
    let closest := closestAncestors stack
    let isPtr := isPtrType referenced.label.typeKind
    let chain := declNames program stack referenced
    let push (escSpelling escUsr : Option String) (escParamIdx : Nat) (type : VarAccessType) :=
      initVarAccess (some chain.usr) (some chain.name) escSpelling escUsr funcSpelling escParamIdx
        current.label.line current.label.column type isPtr
    if inCall closest then
      let callexprDecl := closest.callexpr.bind (clangGetCursorReferenced program)
      let paramIdx := (closest.callexpr.map (getParamIdx · stack)).getD noIdx
      some (push (some (cursorSpelling callexprDecl)) (some (cursorUsr callexprDecl)) paramIdx
        (callArgumentType closest isPtr))
    else (operandType stack current closest).map (push none none noIdx)

end Prongc.DeclRef
