import Mathlib.Algebra.Group.Nat.Defs
import Prongc.Access
import Prongc.Library.Traversal

namespace Prongc.Ast

open Access Library.Traversal

inductive CursorKind
  | translationUnit | functionDecl | varDecl | parmDecl | compoundStmt | ifStmt
  | declRefExpr | memberRefExpr | callExpr | arraySubscriptExpr
  | unaryOperator | binaryOperator | compoundAssignOperator
  | unexposedExpr | parenExpr
  | other (code : Nat)
  deriving DecidableEq, Repr

/-- Binary operator codes in the order of libclang, so that ranges of them can be tested. -/
inductive BinaryOperatorKind
  | invalid | ptrMemD | ptrMemI | mul | div | rem | add | sub | shl | shr | cmp
  | lt | gt | le | ge | eq | ne | and | xor | or | lAnd | lOr
  | assign | mulAssign | divAssign | remAssign | addAssign | subAssign
  | shlAssign | shrAssign | andAssign | xorAssign | orAssign | comma
  deriving DecidableEq, Repr

inductive UnaryOperatorKind
  | invalid | postInc | postDec | preInc | preDec | addrOf | deref
  | plus | minus | not | lNot | real | imag | extension | coawait
  deriving DecidableEq, Repr

inductive LinkageKind
  | invalid | noLinkage | internal | uniqueExternal | external
  deriving DecidableEq, Repr

inductive TypeKind
  | pointer | constantArray | incompleteArray | variableArray
  | other (code : Nat)
  deriving DecidableEq, Repr

/-- What libclang answers about a cursor. The identity is what clang_equalCursors compares, and
`referenced` is the identity of the declaration the cursor refers to. The kind of the canonical
type is what lies behind the typedefs; no function of prongc asks for it. -/
structure CursorInfo where
  id : Nat
  kind : CursorKind
  location : Nat := id
  extentEnd : Nat := id
  line : Nat := 0
  column : Nat := 0
  usr : String := ""
  displayName : String := ""
  spelling : String := ""
  linkage : LinkageKind := .invalid
  binaryOperatorKind : BinaryOperatorKind := .invalid
  unaryOperatorKind : UnaryOperatorKind := .invalid
  typeKind : TypeKind := .other 0
  canonicalTypeKind : TypeKind := typeKind
  referenced : Option Nat := none
  isDefinition : Bool := false
  inSystemHeader : Bool := false
  fileName : String := ""

/-- A cursor with the cursors that a traversal finds below it. The null cursor is `none` of
`Option Cursor`. -/
abbrev Cursor := RoseTree CursorInfo

def kindOf (c : Cursor) : CursorKind := c.label.kind

def clangEqualCursors (a b : Cursor) : Bool := a.label.id == b.label.id

def cursorsAreEqual : Option Cursor → Option Cursor → Bool
  | none, none => true
  | some a, some b =>
      clangEqualCursors a b ||
        (a.label.location == b.label.location && a.label.extentEnd == b.label.extentEnd)
  | _, _ => false

/-- The ancestry stack, its tail first. -/
abbrev CursorArr := List Cursor

def inCursorStack (stack : CursorArr) (cursor : Option Cursor) : Bool :=
  stack.any fun c => cursorsAreEqual (some c) cursor

def getCursorFirstChild (cursor : Option Cursor) : Option Cursor :=
  cursor.bind fun c => c.children.head?

def operatorIsAssignment (c : Cursor) : Bool :=
  if kindOf c ≠ .binaryOperator then false
  else
    decide (BinaryOperatorKind.assign.ctorIdx ≤ c.label.binaryOperatorKind.ctorIdx) &&
      decide (c.label.binaryOperatorKind.ctorIdx ≤ BinaryOperatorKind.orAssign.ctorIdx)

def isOfKind (targetKind : CursorKind) (c : Cursor) : Bool := kindOf c == targetKind

def isBinopAssignment (c : Cursor) : Bool := isOfKind .binaryOperator c && operatorIsAssignment c

def getCursorOfKind (stack : CursorArr) (targetKind : CursorKind) : Option Cursor :=
  stack.find? (isOfKind targetKind)

def getBinopAssignment (stack : CursorArr) : Option Cursor := stack.find? isBinopAssignment

def offsetOf (test : Cursor → Bool) (stack : CursorArr) : Nat :=
  match stack.findIdx? test with
  | some i => i + 1
  | none => ancestorNotFound

def getCursorOffsetOfKind (stack : CursorArr) (targetKind : CursorKind) : Nat :=
  offsetOf (isOfKind targetKind) stack

def getBinopAssignmentOffset (stack : CursorArr) : Nat := offsetOf isBinopAssignment stack

structure IfStmtInfo where
  conditionBlock : Option Cursor
  thenBlock : Option Cursor
  elseBlock : Option Cursor

/-- The first child is the condition, the second the then block, and the last of the others the
else block. -/
def getIfstmtInfo (ifstmt : Cursor) : IfStmtInfo where
  conditionBlock := ifstmt.children.head?
  thenBlock := ifstmt.children[1]?
  elseBlock := (ifstmt.children.drop 2).getLast?

/-- The arguments of a call follow the callee expression; those of a function declaration are
its parameters. -/
def arguments (c : Cursor) : List Cursor :=
  match kindOf c with
  | .callExpr => c.children.tail
  | .functionDecl => c.children.filter (isOfKind .parmDecl)
  | _ => []

/-- The number of arguments is an `int`, so no index from 2^31 on is valid. -/
def clangCursorGetArgument (c : Cursor) (i : Nat) : Option Cursor :=
  if i < 2 ^ 31 then (arguments c)[i]? else none

def getParamIdx (callExpr : Cursor) (stack : CursorArr) : Nat :=
  match (arguments callExpr).findIdx? (fun arg => inCursorStack stack (some arg)) with
  | some i => i
  | none => noIdx

def cursorUsr : Option Cursor → String
  | some c => c.label.usr
  | none => ""

def cursorSpelling : Option Cursor → String
  | some c => c.label.spelling
  | none => ""

def strstr (haystack needle : List Char) : Option (List Char) :=
  haystack.tails.find? (needle.isPrefixOf ·)

def kernelPathParts : List String :=
  ["/linux/", "include/linux", "arch/", "kernel/", "mm/", "fs/"]

def prongIsSystemHeader (c : Cursor) (fileNames : List String) : Bool :=
  if c.label.inSystemHeader then true
  else if fileNames.contains c.label.fileName then false
  else kernelPathParts.any fun part => (strstr c.label.fileName.toList part.toList).isSome

/-- The parsed translation units, in the order of the file names, with the declarations that
cursors refer to. `zeroCursorIsNull` says whether libclang takes the zero-filled cursor that
`last_visited` starts as for the null cursor. -/
structure Program where
  tuArray : List Cursor
  fileNames : List String
  decls : List Cursor
  zeroCursorIsNull : Bool

def clangGetCursorReferenced (program : Program) (c : Cursor) : Option Cursor :=
  c.label.referenced.bind fun i => program.decls.find? fun d => d.label.id == i

def isCallDefinition (callexprUsr : String) (c : Cursor) : Bool :=
  isOfKind .functionDecl c && c.label.isDefinition && callexprUsr == c.label.usr

/-- Each translation unit is searched up to its first match, and a later match replaces an
earlier one. -/
def findCallexprDefinition (program : Program) (calleeDecl : Cursor) : Option Cursor :=
  program.tuArray.foldl (fun found tu =>
    match tu.children.find? (isCallDefinition calleeDecl.label.usr) with
    | some d => some d
    | none => found) none

def definitionOf (id : Nat) (name : String) (params body : List Cursor) : Cursor :=
  .node { id, kind := .functionDecl, usr := "c:@F@" ++ name, displayName := name, spelling := name,
          isDefinition := true }
    (params ++ [.node { id := id + 1, kind := .compoundStmt } body])

end Prongc.Ast
