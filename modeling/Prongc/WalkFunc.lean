import Prongc.DeclRef

namespace Prongc.WalkFunc

open Access Ast DeclRef Library.Traversal

/-- What is recorded about a function. An array the source has not allocated yet is empty. -/
structure FuncData where
  cursor : Cursor
  usr : String
  name : String
  spelling : String
  params : List String
  locals : List String
  varAccesses : List VarAccess
  inSystemHeader : Bool
  hasDefinition : Bool

/-- A function with its callees in the order in which they were first called. -/
abbrev FuncInfo := RoseTree FuncData

def initFuncInfo (cursor : Cursor) (usr name spelling : String) (inSystemHeader hasDefinition : Bool) :
    FuncInfo :=
  .node ⟨cursor, usr, name, spelling, [], [], [], inSystemHeader, hasDefinition⟩ []

/-- The state that outlives the walk of one function. -/
structure Globals where
  ancestryStack : CursorArr
  lastVisited : Option Cursor
  touchedFuncUsrs : List String

structure WalkState extends Globals where
  currentFunc : FuncData
  callees : List FuncInfo

def initGlobals : Globals := ⟨[], none, []⟩

def enterFunc (func : FuncInfo) (globals : Globals) : WalkState :=
  { globals with currentFunc := func.label, callees := func.children }

namespace WalkState

variable (s : WalkState)

def func : FuncInfo := .node s.currentFunc s.callees

def pushVarAccesses (vas : List VarAccess) : WalkState :=
  { s with currentFunc.varAccesses := s.currentFunc.varAccesses ++ vas }

def marker (type : VarAccessType) : VarAccess :=
  initVarAccess none none none none s.currentFunc.spelling noIdx 0 0 type false

def pushCursor (c : Cursor) : WalkState := { s with ancestryStack := c :: s.ancestryStack }

end WalkState

section Visitor

variable (program : Program) (trackLocking : Bool)

def descends (parent : Cursor) (lastVisited : Option Cursor) : Bool :=
  match lastVisited with
  | none => program.zeroCursorIsNull
  | some last => cursorsAreEqual (some parent) (some last)

def updateAncestryStack (parent : Cursor) (s : WalkState) : WalkState :=
  if descends program parent s.lastVisited then s.pushCursor parent
  else
    let isParent := fun tail => cursorsAreEqual (some tail) (some parent)
    let popped := s.ancestryStack.takeWhile (fun tail => !isParent tail)
    let endIfs :=
      if trackLocking then (popped.filter (isOfKind .ifStmt)).map (fun _ => s.marker .endIf) else []
    { s.pushVarAccesses endIfs with
      ancestryStack := s.ancestryStack.dropWhile (fun tail => !isParent tail) }

def setLastVisited (current : Cursor) (s : WalkState) : WalkState := { s with lastVisited := some current }

def recordDeclaration (current : Cursor) (s : WalkState) : WalkState :=
  if current.label.linkage = .noLinkage then
    match kindOf current with
    | .varDecl => { s with currentFunc.locals := s.currentFunc.locals ++ [current.label.usr] }
    | .parmDecl => { s with currentFunc.params := s.currentFunc.params ++ [current.label.usr] }
    | _ => s
  else s

def branchMarkers (current parent : Cursor) : List VarAccessType :=
  if trackLocking && isOfKind .ifStmt parent then
    let ifstmtInfo := getIfstmtInfo parent
    if cursorsAreEqual (some current) ifstmtInfo.thenBlock then [.thenBlock]
    else if ifstmtInfo.elseBlock.isSome && cursorsAreEqual (some current) ifstmtInfo.elseBlock then
      [.elseStmt]
    else []
  else []

def ifStmtMarkers (current : Cursor) : List VarAccessType :=
  if trackLocking && isOfKind .ifStmt current then [.ifStmt] else []

def recordBranches (current parent : Cursor) (s : WalkState) : WalkState :=
  s.pushVarAccesses
    ((branchMarkers trackLocking current parent ++ ifStmtMarkers trackLocking current).map s.marker)

def enterCursor (current parent : Cursor) (s : WalkState) : WalkState :=
  recordBranches trackLocking current parent
    (recordDeclaration current (setLastVisited current (updateAncestryStack program trackLocking parent s)))

def visitDeclRefExpr (current : Cursor) (s : WalkState) : WalkState :=
  s.pushVarAccesses (declRefAccess program s.ancestryStack s.currentFunc.spelling current).toList

def workingCursor (callExpr : Cursor) : Option Cursor :=
  (clangGetCursorReferenced program callExpr).map fun calleeDecl =>
    if calleeDecl.label.isDefinition then calleeDecl
    else (findCallexprDefinition program calleeDecl).getD calleeDecl

def calleeInfo (working : Cursor) : FuncInfo :=
  initFuncInfo working working.label.usr working.label.displayName working.label.spelling
    (prongIsSystemHeader working program.fileNames) working.label.isDefinition

def callEntry (working : Cursor) (s : WalkState) : VarAccess :=
  initVarAccess none none (some working.label.spelling) (some working.label.usr)
    s.currentFunc.spelling noIdx 0 0 .call false

def touchCallee (working : Cursor) (s : WalkState) : WalkState :=
  { s.pushVarAccesses [callEntry working s] with
    touchedFuncUsrs := s.touchedFuncUsrs ++ [working.label.usr] }

def isLeafCallee (callee : FuncInfo) : Bool := callee.label.inSystemHeader || !callee.label.hasDefinition

def newCallee (current : Cursor) (s : WalkState) : Option Cursor :=
  (workingCursor program current).filter fun working => !s.touchedFuncUsrs.contains working.label.usr

variable (process : FuncInfo → Globals → FuncInfo × Globals)

def processCallee (working : Cursor) (s : WalkState) : WalkState :=
  let callee := calleeInfo program working
  let s := touchCallee working s
  if isLeafCallee callee then { s with callees := s.callees ++ [callee] }
  else
    let (callee, globals) := process callee s.toGlobals
    { globals with currentFunc := s.currentFunc, callees := s.callees ++ [callee] }

def visitCallExpr (current : Cursor) (s : WalkState) : WalkState :=
  match newCallee program current s with
  | none => s.pushCursor current
  | some working => (processCallee program process working s).pushCursor current

def visitorWalkFunc (current parent : Cursor) (s : WalkState) : WalkState :=
  let s := enterCursor program trackLocking current parent s
  match kindOf current with
  | .declRefExpr => visitDeclRefExpr program current s
  | .callExpr => visitCallExpr program process current s
  | _ => s

def walkFunc (func : FuncInfo) (globals : Globals) : FuncInfo × Globals :=
  let s := visitChildren
    (fun current parent s => (visitorWalkFunc program trackLocking process current parent s, .childVisitRecurse))
    func.label.cursor (enterFunc func globals)
  (s.func, s.toGlobals)

def processFuncInfoUpTo : Nat → FuncInfo → Globals → FuncInfo × Globals
  | 0, func, globals => (func, globals)
  | depth + 1, func, globals => walkFunc program trackLocking (processFuncInfoUpTo depth) func globals

/-- Every nested walk touches the USR of another declaration, so this depth is never reached. -/
def processFuncInfo : FuncInfo → Globals → FuncInfo × Globals :=
  processFuncInfoUpTo program trackLocking (program.decls.length + 1)

def processFuncs : List FuncInfo → Globals → List FuncInfo × Globals
  | [], globals => ([], globals)
  | func :: funcs, globals =>
      let (func, globals) := processFuncInfo program trackLocking func globals
      let (funcs, globals) := processFuncs funcs globals
      (func :: funcs, globals)

end Visitor

end Prongc.WalkFunc
