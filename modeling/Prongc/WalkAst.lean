import Prongc.ParseCall
import Prongc.WalkFunc

namespace Prongc.WalkAst

open Ast WalkFunc ParseCall Library.Traversal

structure AstState where
  funcs : List FuncInfo
  globalUsrs : List String

def numArguments (c : Cursor) : Nat := (arguments c).length

/-- The call string names the function and has as many arguments as it has parameters. The
result of the parser is not looked at, only the strings it pushed. -/
def acceptsCall (funcDecl : Cursor) (funcName : String) : Bool :=
  match (parseFuncCall funcName).2 with
  -- count - 1 wraps to SIZE_MAX, and the arity test turns the function down whatever the block of data holds
  | [] => false
  | name :: args => name == funcDecl.label.spelling && numArguments funcDecl == args.length

def requestedFunc (funcDecl : Cursor) : FuncInfo :=
  initFuncInfo funcDecl funcDecl.label.usr funcDecl.label.displayName funcDecl.label.spelling false true

def isDefinitionBody (current parent : Cursor) : Bool :=
  isOfKind .compoundStmt current && isOfKind .functionDecl parent

def collectGlobal (current : Cursor) (s : AstState) : AstState :=
  if current.label.linkage = .external ∨ current.label.linkage = .internal then
    { s with globalUsrs := s.globalUsrs ++ [current.label.usr] }
  else s

/-- Every call string that accepts the function pushes it once. -/
def collectFunc (funcNames : List String) (funcDecl : Cursor) (s : AstState) : AstState :=
  { s with
    funcs := s.funcs ++ (funcNames.filter (acceptsCall funcDecl)).map (fun _ => requestedFunc funcDecl) }

def visitorWalkAst (funcNames : List String) (current parent : Cursor) (s : AstState) :
    AstState × ChildVisitResult :=
  if current.label.inSystemHeader then (s, .childVisitContinue)
  else if isDefinitionBody current parent then (collectFunc funcNames parent s, .childVisitContinue)
  else if isOfKind .varDecl current then (collectGlobal current s, .childVisitContinue)
  else (s, .childVisitRecurse)

def processTuArray (program : Program) (funcNames : List String) : AstState :=
  program.tuArray.foldl (fun s tu => visitChildren (visitorWalkAst funcNames) tu s) ⟨[], []⟩

/-- The functions main goes on with, unless it stops at the count of them. -/
def requestedFuncs (program : Program) (funcNames : List String) : Option (List FuncInfo) :=
  let funcs := (processTuArray program funcNames).funcs
  if funcs.length = funcNames.length then some funcs else none

end Prongc.WalkAst
