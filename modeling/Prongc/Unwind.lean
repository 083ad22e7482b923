import Prongc.ArtificialUsr
import Prongc.LockTracking
import Prongc.WalkAst

namespace Prongc.Unwind

open Access Ast WalkFunc ParseCall LockTracking ArtificialUsr Library.CStrings Library.Traversal

def generateArtificialParamUsr (name oldUsr : String) : String := text (generateBytes (ascii name) (ascii oldUsr))

def startsWith (usr paramUsr : String) : Bool := paramUsr.toList.isPrefixOf usr.toList

def mapArgument (paramUsr arg : String) (va : VarAccess) : VarAccess :=
  match va.usr with
  | some usr =>
      if va.live && startsWith usr paramUsr then
        { va with usr := some (generateArtificialParamUsr arg usr) }
      else va
  | none => va

def mapArguments (params args : List String) (varAccesses : List VarAccess) : List VarAccess :=
  (params.zip args).foldl (fun vas (paramUsr, arg) => vas.map (mapArgument paramUsr arg)) varAccesses

/-- Of an array that nothing was pushed to, aos_string_at gives a pointer that was never written, so an argument
for a function without parameters is undefined. -/
def ParamsReadable (params call : List String) : Prop := params = [] → call.tail = []

instance (params call : List String) : Decidable (ParamsReadable params call) :=
  inferInstanceAs (Decidable (_ → _))

def resolveVarAccessAlias (escFuncInfo : FuncData) (va : VarAccess) : FuncData :=
  let paramUsr := cursorUsr (clangCursorGetArgument escFuncInfo.cursor va.escParamIdx)
  { escFuncInfo with
    varAccesses := escFuncInfo.varAccesses.map fun working =>
      if working.live ∧ working.usr = some paramUsr then { working with usr := va.usr } else working }

/-- A Call entry is resolved into the next callee, which only advances past callees outside
system headers. -/
def resolveNext (st : Nat × List FuncData) (va : VarAccess) : Nat × List FuncData :=
  if va.type = .call then
    match st.2[st.1]? with
    | some escFuncInfo =>
        if escFuncInfo.inSystemHeader then st
        else (st.1 + 1, st.2.set st.1 (resolveVarAccessAlias escFuncInfo va))
    | none => st
  else st

def resolveAliases (varAccesses : List VarAccess) (callees : List FuncData) : List FuncData :=
  (varAccesses.foldl resolveNext (0, callees)).2

def lockArgumentType (va : VarAccess) : VarAccessType :=
  match va.escFuncSpelling with
  | some spelling => if va.escParamIdx = 0 then lockPrimitiveType spelling else .null
  | none => .null

def containsUsr (usrs : List String) (usr : Option String) : Bool :=
  match usr with
  | some u => usrs.contains u
  | none => false

def markVarAccess (func : FuncData) (va : VarAccess) : VarAccess :=
  if lockArgumentType va ≠ .null then { va with type := lockArgumentType va }
  else
    let va :=
      if !va.isPtrType && va.type ≠ .escape && va.live && containsUsr func.locals va.usr then va.nullify
      else va
    if (va.type = .read ∨ va.type = .write) ∧ containsUsr func.params va.usr = true then va.nullify else va

def argumentAccesses (parsedFuncCall : Option (List String)) (func : FuncData) : List VarAccess :=
  match parsedFuncCall with
  | some call => mapArguments func.params call.tail func.varAccesses
  | none => func.varAccesses

mutual

def unwindAs (parsedFuncCall : Option (List String)) (func : FuncData) : FuncInfo → FuncInfo
  | .node _ callees =>
      if func.inSystemHeader || !func.hasDefinition then .node func callees
      else
        let varAccesses := argumentAccesses parsedFuncCall func
        .node { func with varAccesses := varAccesses.map (markVarAccess func) }
          (unwindCallees (resolveAliases varAccesses (callees.map RoseTree.label)) callees)

def unwindCallees : List FuncData → List FuncInfo → List FuncInfo
  | label :: labels, callee :: callees => unwindAs none label callee :: unwindCallees labels callees
  | _, _ => []

end

def unwindFuncInfo (parsedFuncCall : Option (List String)) (func : FuncInfo) : FuncInfo :=
  unwindAs parsedFuncCall func.label func

/-- The entries in order, with the footprint of the next callee in the place of a Call entry. -/
def spliceFootprints : List VarAccess → List (List VarAccess) → List VarAccess
  | [], _ => []
  | va :: vas, footprints =>
      if va.type = .call then
        match footprints with
        | footprint :: footprints => footprint ++ spliceFootprints vas footprints
        | [] => spliceFootprints vas []
      else if va.type = .null then spliceFootprints vas footprints
      else va :: spliceFootprints vas footprints

mutual

def buildVarAccessFootprint : FuncInfo → List VarAccess
  | .node func callees =>
      if func.inSystemHeader || !func.hasDefinition then []
      else spliceFootprints func.varAccesses (calleeFootprints callees)

def calleeFootprints : List FuncInfo → List (List VarAccess)
  | [] => []
  | callee :: callees => buildVarAccessFootprint callee :: calleeFootprints callees

end

def rootFootprint (func : FuncInfo) (funcCall : String) : List VarAccess :=
  buildVarAccessFootprint (unwindFuncInfo (some (parseFuncCall funcCall).2) func)

def footprints (program : Program) (trackLocking : Bool) (funcs : List FuncInfo)
    (funcNames : List String) : List (List VarAccess) :=
  List.zipWith rootFootprint (processFuncs program trackLocking funcs initGlobals).1 funcNames

def argumentsReadable (trees : List FuncInfo) (funcNames : List String) : Bool :=
  (trees.zip funcNames).all fun x => decide (ParamsReadable x.1.label.params (parseFuncCall x.2).2)

theorem mem_footprints {program : Program} {trackLocking : Bool} {funcs : List FuncInfo}
    {funcNames : List String} {fp : List VarAccess} (h : fp ∈ footprints program trackLocking funcs funcNames) :
    ∃ func ∈ (processFuncs program trackLocking funcs initGlobals).1, ∃ funcCall,
      fp = rootFootprint func funcCall := by
  obtain ⟨i, hi, rfl⟩ := List.mem_iff_getElem.mp h
  exact ⟨_, List.getElem_mem _, _, List.getElem_zipWith⟩

end Prongc.Unwind
