import Prongc.WalkFunc

namespace Prongc.Callbacks

open Access Ast DeclRef WalkFunc Library.Traversal

section Frame

variable (s : WalkState) (vas : List VarAccess) (c : Cursor)

@[simp] theorem pushVarAccesses_toGlobals : (s.pushVarAccesses vas).toGlobals = s.toGlobals := rfl

@[simp] theorem pushVarAccesses_callees : (s.pushVarAccesses vas).callees = s.callees := rfl

@[simp] theorem pushVarAccesses_varAccesses :
    (s.pushVarAccesses vas).currentFunc.varAccesses = s.currentFunc.varAccesses ++ vas := rfl

@[simp] theorem pushVarAccesses_cursor :
    (s.pushVarAccesses vas).currentFunc.cursor = s.currentFunc.cursor := rfl

@[simp] theorem pushVarAccesses_spelling :
    (s.pushVarAccesses vas).currentFunc.spelling = s.currentFunc.spelling := rfl

@[simp] theorem pushCursor_ancestryStack : (s.pushCursor c).ancestryStack = c :: s.ancestryStack := rfl

@[simp] theorem pushCursor_currentFunc : (s.pushCursor c).currentFunc = s.currentFunc := rfl

@[simp] theorem pushCursor_callees : (s.pushCursor c).callees = s.callees := rfl

@[simp] theorem pushCursor_touchedFuncUsrs : (s.pushCursor c).touchedFuncUsrs = s.touchedFuncUsrs := rfl

@[simp] theorem pushCursor_lastVisited : (s.pushCursor c).lastVisited = s.lastVisited := rfl

@[simp] theorem marker_type (type : VarAccessType) : (s.marker type).type = type := rfl

theorem marker_congr {s t : WalkState} (h : s.currentFunc.spelling = t.currentFunc.spelling) :
    s.marker = t.marker := by
  funext type
  rw [WalkState.marker, h, ← WalkState.marker]

@[simp] theorem recordDeclaration_toGlobals : (recordDeclaration c s).toGlobals = s.toGlobals := by
  rw [recordDeclaration]
  split
  · split <;> rfl
  · rfl

@[simp] theorem recordDeclaration_callees : (recordDeclaration c s).callees = s.callees := by
  rw [recordDeclaration]
  split
  · split <;> rfl
  · rfl

theorem recordDeclaration_currentFunc : ∃ params locals,
    (recordDeclaration c s).currentFunc = { s.currentFunc with params := params, locals := locals } := by
  rw [recordDeclaration]
  split
  · split <;> exact ⟨_, _, rfl⟩
  · exact ⟨_, _, rfl⟩

@[simp] theorem recordDeclaration_varAccesses :
    (recordDeclaration c s).currentFunc.varAccesses = s.currentFunc.varAccesses := by
  obtain ⟨params, locals, h⟩ := recordDeclaration_currentFunc s c
  rw [h]

@[simp] theorem recordDeclaration_spelling :
    (recordDeclaration c s).currentFunc.spelling = s.currentFunc.spelling := by
  obtain ⟨params, locals, h⟩ := recordDeclaration_currentFunc s c
  rw [h]

@[simp] theorem recordDeclaration_usr : (recordDeclaration c s).currentFunc.usr = s.currentFunc.usr := by
  obtain ⟨params, locals, h⟩ := recordDeclaration_currentFunc s c
  rw [h]

@[simp] theorem recordDeclaration_cursor :
    (recordDeclaration c s).currentFunc.cursor = s.currentFunc.cursor := by
  obtain ⟨params, locals, h⟩ := recordDeclaration_currentFunc s c
  rw [h]

theorem recordDeclaration_isLeaf (callees : List FuncInfo) :
    isLeafCallee (.node (recordDeclaration c s).currentFunc callees) =
      isLeafCallee (.node s.currentFunc callees) := by
  obtain ⟨params, locals, h⟩ := recordDeclaration_currentFunc s c
  rw [h]
  rfl

end Frame

section Visitor

variable (program : Program) (trackLocking : Bool) (current parent : Cursor) (s : WalkState)

/-- The conditionals that a callback leaves, each with one EndIf. -/
def closedBranches : List VarAccess :=
  if descends program parent s.lastVisited then []
  else if trackLocking then
    ((s.ancestryStack.takeWhile fun tail => !cursorsAreEqual (some tail) (some parent)).filter
      (isOfKind .ifStmt)).map fun _ => s.marker .endIf
  else []

def stackAt : CursorArr :=
  if descends program parent s.lastVisited then parent :: s.ancestryStack
  else s.ancestryStack.dropWhile fun tail => !cursorsAreEqual (some tail) (some parent)

theorem updateAncestryStack_eq : updateAncestryStack program trackLocking parent s =
    { s.pushVarAccesses (closedBranches program trackLocking parent s) with
      ancestryStack := stackAt program parent s } := by
  rw [updateAncestryStack, closedBranches, stackAt]
  split
  · simp [WalkState.pushVarAccesses, WalkState.pushCursor]
  · rfl

def markersAt : List VarAccess :=
  closedBranches program trackLocking parent s ++
    (branchMarkers trackLocking current parent ++ ifStmtMarkers trackLocking current).map s.marker

@[simp] theorem enterCursor_ancestryStack :
    (enterCursor program trackLocking current parent s).ancestryStack = stackAt program parent s := by
  simp [enterCursor, recordBranches, setLastVisited, updateAncestryStack_eq]

@[simp] theorem enterCursor_lastVisited :
    (enterCursor program trackLocking current parent s).lastVisited = some current := by
  simp [enterCursor, recordBranches, setLastVisited]

@[simp] theorem enterCursor_touchedFuncUsrs :
    (enterCursor program trackLocking current parent s).touchedFuncUsrs = s.touchedFuncUsrs := by
  simp [enterCursor, recordBranches, setLastVisited, updateAncestryStack_eq]

@[simp] theorem enterCursor_callees :
    (enterCursor program trackLocking current parent s).callees = s.callees := by
  simp [enterCursor, recordBranches, setLastVisited, updateAncestryStack_eq]

@[simp] theorem enterCursor_spelling :
    (enterCursor program trackLocking current parent s).currentFunc.spelling = s.currentFunc.spelling := by
  simp [enterCursor, recordBranches, setLastVisited, updateAncestryStack_eq]

@[simp] theorem enterCursor_usr :
    (enterCursor program trackLocking current parent s).currentFunc.usr = s.currentFunc.usr := by
  simp [enterCursor, recordBranches, setLastVisited, updateAncestryStack_eq, WalkState.pushVarAccesses]

@[simp] theorem enterCursor_cursor :
    (enterCursor program trackLocking current parent s).currentFunc.cursor = s.currentFunc.cursor := by
  simp [enterCursor, recordBranches, setLastVisited, updateAncestryStack_eq, WalkState.pushVarAccesses]

theorem enterCursor_isLeaf (callees : List FuncInfo) :
    isLeafCallee (.node (enterCursor program trackLocking current parent s).currentFunc callees) =
      isLeafCallee (.node s.currentFunc callees) := by
  apply (recordDeclaration_isLeaf _ current callees).trans
  rw [updateAncestryStack_eq]
  rfl

@[simp] theorem enterCursor_varAccesses :
    (enterCursor program trackLocking current parent s).currentFunc.varAccesses =
      s.currentFunc.varAccesses ++ markersAt program trackLocking current parent s := by
  have hmarker : (recordDeclaration current (setLastVisited current
      (updateAncestryStack program trackLocking parent s))).marker = s.marker :=
    marker_congr (by simp [setLastVisited, updateAncestryStack_eq])
  rw [enterCursor, recordBranches]
  rw [pushVarAccesses_varAccesses, hmarker]
  simp [setLastVisited, updateAncestryStack_eq, markersAt]

theorem mem_markersAt {va : VarAccess} (h : va ∈ markersAt program trackLocking current parent s) :
    ∃ type, va = s.marker type := by
  rw [markersAt, closedBranches] at h
  rcases List.mem_append.mp h with h | h
  · split at h
    · cases h
    · split at h
      · obtain ⟨c, -, rfl⟩ := List.mem_map.mp h
        exact ⟨_, rfl⟩
      · cases h
  · obtain ⟨type, -, rfl⟩ := List.mem_map.mp h
    exact ⟨type, rfl⟩

theorem markersAt_isMarker {va : VarAccess} (h : va ∈ markersAt program trackLocking current parent s) :
    va.type = .ifStmt ∨ va.type = .thenBlock ∨ va.type = .elseStmt ∨ va.type = .endIf := by
  rw [markersAt, closedBranches, branchMarkers, ifStmtMarkers] at h
  grind [marker_type]

def nestedWalk : Option (FuncInfo × Globals) :=
  if kindOf current = .callExpr then
    let s := enterCursor program trackLocking current parent s
    (newCallee program current s).bind fun working =>
      if isLeafCallee (calleeInfo program working) then none
      else some (calleeInfo program working, (touchCallee working s).toGlobals)
  else none

end Visitor

structure Callback where
  visit : Visit CursorInfo
  before : WalkState

section Run

variable (program : Program) (trackLocking : Bool)

/-- The callbacks of one walk, without those of the walks nested in it. -/
def ownCallbacks (process : FuncInfo → Globals → FuncInfo × Globals) (func : FuncInfo)
    (globals : Globals) : List (Visit CursorInfo × WalkState) :=
  stepsFrom (visitStep (visitorWalkFunc program trackLocking process)) (enterFunc func globals)
    (descendants func.label.cursor)

theorem walkFunc_eq (process : FuncInfo → Globals → FuncInfo × Globals) (func : FuncInfo)
    (globals : Globals) : walkFunc program trackLocking process func globals =
      let s := (descendants func.label.cursor).foldl
        (visitStep (visitorWalkFunc program trackLocking process)) (enterFunc func globals)
      (s.func, s.toGlobals) := by
  rw [walkFunc]
  rw [visitChildren_recurse]

def callbacksUpTo : Nat → FuncInfo → Globals → List Callback
  | 0, _, _ => []
  | depth + 1, func, globals =>
      (ownCallbacks program trackLocking (processFuncInfoUpTo program trackLocking depth) func globals).flatMap
        fun (visit, s) => ⟨visit, s⟩ ::
          match nestedWalk program trackLocking visit.node visit.parent s with
          | none => []
          | some (callee, globals) => callbacksUpTo depth callee globals

def callbacksOf : FuncInfo → Globals → List Callback :=
  callbacksUpTo program trackLocking (program.decls.length + 1)

/-- All callbacks that the loop of main over the requested functions makes. -/
def runCallbacks : List FuncInfo → Globals → List Callback
  | [], _ => []
  | func :: funcs, globals =>
      callbacksOf program trackLocking func globals ++
        runCallbacks funcs (processFuncInfo program trackLocking func globals).2

def pushedEntries (cb : Callback) : List VarAccess :=
  (visitorWalkFunc program trackLocking (processFuncInfo program trackLocking) cb.visit.node
    cb.visit.parent cb.before).currentFunc.varAccesses.drop cb.before.currentFunc.varAccesses.length

def isReference (cb : Callback) : Bool :=
  isOfKind .declRefExpr cb.visit.node && (referencedVariable program cb.visit.node).isSome

/-- The access entries among those a callback adds, which leaves out the branch markers. -/
def pushedAccesses (cb : Callback) : List VarAccess :=
  (pushedEntries program trackLocking cb).filter fun va => va.type.isAccess

theorem pushedAccesses_reference {cb : Callback} (h : isReference program cb = true) :
    pushedAccesses program trackLocking cb =
      (declRefAccess program (stackAt program cb.visit.parent cb.before) cb.before.currentFunc.spelling
        cb.visit.node).toList.filter (fun va => va.type.isAccess) := by
  have hkind : kindOf cb.visit.node = .declRefExpr := by
    simpa [isOfKind] using (Bool.and_eq_true_iff.mp h).1
  have hmarkers : (markersAt program trackLocking cb.visit.node cb.visit.parent cb.before).filter
      (fun va => va.type.isAccess) = [] := by
    rw [List.filter_eq_nil_iff]
    intro va hva
    rcases markersAt_isMarker program trackLocking _ _ _ hva with ht | ht | ht | ht <;>
      simp [ht, VarAccessType.isAccess]
  rw [pushedAccesses, pushedEntries, visitorWalkFunc]
  simp only [hkind, visitDeclRefExpr, pushVarAccesses_varAccesses, enterCursor_varAccesses,
    enterCursor_ancestryStack, enterCursor_spelling, List.append_assoc, List.drop_left,
    List.filter_append, hmarkers, List.nil_append]

end Run

end Prongc.Callbacks
