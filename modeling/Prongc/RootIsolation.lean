import Prongc.Library.VisitOrder
import Prongc.Recursion
import Prongc.Unwind

namespace Prongc.RootIsolation

open Access Ast DeclRef WalkFunc Callbacks Recursion Unwind Library.Traversal Library.VisitOrder

section Calls

variable (program : Program)

inductive CallsUsr : Cursor → String → Prop
  | direct {func : Cursor} {visit : Visit CursorInfo} {working : Cursor} :
      visit ∈ descendants func → kindOf visit.node = .callExpr →
        workingCursor program visit.node = some working → CallsUsr func working.label.usr
  | through {func : Cursor} {visit : Visit CursorInfo} {working : Cursor} {usr : String} :
      visit ∈ descendants func → kindOf visit.node = .callExpr →
        workingCursor program visit.node = some working →
          isLeafCallee (calleeInfo program working) = false → CallsUsr working usr → CallsUsr func usr

variable {program}

theorem newCallee_eq_some {current : Cursor} {s : WalkState} {working : Cursor}
    (h : newCallee program current s = some working) :
    workingCursor program current = some working ∧ working.label.usr ∉ s.touchedFuncUsrs := by
  obtain ⟨hworking, hnew⟩ := Option.filter_eq_some_iff.mp h
  exact ⟨hworking, by simpa using hnew⟩

end Calls

section Touched

variable {program : Program} {trackLocking : Bool}

def TouchesCalled (program : Program) (process : FuncInfo → Globals → FuncInfo × Globals) : Prop :=
  ∀ func globals, ∀ usr ∈ (process func globals).2.touchedFuncUsrs,
    usr ∈ globals.touchedFuncUsrs ∨ CallsUsr program func.label.cursor usr

theorem visitorWalkFunc_touched {process : FuncInfo → Globals → FuncInfo × Globals}
    (hprocess : TouchesCalled program process) {func : Cursor} {visit : Visit CursorInfo}
    (hvisit : visit ∈ descendants func) {s : WalkState} :
    ∀ usr ∈ (visitorWalkFunc program trackLocking process visit.node visit.parent s).touchedFuncUsrs,
      usr ∈ s.touchedFuncUsrs ∨ CallsUsr program func usr := by
  intro usr husr
  unfold visitorWalkFunc at husr
  dsimp only at husr
  split at husr
  · rw [visitDeclRefExpr] at husr
    exact .inl (by simpa using husr)
  · next hkind =>
      rw [visitCallExpr] at husr
      split at husr
      · exact .inl (by simpa using husr)
      · next working hnew =>
          obtain ⟨hworking, -⟩ := newCallee_eq_some hnew
          have hdirect : CallsUsr program func working.label.usr := .direct hvisit hkind hworking
          have htouch : ∀ u ∈ (touchCallee working (enterCursor program trackLocking visit.node
              visit.parent s)).touchedFuncUsrs, u ∈ s.touchedFuncUsrs ∨ CallsUsr program func u := by
            intro u hu
            rcases List.mem_append.mp hu with hu | hu
            · exact .inl (by simpa using hu)
            · exact .inr (List.mem_singleton.mp hu ▸ hdirect)
          rw [processCallee] at husr
          dsimp only at husr
          split at husr
          · exact htouch usr husr
          · next hleaf =>
              rcases hprocess _ _ usr husr with hold | hcalled
              · exact htouch usr hold
              · exact .inr (.through hvisit hkind hworking (by simpa using hleaf) hcalled)
  · exact .inl (by simpa using husr)

theorem processFuncInfoUpTo_touched (depth : Nat) :
    TouchesCalled program (processFuncInfoUpTo program trackLocking depth) := by
  induction depth with
  | zero => exact fun _ _ usr husr => .inl husr
  | succ depth ih =>
      intro func globals
      rw [processFuncInfoUpTo, walkFunc_eq]
      refine List.foldlRecOn (motive := fun s : WalkState => ∀ usr ∈ s.touchedFuncUsrs,
        usr ∈ globals.touchedFuncUsrs ∨ CallsUsr program func.label.cursor usr) _ _
        (fun usr husr => .inl husr) ?_
      intro s hs visit hvisit usr husr
      rcases visitorWalkFunc_touched ih hvisit usr husr with hold | hcalled
      · exact hs usr hold
      · exact .inr hcalled

theorem processFuncs_touched (funcs : List FuncInfo) (globals : Globals) :
    ∀ usr ∈ (processFuncs program trackLocking funcs globals).2.touchedFuncUsrs,
      usr ∈ globals.touchedFuncUsrs ∨ ∃ func ∈ funcs, CallsUsr program func.label.cursor usr := by
  induction funcs generalizing globals with
  | nil => exact fun usr husr => .inl husr
  | cons func funcs ih =>
      intro usr husr
      rcases ih _ usr husr with hold | ⟨other, hother, hcalled⟩
      · rcases @processFuncInfoUpTo_touched program trackLocking (program.decls.length + 1) func globals
            usr hold with hold | hcalled
        · exact .inl hold
        · exact .inr ⟨func, List.mem_cons_self, hcalled⟩
      · exact .inr ⟨other, List.mem_cons_of_mem _ hother, hcalled⟩

end Touched

section Older

def olderGlobals (old : List String) (globals : Globals) : Globals :=
  { globals with touchedFuncUsrs := old ++ globals.touchedFuncUsrs }

def olderState (old : List String) (s : WalkState) : WalkState :=
  { s with touchedFuncUsrs := old ++ s.touchedFuncUsrs }

variable (program : Program) (trackLocking : Bool) (old : List String)

theorem enterCursor_older (current parent : Cursor) (s : WalkState) :
    enterCursor program trackLocking current parent (olderState old s) =
      olderState old (enterCursor program trackLocking current parent s) := by
  have hupdate : updateAncestryStack program trackLocking parent (olderState old s) =
      olderState old (updateAncestryStack program trackLocking parent s) := by
    rw [updateAncestryStack_eq, updateAncestryStack_eq]
    rfl
  have hdeclaration : ∀ s, recordDeclaration current (olderState old s) =
      olderState old (recordDeclaration current s) := by
    intro s
    unfold recordDeclaration
    split
    · split <;> rfl
    · rfl
  rw [enterCursor]
  rw [hupdate, show setLastVisited current (olderState old _) = olderState old (setLastVisited current _) from rfl,
    hdeclaration]
  rfl

theorem newCallee_older {func : Cursor} {visit : Visit CursorInfo} (s : WalkState)
    (hvisit : visit ∈ descendants func) (hkind : kindOf visit.node = .callExpr)
    (hold : ∀ usr ∈ old, ¬ CallsUsr program func usr) :
    newCallee program visit.node (olderState old s) = newCallee program visit.node s := by
  unfold newCallee
  cases hworking : workingCursor program visit.node with
  | none => rfl
  | some working =>
      have hnew : working.label.usr ∉ old := fun h => hold _ h (.direct hvisit hkind hworking)
      simp [Option.filter, olderState, hnew]

def IgnoresOlder (process : FuncInfo → Globals → FuncInfo × Globals) : Prop :=
  ∀ func globals, (∀ usr ∈ old, ¬ CallsUsr program func.label.cursor usr) →
    process func (olderGlobals old globals) =
      ((process func globals).1, olderGlobals old (process func globals).2)

theorem visitorWalkFunc_older {process : FuncInfo → Globals → FuncInfo × Globals}
    (hprocess : IgnoresOlder program old process) {func : Cursor} {visit : Visit CursorInfo}
    (hvisit : visit ∈ descendants func) (hold : ∀ usr ∈ old, ¬ CallsUsr program func usr)
    (s : WalkState) :
    visitorWalkFunc program trackLocking process visit.node visit.parent (olderState old s) =
      olderState old (visitorWalkFunc program trackLocking process visit.node visit.parent s) := by
  unfold visitorWalkFunc
  rw [enterCursor_older]
  generalize enterCursor program trackLocking visit.node visit.parent s = s
  dsimp only
  split
  · rfl
  · next hkind =>
      unfold visitCallExpr
      rw [newCallee_older program old s hvisit hkind hold]
      split
      · rfl
      · next working hnew =>
          obtain ⟨hworking, -⟩ := newCallee_eq_some hnew
          have htouch : touchCallee working (olderState old s) = olderState old (touchCallee working s) := by
            simp [touchCallee, olderState, WalkState.pushVarAccesses, callEntry]
          unfold processCallee
          dsimp only
          rw [htouch]
          split
          · rfl
          · next hleaf =>
              have hcallee : ∀ usr ∈ old, ¬ CallsUsr program (calleeInfo program working).label.cursor usr :=
                fun usr husr hcalled =>
                  hold usr husr (.through hvisit hkind hworking (by simpa using hleaf) hcalled)
              rw [show (olderState old (touchCallee working s)).toGlobals =
                olderGlobals old (touchCallee working s).toGlobals from rfl, hprocess _ _ hcallee]
              rfl
  · rfl

theorem foldl_older {process : FuncInfo → Globals → FuncInfo × Globals}
    (hprocess : IgnoresOlder program old process) {func : Cursor} {visits : List (Visit CursorInfo)}
    (hvisits : ∀ visit ∈ visits, visit ∈ descendants func)
    (hold : ∀ usr ∈ old, ¬ CallsUsr program func usr) (s : WalkState) :
    visits.foldl (visitStep (visitorWalkFunc program trackLocking process)) (olderState old s) =
      olderState old (visits.foldl (visitStep (visitorWalkFunc program trackLocking process)) s) := by
  induction visits generalizing s with
  | nil => rfl
  | cons visit visits ih =>
      rw [List.foldl_cons, List.foldl_cons, visitStep, visitStep,
        visitorWalkFunc_older program trackLocking old hprocess (hvisits visit List.mem_cons_self) hold]
      exact ih (fun v hv => hvisits v (List.mem_cons_of_mem _ hv)) _

theorem processFuncInfoUpTo_older (depth : Nat) :
    IgnoresOlder program old (processFuncInfoUpTo program trackLocking depth) := by
  induction depth with
  | zero => exact fun _ _ _ => rfl
  | succ depth ih =>
      intro func globals hold
      simp only [processFuncInfoUpTo, walkFunc_eq]
      rw [show enterFunc func (olderGlobals old globals) = olderState old (enterFunc func globals) from rfl,
        foldl_older program trackLocking old ih (fun _ h => h) hold]
      rfl

end Older

section Roots

variable (program : Program) (trackLocking : Bool)

/-- The first callback of a root's walk finds the ancestry stack of a fresh run, and closes no
conditional of an earlier root. -/
structure StartsFresh (func : FuncInfo) (globals : Globals) : Prop where
  stack : stackAt program func.label.cursor (enterFunc func globals) =
    stackAt program func.label.cursor (enterFunc func initGlobals)
  closed : closedBranches program trackLocking func.label.cursor (enterFunc func globals) = []

theorem closedBranches_init (func : FuncInfo) (parent : Cursor) :
    closedBranches program trackLocking parent (enterFunc func initGlobals) = [] := by
  rw [closedBranches]
  split
  · rfl
  · split <;> rfl

variable {program trackLocking}

theorem enterCursor_startsFresh {func : FuncInfo} {globals : Globals}
    (h : StartsFresh program trackLocking func globals) (current : Cursor) :
    enterCursor program trackLocking current func.label.cursor (enterFunc func globals) =
      olderState globals.touchedFuncUsrs
        (enterCursor program trackLocking current func.label.cursor (enterFunc func initGlobals)) := by
  rw [← enterCursor_older]
  unfold enterCursor
  rw [updateAncestryStack_eq, updateAncestryStack_eq, h.closed, h.stack]
  have hclosed : closedBranches program trackLocking func.label.cursor
      (olderState globals.touchedFuncUsrs (enterFunc func initGlobals)) = [] :=
    closedBranches_init program trackLocking func func.label.cursor
  have hstack : stackAt program func.label.cursor
      (olderState globals.touchedFuncUsrs (enterFunc func initGlobals)) =
        stackAt program func.label.cursor (enterFunc func initGlobals) := rfl
  rw [hclosed, hstack]
  simp [setLastVisited, enterFunc, olderState, initGlobals, WalkState.pushVarAccesses]

/-- The walk of a root whose callees are all new gives the same function as a fresh walk. -/
theorem processFuncInfo_startsFresh {func : FuncInfo} {globals : Globals}
    (h : StartsFresh program trackLocking func globals)
    (hold : ∀ usr ∈ globals.touchedFuncUsrs, ¬ CallsUsr program func.label.cursor usr) :
    (processFuncInfo program trackLocking func globals).1 =
      (processFuncInfo program trackLocking func initGlobals).1 := by
  rw [processFuncInfo]
  simp only [processFuncInfoUpTo, walkFunc_eq]
  cases hvisits : descendants func.label.cursor with
  | nil => rfl
  | cons visit visits =>
      have hmem : ∀ v ∈ visit :: visits, v ∈ descendants func.label.cursor := fun v hv => hvisits ▸ hv
      have hfirst : visitorWalkFunc program trackLocking
          (processFuncInfoUpTo program trackLocking program.decls.length) visit.node visit.parent
            (enterFunc func globals) =
          visitorWalkFunc program trackLocking
            (processFuncInfoUpTo program trackLocking program.decls.length) visit.node visit.parent
              (olderState globals.touchedFuncUsrs (enterFunc func initGlobals)) := by
        unfold visitorWalkFunc
        rw [(descendants_head (by rw [hvisits, List.head?_cons])).1, enterCursor_startsFresh h, enterCursor_older]
      rw [List.foldl_cons, visitStep, hfirst, ← visitStep.eq_1
        (visitorWalkFunc program trackLocking (processFuncInfoUpTo program trackLocking program.decls.length)),
        ← List.foldl_cons, foldl_older program trackLocking _
          (processFuncInfoUpTo_older program trackLocking _ _) hmem hold]
      rfl

/-- The footprint of a root does not depend on the roots before and after it if it calls nothing
that an earlier root calls and starts on a fresh ancestry stack. -/
theorem footprint_isolated {before after : List FuncInfo} {func : FuncInfo} {funcNames : List String}
    {funcName : String} (hname : funcNames[before.length]? = some funcName)
    (hcalls : ∀ other ∈ before, ∀ usr, CallsUsr program other.label.cursor usr →
      ¬ CallsUsr program func.label.cursor usr)
    (hstart : StartsFresh program trackLocking func
      (processFuncs program trackLocking before initGlobals).2) :
    (footprints program trackLocking (before ++ func :: after) funcNames)[before.length]? =
      (footprints program trackLocking [func] [funcName])[0]? := by
  have hfunc : (processFuncs program trackLocking (before ++ func :: after) initGlobals).1[before.length]? =
      some (processFuncInfo program trackLocking func initGlobals).1 := by
    rw [processFuncs_append, List.getElem?_append_right (by rw [processFuncs_length]),
      processFuncs_length, Nat.sub_self, ← processFuncInfo_startsFresh hstart]
    · rfl
    · intro usr husr
      rcases processFuncs_touched before initGlobals usr husr with hnew | ⟨other, hother, hcalled⟩
      · cases hnew
      · exact hcalls other hother usr hcalled
  rw [footprints]
  rw [List.getElem?_zipWith, hfunc, hname]
  rfl

end Roots

/-- void h() { x = 1; } with the global variable x. -/
def helper : Cursor :=
  definitionOf 1 "h" []
    [.node { id := 3, kind := .binaryOperator, binaryOperatorKind := .assign }
      [.node { id := 4, kind := .declRefExpr, referenced := some 30 } [],
       .node { id := 5, kind := .other 106 } []]]

def helperCaller (id : Nat) (name : String) : Cursor :=
  definitionOf id name []
    [.node { id := id + 2, kind := .callExpr, referenced := some 1 }
      [.node { id := id + 3, kind := .declRefExpr, referenced := some 1 } []]]

def helperProgram : Program where
  tuArray := []
  fileNames := []
  decls := [helper, .node { id := 30, kind := .varDecl, usr := "c:@x" } []]
  zeroCursorIsNull := false

theorem helper_calls_nothing (usr : String) : ¬ CallsUsr helperProgram helper usr := by
  have hnone : ∀ visit ∈ descendants helper, kindOf visit.node ≠ .callExpr := by decide
  intro h
  cases h with
  | direct hvisit hkind _ => exact hnone _ hvisit hkind
  | through hvisit hkind _ _ _ => exact hnone _ hvisit hkind

theorem helper_isolated :
    (footprints helperProgram true ([WalkAst.requestedFunc (helperCaller 10 "f")] ++
      [WalkAst.requestedFunc helper]) ["f()", "h()"])[1]? =
      (footprints helperProgram true [WalkAst.requestedFunc helper] ["h()"])[0]? := by
  refine @footprint_isolated helperProgram true [WalkAst.requestedFunc (helperCaller 10 "f")] [] _ _ _ rfl
    (fun _ _ usr _ => helper_calls_nothing usr) ⟨?_, ?_⟩
  · rfl
  · rfl

/-- Of two functions that call h, only the first one gets its accesses. -/
theorem helperCallers_differ :
    (footprints helperProgram false [WalkAst.requestedFunc (helperCaller 10 "f"),
      WalkAst.requestedFunc (helperCaller 20 "g")] ["f()", "g()"])[1]? ≠
      (footprints helperProgram false [WalkAst.requestedFunc (helperCaller 20 "g")] ["g()"])[0]? := by
  decide +kernel

end Prongc.RootIsolation
