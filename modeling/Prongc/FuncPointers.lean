import Prongc.Callbacks
import Prongc.ElementArrays
import Prongc.Library.MovingTrees
import Prongc.WalkAst

namespace Prongc.FuncPointers

open Ast WalkFunc WalkAst Callbacks ElementArrays Library.Traversal Library.MovingTrees

/-- A push compares the bytes of the structs with the capacity, which counts structs. -/
def funcInfoGrowth : Growth where
  initial := 8
  full size capacity := (size + 1) * sizeofFuncInfo > capacity
  grown capacity := capacity * 2
  initial_pos := by decide
  room size capacity hpos hsize := by
    rw [sizeofFuncInfo]
    split
    next => omega
    next hfull =>
      rw [decide_eq_true_eq] at hfull
      omega

structure PrivState extends Globals where
  memory : Memory FuncData
  currentFunc : Option Pointer

section Walk

variable (program : Program) (trackLocking : Bool) (moves : Memory FuncData → Nat → Bool)

/-- What a callback does to the fields of the current function and to the rest of the state. The callees
are behind a pointer of their own. -/
def atCurrent (f : WalkState → WalkState) (s : PrivState) : Option PrivState := do
  let currentFunc ← s.currentFunc
  let cell ← load s.memory currentFunc
  let after := f { s.toGlobals with currentFunc := cell.label, callees := [] }
  let memory ← store s.memory currentFunc { cell with label := after.currentFunc }
  some { after.toGlobals with memory := memory, currentFunc := s.currentFunc }

def pushCallee (working : Cursor) (s : PrivState) : Option PrivState := do
  let currentFunc ← s.currentFunc
  let memory ← addChild funcInfoGrowth moves s.memory currentFunc (calleeInfo program working).label
  some { s with memory := memory }

def calleesTail (s : PrivState) : Option Pointer := do
  let currentFunc ← s.currentFunc
  lastChild s.memory currentFunc

def pushCursor (current : Cursor) (s : PrivState) : PrivState :=
  { s with ancestryStack := current :: s.ancestryStack }

variable (process : Pointer → PrivState → Option PrivState)

def processCalleeAt (working : Cursor) (s : PrivState) : Option PrivState := do
  let s ← pushCallee program moves working s
  let s ← atCurrent (touchCallee working) s
  let tail ← calleesTail s
  let callee ← load s.memory tail
  if isLeafCallee (.node callee.label []) then some s else process tail s

def visitCallExprAt (current : Cursor) (s : PrivState) : Option PrivState :=
  match (workingCursor program current).filter fun working => !s.touchedFuncUsrs.contains working.label.usr with
  | none => some (pushCursor current s)
  | some working => (processCalleeAt program moves process working s).map (pushCursor current)

def visitorWalkFuncAt (current parent : Cursor) (s : PrivState) : Option PrivState := do
  let s ← atCurrent (enterCursor program trackLocking current parent) s
  match kindOf current with
  | .declRefExpr => atCurrent (visitDeclRefExpr program current) s
  | .callExpr => visitCallExprAt program moves process current s
  | _ => some s

def walkFuncAt (func : Pointer) (s : PrivState) : Option PrivState := do
  let cell ← load s.memory func
  let walked ← visitChildren
    (fun current parent s =>
      (s.bind (visitorWalkFuncAt program trackLocking moves process current parent), .childVisitRecurse))
    cell.label.cursor (some { s with currentFunc := some func })
  some { walked with currentFunc := s.currentFunc }

def processFuncInfoAtUpTo : Nat → Pointer → PrivState → Option PrivState
  | 0, _, s => some s
  | depth + 1, func, s => walkFuncAt program trackLocking moves (processFuncInfoAtUpTo depth) func s

def processFuncInfoAt : Pointer → PrivState → Option PrivState :=
  processFuncInfoAtUpTo program trackLocking moves (program.decls.length + 1)

def elementAt (m : Memory FuncData) (id i : Nat) : Option Pointer :=
  m.headers[id]?.map fun header => ⟨header.block, i⟩

def processFuncsAt (funcs : Nat) : List Nat → PrivState → Option PrivState
  | [], s => some s
  | i :: is, s => do
      let func ← elementAt s.memory funcs i
      let s ← processFuncInfoAt program trackLocking moves func s
      processFuncsAt funcs is s

def pushFuncs (funcs : Nat) (roots : List Cursor) (m : Memory FuncData) : Option (Memory FuncData) :=
  roots.foldlM (fun m root => push funcInfoGrowth moves m funcs ⟨(requestedFunc root).label, none⟩) m

def runAt (roots : List Cursor) : Option PrivState := do
  let (memory, funcs) := newArray funcInfoGrowth ⟨[], []⟩
  let memory ← pushFuncs moves funcs roots memory
  processFuncsAt program trackLocking moves funcs (List.range roots.length)
    { initGlobals with memory := memory, currentFunc := none }

end Walk

section Simulation

variable {program : Program} {trackLocking : Bool} {moves : Memory FuncData → Nat → Bool} {m : Memory FuncData}
  {id : Nat} {p : Pointer} {s : PrivState} {w : WalkState}

structure Tracks (m : Memory FuncData) (id : Nat) (p : Pointer) (s : PrivState) (w : WalkState) : Prop where
  globals : s.toGlobals = w.toGlobals
  current : s.currentFunc = some p
  grows : Grows m s.memory id p.index w.func

def IgnoresCallees (f : WalkState → WalkState) : Prop :=
  ∀ w callees, f { w with callees := callees } = { f w with callees := callees }

theorem IgnoresCallees.comp {f g : WalkState → WalkState} (hg : IgnoresCallees g) (hf : IgnoresCallees f) :
    IgnoresCallees (fun w => g (f w)) := by
  intro w callees
  exact (congrArg g (hf w callees)).trans (hg (f w) callees)

theorem updateAncestryStack_ignores (parent : Cursor) :
    IgnoresCallees (updateAncestryStack program trackLocking parent) := by
  intro w callees
  rw [updateAncestryStack, updateAncestryStack]
  dsimp only
  split
  next => rfl
  next => rfl

theorem recordDeclaration_ignores (current : Cursor) : IgnoresCallees (recordDeclaration current) := by
  intro w callees
  rw [recordDeclaration, recordDeclaration]
  split
  next => split <;> rfl
  next => rfl

theorem enterCursor_ignores (current parent : Cursor) :
    IgnoresCallees (enterCursor program trackLocking current parent) := by
  have hvisited : IgnoresCallees (setLastVisited current) := fun _ _ => rfl
  have hbranches : IgnoresCallees (recordBranches trackLocking current parent) := fun _ _ => rfl
  exact hbranches.comp ((recordDeclaration_ignores current).comp (hvisited.comp (updateAncestryStack_ignores parent)))

theorem visitDeclRefExpr_ignores (current : Cursor) : IgnoresCallees (visitDeclRefExpr program current) :=
  fun _ _ => rfl

theorem touchCallee_ignores (working : Cursor) : IgnoresCallees (touchCallee working) := fun _ _ => rfl

theorem Tracks.atCurrent {f : WalkState → WalkState} (h : Tracks m id p s w) (hp : PointsInto m id p)
    (hf : IgnoresCallees f) : ∃ s', atCurrent f s = some s' ∧ Tracks m id p s' (f w) := by
  have hw : f w = { f { w with callees := [] } with callees := w.callees } := (hf { w with callees := [] } w.callees)
  obtain ⟨cell, m', hload, hlabel, hstore, hgrows⟩ :=
    h.grows.relabel hp (f { w with callees := [] }).currentFunc
  refine ⟨{ (f { w with callees := [] }).toGlobals with memory := m', currentFunc := some p }, ?_, ?_, rfl, ?_⟩
  · rw [FuncPointers.atCurrent, h.current, Option.bind_eq_bind, Option.bind_some, hload, Option.bind_eq_bind,
      Option.bind_some]
    dsimp only
    rw [hlabel, h.globals, hstore]
    rfl
  · rw [hw]
  · rw [hw]
    exact hgrows

/-- A walk that is started at a struct without callees leaves the tree of the other walk there. -/
def Implements (processAt : Pointer → PrivState → Option PrivState)
    (process : FuncInfo → Globals → FuncInfo × Globals) : Prop :=
  ∀ (s : PrivState) (id : Nat) (p : Pointer) (func : FuncData), PointsInto s.memory id p →
    Grows s.memory s.memory id p.index (.node func []) → ∃ s', processAt p s = some s' ∧
      s'.currentFunc = s.currentFunc ∧ s'.toGlobals = (process (.node func []) s.toGlobals).2 ∧
      Grows s.memory s'.memory id p.index (process (.node func []) s.toGlobals).1

variable {processAt : Pointer → PrivState → Option PrivState} {process : FuncInfo → Globals → FuncInfo × Globals}

theorem Tracks.pushCallee (moves : Memory FuncData → Nat → Bool) (h : Tracks m id p s w) (hp : PointsInto m id p)
    (working : Cursor) : ∃ s', pushCallee program moves working s = some s' ∧
      Tracks m id p s' { w with callees := w.callees ++ [calleeInfo program working] } := by
  obtain ⟨m', hadd, hgrows⟩ := h.grows.addChild funcInfoGrowth moves hp (calleeInfo program working).label
  refine ⟨{ s with memory := m' }, ?_, h.globals, h.current, hgrows⟩
  rw [FuncPointers.pushCallee, h.current, Option.bind_eq_bind, Option.bind_some, hadd]
  rfl

variable (program moves) in
theorem Tracks.processCallee (hprocess : Implements processAt process) (h : Tracks m id p s w) (hp : PointsInto m id p)
    (working : Cursor) : ∃ s', processCalleeAt program moves processAt working s = some s' ∧
      Tracks m id p s' (processCallee program process working w) := by
  obtain ⟨pushed, hpush, hpushed⟩ := h.pushCallee moves hp working
  obtain ⟨touched, htouch, htouched⟩ := hpushed.atCurrent hp (touchCallee_ignores working)
  obtain ⟨child, q, hlast, hq, hindex, hleaf, hnest⟩ := Grows.lastChild htouched.grows hp
  obtain ⟨cell, hload, hlabel⟩ := hleaf.load hq
  have hleafCell : isLeafCallee (.node cell.label []) = isLeafCallee (calleeInfo program working) := by
    rw [hlabel]
    rfl
  rw [processCalleeAt, hpush, Option.bind_eq_bind, Option.bind_some, htouch, Option.bind_eq_bind, Option.bind_some,
    calleesTail, htouched.current, Option.bind_eq_bind, Option.bind_some, hlast, Option.bind_eq_bind,
    Option.bind_some, hload, Option.bind_some, hleafCell, WalkFunc.processCallee]
  dsimp only
  split
  next => exact ⟨touched, rfl, htouched⟩
  next =>
    obtain ⟨s', hrun, hcurrent, hglobals, hgrows⟩ := hprocess touched child q _ hq hleaf
    refine ⟨s', hrun, ?_, hcurrent.trans htouched.current, ?_⟩
    · rw [hglobals, htouched.globals]
      rfl
    · have hgrown := hnest _ _ hgrows
      rw [htouched.globals] at hgrown
      exact hgrown

theorem Tracks.pushCursor (h : Tracks m id p s w) (current : Cursor) :
    Tracks m id p (pushCursor current s) (w.pushCursor current) where
  globals := by
    rw [FuncPointers.pushCursor, WalkState.pushCursor, h.globals]
  current := h.current
  grows := h.grows

theorem Tracks.visitCallExpr (hprocess : Implements processAt process) (h : Tracks m id p s w) (hp : PointsInto m id p)
    (current : Cursor) : ∃ s', visitCallExprAt program moves processAt current s = some s' ∧
      Tracks m id p s' (visitCallExpr program process current w) := by
  rw [visitCallExprAt, h.globals, WalkFunc.visitCallExpr, newCallee]
  cases (workingCursor program current).filter fun working => !w.touchedFuncUsrs.contains working.label.usr with
  | none => exact ⟨_, rfl, h.pushCursor current⟩
  | some working =>
      obtain ⟨s', hrun, htracks⟩ := h.processCallee program moves hprocess hp working
      refine ⟨FuncPointers.pushCursor current s', ?_, htracks.pushCursor current⟩
      dsimp only
      rw [hrun, Option.map_some]

theorem Tracks.visit (hprocess : Implements processAt process) (h : Tracks m id p s w) (hp : PointsInto m id p)
    (current parent : Cursor) : ∃ s',
    visitorWalkFuncAt program trackLocking moves processAt current parent s = some s' ∧
      Tracks m id p s' (visitorWalkFunc program trackLocking process current parent w) := by
  obtain ⟨entered, henter, hentered⟩ := h.atCurrent hp (@enterCursor_ignores program trackLocking current parent)
  rw [visitorWalkFuncAt, henter, Option.bind_eq_bind, Option.bind_some, visitorWalkFunc]
  cases kindOf current with
  | declRefExpr => exact hentered.atCurrent hp (visitDeclRefExpr_ignores current)
  | callExpr => exact hentered.visitCallExpr hprocess hp current
  | _ => exact ⟨entered, rfl, hentered⟩

theorem walkFuncAt_implements (hprocess : Implements processAt process) :
    Implements (walkFuncAt program trackLocking moves processAt) (walkFunc program trackLocking process) := by
  intro s id p func hp hgrows
  obtain ⟨cell, hload, hlabel⟩ := hgrows.load hp
  have hsimulates : Simulates
      (fun current parent o => (o.bind (visitorWalkFuncAt program trackLocking moves processAt current parent),
        .childVisitRecurse))
      (fun current parent w => (visitorWalkFunc program trackLocking process current parent w, .childVisitRecurse))
      (fun o w => ∃ s', o = some s' ∧ Tracks s.memory id p s' w) := by
    rintro current parent _ w ⟨s', rfl, htracks⟩
    exact ⟨htracks.visit hprocess hp current parent, rfl⟩
  have hstart : Tracks s.memory id p { s with currentFunc := some p } (enterFunc (.node func []) s.toGlobals) :=
    ⟨rfl, rfl, hgrows⟩
  obtain ⟨walked, hwalked, htracks⟩ := visitChildren_simulates hsimulates func.cursor ⟨_, rfl, hstart⟩
  refine ⟨{ walked with currentFunc := s.currentFunc }, ?_, rfl, htracks.globals, htracks.grows⟩
  rw [walkFuncAt, hload, Option.bind_eq_bind, Option.bind_some, hlabel, RoseTree.label_node, hwalked]
  rfl

variable (program trackLocking moves) in
theorem processFuncInfoAt_implements :
    Implements (processFuncInfoAt program trackLocking moves) (processFuncInfo program trackLocking) := by
  have hdepth : ∀ depth, Implements (processFuncInfoAtUpTo program trackLocking moves depth)
      (processFuncInfoUpTo program trackLocking depth) := by
    intro depth
    induction depth with
    | zero =>
        intro s id p func hp hgrows
        exact ⟨s, rfl, rfl, rfl, hgrows⟩
    | succ depth ih => exact walkFuncAt_implements ih
  exact hdepth _

theorem processFuncsAt_spec {funcs : Nat} {front todo : List FuncInfo} (hvalid : Valid s.memory)
    (hrow : Row s.memory funcs (front ++ todo)) (htodo : ∀ func ∈ todo, func.children = []) :
    ∃ s', processFuncsAt program trackLocking moves funcs ((List.range todo.length).map (front.length + ·)) s =
        some s' ∧
      s'.currentFunc = s.currentFunc ∧ s'.toGlobals = (processFuncs program trackLocking todo s.toGlobals).2 ∧
      Valid s'.memory ∧ Row s'.memory funcs (front ++ (processFuncs program trackLocking todo s.toGlobals).1) := by
  induction todo generalizing front s with
  | nil => exact ⟨s, rfl, rfl, rfl, hvalid, hrow⟩
  | cons func todo ih =>
      obtain ⟨hfunc, htodo⟩ := List.forall_mem_cons.mp htodo
      have hlabel : func = .node func.label [] := by
        rw [← hfunc, RoseTree.node_label_children]
      have ⟨cells, hcells, _⟩ := hrow
      obtain ⟨header, block, hheader, -, -⟩ := cellsOf_eq_some.mp hcells
      have hgrows : Grows s.memory s.memory funcs front.length (.node func.label []) := by
        apply Grows.start hvalid hrow
        rw [List.getElem?_append_right (Nat.le_refl _), Nat.sub_self, ← hlabel]
        rfl
      obtain ⟨mid, hrun, hcurrent, hglobals, hgrown⟩ := processFuncInfoAt_implements program trackLocking moves s funcs
        ⟨header.block, front.length⟩ func.label ⟨header, hheader, rfl⟩ hgrows
      rw [← hlabel] at hglobals hgrown
      have hnext := hrow.grow hgrown
      rw [List.set_append_right _ _ (Nat.le_refl _), Nat.sub_self, List.set_cons_zero, List.append_cons] at hnext
      have ⟨_, hchanges, _⟩ := hgrown
      obtain ⟨s', hrest, hcurrent', hglobals', hvalid', hrow'⟩ := ih hchanges.valid hnext htodo
      refine ⟨s', ?_, hcurrent'.trans hcurrent, ?_, hvalid', ?_⟩
      · rw [List.length_append, List.length_singleton] at hrest
        rw [List.length_cons, List.range_succ_eq_map, List.map_cons, Nat.add_zero, processFuncsAt, elementAt, hheader,
          Option.map_some, Option.bind_eq_bind, Option.bind_some, hrun, Option.bind_eq_bind, Option.bind_some,
          List.map_map, ← hrest]
        congr 2
        funext k
        exact (Nat.add_right_comm front.length 1 k).symm ▸ rfl
      · rw [hglobals', hglobals, processFuncs]
      · rw [hglobals] at hrow'
        rw [processFuncs]
        simpa using hrow'

theorem pushFuncs_spec (moves : Memory FuncData → Nat → Bool) {funcs : Nat} {front roots : List Cursor}
    (hvalid : Valid m) (hrow : Row m funcs (front.map requestedFunc)) :
    ∃ m', pushFuncs moves funcs roots m = some m' ∧ Valid m' ∧
      Row m' funcs ((front ++ roots).map requestedFunc) := by
  induction roots generalizing front m with
  | nil =>
      rw [List.append_nil]
      exact ⟨m, rfl, hvalid, hrow⟩
  | cons root roots ih =>
      have ⟨cells, hcells, _⟩ := hrow
      obtain ⟨mid, hpush, hupdates⟩ := push_spec funcInfoGrowth moves hvalid hcells ⟨(requestedFunc root).label, none⟩
      have hnext := hrow.push hcells hupdates
      obtain ⟨m', hrest, hvalid', hrow'⟩ := @ih mid (front ++ [root]) hupdates.valid (by rwa [List.map_append])
      refine ⟨m', ?_, hvalid', ?_⟩
      · rw [pushFuncs, List.foldlM_cons, hpush]
        exact hrest
      · rwa [List.append_assoc, List.singleton_append] at hrow'

end Simulation

/-- Wherever reallocarray puts the structs, no pointer to one dangles when it is followed, no write leaves
its block, and the memory holds the trees of the functions in the end. -/
theorem pointers_stay_valid (program : Program) (trackLocking : Bool) (moves : Memory FuncData → Nat → Bool)
    (roots : List Cursor) : ∃ s, runAt program trackLocking moves roots = some s ∧ s.currentFunc = none ∧
      s.toGlobals = (processFuncs program trackLocking (roots.map requestedFunc) initGlobals).2 ∧
      Row s.memory 0 (processFuncs program trackLocking (roots.map requestedFunc) initGlobals).1 := by
  have hnone : Valid (⟨[], []⟩ : Memory FuncData) := by
    constructor
    · intro id header h
      cases h
    · intro i j hi hj h
      cases h
  obtain ⟨hvalid, -, hempty, -⟩ := @newArray_spec _ funcInfoGrowth _ hnone
  obtain ⟨memory, hpush, hvalid', hrow⟩ := @pushFuncs_spec _ moves 0 [] roots hvalid ⟨[], hempty, .nil⟩
  rw [List.nil_append] at hrow
  obtain ⟨s, hrun, hcurrent, hglobals, -, hfinal⟩ := @processFuncsAt_spec program trackLocking moves
    { initGlobals with memory := memory, currentFunc := none } 0 [] (roots.map requestedFunc) hvalid' hrow (by
      intro func hfunc
      obtain ⟨root, -, rfl⟩ := List.mem_map.mp hfunc
      rfl)
  refine ⟨s, ?_, hcurrent, hglobals, hfinal⟩
  rw [List.length_map, List.length_nil, List.map_congr_left fun k _ => Nat.zero_add k, List.map_id'] at hrun
  rw [runAt]
  dsimp only
  rw [show (newArray funcInfoGrowth (⟨[], []⟩ : Memory FuncData)).2 = 0 from rfl, hpush]
  exact hrun

end Prongc.FuncPointers
