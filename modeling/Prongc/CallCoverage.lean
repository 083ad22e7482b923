import Prongc.CallSites
import Prongc.Library.DepthFirst

namespace Prongc.CallCoverage

open Access Ast WalkFunc WalkAst Callbacks Recursion RootIsolation Termination CallSites Library.Traversal
  Library.DepthFirst Relation

section Graph

variable (program : Program)

def isLeaf (c : Cursor) : Bool := isLeafCallee (calleeInfo program c)

def CallsFrom (c d : Cursor) : Prop := isLeaf program c = false ∧ d ∈ calls program c

/-- A call in the function leads to the other one, directly or through functions that are looked into. -/
def Below (func c : Cursor) : Prop := ∃ d ∈ calls program func, ReflTransGen (CallsFrom program) d c

variable {program}

theorem Below.of_called {func c d : Cursor} (hd : d ∈ calls program func) (hopen : isLeaf program d = false)
    (h : Below program d c) : Below program func c := by
  obtain ⟨e, he, hreach⟩ := h
  exact ⟨d, hd, .head ⟨hopen, he⟩ hreach⟩

end Graph

section Walk

variable (program : Program) (trackLocking : Bool)

def callbacksFrom (x : Visit CursorInfo × WalkState) : List Callback :=
  ⟨x.1, x.2⟩ :: match nestedWalk program trackLocking x.1.node x.1.parent x.2 with
    | none => []
    | some (callee, globals) => callbacksOf program trackLocking callee globals

/-- The function lies below the other one, and every node of its body has been visited if it is looked into. -/
structure Found (func : Cursor) (callbacks : List Callback) (c : Cursor) : Prop where
  below : Below program func c
  visited : isLeaf program c = false → ∀ visit ∈ descendants c, ∃ cb ∈ callbacks, cb.visit = visit

def usrOf (c : Cursor) : String := c.label.usr

structure Searched (func : Cursor) (visits : List (Visit CursorInfo)) (callbacks : List Callback)
    (old seen : List String) : Prop where
  grows : old ⊆ seen
  direct : ∀ c ∈ callsAmong program visits, usrOf c ∈ seen
  explored : Explored (CallsFrom program) usrOf (Found program func callbacks) old seen

variable {program trackLocking}

theorem Found.mono {func c : Cursor} {cbs cbs' : List Callback} (h : Found program func cbs c) (hsub : cbs ⊆ cbs') :
    Found program func cbs' c where
  below := h.below
  visited hopen visit hvisit := by
    obtain ⟨cb, hcb, heq⟩ := h.visited hopen visit hvisit
    exact ⟨cb, hsub hcb, heq⟩

theorem Found.of_called {func c d : Cursor} {cbs : List Callback} (hd : d ∈ calls program func)
    (hopen : isLeaf program d = false) (h : Found program d cbs c) : Found program func cbs c where
  below := h.below.of_called hd hopen
  visited := h.visited

theorem callsAmong_append (visits visits' : List (Visit CursorInfo)) :
    callsAmong program (visits ++ visits') = callsAmong program visits ++ callsAmong program visits' :=
  List.filterMap_append

theorem callbacksOf_flatMap (func : FuncInfo) (globals : Globals) : callbacksOf program trackLocking func globals =
    (ownCallbacks program trackLocking (processFuncInfo program trackLocking) func globals).flatMap
      (callbacksFrom program trackLocking) :=
  callbacksOf_eq program trackLocking func globals

theorem map_fst_stepsFrom {σ β : Type} (step : σ → β → σ) (s : σ) (l : List β) :
    (stepsFrom step s l).map Prod.fst = l := by
  induction l generalizing s with
  | nil => rfl
  | cons b l ih => rw [stepsFrom, List.map_cons, ih]

theorem calleeOf_call {node : Cursor} (hkind : kindOf node = .callExpr) :
    calleeOf program node = workingCursor program node := if_pos hkind

theorem mem_calls {func working : Cursor} {visit : Visit CursorInfo} (hmem : visit ∈ descendants func)
    (hkind : kindOf visit.node = .callExpr) (hworking : workingCursor program visit.node = some working) :
    working ∈ calls program func :=
  List.mem_filterMap.mpr ⟨visit, hmem, (calleeOf_call hkind).trans hworking⟩

theorem Searched.extend {func : Cursor} {visits : List (Visit CursorInfo)} {visit : Visit CursorInfo}
    {cbs cbs' : List Callback} {old mid seen : List String} (h : Searched program func visits cbs old mid)
    (hcbs : cbs ⊆ cbs') (hgrows : mid ⊆ seen)
    (hdirect : ∀ c, calleeOf program visit.node = some c → usrOf c ∈ seen)
    (hexplored : Explored (CallsFrom program) usrOf (Found program func cbs') mid seen) :
    Searched program func (visits ++ [visit]) cbs' old seen where
  grows := List.Subset.trans h.grows hgrows
  direct := by
    rw [callsAmong_append, List.forall_mem_append]
    constructor
    · intro c hc
      exact hgrows (h.direct c hc)
    · intro c hc
      obtain ⟨v, hv, hcallee⟩ := List.mem_filterMap.mp hc
      obtain rfl := List.mem_singleton.mp hv
      exact hdirect c hcallee
  explored := (h.explored.mono fun _ hfound => hfound.mono hcbs).trans hexplored hgrows

theorem Searched.visit {func : Cursor} {visits : List (Visit CursorInfo)} {cbs : List Callback} {old : List String}
    {visit : Visit CursorInfo} {s : WalkState} (h : Searched program func visits cbs old s.touchedFuncUsrs)
    (hmem : visit ∈ descendants func)
    (hnested : ∀ callee globals, nestedWalk program trackLocking visit.node visit.parent s = some (callee, globals) →
      Searched program callee.label.cursor (descendants callee.label.cursor)
        (callbacksOf program trackLocking callee globals) globals.touchedFuncUsrs
          (processFuncInfo program trackLocking callee globals).2.touchedFuncUsrs ∧
      ∀ v ∈ descendants callee.label.cursor, ∃ cb ∈ callbacksOf program trackLocking callee globals, cb.visit = v) :
    Searched program func (visits ++ [visit]) (cbs ++ callbacksFrom program trackLocking (visit, s)) old
      (visitorWalkFunc program trackLocking (processFuncInfo program trackLocking) visit.node
        visit.parent s).touchedFuncUsrs := by
  have hcbs := List.subset_append_left cbs (callbacksFrom program trackLocking (visit, s))
  rcases visitorWalkFunc_cases program trackLocking (processFuncInfo program trackLocking) visit.node
    visit.parent s with
    ⟨hkind, vas, -, hvisit⟩ | ⟨hkind, hnew, hvisit⟩ | ⟨working, hkind, hnew, hleaf, hvisit⟩ |
      ⟨working, hkind, hnew, hopen, hvisit⟩
  · rw [hvisit, pushVarAccesses_toGlobals, enterCursor_touchedFuncUsrs]
    refine h.extend hcbs (List.Subset.refl _) ?_ (.refl _)
    intro c hc
    rw [calleeOf, if_neg hkind] at hc
    cases hc
  · rw [hvisit, pushCursor_touchedFuncUsrs, enterCursor_touchedFuncUsrs]
    refine h.extend hcbs (List.Subset.refl _) ?_ (.refl _)
    intro c hc
    rw [calleeOf_call hkind] at hc
    rw [newCallee, hc, enterCursor_touchedFuncUsrs] at hnew
    simpa [usrOf] using hnew
  · obtain ⟨hworking, -⟩ := newCallee_eq_some hnew
    have htouched : (visitorWalkFunc program trackLocking (processFuncInfo program trackLocking) visit.node
        visit.parent s).touchedFuncUsrs = s.touchedFuncUsrs ++ [usrOf working] := by
      rw [hvisit, addLeafCallee, pushCursor_touchedFuncUsrs, touchCallee, enterCursor_touchedFuncUsrs]
      rfl
    rw [htouched]
    refine h.extend hcbs (List.subset_append_left _ _) ?_ (Explored.enter (.refl _) ⟨?_, ?_⟩ ?_)
    · intro c hc
      rw [calleeOf_call hkind, hworking] at hc
      obtain rfl := Option.some.inj hc
      exact List.mem_append_right _ List.mem_cons_self
    · exact ⟨working, mem_calls hmem hkind hworking, .refl⟩
    · intro hopen
      exact absurd (hopen.symm.trans hleaf) (by decide)
    · rintro d ⟨hopen, -⟩
      exact absurd (hopen.symm.trans hleaf) (by decide)
  · obtain ⟨hworking, -⟩ := newCallee_eq_some hnew
    have hcalled := mem_calls hmem hkind hworking
    have hsome := nestedWalk_eq_some.mpr ⟨working, hkind, hnew, hopen, rfl, rfl⟩
    obtain ⟨hsearched, hvisited⟩ := hnested _ _ hsome
    have hinner : callbacksOf program trackLocking (calleeInfo program working)
        (touchCallee working (enterCursor program trackLocking visit.node visit.parent s)).toGlobals ⊆
          cbs ++ callbacksFrom program trackLocking (visit, s) := by
      apply List.subset_append_of_subset_right
      rw [callbacksFrom, hsome]
      exact List.subset_cons_self _ _
    have hmarked : (touchCallee working (enterCursor program trackLocking visit.node visit.parent s)
        ).touchedFuncUsrs = s.touchedFuncUsrs ++ [usrOf working] := by
      rw [touchCallee, enterCursor_touchedFuncUsrs]
      rfl
    rw [hvisit, expandCallee, pushCursor_touchedFuncUsrs]
    rw [hmarked] at hsearched
    have hworkingSeen := hsearched.grows (List.mem_append_right _ List.mem_cons_self)
    refine h.extend hcbs (List.Subset.trans (List.subset_append_left _ _) hsearched.grows) ?_
      (Explored.enter (hsearched.explored.mono ?_) ⟨?_, ?_⟩ ?_)
    · intro c hc
      rw [calleeOf_call hkind, hworking] at hc
      obtain rfl := Option.some.inj hc
      exact hworkingSeen
    · intro c hfound
      exact (hfound.of_called hcalled hopen).mono hinner
    · exact ⟨working, hcalled, .refl⟩
    · intro _ v hv
      obtain ⟨cb, hcb, heq⟩ := hvisited v hv
      exact ⟨cb, hinner hcb, heq⟩
    · rintro d ⟨-, hd⟩
      exact hsearched.direct d hd

variable (program) in
def Inside (func : Cursor) (visit : Visit CursorInfo) : Prop :=
  visit ∈ descendants func ∨ ∃ c, Below program func c ∧ isLeaf program c = false ∧ visit ∈ descendants c

theorem Inside.of_called {func d : Cursor} {visit : Visit CursorInfo} (hd : d ∈ calls program func)
    (hopen : isLeaf program d = false) (h : Inside program d visit) : Inside program func visit := by
  rcases h with hown | ⟨c, hbelow, hleaf, hvisit⟩
  · exact .inr ⟨d, ⟨d, hd, .refl⟩, hopen, hown⟩
  · exact .inr ⟨c, hbelow.of_called hd hopen, hleaf, hvisit⟩

variable (program trackLocking) in
structure WalkCovers (func : FuncInfo) (globals : Globals) (seen : List String) : Prop where
  searched : Searched program func.label.cursor (descendants func.label.cursor)
    (callbacksOf program trackLocking func globals) globals.touchedFuncUsrs seen
  visited : ∀ visit ∈ descendants func.label.cursor, ∃ cb ∈ callbacksOf program trackLocking func globals,
    cb.visit = visit
  inside : ∀ cb ∈ callbacksOf program trackLocking func globals, Inside program func.label.cursor cb.visit

theorem inside_callbacksFrom {func : Cursor} {x : Visit CursorInfo × WalkState} (hmem : x.1 ∈ descendants func)
    (hnested : ∀ callee globals, nestedWalk program trackLocking x.1.node x.1.parent x.2 = some (callee, globals) →
      ∀ cb ∈ callbacksOf program trackLocking callee globals, Inside program callee.label.cursor cb.visit) :
    ∀ cb ∈ callbacksFrom program trackLocking x, Inside program func cb.visit := by
  intro cb hcb
  rcases List.mem_cons.mp hcb with rfl | hcb
  · exact .inl hmem
  · split at hcb
    next => cases hcb
    next callee globals hsome =>
      obtain ⟨working, hkind, hnew, hopen, rfl, -⟩ := nestedWalk_eq_some.mp hsome
      have hcalled := mem_calls hmem hkind (newCallee_eq_some hnew).1
      exact (hnested _ _ hsome cb hcb).of_called hcalled hopen

theorem covers_rule : WalkRule program trackLocking (fun _ _ => True)
    (fun func globals rest s => ∃ done,
      ownCallbacks program trackLocking (processFuncInfo program trackLocking) func globals = done ++
        stepsFrom (visitStep (visitorWalkFunc program trackLocking (processFuncInfo program trackLocking))) s rest ∧
      Searched program func.label.cursor (done.map Prod.fst) (done.flatMap (callbacksFrom program trackLocking))
        globals.touchedFuncUsrs s.touchedFuncUsrs ∧
      ∀ cb ∈ done.flatMap (callbacksFrom program trackLocking), Inside program func.label.cursor cb.visit)
    (fun func globals result => WalkCovers program trackLocking func globals result.2.touchedFuncUsrs) where
  start func globals _ := by
    refine ⟨[], rfl, ⟨List.Subset.refl _, ?_, .refl _⟩, ?_⟩
    · exact fun c hc => by cases hc
    · exact fun cb hcb => by cases hcb
  nested _ _ _ _ _ _ _ _ _ := trivial
  step func globals visit rest s hI hpost := by
    obtain ⟨done, hsteps, hsearched, hinside⟩ := hI
    have hx : (visit, s) ∈ ownCallbacks program trackLocking (processFuncInfo program trackLocking) func globals := by
      rw [hsteps]
      exact List.mem_append_right _ List.mem_cons_self
    have hmem : visit ∈ descendants func.label.cursor := mem_of_stepsFrom _ hx
    refine ⟨done ++ [(visit, s)], ?_, ?_, ?_⟩
    · rw [hsteps, List.append_assoc]
      rfl
    · have hnext := hsearched.visit hmem fun callee globals' hsome =>
        ⟨(hpost callee globals' hsome).searched, (hpost callee globals' hsome).visited⟩
      rw [List.map_append, List.flatMap_append]
      simpa using hnext
    · rw [List.flatMap_append, List.forall_mem_append, List.flatMap_singleton]
      exact ⟨hinside, inside_callbacksFrom hmem fun callee globals' hsome => (hpost callee globals' hsome).inside⟩
  finish func globals s hI := by
    obtain ⟨done, hsteps, hsearched, hinside⟩ := hI
    rw [stepsFrom, List.append_nil] at hsteps
    have hvisits : done.map Prod.fst = descendants func.label.cursor := by
      rw [← hsteps]
      exact map_fst_stepsFrom _ _ _
    rw [hvisits, ← hsteps, ← callbacksOf_flatMap] at hsearched
    rw [← hsteps, ← callbacksOf_flatMap] at hinside
    refine ⟨hsearched, ?_, hinside⟩
    intro v hv
    rw [← hvisits, ← hsteps] at hv
    obtain ⟨x, hx, rfl⟩ := List.mem_map.mp hv
    refine ⟨⟨x.1, x.2⟩, ?_, rfl⟩
    rw [callbacksOf_flatMap]
    exact List.mem_flatMap.mpr ⟨x, hx, List.mem_cons_self⟩

end Walk

section Run

variable {program : Program} {trackLocking : Bool}

variable (program) in
def Reached (funcs : List FuncInfo) (c : Cursor) : Prop := ∃ func ∈ funcs, Below program func.label.cursor c

theorem processFuncs_covers (funcs : List FuncInfo) (globals : Globals) :
    globals.touchedFuncUsrs ⊆ (processFuncs program trackLocking funcs globals).2.touchedFuncUsrs ∧
    (∀ func ∈ funcs, ∀ c ∈ calls program func.label.cursor,
      usrOf c ∈ (processFuncs program trackLocking funcs globals).2.touchedFuncUsrs) ∧
    Explored (CallsFrom program) usrOf (fun c => ∃ func ∈ funcs,
        Found program func.label.cursor (runCallbacks program trackLocking funcs globals) c)
      globals.touchedFuncUsrs (processFuncs program trackLocking funcs globals).2.touchedFuncUsrs := by
  induction funcs generalizing globals with
  | nil => exact ⟨List.Subset.refl _, List.forall_mem_nil _, .refl _⟩
  | cons func funcs ih =>
      have hfirst := (@covers_rule program trackLocking).result func globals trivial
      obtain ⟨hgrows, hdirect, hexplored⟩ := ih (processFuncInfo program trackLocking func globals).2
      rw [processFuncs, runCallbacks]
      refine ⟨List.Subset.trans hfirst.searched.grows hgrows, ?_, ?_⟩
      · rw [List.forall_mem_cons]
        refine ⟨?_, hdirect⟩
        intro c hc
        exact hgrows (hfirst.searched.direct c hc)
      · refine (hfirst.searched.explored.mono ?_).trans (hexplored.mono ?_) hgrows
        · intro c hfound
          exact ⟨func, List.mem_cons_self, hfound.mono (List.subset_append_left _ _)⟩
        · rintro c ⟨other, hother, hfound⟩
          exact ⟨other, List.mem_cons_of_mem _ hother, hfound.mono (List.subset_append_right _ _)⟩

theorem inside_run {funcs : List FuncInfo} {cb : Callback}
    (hcb : cb ∈ runCallbacks program trackLocking funcs initGlobals) :
    (∃ func ∈ funcs, cb.visit ∈ descendants func.label.cursor) ∨
      ∃ c, Reached program funcs c ∧ isLeaf program c = false ∧ cb.visit ∈ descendants c := by
  obtain ⟨before, func, after, rfl, hwalk⟩ := mem_runCallbacks hcb
  have hfunc : func ∈ before ++ func :: after := List.mem_append_right _ List.mem_cons_self
  have hcovers := (@covers_rule program trackLocking).result func
    (processFuncs program trackLocking before initGlobals).2 trivial
  rcases hcovers.inside cb hwalk with hown | ⟨c, hbelow, hopen, hvisit⟩
  · exact .inl ⟨func, hfunc, hown⟩
  · exact .inr ⟨c, ⟨func, hfunc, hbelow⟩, hopen, hvisit⟩

theorem visited_root {funcs : List FuncInfo} {globals : Globals} {func : FuncInfo} (hfunc : func ∈ funcs)
    {visit : Visit CursorInfo} (hvisit : visit ∈ descendants func.label.cursor) :
    ∃ cb ∈ runCallbacks program trackLocking funcs globals, cb.visit = visit := by
  induction funcs generalizing globals with
  | nil => cases hfunc
  | cons first funcs ih =>
      rw [runCallbacks]
      rcases List.mem_cons.mp hfunc with rfl | hfunc
      · obtain ⟨cb, hcb, heq⟩ := ((@covers_rule program trackLocking).result func globals trivial).visited visit hvisit
        exact ⟨cb, List.mem_append_left _ hcb, heq⟩
      · obtain ⟨cb, hcb, heq⟩ := ih hfunc
        exact ⟨cb, List.mem_append_right _ hcb, heq⟩

/-- Where no two functions that calls lead to share a USR, the walks find each of them. -/
theorem found_of_reached {funcs : List FuncInfo}
    (hone : ∀ c d, Reached program funcs c → Reached program funcs d → usrOf c = usrOf d → c = d) {c : Cursor}
    (hc : Reached program funcs c) :
    (∃ func ∈ funcs, Found program func.label.cursor (runCallbacks program trackLocking funcs initGlobals) c) ∧
      usrOf c ∈ (processFuncs program trackLocking funcs initGlobals).2.touchedFuncUsrs := by
  obtain ⟨-, hdirect, hexplored⟩ := @processFuncs_covers program trackLocking funcs initGlobals
  obtain ⟨func, hfunc, start, hstart, hreach⟩ := hc
  refine hexplored.reachable (hdirect func hfunc start hstart) ?_ hreach
  rintro d e ⟨other, hother, hfound⟩ he hkey
  exact hone d e ⟨other, hother, hfound.below⟩ ⟨func, hfunc, start, hstart, he⟩ hkey

end Run

/-- The run over the requested functions visits the nodes of these and of the functions that their calls
lead to, and no others, and the callees it appends are the functions called. -/
theorem run_covers (program : Program) (trackLocking : Bool) (roots : List Cursor)
    (hone : ∀ c d, Reached program (roots.map requestedFunc) c → Reached program (roots.map requestedFunc) d →
      usrOf c = usrOf d → c = d) :
    (∀ visit, (∃ cb ∈ runCallbacks program trackLocking (roots.map requestedFunc) initGlobals, cb.visit = visit) ↔
      (∃ root ∈ roots, visit ∈ descendants root) ∨
        ∃ c, Reached program (roots.map requestedFunc) c ∧ isLeaf program c = false ∧ visit ∈ descendants c) ∧
    ∀ usr, usr ∈ (processFuncs program trackLocking (roots.map requestedFunc) initGlobals).1.flatMap calleeUsrs ↔
      ∃ c, Reached program (roots.map requestedFunc) c ∧ usrOf c = usr := by
  have hroots : ∀ visit, (∃ func ∈ roots.map requestedFunc, visit ∈ descendants func.label.cursor) ↔
      ∃ root ∈ roots, visit ∈ descendants root := by
    intro visit
    simp [requestedFunc, initFuncInfo]
  constructor
  · intro visit
    rw [← hroots]
    constructor
    · rintro ⟨cb, hcb, rfl⟩
      exact inside_run hcb
    · rintro (⟨func, hfunc, hvisit⟩ | ⟨c, hc, hopen, hvisit⟩)
      · exact visited_root hfunc hvisit
      · obtain ⟨⟨func, -, hfound⟩, -⟩ := found_of_reached hone hc
        exact hfound.visited hopen visit hvisit
  · have htouched : (processFuncs program trackLocking (roots.map requestedFunc) initGlobals).1.flatMap calleeUsrs =
        (processFuncs program trackLocking (roots.map requestedFunc) initGlobals).2.touchedFuncUsrs := by
      rw [processFuncs_touched_eq]
      · rfl
      · intro func hfunc
        obtain ⟨root, -, rfl⟩ := List.mem_map.mp hfunc
        rfl
    intro usr
    rw [htouched]
    constructor
    · intro husr
      obtain ⟨-, -, hexplored⟩ := @processFuncs_covers program trackLocking (roots.map requestedFunc) initGlobals
      obtain ⟨c, hc, ⟨func, hfunc, hfound⟩, -⟩ := (hexplored usr husr).resolve_left List.not_mem_nil
      exact ⟨c, ⟨func, hfunc, hfound.below⟩, hc⟩
    · rintro ⟨c, hc, rfl⟩
      exact (found_of_reached hone hc).2

theorem helper_reached {c : Cursor}
    (h : Reached helperProgram ([helperCaller 10 "f", helperCaller 20 "g"].map requestedFunc) c) : c = helper := by
  have hcalls : ∀ func ∈ [helperCaller 10 "f", helperCaller 20 "g"].map requestedFunc,
      calls helperProgram func.label.cursor = [helper] := by
    intro func hfunc
    simp only [List.map_cons, List.map_nil, List.mem_cons, List.not_mem_nil, or_false] at hfunc
    rcases hfunc with rfl | rfl
    · rfl
    · rfl
  obtain ⟨func, hfunc, start, hstart, hreach⟩ := h
  rw [hcalls func hfunc] at hstart
  obtain rfl := List.mem_singleton.mp hstart
  rcases ReflTransGen.cases_head hreach with heq | ⟨d, ⟨-, hd⟩, -⟩
  · exact heq.symm
  · have hnone : calls helperProgram helper = [] := rfl
    rw [hnone] at hd
    cases hd

theorem helper_appended : "c:@F@h" ∈ (processFuncs helperProgram false
    ([helperCaller 10 "f", helperCaller 20 "g"].map requestedFunc) initGlobals).1.flatMap calleeUsrs := by
  have hone := fun c d hc hd (_ : usrOf c = usrOf d) => (@helper_reached c hc).trans (@helper_reached d hd).symm
  apply ((run_covers helperProgram false [helperCaller 10 "f", helperCaller 20 "g"] hone).2 _).mpr
  refine ⟨helper, ⟨requestedFunc (helperCaller 10 "f"), List.mem_cons_self, helper, ?_, .refl⟩, rfl⟩
  exact List.mem_singleton.mpr rfl

end Prongc.CallCoverage
