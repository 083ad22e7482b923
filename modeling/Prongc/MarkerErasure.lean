import Prongc.TraceNames

namespace Prongc.MarkerErasure

open Access Ast DeclRef WalkFunc WalkAst Callbacks Recursion Unwind UnwindFrame TraceNames Library.Traversal

def isUnmarked (va : VarAccess) : Bool := !isBranchMarker va

def eraseFunc (func : FuncData) : FuncData := { func with varAccesses := func.varAccesses.filter isUnmarked }

def eraseTree : FuncInfo → FuncInfo := RoseTree.map eraseFunc

def eraseState (s : WalkState) : WalkState :=
  { s with currentFunc := eraseFunc s.currentFunc, callees := s.callees.map eraseTree }

section Walk

variable (program : Program)

theorem eraseState_pushVarAccesses (s : WalkState) (vas : List VarAccess) :
    eraseState (s.pushVarAccesses vas) = (eraseState s).pushVarAccesses (vas.filter isUnmarked) := by
  simp [eraseState, eraseFunc, WalkState.pushVarAccesses]

theorem eraseState_pushMarkers (s : WalkState) {vas : List VarAccess} (h : ∀ va ∈ vas, isBranchMarker va = true) :
    eraseState (s.pushVarAccesses vas) = eraseState s := by
  have hnone : vas.filter isUnmarked = [] := by
    rw [List.filter_eq_nil_iff]
    intro va hva
    simp [isUnmarked, h va hva]
  rw [eraseState_pushVarAccesses, hnone, pushVarAccesses_nil]

theorem eraseState_pushUnmarked (s : WalkState) (vas : List VarAccess) (h : ∀ va ∈ vas, isBranchMarker va = false) :
    eraseState (s.pushVarAccesses vas) = (eraseState s).pushVarAccesses vas := by
  have hall : vas.filter isUnmarked = vas := by
    rw [List.filter_eq_self]
    intro va hva
    rw [isUnmarked, h va hva]
    rfl
  rw [eraseState_pushVarAccesses, hall]

theorem eraseState_updateAncestryStack (parent : Cursor) (s : WalkState) :
    eraseState (updateAncestryStack program true parent s) =
      updateAncestryStack program false parent (eraseState s) := by
  have hclosed : ∀ va ∈ closedBranches program true parent s, isBranchMarker va = true := by
    intro va hva
    rw [closedBranches] at hva
    split at hva
    next => cases hva
    next =>
      obtain ⟨c, -, rfl⟩ := List.mem_map.mp hva
      rfl
  have hnone : closedBranches program false parent (eraseState s) = [] := by
    simp [closedBranches]
  rw [updateAncestryStack_eq, updateAncestryStack_eq, hnone, pushVarAccesses_nil]
  exact congrArg (fun t : WalkState => { t with ancestryStack := stackAt program parent s })
    (eraseState_pushMarkers s hclosed)

theorem eraseState_recordDeclaration (current : Cursor) (s : WalkState) :
    eraseState (recordDeclaration current s) = recordDeclaration current (eraseState s) := by
  rw [recordDeclaration, recordDeclaration]
  split
  next => split <;> rfl
  next => rfl

theorem eraseState_recordBranches (current parent : Cursor) (s : WalkState) :
    eraseState (recordBranches true current parent s) = recordBranches false current parent (eraseState s) := by
  rw [recordBranches, recordBranches, eraseState_pushMarkers]
  · simp [branchMarkers, ifStmtMarkers, pushVarAccesses_nil]
  · intro va hva
    obtain ⟨type, htype, rfl⟩ := List.mem_map.mp hva
    rw [isBranchMarker, marker_type]
    rw [branchMarkers, ifStmtMarkers] at htype
    grind

theorem eraseState_enterCursor (current parent : Cursor) (s : WalkState) :
    eraseState (enterCursor program true current parent s) =
      enterCursor program false current parent (eraseState s) := by
  rw [enterCursor, enterCursor, eraseState_recordBranches, eraseState_recordDeclaration,
    ← eraseState_updateAncestryStack]
  rfl

theorem eraseState_visitDeclRefExpr (current : Cursor) (s : WalkState) :
    eraseState (visitDeclRefExpr program current s) = visitDeclRefExpr program current (eraseState s) := by
  rw [visitDeclRefExpr, eraseState_pushUnmarked]
  · rfl
  · intro va hva
    exact (reference_named (Option.mem_toList.mp hva)).2

variable {process process' : FuncInfo → Globals → FuncInfo × Globals}

/-- The walk of a callee with lock tracking leaves what the plain walk leaves, once its markers are erased. -/
def Erases (process process' : FuncInfo → Globals → FuncInfo × Globals) : Prop :=
  ∀ func globals, process' (eraseTree func) globals =
    (eraseTree (process func globals).1, (process func globals).2)

theorem eraseTree_calleeInfo (working : Cursor) :
    eraseTree (calleeInfo program working) = calleeInfo program working := by
  rw [calleeInfo, initFuncInfo, eraseTree, RoseTree.map_node]
  rfl

theorem eraseState_processCallee (h : Erases process process') (working : Cursor) (s : WalkState) :
    eraseState (processCallee program process working s) = processCallee program process' working (eraseState s) := by
  have htouch : eraseState (touchCallee working s) = touchCallee working (eraseState s) :=
    congrArg (fun t : WalkState => { t with touchedFuncUsrs := s.touchedFuncUsrs ++ [working.label.usr] })
      (eraseState_pushUnmarked s [callEntry working s] (List.forall_mem_singleton.mpr rfl))
  have hcallee := eraseTree_calleeInfo program working
  rw [processCallee, processCallee, ← htouch]
  dsimp only
  split
  next => simp [eraseState, hcallee]
  next =>
    have hwalked := h (calleeInfo program working) (touchCallee working s).toGlobals
    rw [hcallee] at hwalked
    have hglobals : (eraseState (touchCallee working s)).toGlobals = (touchCallee working s).toGlobals := rfl
    rw [hglobals, hwalked]
    simp [eraseState]

theorem eraseState_visitorWalkFunc (h : Erases process process') (current parent : Cursor) (s : WalkState) :
    eraseState (visitorWalkFunc program true process current parent s) =
      visitorWalkFunc program false process' current parent (eraseState s) := by
  rw [visitorWalkFunc, visitorWalkFunc, ← eraseState_enterCursor]
  split
  next => exact eraseState_visitDeclRefExpr program current _
  next =>
    rw [visitCallExpr, visitCallExpr]
    have hnew : newCallee program current (eraseState (enterCursor program true current parent s)) =
        newCallee program current (enterCursor program true current parent s) := rfl
    rw [hnew]
    split
    next => rfl
    next working _ =>
      rw [← eraseState_processCallee program h]
      rfl
  next => rfl

theorem walkFunc_erases (h : Erases process process') :
    Erases (walkFunc program true process) (walkFunc program false process') := by
  intro func globals
  have hstep : Simulates
      (fun current parent s => (visitorWalkFunc program true process current parent s, .childVisitRecurse))
      (fun current parent s => (visitorWalkFunc program false process' current parent s, .childVisitRecurse))
      fun s t => t = eraseState s := by
    rintro current parent s t rfl
    exact ⟨(eraseState_visitorWalkFunc program h current parent s).symm, rfl⟩
  have hcursor : (eraseTree func).label.cursor = func.label.cursor := by
    rw [eraseTree, RoseTree.label_map]
    rfl
  have henter : enterFunc (eraseTree func) globals = eraseState (enterFunc func globals) := by
    rw [enterFunc, eraseTree, RoseTree.label_map, RoseTree.children_map]
    rfl
  have hwalked := visitChildren_simulates hstep func.label.cursor henter
  rw [walkFunc, walkFunc, hcursor, hwalked]
  simp [eraseState, WalkState.func, eraseTree]

theorem processFuncInfoUpTo_erases (depth : Nat) :
    Erases (processFuncInfoUpTo program true depth) (processFuncInfoUpTo program false depth) := by
  induction depth with
  | zero => exact fun func globals => rfl
  | succ depth ih =>
      intro func globals
      rw [processFuncInfoUpTo, processFuncInfoUpTo]
      exact walkFunc_erases program ih func globals

theorem processFuncs_erase (funcs : List FuncInfo) (globals : Globals) :
    processFuncs program false (funcs.map eraseTree) globals =
      ((processFuncs program true funcs globals).1.map eraseTree, (processFuncs program true funcs globals).2) := by
  induction funcs generalizing globals with
  | nil => rfl
  | cons func funcs ih =>
      have hfunc : processFuncInfo program false (eraseTree func) globals =
          (eraseTree (processFuncInfo program true func globals).1,
            (processFuncInfo program true func globals).2) :=
        processFuncInfoUpTo_erases program _ func globals
      have hrest := ih (processFuncInfo program true func globals).2
      simp only [List.map_cons, processFuncs, hfunc, hrest]

end Walk

section Unwinding

theorem filter_map_unmarked {f : VarAccess → VarAccess} {vas : List VarAccess}
    (h : ∀ va ∈ vas, isBranchMarker (f va) = isBranchMarker va) :
    (vas.map f).filter isUnmarked = (vas.filter isUnmarked).map f := by
  rw [List.filter_map]
  congr 1
  apply List.filter_congr
  intro va hva
  exact congrArg not (h va hva)

theorem isBranchMarker_mapArgument (paramUsr arg : String) (va : VarAccess) :
    isBranchMarker (mapArgument paramUsr arg va) = isBranchMarker va := by
  obtain ⟨usr, h⟩ := mapArgument_renames paramUsr arg va
  rw [h]
  rfl

theorem argumentAccesses_erase (parsed : Option (List String)) (func : FuncData) :
    argumentAccesses parsed (eraseFunc func) = (argumentAccesses parsed func).filter isUnmarked := by
  cases parsed with
  | none => rfl
  | some call =>
      have hfold : ∀ (pairs : List (String × String)) (vas : List VarAccess),
          pairs.foldl (fun vas pair => vas.map (mapArgument pair.1 pair.2)) (vas.filter isUnmarked) =
            (pairs.foldl (fun vas pair => vas.map (mapArgument pair.1 pair.2)) vas).filter isUnmarked := by
        intro pairs
        induction pairs with
        | nil => exact fun vas => rfl
        | cons pair pairs ih =>
            intro vas
            rw [List.foldl_cons, List.foldl_cons, ← ih,
              filter_map_unmarked fun va _ => isBranchMarker_mapArgument pair.1 pair.2 va]
      exact hfold _ _

theorem resolveVarAccessAlias_erase (func : FuncData) (va : VarAccess) :
    resolveVarAccessAlias (eraseFunc func) va = eraseFunc (resolveVarAccessAlias func va) := by
  have hkept : ∀ working ∈ func.varAccesses,
      isBranchMarker (if working.live ∧
          working.usr = some (cursorUsr (clangCursorGetArgument func.cursor va.escParamIdx))
        then { working with usr := va.usr } else working) = isBranchMarker working := by
    intro working _
    split
    next => rfl
    next => rfl
  exact congrArg (fun vas => { func with varAccesses := vas }) (filter_map_unmarked hkept).symm

theorem resolveNext_erase (st : Nat × List FuncData) (va : VarAccess) :
    resolveNext (st.1, st.2.map eraseFunc) va = ((resolveNext st va).1, (resolveNext st va).2.map eraseFunc) := by
  rw [resolveNext, resolveNext, List.getElem?_map]
  split
  next =>
    cases st.2[st.1]? with
    | none => rfl
    | some func =>
        have hheader : (eraseFunc func).inSystemHeader = func.inSystemHeader := rfl
        simp only [Option.map_some, hheader]
        split
        next => rfl
        next => rw [resolveVarAccessAlias_erase, List.map_set]
  next => rfl

theorem resolveAliases_erase (vas : List VarAccess) (callees : List FuncData) :
    resolveAliases (vas.filter isUnmarked) (callees.map eraseFunc) = (resolveAliases vas callees).map eraseFunc := by
  have hfold : ∀ (vas : List VarAccess) (st : Nat × List FuncData),
      (vas.filter isUnmarked).foldl resolveNext (st.1, st.2.map eraseFunc) =
        ((vas.foldl resolveNext st).1, (vas.foldl resolveNext st).2.map eraseFunc) := by
    intro vas
    induction vas with
    | nil => exact fun st => rfl
    | cons va vas ih =>
        intro st
        cases hmarker : isBranchMarker va with
        | true =>
            have hcall : va.type ≠ .call := by
              intro hcall
              rw [isBranchMarker, hcall] at hmarker
              cases hmarker
            have hnext : resolveNext st va = st := by
              rw [resolveNext, if_neg hcall]
            rw [List.filter_cons_of_neg (by simp [isUnmarked, hmarker]), ih, List.foldl_cons, hnext]
        | false =>
            rw [List.filter_cons_of_pos (by simp [isUnmarked, hmarker]), List.foldl_cons, resolveNext_erase, ih,
              List.foldl_cons]
  exact congrArg Prod.snd (hfold vas (0, callees))

theorem markVarAccess_kept {va : VarAccess} (h : wellNamed va = true) (hmarker : isBranchMarker va = true)
    (func : FuncData) : markVarAccess func va = va := by
  obtain ⟨-, husr, hspelling⟩ := unnamed_of_wellNamed h hmarker
  have hlock : lockArgumentType va = .null := by
    rw [lockArgumentType, hspelling]
  simp [markVarAccess, hlock, husr, containsUsr]

theorem isBranchMarker_mark (func : FuncData) {va : VarAccess} (h : wellNamed va = true) :
    isBranchMarker (markVarAccess func va) = isBranchMarker va := by
  cases hmarker : isBranchMarker va with
  | true => rw [markVarAccess_kept h hmarker, hmarker]
  | false => exact notMarker_mark func hmarker

theorem unwindCallees_erase {labels : List FuncData} {callees : List FuncInfo}
    (h : ∀ callee ∈ callees, ∀ label ∈ labels,
      unwindAs none (eraseFunc label) (eraseTree callee) = eraseTree (unwindAs none label callee)) :
    unwindCallees (labels.map eraseFunc) (callees.map eraseTree) = (unwindCallees labels callees).map eraseTree := by
  induction callees generalizing labels with
  | nil => cases labels <;> rfl
  | cons callee callees ih =>
      cases labels with
      | nil => rfl
      | cons label labels =>
          rw [List.map_cons, List.map_cons, unwindCallees, unwindCallees, List.map_cons,
            h callee List.mem_cons_self label List.mem_cons_self, ih]
          intro other hother below hbelow
          exact h other (List.mem_cons_of_mem _ hother) below (List.mem_cons_of_mem _ hbelow)

theorem unwindAs_erase (tree : FuncInfo) (h : tree.all (entriesAll wellNamed) = true) :
    ∀ parsed label, entriesAll wellNamed label = true →
      unwindAs parsed (eraseFunc label) (eraseTree tree) = eraseTree (unwindAs parsed label tree) := by
  induction tree using RoseTree.childInduction with
  | hnode d callees ih =>
      intro parsed label hlabel
      obtain ⟨-, hcallees⟩ := (RoseTree.all_iff _ _).mp h
      have hargs := wellNamed_survives.argumentAccesses parsed hlabel
      have hlabels : (callees.map eraseTree).map RoseTree.label = (callees.map RoseTree.label).map eraseFunc := by
        rw [List.map_map, List.map_map]
        apply List.map_congr_left
        intro callee _
        exact RoseTree.label_map eraseFunc callee
      have hleaf : ((eraseFunc label).inSystemHeader || !(eraseFunc label).hasDefinition) =
          (label.inSystemHeader || !label.hasDefinition) := rfl
      rw [eraseTree, RoseTree.map_node, ← eraseTree, unwindAs, unwindAs, hleaf]
      split
      next => rw [eraseTree, RoseTree.map_node]
      next =>
        have hmarked : ((argumentAccesses parsed label).map (markVarAccess label)).filter isUnmarked =
            ((argumentAccesses parsed label).filter isUnmarked).map (markVarAccess label) :=
          filter_map_unmarked fun va hva => isBranchMarker_mark label (List.all_eq_true.mp hargs va hva)
        have hbelow : ∀ below ∈ resolveAliases (argumentAccesses parsed label) (callees.map RoseTree.label),
            entriesAll wellNamed below = true := by
          apply wellNamed_survives.resolveAliases hargs
          intro below hbelow
          obtain ⟨callee, hcallee, rfl⟩ := List.mem_map.mp hbelow
          exact ((RoseTree.all_iff _ _).mp (hcallees callee hcallee)).1
        rw [argumentAccesses_erase, hlabels]
        dsimp only
        rw [resolveAliases_erase, unwindCallees_erase]
        · rw [eraseTree, RoseTree.map_node, ← eraseTree]
          congr 1
          exact congrArg (fun vas => { label with varAccesses := vas }) hmarked.symm
        · intro callee hcallee below hmem
          exact ih callee hcallee (hcallees callee hcallee) none below (hbelow below hmem)

theorem spliceFootprints_erase (vas : List VarAccess) (footprints : List (List VarAccess)) :
    spliceFootprints (vas.filter isUnmarked) (footprints.map (List.filter isUnmarked)) =
      (spliceFootprints vas footprints).filter isUnmarked := by
  induction vas generalizing footprints with
  | nil => rfl
  | cons va vas ih =>
      by_cases hcall : va.type = .call
      · have hkept : isUnmarked va = true := by
          rw [isUnmarked, isBranchMarker, hcall]
          rfl
        rw [List.filter_cons_of_pos hkept]
        cases footprints with
        | nil => rw [List.map_nil, spliceFootprints_call_nil _ hcall, spliceFootprints_call_nil _ hcall, ← ih,
            List.map_nil]
        | cons footprint footprints =>
            rw [List.map_cons, spliceFootprints_call _ _ hcall, spliceFootprints_call _ _ hcall,
              List.filter_append, ih]
      · by_cases hnull : va.type = .null
        · have hkept : isUnmarked va = true := by
            rw [isUnmarked, isBranchMarker, hnull]
            rfl
          rw [List.filter_cons_of_pos hkept, spliceFootprints_null _ _ hnull, spliceFootprints_null _ _ hnull, ih]
        · rw [spliceFootprints_other _ _ hcall hnull, List.filter_cons, List.filter_cons, ← ih]
          split
          next => rw [spliceFootprints_other _ _ hcall hnull]
          next => rfl

theorem buildVarAccessFootprint_erase (tree : FuncInfo) :
    buildVarAccessFootprint (eraseTree tree) = (buildVarAccessFootprint tree).filter isUnmarked := by
  induction tree using RoseTree.childInduction with
  | hnode d callees ih =>
      have hleaf : ((eraseFunc d).inSystemHeader || !(eraseFunc d).hasDefinition) =
          (d.inSystemHeader || !d.hasDefinition) := rfl
      rw [eraseTree, RoseTree.map_node, ← eraseTree, buildVarAccessFootprint, buildVarAccessFootprint, hleaf,
        CallSites.calleeFootprints_eq, CallSites.calleeFootprints_eq]
      split
      next => rfl
      next =>
        rw [← spliceFootprints_erase, List.map_map, List.map_map]
        congr 1
        exact List.map_congr_left ih

theorem rootFootprint_erase {tree : FuncInfo} (h : tree.all (entriesAll wellNamed) = true) (funcCall : String) :
    rootFootprint (eraseTree tree) funcCall = (rootFootprint tree funcCall).filter isUnmarked := by
  rw [rootFootprint, rootFootprint, unwindFuncInfo, unwindFuncInfo, ← buildVarAccessFootprint_erase,
    ← unwindAs_erase tree h _ _ ((RoseTree.all_iff _ _).mp h).1, eraseTree, RoseTree.label_map]

end Unwinding

theorem processFuncs_wellNamed (program : Program) (trackLocking : Bool) (roots : List Cursor) (globals : Globals) :
    ∀ tree ∈ (processFuncs program trackLocking (roots.map requestedFunc) globals).1,
      tree.all (entriesAll wellNamed) = true := by
  intro tree htree
  obtain ⟨before, func, after, hsplit, rfl⟩ := mem_processFuncs htree
  have hmem : func ∈ roots.map requestedFunc := by
    rw [hsplit]
    exact List.mem_append_right _ List.mem_cons_self
  obtain ⟨root, -, rfl⟩ := List.mem_map.mp hmem
  exact wellNamed_walked (requestedFunc root) _ rfl

theorem processFuncs_requested (program : Program) (roots : List Cursor) (globals : Globals) :
    processFuncs program false (roots.map requestedFunc) globals =
      ((processFuncs program true (roots.map requestedFunc) globals).1.map eraseTree,
        (processFuncs program true (roots.map requestedFunc) globals).2) := by
  have hroots : (roots.map requestedFunc).map eraseTree = roots.map requestedFunc := by
    rw [List.map_map]
    apply List.map_congr_left
    intro root _
    rw [Function.comp_apply, eraseTree, requestedFunc, initFuncInfo, RoseTree.map_node]
    rfl
  rw [← processFuncs_erase, hroots]

theorem footprints_erase (program : Program) (roots : List Cursor) (funcNames : List String) :
    footprints program false (roots.map requestedFunc) funcNames =
      (footprints program true (roots.map requestedFunc) funcNames).map (List.filter isUnmarked) := by
  have hnamed := processFuncs_wellNamed program true roots initGlobals
  rw [footprints, footprints, processFuncs_requested, List.map_zipWith, List.zipWith_map_left]
  generalize (processFuncs program true (roots.map requestedFunc) initGlobals).1 = trees at hnamed
  induction trees generalizing funcNames with
  | nil => rfl
  | cons tree trees ih =>
      cases funcNames with
      | nil => rfl
      | cons funcCall funcNames =>
          obtain ⟨htree, htrees⟩ := List.forall_mem_cons.mp hnamed
          rw [List.zipWith_cons_cons, List.zipWith_cons_cons, rootFootprint_erase htree, ih]
          exact htrees

/-- Lock tracking adds branch markers to the footprints and changes nothing else in them, and it leaves the
walk where the plain walk leaves it. -/
theorem lock_tracking_adds_markers (program : Program) (roots : List Cursor) (funcNames : List String) :
    footprints program false (roots.map requestedFunc) funcNames =
        (footprints program true (roots.map requestedFunc) funcNames).map (List.filter isUnmarked) ∧
      (processFuncs program false (roots.map requestedFunc) initGlobals).2 =
        (processFuncs program true (roots.map requestedFunc) initGlobals).2 := by
  constructor
  · exact footprints_erase program roots funcNames
  · rw [processFuncs_requested]

end Prongc.MarkerErasure
