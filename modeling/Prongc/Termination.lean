import Mathlib.Data.List.Perm.Subperm
import Prongc.Recursion
import Prongc.UnwindFrame
import Prongc.RootIsolation

namespace Prongc.Termination

open Access Ast WalkFunc WalkAst Callbacks Recursion Unwind UnwindFrame RootIsolation Library.Traversal

mutual

/-- The call traces printed for an access: the names from the root to each function on whose branch
it is found first. The test compares the two structures byte by byte. -/
def traceVaOverlap (same : VarAccess → Bool) (callTrace : List String) : FuncInfo → List (List String)
  | .node func callees =>
      let callTrace := callTrace ++ [func.name]
      if func.inSystemHeader || !func.hasDefinition then []
      else if func.varAccesses.any same then [callTrace]
      else traceCallees same callTrace callees

def traceCallees (same : VarAccess → Bool) (callTrace : List String) : List FuncInfo → List (List String)
  | [] => []
  | callee :: callees => traceVaOverlap same callTrace callee ++ traceCallees same callTrace callees

end

def calleeUsrs (func : FuncInfo) : List String := (RoseTree.labelsAll func.children).map FuncData.usr

section Walk

variable {program : Program} {trackLocking : Bool}

/-- The touched USRs are those of the callees appended during the walk. -/
theorem touched_rule : WalkRule program trackLocking (fun func _ => func.children = [])
    (fun func globals _ s => s.touchedFuncUsrs =
      globals.touchedFuncUsrs ++ (RoseTree.labelsAll s.callees).map FuncData.usr ∧
        s.currentFunc.usr = func.label.usr)
    (fun func globals result => result.2.touchedFuncUsrs = globals.touchedFuncUsrs ++ calleeUsrs result.1 ∧
      result.1.label.usr = func.label.usr) where
  start func globals h := by simp [enterFunc, h, RoseTree.labelsAll]
  nested func globals visit rest s callee globals' _ h := by
    obtain ⟨working, -, -, -, rfl, -⟩ := nestedWalk_eq_some.mp h
    rfl
  step func globals visit rest s hI hpost := by
    obtain ⟨htouched, husr⟩ := hI
    rcases visitorWalkFunc_cases program trackLocking (processFuncInfo program trackLocking) visit.node
      visit.parent s with ⟨-, vas, -, h⟩ | ⟨-, -, h⟩ | ⟨working, -, -, -, h⟩ | ⟨working, hkind, hnew, hleaf, h⟩
    · rw [h]
      exact ⟨by simpa using htouched, by simpa [WalkState.pushVarAccesses] using husr⟩
    · rw [h]
      exact ⟨by simpa using htouched, by simpa using husr⟩
    · rw [h]
      refine ⟨?_, by simpa [addLeafCallee, touchCallee, WalkState.pushVarAccesses] using husr⟩
      simp [addLeafCallee, touchCallee, htouched, RoseTree.labelsAll_append, RoseTree.labelsAll,
        RoseTree.labels, calleeInfo, initFuncInfo]
    · obtain ⟨hcallee, hlabel⟩ := hpost _ _ (nestedWalk_eq_some.mpr ⟨working, hkind, hnew, hleaf, rfl, rfl⟩)
      rw [h]
      refine ⟨?_, by simpa [expandCallee, touchCallee, WalkState.pushVarAccesses] using husr⟩
      simp only [expandCallee, pushCursor_touchedFuncUsrs, pushCursor_callees, hcallee,
        RoseTree.labelsAll_append, RoseTree.labelsAll, RoseTree.labels_eq, List.append_nil,
        List.map_append, List.map_cons, hlabel, calleeUsrs]
      simp [touchCallee, htouched, calleeInfo, initFuncInfo]
  finish func globals s hI := hI

theorem touched_eq {func : FuncInfo} (h : func.children = []) (globals : Globals) :
    (processFuncInfo program trackLocking func globals).2.touchedFuncUsrs =
      globals.touchedFuncUsrs ++ calleeUsrs (processFuncInfo program trackLocking func globals).1 :=
  (touched_rule.result func globals h).1

theorem nodup_touch {usrs : List String} {usr : String} (h : usrs.Nodup) (hfresh : usr ∉ usrs) :
    (usrs ++ [usr]).Nodup := by
  rw [List.nodup_append]
  refine ⟨h, List.pairwise_singleton _ usr, ?_⟩
  rintro old hold new hnew rfl
  exact hfresh (List.mem_singleton.mp hnew ▸ hold)

variable (program) in
def TouchedOnce (usrs : List String) : Prop :=
  usrs.Nodup ∧ usrs ⊆ program.decls.map fun decl => decl.label.usr

theorem touchedOnce_touch {usrs : List String} {usr : String} (h : TouchedOnce program usrs)
    (hfresh : usr ∉ usrs) (hdecl : ∃ decl ∈ program.decls, decl.label.usr = usr) :
    TouchedOnce program (usrs ++ [usr]) := by
  refine ⟨nodup_touch h.1 hfresh, ?_⟩
  intro u hu
  rcases List.mem_append.mp hu with hu | hu
  · exact h.2 hu
  · obtain ⟨decl, hmem, hd⟩ := hdecl
    exact List.mem_map.mpr ⟨decl, hmem, hd.trans (List.mem_singleton.mp hu).symm⟩

theorem touchedOnce_rule : WalkRule program trackLocking
    (fun _ globals => TouchedOnce program globals.touchedFuncUsrs)
    (fun _ _ _ s => TouchedOnce program s.touchedFuncUsrs)
    (fun _ _ result => TouchedOnce program result.2.touchedFuncUsrs) where
  start _ _ h := h
  nested func globals visit rest s callee globals' hI h := by
    obtain ⟨htouched, hfresh, hdecl⟩ := nestedWalk_touched h
    rw [htouched]
    exact touchedOnce_touch hI hfresh hdecl
  step func globals visit rest s hI hpost := by
    rcases visitorWalkFunc_cases program trackLocking (processFuncInfo program trackLocking) visit.node
      visit.parent s with ⟨-, vas, -, h⟩ | ⟨-, -, h⟩ | ⟨working, -, hnew, -, h⟩ | ⟨working, hkind, hnew, hleaf, h⟩
    · simpa [h] using hI
    · simpa [h] using hI
    · obtain ⟨hworking, hfresh⟩ := Option.filter_eq_some_iff.mp hnew
      have htouch := touchedOnce_touch hI (by simpa using hfresh) (workingCursor_declared hworking)
      simpa [h, addLeafCallee, touchCallee] using htouch
    · have hcallee := hpost _ _ (nestedWalk_eq_some.mpr ⟨working, hkind, hnew, hleaf, rfl, rfl⟩)
      simpa [h, expandCallee] using hcallee
  finish _ _ _ hI := hI

variable (program trackLocking) in
def expandedUsrs (callbacks : List Callback) : List String :=
  callbacks.filterMap fun cb =>
    (nestedWalk program trackLocking cb.visit.node cb.visit.parent cb.before).map fun walk => walk.1.label.usr

variable (program trackLocking) in
def expandedAt (x : Visit CursorInfo × WalkState) : List String :=
  match nestedWalk program trackLocking x.1.node x.1.parent x.2 with
  | none => []
  | some (callee, globals) =>
      callee.label.usr :: expandedUsrs program trackLocking (callbacksOf program trackLocking callee globals)

theorem expandedUsrs_callbacksOf (func : FuncInfo) (globals : Globals) :
    expandedUsrs program trackLocking (callbacksOf program trackLocking func globals) =
      (ownCallbacks program trackLocking (processFuncInfo program trackLocking) func globals).flatMap
        (expandedAt program trackLocking) := by
  rw [callbacksOf_eq, expandedUsrs, List.filterMap_flatMap]
  apply List.flatMap_congr
  rintro ⟨visit, s⟩ -
  rw [expandedAt]
  cases hnested : nestedWalk program trackLocking visit.node visit.parent s with
  | none => simp [hnested]
  | some walk => simp [hnested, expandedUsrs]

theorem expandedAt_sublist {visit : Visit CursorInfo} {s : WalkState}
    (hnested : ∀ callee globals, nestedWalk program trackLocking visit.node visit.parent s =
      some (callee, globals) → ∃ usrs, (processFuncInfo program trackLocking callee globals).2.touchedFuncUsrs =
          globals.touchedFuncUsrs ++ usrs ∧
        (expandedUsrs program trackLocking (callbacksOf program trackLocking callee globals)).Sublist usrs) :
    ∃ usrs, (visitorWalkFunc program trackLocking (processFuncInfo program trackLocking) visit.node
        visit.parent s).touchedFuncUsrs = s.touchedFuncUsrs ++ usrs ∧
      (expandedAt program trackLocking (visit, s)).Sublist usrs := by
  rw [expandedAt]
  rcases visitorWalkFunc_cases program trackLocking (processFuncInfo program trackLocking) visit.node
    visit.parent s with ⟨hkind, vas, -, h⟩ | ⟨-, hnew, h⟩ | ⟨working, -, hnew, hleaf, h⟩ |
      ⟨working, hkind, hnew, hleaf, h⟩
  · have hnone : nestedWalk program trackLocking visit.node visit.parent s = none := if_neg hkind
    exact ⟨[], by simp [h], by simp [hnone]⟩
  · exact ⟨[], by simp [h], by simp [nestedWalk_none_of_skipped hnew]⟩
  · exact ⟨[working.label.usr], by simp [h, addLeafCallee, touchCallee],
      by simp [nestedWalk_none_of_leaf hnew hleaf]⟩
  · have hsome := nestedWalk_eq_some.mpr ⟨working, hkind, hnew, hleaf, rfl, rfl⟩
    obtain ⟨usrs, htouched, hsub⟩ := hnested _ _ hsome
    refine ⟨working.label.usr :: usrs, ?_, ?_⟩
    · rw [h]
      simp only [expandCallee, pushCursor_touchedFuncUsrs, htouched]
      simp [touchCallee]
    · rw [hsome]
      exact hsub.cons_cons _

theorem expandedUsrs_sublist (func : FuncInfo) (globals : Globals) :
    ∃ usrs, (processFuncInfo program trackLocking func globals).2.touchedFuncUsrs =
        globals.touchedFuncUsrs ++ usrs ∧
      (expandedUsrs program trackLocking (callbacksOf program trackLocking func globals)).Sublist usrs := by
  induction hn : untouched program globals.touchedFuncUsrs using Nat.strongRecOn
    generalizing func globals with
  | ind n ih =>
      have hsteps : ∀ visits s, untouched program s.touchedFuncUsrs ≤ n →
          ∃ usrs, (visits.foldl (visitStep (visitorWalkFunc program trackLocking
              (processFuncInfo program trackLocking))) s).touchedFuncUsrs = s.touchedFuncUsrs ++ usrs ∧
            ((stepsFrom (visitStep (visitorWalkFunc program trackLocking
              (processFuncInfo program trackLocking))) s visits).flatMap
                (expandedAt program trackLocking)).Sublist usrs := by
        intro visits
        induction visits with
        | nil => exact fun s _ => ⟨[], by simp, List.Sublist.refl _⟩
        | cons visit visits ihv =>
            intro s hs
            obtain ⟨later, hlater, hsub⟩ := ihv (visitStep (visitorWalkFunc program trackLocking
              (processFuncInfo program trackLocking)) s visit)
                (Nat.le_trans (untouched_visitorWalkFunc_le _ _ _) hs)
            obtain ⟨usrs, htouched, hsub'⟩ := @expandedAt_sublist program trackLocking visit s
              fun callee globals' hnested =>
                ih _ (Nat.lt_of_lt_of_le (nestedWalk_untouched hnested) hs) callee globals' rfl
            refine ⟨usrs ++ later, ?_, ?_⟩
            · rw [List.foldl_cons, hlater, visitStep, htouched, List.append_assoc]
            · rw [stepsFrom, List.flatMap_cons]
              exact hsub'.append hsub
      obtain ⟨usrs, htouched, hsub⟩ := hsteps (descendants func.label.cursor) (enterFunc func globals)
        (Nat.le_of_eq hn)
      refine ⟨usrs, ?_, ?_⟩
      · rw [processFuncInfo_eq, walkFunc_eq]
        exact htouched
      · rw [expandedUsrs_callbacksOf]
        exact hsub

theorem processFuncs_touched_eq {funcs : List FuncInfo} (h : ∀ func ∈ funcs, func.children = [])
    (globals : Globals) :
    (processFuncs program trackLocking funcs globals).2.touchedFuncUsrs =
      globals.touchedFuncUsrs ++
        (processFuncs program trackLocking funcs globals).1.flatMap calleeUsrs := by
  induction funcs generalizing globals with
  | nil => simp [processFuncs]
  | cons func funcs ih =>
      simp only [processFuncs, List.flatMap_cons]
      rw [ih fun f hf => h f (List.mem_cons_of_mem _ hf), touched_eq (h func List.mem_cons_self),
        List.append_assoc]

theorem processFuncs_touchedOnce (funcs : List FuncInfo) {globals : Globals}
    (h : TouchedOnce program globals.touchedFuncUsrs) :
    TouchedOnce program (processFuncs program trackLocking funcs globals).2.touchedFuncUsrs := by
  induction funcs generalizing globals with
  | nil => exact h
  | cons func funcs ih => exact ih (touchedOnce_rule.result func globals h)

theorem expandedUsrs_runCallbacks (funcs : List FuncInfo) (globals : Globals) :
    ∃ usrs, (processFuncs program trackLocking funcs globals).2.touchedFuncUsrs =
        globals.touchedFuncUsrs ++ usrs ∧
      (expandedUsrs program trackLocking (runCallbacks program trackLocking funcs globals)).Sublist usrs := by
  induction funcs generalizing globals with
  | nil => exact ⟨[], by simp [processFuncs], List.Sublist.refl _⟩
  | cons func funcs ih =>
      obtain ⟨usrs, htouched, hsub⟩ := @expandedUsrs_sublist program trackLocking func globals
      obtain ⟨later, hlater, hsub'⟩ := ih (processFuncInfo program trackLocking func globals).2
      refine ⟨usrs ++ later, ?_, ?_⟩
      · simp only [processFuncs, hlater, htouched, List.append_assoc]
      · rw [runCallbacks, expandedUsrs, List.filterMap_append]
        exact hsub.append hsub'

end Walk

section Passes

theorem unwindCallees_length {labels : List FuncData} {callees : List FuncInfo}
    (h : labels.length = callees.length)
    (hcallees : ∀ callee ∈ callees, ∀ parsed label,
      (unwindAs parsed label callee).labels.length = callee.labels.length) :
    (RoseTree.labelsAll (unwindCallees labels callees)).length = (RoseTree.labelsAll callees).length := by
  induction callees generalizing labels with
  | nil => cases labels <;> simp [unwindCallees]
  | cons callee callees ih =>
      cases labels with
      | nil => cases h
      | cons label labels =>
          rw [unwindCallees, RoseTree.labelsAll, RoseTree.labelsAll, List.length_append, List.length_append,
            hcallees callee List.mem_cons_self,
            ih (Nat.succ.inj h) fun c hc => hcallees c (List.mem_cons_of_mem _ hc)]

theorem unwindAs_length (t : FuncInfo) : ∀ parsed label,
    (unwindAs parsed label t).labels.length = t.labels.length := by
  induction t using RoseTree.childInduction with
  | hnode d callees ih =>
      intro parsed label
      rw [unwindAs]
      split
      · simp [RoseTree.labels]
      · simp only [RoseTree.labels, List.length_cons, Nat.add_right_cancel_iff]
        refine unwindCallees_length ?_ ih
        rw [← (resolveAliases_renames _ _).length_eq, List.length_map]

theorem spliceFootprints_length (vas : List VarAccess) (footprints : List (List VarAccess)) :
    (spliceFootprints vas footprints).length ≤ vas.length + footprints.flatten.length := by
  induction vas generalizing footprints with
  | nil => simp [spliceFootprints]
  | cons va vas ih =>
      unfold spliceFootprints
      split
      · cases footprints with
        | nil => exact Nat.le_trans (ih []) (by simp)
        | cons footprint footprints =>
            have := ih footprints
            simp only [List.length_append, List.length_cons, List.flatten_cons]
            omega
      · have := ih footprints
        split
        · simp only [List.length_cons]
          omega
        · simp only [List.length_cons]
          omega

def entryCount (labels : List FuncData) : Nat := (labels.flatMap FuncData.varAccesses).length

theorem calleeFootprints_length {callees : List FuncInfo}
    (h : ∀ callee ∈ callees, (buildVarAccessFootprint callee).length ≤ entryCount callee.labels) :
    (calleeFootprints callees).flatten.length ≤ entryCount (RoseTree.labelsAll callees) := by
  induction callees with
  | nil => simp [calleeFootprints]
  | cons callee callees ih =>
      have hcallee := h callee List.mem_cons_self
      have hcallees := ih fun c hc => h c (List.mem_cons_of_mem _ hc)
      rw [entryCount] at hcallee hcallees ⊢
      simp only [calleeFootprints, List.flatten_cons, RoseTree.labelsAll, List.flatMap_append,
        List.length_append]
      omega

theorem buildVarAccessFootprint_length (t : FuncInfo) :
    (buildVarAccessFootprint t).length ≤ entryCount t.labels := by
  induction t using RoseTree.childInduction with
  | hnode d callees ih =>
      rw [buildVarAccessFootprint]
      split
      · exact Nat.zero_le _
      · have hsplice := spliceFootprints_length d.varAccesses (calleeFootprints callees)
        have hcallees := calleeFootprints_length ih
        rw [entryCount] at hcallees ⊢
        simp only [RoseTree.labels, List.flatMap_cons, List.length_append]
        omega

theorem traceCallees_length {same : VarAccess → Bool} {callTrace : List String} {callees : List FuncInfo}
    (h : ∀ callee ∈ callees, (traceVaOverlap same callTrace callee).length ≤ callee.labels.length) :
    (traceCallees same callTrace callees).length ≤ (RoseTree.labelsAll callees).length := by
  induction callees with
  | nil => simp [traceCallees]
  | cons callee callees ih =>
      have hcallee := h callee List.mem_cons_self
      have hcallees := ih fun c hc => h c (List.mem_cons_of_mem _ hc)
      simp only [traceCallees, RoseTree.labelsAll, List.length_append]
      omega

theorem traceVaOverlap_length (same : VarAccess → Bool) (t : FuncInfo) : ∀ callTrace,
    (traceVaOverlap same callTrace t).length ≤ t.labels.length := by
  induction t using RoseTree.childInduction with
  | hnode d callees ih =>
      intro callTrace
      rw [traceVaOverlap]
      split
      · exact Nat.zero_le _
      · split
        · simp [RoseTree.labels]
        · have := @traceCallees_length same (callTrace ++ [d.name]) callees fun c hc => ih c hc _
          simp only [RoseTree.labels, List.length_cons]
          omega

end Passes

/-- The run of main over the roots ends: the recursion never gets to a depth beyond the number of
declarations, every callee is appended and expanded once, and the passes over the trees that come
out are bounded by their sizes. -/
structure RunEnds (program : Program) (trackLocking : Bool) (funcs : List FuncInfo) : Prop where
  bounded : ∀ beyond, (walkFunc program trackLocking)^[program.decls.length + 1] beyond =
    processFuncInfo program trackLocking
  appendedOnce : ((processFuncs program trackLocking funcs initGlobals).1.flatMap calleeUsrs).Nodup
  expandedOnce : (expandedUsrs program trackLocking
    (runCallbacks program trackLocking funcs initGlobals)).Nodup
  expandsAppended : expandedUsrs program trackLocking (runCallbacks program trackLocking funcs initGlobals) ⊆
    (processFuncs program trackLocking funcs initGlobals).1.flatMap calleeUsrs
  finite : ((processFuncs program trackLocking funcs initGlobals).1.flatMap RoseTree.labels).length ≤
    funcs.length + program.decls.length
  unwinds : ∀ root ∈ (processFuncs program trackLocking funcs initGlobals).1, ∀ parsed,
    (unwindFuncInfo parsed root).labels.length = root.labels.length
  builds : ∀ root ∈ (processFuncs program trackLocking funcs initGlobals).1, ∀ parsed,
    (buildVarAccessFootprint (unwindFuncInfo parsed root)).length ≤ entryCount (unwindFuncInfo parsed root).labels
  traces : ∀ root ∈ (processFuncs program trackLocking funcs initGlobals).1, ∀ parsed same,
    (traceVaOverlap same [] (unwindFuncInfo parsed root)).length ≤ root.labels.length

theorem labels_length (funcs : List FuncInfo) :
    (funcs.flatMap RoseTree.labels).length = funcs.length + (funcs.flatMap calleeUsrs).length := by
  induction funcs with
  | nil => rfl
  | cons func funcs ih =>
      simp only [List.flatMap_cons, List.length_append, ih, RoseTree.labels_eq, List.length_cons,
        calleeUsrs, List.length_map]
      omega

/-- For every program and every list of roots. -/
theorem run_ends (program : Program) (trackLocking : Bool) (roots : List Cursor) :
    RunEnds program trackLocking (roots.map requestedFunc) := by
  have hfresh : ∀ func ∈ roots.map requestedFunc, func.children = [] := by
    intro func hfunc
    obtain ⟨root, -, rfl⟩ := List.mem_map.mp hfunc
    rfl
  have htouched := @processFuncs_touched_eq program trackLocking _ hfresh initGlobals
  have honce := @processFuncs_touchedOnce program trackLocking (roots.map requestedFunc) initGlobals
    ⟨List.nodup_nil, List.nil_subset _⟩
  obtain ⟨usrs, hexpanded, hsub⟩ := @expandedUsrs_runCallbacks program trackLocking
    (roots.map requestedFunc) initGlobals
  obtain rfl : usrs = (processFuncs program trackLocking (roots.map requestedFunc) initGlobals).1.flatMap
      calleeUsrs := List.append_cancel_left (hexpanded.symm.trans htouched)
  rw [htouched] at honce
  constructor
  · exact processFuncInfo_beyond program trackLocking
  · exact honce.1
  · exact hsub.nodup honce.1
  · exact hsub.subset
  · have hbound := (List.subperm_of_subset honce.1 honce.2).length_le
    rw [labels_length, processFuncs_length]
    simpa [initGlobals] using hbound
  · exact fun root _ parsed => unwindAs_length root parsed root.label
  · exact fun root _ parsed => buildVarAccessFootprint_length _
  · intro root _ parsed same
    rw [← unwindAs_length root parsed root.label]
    exact traceVaOverlap_length same _ []

end Prongc.Termination
