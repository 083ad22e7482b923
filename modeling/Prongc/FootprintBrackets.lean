import Mathlib.Algebra.GroupWithZero.Nat
import Prongc.CallSites
import Prongc.LockVerdict
import Prongc.OpenBranches

namespace Prongc.FootprintBrackets

open Access Ast ParseCall WalkFunc WalkAst Callbacks Recursion Unwind UnwindFrame CallSites LockReach LockVerdict
  LockTracking OpenBranches Library.Traversal Library.BranchMarkers

section Marks

def unindexed (va : VarAccess) : Bool := va.type.isAccess || va.escParamIdx == noIdx

/-- Both entries are the same marker, or neither is one. Both are Call entries, or neither is one. -/
def Alike (va va' : VarAccess) : Prop := mark va' = mark va ∧ (va'.type = .call ↔ va.type = .call)

theorem alike_of_type {va va' : VarAccess} (h : va'.type = va.type) : Alike va va' := by
  rw [Alike, mark, mark, h]
  exact ⟨rfl, Iff.rfl⟩

theorem markVarAccess_alike {func : FuncData} {va : VarAccess} (h : unindexed va = true) :
    Alike va (markVarAccess func va) := by
  by_cases hlive : va.live = true
  · have hva : mark va = none ∧ va.type ≠ .call := by
      rcases (VarAccess.live_iff va).mp hlive with haccess | ht | ht
      · exact ⟨mark_isAccess haccess, fun hcall => by rw [hcall] at haccess; cases haccess⟩
      · simp [mark, ht]
      · simp [mark, ht]
    rcases markVarAccess_type func va with ht | ht | ht | ht
    · exact alike_of_type ht
    all_goals exact ⟨by rw [hva.1, mark, ht], iff_of_false (by simp [ht]) hva.2⟩
  · refine alike_of_type (markVarAccess_placeholder ?_ (by simpa using hlive))
    rcases Bool.or_eq_true_iff.mp h with haccess | hidx
    · exact absurd (VarAccess.live_of_isAccess haccess) hlive
    · simpa using hidx

theorem alike_of_renames {func : FuncData} {vas vas' : List VarAccess} (h : List.Forall₂ Renames vas vas')
    (hvas : ∀ va ∈ vas, unindexed va = true) : List.Forall₂ Alike vas (vas'.map (markVarAccess func)) := by
  induction h with
  | nil => exact .nil
  | @cons va _ _ _ hva _ ih =>
      obtain ⟨hfirst, hrest⟩ := List.forall_mem_cons.mp hvas
      obtain ⟨usr, rfl⟩ := hva
      exact .cons (@markVarAccess_alike func { va with usr := usr } hfirst) (ih hrest)

theorem marks_spliceFootprints {vas vas' : List VarAccess} {footprints footprints' : List (List VarAccess)}
    (hvas : List.Forall₂ Alike vas vas')
    (hfootprints : footprints'.map (List.filterMap mark) = footprints.map (List.filterMap mark)) :
    (spliceFootprints vas' footprints').filterMap mark = (spliceFootprints vas footprints).filterMap mark := by
  have hmarks : ∀ (va : VarAccess) vas footprints, va.type ≠ .call →
      (spliceFootprints (va :: vas) footprints).filterMap mark =
        (mark va).toList ++ (spliceFootprints vas footprints).filterMap mark := by
    intro va vas footprints hcall
    by_cases hnull : va.type = .null
    · rw [spliceFootprints_null _ _ hnull]
      simp [mark, hnull]
    · rw [spliceFootprints_other _ _ hcall hnull]
      cases hmark : mark va <;> simp [hmark]
  induction hvas generalizing footprints footprints' with
  | nil => rfl
  | @cons va va' vas vas' hva _ ih =>
      obtain ⟨hmark, hcall⟩ := hva
      by_cases hcalls : va.type = .call
      · have hcalls' := hcall.mpr hcalls
        cases footprints with
        | nil =>
            obtain rfl := List.map_eq_nil_iff.mp hfootprints
            rw [spliceFootprints_call_nil _ hcalls, spliceFootprints_call_nil _ hcalls', ih rfl]
        | cons footprint footprints =>
            cases footprints' with
            | nil => cases hfootprints
            | cons footprint' footprints' =>
                rw [List.map_cons, List.map_cons] at hfootprints
                obtain ⟨hfirst, hrest⟩ := List.cons.inj hfootprints
                rw [spliceFootprints_call _ _ hcalls, spliceFootprints_call _ _ hcalls', List.filterMap_append,
                  List.filterMap_append, hfirst, ih hrest]
      · rw [hmarks va' vas' footprints' (fun h => hcalls (hcall.mp h)), hmarks va vas footprints hcalls, hmark,
          ih hfootprints]

theorem marks_unwindCallees {labels : List FuncData} {callees : List FuncInfo}
    (h : List.Forall₂ RenamesIn (callees.map RoseTree.label) labels)
    (hcallees : ∀ callee ∈ callees, ∀ label, RenamesIn callee.label label →
      (buildVarAccessFootprint (unwindAs none label callee)).filterMap mark =
        (buildVarAccessFootprint callee).filterMap mark) :
    (calleeFootprints (unwindCallees labels callees)).map (List.filterMap mark) =
      (calleeFootprints callees).map (List.filterMap mark) := by
  induction callees generalizing labels with
  | nil => cases labels <;> rfl
  | cons callee callees ih =>
      cases h with
      | cons hlabel h =>
          obtain ⟨hcallee, hrest⟩ := List.forall_mem_cons.mp hcallees
          rw [unwindCallees, calleeFootprints, calleeFootprints, List.map_cons, List.map_cons,
            hcallee _ hlabel, ih h hrest]

theorem marks_unwindAs {func : FuncInfo} (h : func.all (entriesAll unindexed) = true) :
    ∀ parsed label, RenamesIn func.label label →
      (buildVarAccessFootprint (unwindAs parsed label func)).filterMap mark =
        (buildVarAccessFootprint func).filterMap mark := by
  induction func using RoseTree.childInduction with
  | hnode d callees ih =>
      intro parsed label hlabel
      obtain ⟨hown, hbelow⟩ := (RoseTree.all_iff _ _).mp h
      rw [RoseTree.label_node] at hlabel
      obtain ⟨vas, rfl, hvas⟩ := hlabel
      rw [unwindAs]
      split
      next hleaf =>
        have hleaf' : (d.inSystemHeader || !d.hasDefinition) = true := hleaf
        rw [buildVarAccessFootprint, if_pos hleaf, buildVarAccessFootprint, if_pos hleaf']
      next hleaf =>
        have hleaf' : ¬ (d.inSystemHeader || !d.hasDefinition) = true := hleaf
        rw [buildVarAccessFootprint, if_neg hleaf, buildVarAccessFootprint, if_neg hleaf']
        refine marks_spliceFootprints ?_ ?_
        · have hrenames := argumentAccesses_renames parsed { d with varAccesses := vas }
          exact alike_of_renames (forall₂_renames_trans hvas hrenames) (List.all_eq_true.mp hown)
        · exact marks_unwindCallees (resolveAliases_renames _ _) fun callee hcallee label hlabel =>
            ih callee hcallee (hbelow callee hcallee) none label hlabel

end Marks

section Brackets

theorem run_spliceFootprints {vas : List VarAccess} {footprints : List (List VarAccess)}
    (h : ∀ footprint ∈ footprints, run mark [] footprint = some []) (st : List Phase) :
    run mark st (spliceFootprints vas footprints) = run mark st vas := by
  induction vas generalizing footprints st with
  | nil => rfl
  | cons va vas ih =>
      by_cases hcall : va.type = .call
      · rw [run_cons_event (show mark va = none by simp [mark, hcall])]
        cases footprints with
        | nil =>
            rw [spliceFootprints_call_nil _ hcall]
            exact ih h st
        | cons footprint footprints =>
            obtain ⟨hfirst, hrest⟩ := List.forall_mem_cons.mp h
            rw [spliceFootprints_call _ _ hcall, run_append, run_neutral hfirst, Option.bind_some]
            exact ih hrest st
      · by_cases hnull : va.type = .null
        · rw [run_cons_event (show mark va = none by simp [mark, hnull]), spliceFootprints_null _ _ hnull]
          exact ih h st
        · rw [spliceFootprints_other _ _ hcall hnull, run_cons, run_cons]
          exact congrArg _ (funext fun st => ih h st)

theorem run_buildVarAccessFootprint {func : FuncInfo} (h : func.all closesBranches = true) :
    run mark [] (buildVarAccessFootprint func) = some [] := by
  induction func using RoseTree.childInduction with
  | hnode d callees ih =>
      obtain ⟨hown, hbelow⟩ := (RoseTree.all_iff _ _).mp h
      rw [buildVarAccessFootprint]
      split
      · rfl
      · rw [run_spliceFootprints]
        · simpa [closesBranches] using hown
        · intro footprint hfootprint
          rw [calleeFootprints_eq] at hfootprint
          obtain ⟨callee, hcallee, rfl⟩ := List.mem_map.mp hfootprint
          exact ih callee hcallee (hbelow callee hcallee)

theorem bracketed_rootFootprint {func : FuncInfo} (hentries : func.all (entriesAll unindexed) = true)
    (hclosed : func.all closesBranches = true) (funcCall : String) :
    Bracketed mark (rootFootprint func funcCall) := by
  have hmarks := marks_unwindAs hentries (some (parseFuncCall funcCall).2) func.label (RenamesIn.refl _)
  rw [bracketed_iff_run, run_filterMap, rootFootprint, unwindFuncInfo, hmarks, ← run_filterMap]
  exact run_buildVarAccessFootprint hclosed

end Brackets

section Groups

def groupCount (fp : List VarAccess) : Nat := fp.countP fun va => va.type = .ifStmt

def ifCount (func : Cursor) : Nat := (descendants func).countP fun v => isIf v.node

mutual

/-- The if statements in the bodies that a footprint is built from. -/
def inlinedIfs : FuncInfo → Nat
  | .node func callees =>
      if func.inSystemHeader || !func.hasDefinition then 0 else ifCount func.cursor + calleeIfs callees

def calleeIfs : List FuncInfo → Nat
  | [] => 0
  | callee :: callees => inlinedIfs callee + calleeIfs callees

end

def groupsItsIfs (func : FuncData) : Bool :=
  func.inSystemHeader || !func.hasDefinition || groupCount func.varAccesses == ifCount func.cursor

theorem groupCount_append (vas vas' : List VarAccess) :
    groupCount (vas ++ vas') = groupCount vas + groupCount vas' := List.countP_append

theorem groupCount_marks (fp : List VarAccess) : groupCount fp = (fp.filterMap mark).count .ifStmt := by
  rw [groupCount, List.count, List.countP_filterMap]
  apply List.countP_congr
  intro va _
  cases ht : va.type <;> simp [mark, ht]

theorem groupCount_cons {va : VarAccess} (h : va.type ≠ .ifStmt) (vas : List VarAccess) :
    groupCount (va :: vas) = groupCount vas := by
  rw [groupCount, List.countP_cons_of_neg (by simpa using h), groupCount]

theorem groupCount_spliceFootprints {vas : List VarAccess} {footprints : List (List VarAccess)}
    (h : callCount vas = footprints.length) :
    groupCount (spliceFootprints vas footprints) = groupCount vas + (footprints.map groupCount).sum := by
  refine splicing_induction (motive := fun vas footprints => groupCount (spliceFootprints vas footprints) =
    groupCount vas + (footprints.map groupCount).sum) rfl ?_ ?_ h
  · intro va vas footprint footprints hcall ih
    rw [spliceFootprints_call _ _ hcall, groupCount_append, ih, groupCount_cons (by simp [hcall]), List.map_cons,
      List.sum_cons, Nat.add_left_comm]
  · intro va vas footprints hcall ih
    by_cases hnull : va.type = .null
    · rw [spliceFootprints_null _ _ hnull, ih, groupCount_cons (by simp [hnull])]
    · rw [spliceFootprints_other _ _ hcall hnull, ← @List.singleton_append _ va (spliceFootprints vas footprints),
        ← @List.singleton_append _ va vas, groupCount_append, groupCount_append, ih, Nat.add_assoc]

theorem calleeIfs_eq (callees : List FuncInfo) : calleeIfs callees = (callees.map inlinedIfs).sum := by
  induction callees with
  | nil => rfl
  | cons callee callees ih => rw [calleeIfs, ih, List.map_cons, List.sum_cons]

theorem groupCount_buildVarAccessFootprint {func : FuncInfo} (h : CalleePerCall func)
    (hgroups : func.all groupsItsIfs = true) : groupCount (buildVarAccessFootprint func) = inlinedIfs func := by
  induction h with
  | @node d callees count _ _ _ ih =>
      obtain ⟨hown, hbelow⟩ := (RoseTree.all_iff _ _).mp hgroups
      rw [buildVarAccessFootprint, inlinedIfs]
      split
      · rfl
      · have hcount : groupCount d.varAccesses = ifCount d.cursor := by simp_all [groupsItsIfs]
        rw [groupCount_spliceFootprints (by rw [count, calleeFootprints_eq, List.length_map]), hcount, calleeIfs_eq,
          calleeFootprints_eq, List.map_map]
        refine congrArg (fun counts => ifCount d.cursor + List.sum counts) (List.map_congr_left ?_)
        exact fun callee hcallee => ih callee hcallee (hbelow callee hcallee)

variable (program : Program)

structure GroupsSoFar (func : FuncInfo) (rest : List (Visit CursorInfo)) (s : WalkState) : Prop where
  visits : ∃ done, descendants func.label.cursor = done ++ rest ∧
    groupCount s.currentFunc.varAccesses = done.countP fun v => isIf v.node
  cursor : s.currentFunc.cursor = func.label.cursor
  callees : ∀ callee ∈ s.callees, callee.all groupsItsIfs = true

variable {program} {func : FuncInfo} {rest : List (Visit CursorInfo)} {s : WalkState}

theorem groupCount_markersAt (current parent : Cursor) (s : WalkState) :
    groupCount (markersAt program true current parent s) = if isIf current then 1 else 0 := by
  have hclosed : groupCount (closedBranches program true parent s) = 0 := by
    rw [groupCount, List.countP_eq_zero]
    intro va hva
    simp [@closedBranches_type program s parent va hva]
  have hbranches : groupCount ((branchMarkers true current parent).map s.marker) = 0 := by
    rw [groupCount, List.countP_eq_zero]
    rw [branchMarkers]
    grind [marker_type]
  rw [markersAt, List.map_append, groupCount_append, groupCount_append, hclosed, hbranches]
  rw [ifStmtMarkers]
  cases hif : isOfKind .ifStmt current <;> simp [isIf, hif, groupCount]

theorem GroupsSoFar.after {w : Visit CursorInfo} (h : GroupsSoFar func (w :: rest) s) {s' : WalkState}
    {vas : List VarAccess} {new : List FuncInfo} (hadds : Adds program true w.node w.parent s vas new s')
    (hvas : groupCount vas = 0) (hnew : ∀ callee ∈ new, callee.all groupsItsIfs = true) : GroupsSoFar func rest s' := by
  obtain ⟨done, hvisits, hcount⟩ := h.visits
  constructor
  · refine ⟨done ++ [w], by rw [hvisits, List.append_assoc]; rfl, ?_⟩
    rw [hadds.varAccesses, groupCount_append, groupCount_append, hcount, hvas, groupCount_markersAt,
      List.countP_append, List.countP_singleton, Nat.add_zero]
  · rw [hadds.cursor, h.cursor]
  · rw [hadds.callees]
    exact List.forall_mem_append.mpr ⟨h.callees, hnew⟩

theorem groupsItsIfs_calleeInfo {working : Cursor} (hleaf : isLeafCallee (calleeInfo program working) = true) :
    (calleeInfo program working).all groupsItsIfs = true := by
  refine (RoseTree.all_iff _ _).mpr ⟨?_, fun _ hc => by cases hc⟩
  rw [groupsItsIfs, Bool.or_eq_true_iff]
  exact .inl hleaf

theorem groups_rule : WalkRule program true
    (fun func _ => func.children = [] ∧ func.label.varAccesses = [])
    (fun func _ rest s => GroupsSoFar func rest s)
    (fun _ _ result => result.1.all groupsItsIfs = true) where
  start func globals h := by
    obtain ⟨hchildren, hentries⟩ := h
    refine ⟨⟨[], rfl, by rw [enterFunc, hentries]; rfl⟩, rfl, ?_⟩
    rw [enterFunc, hchildren]
    exact fun _ hc => by cases hc
  nested func globals visit rest s callee globals' _ h := by
    obtain ⟨working, -, -, -, rfl, -⟩ := nestedWalk_eq_some.mp h
    exact ⟨rfl, rfl⟩
  step func globals visit rest s hI hpost := by
    rcases visitorWalkFunc_adds (Q := fun _ callee => callee.all groupsItsIfs = true)
      (fun _ hleaf => groupsItsIfs_calleeInfo hleaf) (fun _ _ hnested => hpost _ _ hnested) with
        ⟨vas, hvas, hadds⟩ | ⟨working, callee, hcallee, hadds⟩
    · refine hI.after hadds (List.countP_eq_zero.mpr fun va hva hif => ?_) (List.forall_mem_nil _)
      have haccess := References.isAccess_of_recorded hvas va hva
      rw [of_decide_eq_true hif] at haccess
      cases haccess
    · exact hI.after hadds rfl (List.forall_mem_singleton.mpr hcallee)
  finish func globals s hI := by
    obtain ⟨done, hvisits, hcount⟩ := hI.visits
    rw [List.append_nil] at hvisits
    rw [RoseTree.all_iff]
    refine ⟨?_, hI.callees⟩
    rw [groupsItsIfs, Bool.or_eq_true_iff, beq_iff_eq]
    refine .inr ?_
    rw [WalkState.func, RoseTree.label_node, hcount, ← hvisits, hI.cursor, ifCount]

end Groups

section Run

variable (program : Program)

/-- With lock tracking on, the conditionals around a cursor are open whenever it is visited, each in the
part that the cursor is in. The footprints are bracketed, with a group for each if statement of the bodies
they are built from, and the annotation finds each then-block and never leaves more branches than it
has entered. -/
structure WellBracketed (funcs : List FuncInfo) (funcNames : List String) : Prop where
  nested : ∀ cb ∈ runCallbacks program true funcs initGlobals,
    run mark [] (cb.before.currentFunc.varAccesses ++
      markersAt program true cb.visit.node cb.visit.parent cb.before) = some (openPhases cb.visit)
  bracketed : ∀ fp ∈ footprints program true funcs funcNames, Bracketed mark fp
  groups : ∀ (i : Nat) func funcCall, (processFuncs program true funcs initGlobals).1[i]? = some func →
    funcNames[i]? = some funcCall → groupCount (rootFootprint func funcCall) = inlinedIfs func
  scans : ∀ fp ∈ footprints program true funcs funcNames, ∀ seen va rest, fp = seen ++ va :: rest →
    (va.type = .ifStmt → (startOfBranch fp seen.length).isSome) ∧
      (va.type = .endIf → endIfEntries seen < ifEntries seen ∧
        (ifEntries fp < 2 ^ 64 → 0 < seen.foldl nextDepth 0))

variable {program} {funcs : List FuncInfo} {roots : List Cursor}

theorem depth_of_endIf {fp seen rest : List VarAccess} {va : VarAccess} (hb : Bracketed mark fp)
    (hfp : fp = seen ++ va :: rest) (hty : va.type = .endIf) : endIfEntries seen < ifEntries seen ∧
      (ifEntries fp < 2 ^ 64 → 0 < seen.foldl nextDepth 0) := by
  have hrun := (bracketed_iff_run fp).mp hb
  rw [hfp] at hrun
  obtain ⟨ps, hps, hr⟩ := run_prefix hrun
  rw [run_cons_mark (show mark va = some .endIf by simp [mark, hty])] at hr
  have hlen := length_of_run hps
  cases ps with
  | nil => cases hr
  | cons p ps =>
      rw [List.length_cons, List.length_nil] at hlen
      refine ⟨by omega, fun hfits => ?_⟩
      rw [(depth_of_ifs hfits hfp hps).1]
      exact Nat.succ_pos _

theorem requestedFunc_fresh (root : Cursor) : (requestedFunc root).children = [] ∧
    (requestedFunc root).label.varAccesses = [] ∧ isLeafCallee (requestedFunc root) = false := ⟨rfl, rfl, rfl⟩

theorem startsOutside_root (hsafe : BranchesSafe program funcs)
    (hfresh : ∀ func ∈ funcs, func.children = [] ∧ func.label.varAccesses = []) {before after : List FuncInfo}
    {func : FuncInfo} (h : funcs = before ++ func :: after) :
    StartsOutside program funcs func (processFuncs program true before initGlobals).2 ∧
      NoIf (processFuncs program true before initGlobals).2.ancestryStack := by
  induction before using List.reverseRecOn generalizing func after with
  | nil =>
      obtain ⟨hchildren, hentries⟩ := hfresh func (h ▸ List.mem_cons_self)
      have hstack : NoIf initGlobals.ancestryStack := fun c hc => by cases hc
      exact ⟨⟨.root h, hchildren, hentries, .inl hstack⟩, hstack⟩
  | append_singleton before last ih =>
      obtain ⟨hchildren, hentries⟩ := hfresh func (h ▸ List.mem_append_right _ List.mem_cons_self)
      have hlast := h
      rw [List.append_assoc, List.singleton_append] at hlast
      obtain ⟨hstarts, houtside⟩ := ih hlast
      have hstack : NoIf (processFuncs program true (before ++ [last]) initGlobals).2.ancestryStack := by
        rw [processFuncs_append_globals]
        exact ((branches_rule hsafe).result last _ hstarts).1 houtside
      exact ⟨⟨.root h, hchildren, hentries, .inl hstack⟩, hstack⟩

theorem entries_unindexed (func : FuncInfo) (globals : Globals) (hentries : func.label.varAccesses = [])
    (hchildren : func.children = []) :
    (processFuncInfo program true func globals).1.all (entriesAll unindexed) = true := by
  refine (entries_rule (p := unindexed) ?_ ?_ ?_).result func globals ?_
  · intro current parent s va hva
    obtain ⟨type, rfl⟩ := mem_markersAt program true current parent s hva
    rw [unindexed, Bool.or_eq_true_iff]
    exact .inr rfl
  · exact fun _ _ => rfl
  · intro stack spelling current va h
    rw [unindexed, (References.declRefAccess_isAccess h).1, Bool.true_or]
  · rw [RoseTree.all_iff, entriesAll, hentries, hchildren]
    exact ⟨rfl, fun _ hc => by cases hc⟩

/-- In every run that comes out of all conditionals in time the branch markers are well bracketed. -/
theorem wellBracketed_of_safe (hsafe : BranchesSafe program (roots.map requestedFunc))
    (funcNames : List String) : WellBracketed program (roots.map requestedFunc) funcNames := by
  have hfresh : ∀ func ∈ roots.map requestedFunc, func.children = [] ∧ func.label.varAccesses = [] ∧
      isLeafCallee func = false := by
    intro func hfunc
    obtain ⟨root, -, rfl⟩ := List.mem_map.mp hfunc
    exact requestedFunc_fresh root
  have hstart := fun before after func h => (@startsOutside_root program _ hsafe
    (fun func hfunc => ⟨(hfresh func hfunc).1, (hfresh func hfunc).2.1⟩) before after func h).1
  have hwalked : ∀ func ∈ (processFuncs program true (roots.map requestedFunc) initGlobals).1,
      func.all (entriesAll unindexed) = true ∧ func.all closesBranches = true ∧
        CalleePerCall func ∧ func.all groupsItsIfs = true := by
    intro walked hmem
    obtain ⟨before, func, after, hfuncs, rfl⟩ := mem_processFuncs hmem
    obtain ⟨hchildren, hentries, hleaf⟩ := hfresh func (hfuncs ▸ List.mem_append_right _ List.mem_cons_self)
    exact ⟨entries_unindexed func _ hentries hchildren,
      ((branches_rule hsafe).result func _ (hstart before after func hfuncs)).2,
      (calleePerCall_rule.result func _ ⟨hchildren, hentries, hleaf⟩).1,
      groups_rule.result func _ ⟨hchildren, hentries⟩⟩
  have hbracketed : ∀ fp ∈ footprints program true (roots.map requestedFunc) funcNames, Bracketed mark fp := by
    intro fp hfp
    obtain ⟨func, hfunc, funcCall, rfl⟩ := mem_footprints hfp
    obtain ⟨hentries, hclosed, -⟩ := hwalked func hfunc
    exact bracketed_rootFootprint hentries hclosed _
  constructor
  · intro cb hcb
    obtain ⟨before, func, after, hfuncs, hcb⟩ := mem_runCallbacks hcb
    exact (branches_rule hsafe).callbacks (J := fun cb => run mark [] (cb.before.currentFunc.varAccesses ++
      markersAt program true cb.visit.node cb.visit.parent cb.before) = some (openPhases cb.visit))
      (fun _ _ _ _ _ hI => (hI.enter hsafe).2) func _ (hstart before after func hfuncs) cb hcb
  · exact hbracketed
  · intro i func funcCall hfunc _
    obtain ⟨hentries, -, hcalls, hgroups⟩ := hwalked func (List.mem_of_getElem? hfunc)
    rw [groupCount_marks, rootFootprint, unwindFuncInfo,
      marks_unwindAs hentries (some (parseFuncCall funcCall).2) func.label (RenamesIn.refl _), ← groupCount_marks]
    exact groupCount_buildVarAccessFootprint hcalls hgroups
  · intro fp hfp seen va rest hsplit
    exact ⟨startOfBranch_isSome (hbracketed fp hfp) hsplit, depth_of_endIf (hbracketed fp hfp) hsplit⟩

/-- if (c) { x = 1; } with the global variables c and x. -/
def conditionalWrite : Cursor :=
  .node { id := 3, kind := .ifStmt }
    [.node { id := 4, kind := .declRefExpr, referenced := some 31 } [],
     .node { id := 5, kind := .compoundStmt }
      [.node { id := 6, kind := .binaryOperator, binaryOperatorKind := .assign }
        [.node { id := 7, kind := .declRefExpr, referenced := some 30 } [],
         .node { id := 8, kind := .other 106 } []]]]

/-- void f() { if (c) { x = 1; } } -/
def endsInIf : Cursor := definitionOf 1 "f" [] [conditionalWrite]

/-- void f() { if (c) { x = 1; } ; } -/
def endsBehindIf : Cursor := definitionOf 1 "f" [] [conditionalWrite, .node { id := 9, kind := .other 230 } []]

def branchProgram : Program where
  tuArray := []
  fileNames := []
  decls := [.node { id := 30, kind := .varDecl, usr := "c:@x" } [],
    .node { id := 31, kind := .varDecl, usr := "c:@c" } []]
  zeroCursorIsNull := false

def endsBehindIfAt (path : List Nat) : Cursor := (endsBehindIf.subtreeAt path).getD endsBehindIf

theorem endsBehindIf_calls : ∀ x ∈ ownCallbacks branchProgram true (processFuncInfo branchProgram true)
    (requestedFunc endsBehindIf) initGlobals,
      (nestedWalk branchProgram true x.1.node x.1.parent x.2).isNone = true := by
  decide +kernel

theorem endsBehindIf_recognised : ∀ x ∈ ownCallbacks branchProgram true (processFuncInfo branchProgram true)
    (requestedFunc endsBehindIf) initGlobals, Ancestry.ParentRecognised x.1 x.2 :=
  @Ancestry.recognised_of_paths endsBehindIfAt [([], []), ([0], [[0]]), ([0, 0], [[0, 0], [0]]),
    ([0, 0], [[0, 0, 0], [0, 0], [0]]), ([0, 0, 1], [[0, 0, 1], [0, 0], [0]]),
    ([0, 0, 1, 0], [[0, 0, 1, 0], [0, 0, 1], [0, 0], [0]]),
    ([0, 0, 1, 0], [[0, 0, 1, 0, 0], [0, 0, 1, 0], [0, 0, 1], [0, 0], [0]]),
    ([0], [[0, 0, 1, 0, 1], [0, 0, 1, 0], [0, 0, 1], [0, 0], [0]])] _ rfl (by decide)

/-- A function that goes on behind its if is well bracketed. -/
theorem endsBehindIf_wellBracketed :
    WellBracketed branchProgram ([endsBehindIf].map requestedFunc) ["f()"] := by
  refine wellBracketed_of_safe ⟨?_, ?_, ?_, ?_⟩ ["f()"]
  · intro func globals h
    obtain ⟨rfl, rfl⟩ := Ancestry.isWalk_single endsBehindIf_calls h
    have hshape : ∀ v ∈ descendants endsBehindIf, isIf v.node = true →
        (v.node.children.length = 2 ∨ v.node.children.length = 3) ∧
          v.node.children.Pairwise fun a b => cursorsAreEqual (some a) (some b) = false := by
      decide
    exact ⟨rfl, fun v hv hif => ⟨(hshape v hv hif).1, (hshape v hv hif).2⟩⟩
  · intro func globals h
    obtain ⟨rfl, rfl⟩ := Ancestry.isWalk_single endsBehindIf_calls h
    have hends : ∀ v ∈ (descendants endsBehindIf).getLast?.toList, ∀ c ∈ v.path, isIf c = false := by
      decide
    exact fun v hv => hends v (Option.mem_toList.mpr hv)
  · intro func globals h x hx _
    obtain ⟨rfl, rfl⟩ := Ancestry.isWalk_single endsBehindIf_calls h
    exact Ancestry.silentWalk_of_none (Option.isNone_iff_eq_none.mp (endsBehindIf_calls x hx))
  · intro func globals h
    obtain ⟨rfl, rfl⟩ := Ancestry.isWalk_single endsBehindIf_calls h
    exact endsBehindIf_recognised

/-- No marker ends the if that a function ends in. -/
theorem endsInIf_not_bracketed : ¬ WellBracketed branchProgram ([endsInIf].map requestedFunc) ["f()"] := by
  intro h
  have hopen : ∃ fp ∈ footprints branchProgram true ([endsInIf].map requestedFunc) ["f()"],
      run mark [] fp ≠ some [] := by
    decide +kernel
  obtain ⟨fp, hfp, hrun⟩ := hopen
  exact hrun ((bracketed_iff_run fp).mp (h.bracketed fp hfp))

end Run

end Prongc.FootprintBrackets
