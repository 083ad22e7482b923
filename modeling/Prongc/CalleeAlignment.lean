import Prongc.CallSites

namespace Prongc.CalleeAlignment

open Access Ast WalkFunc WalkAst Callbacks Recursion Unwind UnwindFrame CallSites Library.Traversal

section Definitions

variable (program : Program) (trackLocking : Bool)

def callUsrs (vas : List VarAccess) : List (Option String) :=
  (vas.filter fun va => va.type == .call).map VarAccess.escFuncUsr

/-- In every function of the tree, Call entries and callees have the same number, and each Call
entry has the USR of the callee with its number. -/
inductive Aligned : FuncInfo → Prop
  | node {d : FuncData} {callees : List FuncInfo}
      (own : callUsrs d.varAccesses = callees.map fun callee => some callee.label.usr)
      (below : ∀ callee ∈ callees, Aligned callee) : Aligned (.node d callees)

/-- The caller while a callee is walked: the callee is the last one, as far as its walk has come. -/
def waiting (current parent : Cursor) (s : WalkState) (started inner : FuncInfo) : FuncInfo :=
  let entered := enterCursor program trackLocking current parent s
  .node (touchCallee started.label.cursor entered).currentFunc (entered.callees ++ [inner])

/-- The trees that process_func_info builds: what it has of a function at each callback, at each
moment of a walk nested in it, and at the end. -/
inductive During : FuncInfo → Globals → FuncInfo → Prop
  | own {func : FuncInfo} {globals : Globals} {visit : Visit CursorInfo} {s : WalkState}
      (at_callback : (visit, s) ∈
        ownCallbacks program trackLocking (processFuncInfo program trackLocking) func globals) :
      During func globals s.func
  | nested {func callee inner : FuncInfo} {globals globals' : Globals} {visit : Visit CursorInfo} {s : WalkState}
      (at_callback : (visit, s) ∈
        ownCallbacks program trackLocking (processFuncInfo program trackLocking) func globals)
      (starts : nestedWalk program trackLocking visit.node visit.parent s = some (callee, globals'))
      (during : During callee globals' inner) :
      During func globals (waiting program trackLocking visit.node visit.parent s callee inner)
  | done {func : FuncInfo} {globals : Globals} :
      During func globals (processFuncInfo program trackLocking func globals).1

/-- At each Call entry the builder finds the callee of this entry, and puts the footprint of that
callee in the place of the entry. -/
def SplicedInPlace (func : FuncInfo) : Prop :=
  ∀ before call after, func.label.varAccesses = before ++ call :: after → call.type = .call →
    ∃ callee, func.children[callCount before]? = some callee ∧ call.escFuncUsr = some callee.label.usr ∧
      buildVarAccessFootprint func =
        spliceFootprints before (calleeFootprints (func.children.take (callCount before))) ++
          (buildVarAccessFootprint callee ++
            spliceFootprints after (calleeFootprints (func.children.drop (callCount before + 1))))

/-- Call entries and callees are aligned while the tree is built and when it is unwound, so that
the builder never looks for a callee that is not there. -/
structure AlignedThroughout (root : Cursor) (globals : Globals) : Prop where
  during : ∀ tree, During program trackLocking (requestedFunc root) globals tree → Aligned tree
  unwound : ∀ parsed, Aligned
    (unwindFuncInfo parsed (processFuncInfo program trackLocking (requestedFunc root) globals).1)
  spliced : ∀ parsed path func, (unwindFuncInfo parsed
      (processFuncInfo program trackLocking (requestedFunc root) globals).1).subtreeAt path = some func →
    isLeafCallee func = false → SplicedInPlace func

end Definitions

section Entries

theorem callUsrs_append (vas vas' : List VarAccess) : callUsrs (vas ++ vas') = callUsrs vas ++ callUsrs vas' := by
  rw [callUsrs, List.filter_append, List.map_append, ← callUsrs, ← callUsrs]

theorem callUsrs_cons_call {call : VarAccess} (hcall : call.type = .call) (vas : List VarAccess) :
    callUsrs (call :: vas) = call.escFuncUsr :: callUsrs vas := by
  rw [callUsrs, List.filter_cons_of_pos (by rw [hcall]; rfl), List.map_cons, ← callUsrs]

theorem callUsrs_cons_other {va : VarAccess} (hother : va.type ≠ .call) (vas : List VarAccess) :
    callUsrs (va :: vas) = callUsrs vas := by
  rw [callUsrs, List.filter_cons_of_neg (by simpa using hother), ← callUsrs]

theorem length_callUsrs (vas : List VarAccess) : (callUsrs vas).length = callCount vas := by
  rw [callUsrs, List.length_map, callCount, List.countP_eq_length_filter]

theorem callUsrs_eq_nil {vas : List VarAccess} (h : callCount vas = 0) : callUsrs vas = [] := by
  rw [← length_callUsrs] at h
  exact List.eq_nil_of_length_eq_zero h

theorem callUsrs_renames {vas vas' : List VarAccess} (h : List.Forall₂ Renames vas vas') :
    callUsrs vas' = callUsrs vas := by
  induction h with
  | nil => rfl
  | @cons va _ vas vas' hva _ ih =>
      obtain ⟨usr, rfl⟩ := hva
      by_cases hcall : va.type = .call
      · rw [callUsrs_cons_call hcall, @callUsrs_cons_call { va with usr := usr } hcall, ih]
      · rw [callUsrs_cons_other hcall, @callUsrs_cons_other { va with usr := usr } hcall, ih]

theorem markVarAccess_escFuncUsr (func : FuncData) (va : VarAccess) :
    (markVarAccess func va).escFuncUsr = va.escFuncUsr := by
  obtain ⟨type, h⟩ := Aliases.markVarAccess_retypes func va
  rw [h]

theorem callUsrs_mark (func : FuncData) {vas : List VarAccess}
    (h : ∀ va ∈ vas, va.type = .call → va.escParamIdx = noIdx) :
    callUsrs (vas.map (markVarAccess func)) = callUsrs vas := by
  induction vas with
  | nil => rfl
  | cons va vas ih =>
      obtain ⟨hva, hvas⟩ := List.forall_mem_cons.mp h
      have hiff := @markVarAccess_call_iff func va hva
      rw [List.map_cons]
      by_cases hcall : va.type = .call
      · rw [callUsrs_cons_call hcall, callUsrs_cons_call (hiff.mpr hcall), markVarAccess_escFuncUsr, ih hvas]
      · rw [callUsrs_cons_other hcall, callUsrs_cons_other fun h => hcall (hiff.mp h), ih hvas]

end Entries

section Trees

theorem Aligned.subtreeAt {tree func : FuncInfo} {path : List Nat} (h : Aligned tree)
    (hat : tree.subtreeAt path = some func) : Aligned func := by
  induction path generalizing tree with
  | nil => exact Option.some.inj hat ▸ h
  | cons i path ih =>
      obtain ⟨callee, hcallee, hsub⟩ := Option.bind_eq_some_iff.mp hat
      cases h with
      | node own below => exact ih (below callee (List.mem_of_getElem? hcallee)) hsub

theorem unwindAs_usr (parsed : Option (List String)) {func : FuncInfo} {label : FuncData}
    (h : RenamesIn func.label label) : (unwindAs parsed label func).label.usr = func.label.usr := by
  obtain ⟨vas, rfl, -⟩ := h
  cases func with
  | node d callees =>
      rw [unwindAs]
      split <;> rfl

theorem unwindCallees_usrs {labels : List FuncData} {callees : List FuncInfo}
    (h : List.Forall₂ RenamesIn (callees.map RoseTree.label) labels) :
    ((unwindCallees labels callees).map fun callee => some callee.label.usr) =
      callees.map fun callee => some callee.label.usr := by
  induction callees generalizing labels with
  | nil =>
      cases h
      rfl
  | cons callee callees ih =>
      cases h with
      | cons hlabel h => rw [unwindCallees, List.map_cons, List.map_cons, ih h, unwindAs_usr none hlabel]

theorem Aligned.unwindAs {func : FuncInfo} (h : Aligned func) (hunindexed : func.all Aliases.callsUnindexed = true) :
    ∀ parsed label, RenamesIn func.label label → Aligned (unwindAs parsed label func) := by
  induction h with
  | @node d callees own below ih =>
      intro parsed label hlabel
      obtain ⟨hd, hcallees⟩ := (RoseTree.all_iff Aliases.callsUnindexed _).mp hunindexed
      rw [RoseTree.label_node] at hlabel hd
      have hunindexed' := Aliases.callsUnindexed_renames hlabel hd
      obtain ⟨vas, rfl, hvas⟩ := hlabel
      rw [Unwind.unwindAs]
      split
      next => exact .node ((callUsrs_renames hvas).trans own) below
      next =>
        have hresolved := resolveAliases_renames
          (argumentAccesses parsed { d with varAccesses := vas }) (callees.map RoseTree.label)
        refine .node ?_ ?_
        · calc callUsrs ((argumentAccesses parsed { d with varAccesses := vas }).map
                (markVarAccess { d with varAccesses := vas }))
              = callUsrs (argumentAccesses parsed { d with varAccesses := vas }) :=
                callUsrs_mark _ (Aliases.argumentAccesses_unindexed parsed hunindexed')
            _ = callUsrs vas := callUsrs_renames (argumentAccesses_renames parsed { d with varAccesses := vas })
            _ = callUsrs d.varAccesses := callUsrs_renames hvas
            _ = callees.map fun callee => some callee.label.usr := own
            _ = _ := (unwindCallees_usrs hresolved).symm
        · intro callee' hcallee'
          obtain ⟨callee, hcallee, label, hlabel, rfl⟩ := mem_unwindCallees hresolved hcallee'
          exact ih callee hcallee (hcallees callee hcallee) none label hlabel

theorem Aligned.splicedInPlace {func : FuncInfo} (h : Aligned func) (hopen : isLeafCallee func = false) :
    SplicedInPlace func := by
  intro before call after hentries hcall
  cases h with
  | @node d callees own below =>
      rw [RoseTree.label_node] at hentries
      rw [hentries, callUsrs_append, callUsrs_cons_call hcall, eq_comm, List.map_eq_append_iff] at own
      obtain ⟨front, rest, rfl, hfront, hrest⟩ := own
      obtain ⟨callee, back, rfl, husr, hback⟩ := List.map_eq_cons_iff.mp hrest
      have hlength : callCount before = front.length := by
        rw [← length_callUsrs, ← hfront, List.length_map]
      refine ⟨callee, ?_, husr.symm, ?_⟩
      · rw [RoseTree.children_node, hlength, List.getElem?_append_right (Nat.le_refl _), Nat.sub_self]
        rfl
      · have hsplit : calleeFootprints (front ++ callee :: back) =
            calleeFootprints front ++ buildVarAccessFootprint callee :: calleeFootprints back := by
          rw [calleeFootprints_eq, List.map_append, List.map_cons, ← calleeFootprints_eq, ← calleeFootprints_eq]
        have hcount : callCount before = (calleeFootprints front).length := by
          rw [hlength, calleeFootprints_eq, List.length_map]
        have hleaf : ¬ (d.inSystemHeader || !d.hasDefinition) = true := by
          simpa [isLeafCallee] using hopen
        rw [buildVarAccessFootprint, if_neg hleaf, hentries, hsplit, spliceFootprints_append hcount,
          spliceFootprints_call _ _ hcall, RoseTree.children_node, hlength, List.take_left]
        congr 3
        simp

end Trees

section Walk

variable {program : Program} {trackLocking : Bool}

structure AlignedSoFar (usr : String) (s : WalkState) : Prop where
  usr_eq : s.currentFunc.usr = usr
  own : callUsrs s.currentFunc.varAccesses = s.callees.map fun callee => some callee.label.usr
  below : ∀ callee ∈ s.callees, Aligned callee

theorem AlignedSoFar.after {usr : String} {s s' : WalkState} {current parent : Cursor} {vas : List VarAccess}
    {new : List FuncInfo} (h : AlignedSoFar usr s) (hadds : Adds program trackLocking current parent s vas new s')
    (hvas : callUsrs vas = new.map fun callee => some callee.label.usr)
    (hnew : ∀ callee ∈ new, Aligned callee) : AlignedSoFar usr s' := by
  have hmarkers := callUsrs_eq_nil (@callCount_markersAt program trackLocking current parent s)
  constructor
  · rw [hadds.usr, h.usr_eq]
  · rw [hadds.varAccesses, callUsrs_append, callUsrs_append, h.own, hmarkers, List.append_nil, hvas, hadds.callees,
      List.map_append]
  · rw [hadds.callees]
    exact List.forall_mem_append.mpr ⟨h.below, hnew⟩

theorem AlignedSoFar.func {usr : String} {s : WalkState} (h : AlignedSoFar usr s) : Aligned s.func :=
  .node h.own h.below

theorem AlignedSoFar.call {usr : String} {s s' : WalkState} {current parent working : Cursor} {callee : FuncInfo}
    (h : AlignedSoFar usr s) (hadds : Adds program trackLocking current parent s
      [callEntry working (enterCursor program trackLocking current parent s)] [callee] s')
    (husr : callee.label.usr = working.label.usr) (hcallee : Aligned callee) : AlignedSoFar usr s' := by
  refine h.after hadds ?_ (List.forall_mem_singleton.mpr hcallee)
  rw [List.map_singleton, husr]
  rfl

theorem aligned_calleeInfo (working : Cursor) : Aligned (calleeInfo program working) :=
  .node rfl fun _ hc => by cases hc

variable (program trackLocking) in
theorem aligned_rule : WalkRule program trackLocking
    (fun func _ => func.children = [] ∧ func.label.varAccesses = [])
    (fun func _ _ s => AlignedSoFar func.label.usr s)
    (fun func _ result => Aligned result.1 ∧ result.1.label.usr = func.label.usr) where
  start func globals h := by
    obtain ⟨hchildren, hentries⟩ := h
    constructor
    · rfl
    · rw [enterFunc, hchildren, hentries]
      rfl
    · intro callee hcallee
      rw [enterFunc, hchildren] at hcallee
      cases hcallee
  nested func globals visit rest s callee globals' _ h := by
    obtain ⟨working, -, -, -, rfl, -⟩ := nestedWalk_eq_some.mp h
    exact ⟨rfl, rfl⟩
  step func globals visit rest s hI hpost := by
    rcases visitorWalkFunc_adds (Q := fun working callee => Aligned callee ∧ callee.label.usr = working.label.usr)
      (fun working _ => ⟨aligned_calleeInfo working, rfl⟩) (fun _ _ hnested => hpost _ _ hnested) with
        ⟨vas, hvas, hadds⟩ | ⟨working, callee, ⟨hcallee, husr⟩, hadds⟩
    · have hnone := callUsrs_eq_nil (callCount_of_accesses (References.isAccess_of_recorded hvas))
      exact hI.after hadds hnone (List.forall_mem_nil _)
    · exact hI.call hadds husr hcallee
  finish func globals s hI := ⟨hI.func, hI.usr_eq⟩

/-- Every tree the walk builds is aligned at every moment, with all callers that wait. -/
theorem aligned_during {func tree : FuncInfo} {globals : Globals} (h : During program trackLocking func globals tree)
    (hchildren : func.children = []) (hentries : func.label.varAccesses = []) :
    Aligned tree ∧ tree.label.usr = func.label.usr := by
  have hrule := aligned_rule program trackLocking
  induction h with
  | own at_callback =>
      obtain ⟨⟨rest, hI⟩, -⟩ := hrule.own ⟨hchildren, hentries⟩ _ at_callback
      exact ⟨hI.func, hI.usr_eq⟩
  | @nested func callee inner globals globals' visit s at_callback starts during ih =>
      obtain ⟨⟨rest, hI⟩, -⟩ := hrule.own ⟨hchildren, hentries⟩ _ at_callback
      obtain ⟨working, -, -, -, rfl, -⟩ := nestedWalk_eq_some.mp starts
      obtain ⟨hinner, husr⟩ := ih rfl rfl
      -- the callee being walked stands where its walk will be pushed
      have hadds : Adds program trackLocking visit.node visit.parent s
          [callEntry working (enterCursor program trackLocking visit.node visit.parent s)] [inner]
          { touchCallee working (enterCursor program trackLocking visit.node visit.parent s) with
            callees := (enterCursor program trackLocking visit.node visit.parent s).callees ++ [inner] } :=
        adds_entered rfl (by rw [enterCursor_callees])
      have hcalled := hI.call hadds husr hinner
      exact ⟨hcalled.func, hcalled.usr_eq⟩
  | done => exact hrule.result _ _ ⟨hchildren, hentries⟩

end Walk

/-- Call entries and callees never get out of step, from the first callback to the footprint. -/
theorem calls_aligned (program : Program) (trackLocking : Bool) (root : Cursor) (globals : Globals) :
    AlignedThroughout program trackLocking root globals := by
  have hwalked := ((aligned_rule program trackLocking).result (requestedFunc root) globals ⟨rfl, rfl⟩).1
  have hunwound : ∀ parsed, Aligned
      (unwindFuncInfo parsed (processFuncInfo program trackLocking (requestedFunc root) globals).1) := fun parsed =>
    hwalked.unwindAs (Aliases.processFuncInfo_unindexed program trackLocking (requestedFunc root) globals rfl)
      parsed _ (RenamesIn.refl _)
  constructor
  · exact fun tree htree => (aligned_during htree rfl rfl).1
  · exact hunwound
  · exact fun parsed path func hat hopen => ((hunwound parsed).subtreeAt hat).splicedInPlace hopen

end Prongc.CalleeAlignment
