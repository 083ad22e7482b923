import Prongc.Aliases
import Prongc.Termination

namespace Prongc.CallSites

open Access Ast WalkFunc WalkAst ParseCall Callbacks Recursion Unwind UnwindFrame RootIsolation Termination
  LockTracking Library.Traversal

section Inlining

variable (program : Program)

def calleeOf (node : Cursor) : Option Cursor :=
  if kindOf node = .callExpr then workingCursor program node else none

def callsAmong (visits : List (Visit CursorInfo)) : List Cursor :=
  visits.filterMap fun visit => calleeOf program visit.node

/-- The callees of a function, one for each call expression of its body in the order of the source. -/
def calls (func : Cursor) : List Cursor := callsAmong program (descendants func)

/-- The function that a path of call expressions leads to: the numbers of the calls to follow, each
in the body of the function before. -/
def calleeAt : List Nat → Cursor → Option Cursor
  | [], func => some func
  | i :: path, func => (calls program func)[i]?.bind (calleeAt path)

/-- All functions called below the root have a definition outside system headers. -/
def DefinedBelow (root : Cursor) : Prop :=
  ∀ i path callee, calleeAt program (i :: path) root = some callee →
    isLeafCallee (calleeInfo program callee) = false

/-- No two call expressions reached by inlining call functions of the same USR. -/
def CalledOnce (root : Cursor) : Prop :=
  ∀ i path j path' callee callee', calleeAt program (i :: path) root = some callee →
    calleeAt program (j :: path') root = some callee' → callee.label.usr = callee'.label.usr →
      i :: path = j :: path'

end Inlining

section Footprint

def callCount (vas : List VarAccess) : Nat := vas.countP fun va => va.type == .call

def entriesBefore : Nat → List VarAccess → List VarAccess
  | _, [] => []
  | 0, va :: vas => if va.type = .call then [] else va :: entriesBefore 0 vas
  | i + 1, va :: vas => va :: entriesBefore (if va.type = .call then i else i + 1) vas

def footprintBefore : List Nat → FuncInfo → List VarAccess
  | [], _ => []
  | i :: path, func =>
      spliceFootprints (entriesBefore i func.label.varAccesses) (calleeFootprints (func.children.take i)) ++
        match func.children[i]? with
        | some callee => footprintBefore path callee
        | none => []

/-- The tree holds a walk of the callee at the path, and behind the unwinding its footprint stands in
that of the root where the calls of the path do. -/
def CountedAt (program : Program) (trackLocking : Bool) (walked unwound : FuncInfo) (path : List Nat)
    (callee : Cursor) : Prop :=
  ∃ globals func', walked.subtreeAt path =
      some (processFuncInfo program trackLocking (calleeInfo program callee) globals).1 ∧
    unwound.subtreeAt path = some func' ∧
      footprintBefore path unwound ++ buildVarAccessFootprint func' <+: buildVarAccessFootprint unwound

/-- Every call expression that the walk of the root meets pushes its Call entry, and every call
expression reached by inlining counts. -/
structure EveryCallCounts (program : Program) (trackLocking : Bool) (root : Cursor) (funcCall : String) :
    Prop where
  inPlace : ∀ cb ∈ callbacksOf program trackLocking (requestedFunc root) initGlobals, ∀ callee,
    calleeOf program cb.visit.node = some callee → pushedEntries program trackLocking cb =
      markersAt program trackLocking cb.visit.node cb.visit.parent cb.before ++ [callEntry callee cb.before]
  inlined : ∀ i path callee, calleeAt program (i :: path) root = some callee →
    CountedAt program trackLocking (processFuncInfo program trackLocking (requestedFunc root) initGlobals).1
      (unwindFuncInfo (some (parseFuncCall funcCall).2)
        (processFuncInfo program trackLocking (requestedFunc root) initGlobals).1) (i :: path) callee

end Footprint

section Splicing

theorem callCount_append (vas vas' : List VarAccess) :
    callCount (vas ++ vas') = callCount vas + callCount vas' := List.countP_append

theorem callCount_eq_zero {vas : List VarAccess} (h : ∀ va ∈ vas, va.type ≠ .call) : callCount vas = 0 := by
  rw [callCount, List.countP_eq_zero]
  intro va hva
  simpa using h va hva

theorem entriesBefore_split {i : Nat} {vas : List VarAccess} (h : i < callCount vas) :
    ∃ call after, vas = entriesBefore i vas ++ call :: after ∧ call.type = .call ∧
      callCount (entriesBefore i vas) = i := by
  induction vas generalizing i with
  | nil => cases h
  | cons va vas ih =>
      rw [callCount, List.countP_cons, ← callCount] at h
      by_cases hcall : va.type = .call
      · cases i with
        | zero => exact ⟨va, vas, by simp [entriesBefore, hcall], hcall, by simp [entriesBefore, hcall, callCount]⟩
        | succ i =>
            obtain ⟨call, after, hsplit, htype, hcount⟩ := @ih i (by simp [hcall] at h; omega)
            refine ⟨call, after, ?_, htype, ?_⟩
            · rw [entriesBefore, if_pos hcall, List.cons_append, ← hsplit]
            · rw [entriesBefore, if_pos hcall, callCount, List.countP_cons, ← callCount, hcount]
              simp [hcall]
      · obtain ⟨call, after, hsplit, htype, hcount⟩ := @ih i (by simpa [hcall] using h)
        have hbefore : entriesBefore i (va :: vas) = va :: entriesBefore i vas := by
          cases i <;> rw [entriesBefore, if_neg hcall]
        refine ⟨call, after, ?_, htype, ?_⟩
        · rw [hbefore, List.cons_append, ← hsplit]
        · rw [hbefore, callCount, List.countP_cons, ← callCount, hcount]
          simp [hcall]

/-- Induction along the entries of a function, with a footprint for each of its Call entries. -/
theorem splicing_induction {motive : List VarAccess → List (List VarAccess) → Prop} (hnil : motive [] [])
    (hcall : ∀ va vas footprint footprints, va.type = .call → motive vas footprints →
      motive (va :: vas) (footprint :: footprints))
    (hother : ∀ va vas footprints, va.type ≠ .call → motive vas footprints → motive (va :: vas) footprints)
    {vas : List VarAccess} {footprints : List (List VarAccess)} (h : callCount vas = footprints.length) :
    motive vas footprints := by
  induction vas generalizing footprints with
  | nil =>
      obtain rfl : footprints = [] := List.eq_nil_of_length_eq_zero h.symm
      exact hnil
  | cons va vas ih =>
      rw [callCount, List.countP_cons, ← callCount] at h
      by_cases hva : va.type = .call
      · cases footprints with
        | nil => simp [hva] at h
        | cons footprint footprints => exact hcall va vas footprint footprints hva (ih (by simpa [hva] using h))
      · exact hother va vas footprints hva (ih (by simpa [hva] using h))

theorem spliceFootprints_append {vas : List VarAccess} {footprints : List (List VarAccess)}
    (h : callCount vas = footprints.length) (vas' : List VarAccess) (footprints' : List (List VarAccess)) :
    spliceFootprints (vas ++ vas') (footprints ++ footprints') =
      spliceFootprints vas footprints ++ spliceFootprints vas' footprints' := by
  refine splicing_induction (motive := fun vas footprints => spliceFootprints (vas ++ vas') (footprints ++ footprints') =
    spliceFootprints vas footprints ++ spliceFootprints vas' footprints') rfl ?_ ?_ h
  · intro va vas footprint footprints hcall ih
    rw [List.cons_append, List.cons_append, spliceFootprints_call _ _ hcall, spliceFootprints_call _ _ hcall, ih,
      List.append_assoc]
  · intro va vas footprints hcall ih
    rw [List.cons_append]
    by_cases hnull : va.type = .null
    · rw [spliceFootprints_null _ _ hnull, spliceFootprints_null _ _ hnull, ih]
    · rw [spliceFootprints_other _ _ hcall hnull, spliceFootprints_other _ _ hcall hnull, ih, List.cons_append]

theorem spliceFootprints_at {vas : List VarAccess} {footprints : List (List VarAccess)} {i : Nat}
    {footprint : List VarAccess} (hcount : callCount vas = footprints.length)
    (h : footprints[i]? = some footprint) :
    spliceFootprints (entriesBefore i vas) (footprints.take i) ++ footprint <+:
      spliceFootprints vas footprints := by
  obtain ⟨hi, hget⟩ := List.getElem?_eq_some_iff.mp h
  obtain ⟨call, after, hsplit, htype, hbefore⟩ := @entriesBefore_split i vas (hcount ▸ hi)
  have hfootprints : footprints = footprints.take i ++ footprint :: footprints.drop (i + 1) := by
    rw [← hget, List.getElem_cons_drop, List.take_append_drop]
  refine ⟨spliceFootprints after (footprints.drop (i + 1)), ?_⟩
  conv_rhs => rw [hsplit, hfootprints]
  rw [spliceFootprints_append (by rw [hbefore, List.length_take]; omega)]
  rw [spliceFootprints_call _ _ htype, List.append_assoc]

theorem calleeFootprints_eq (callees : List FuncInfo) :
    calleeFootprints callees = callees.map buildVarAccessFootprint := by
  induction callees with
  | nil => rfl
  | cons callee callees ih => rw [calleeFootprints, ih, List.map_cons]

end Splicing

section Trees

/-- Each function of the tree has one callee for each of its Call entries, and none if it is not
looked into. -/
inductive CalleePerCall : FuncInfo → Prop
  | node {d : FuncData} {callees : List FuncInfo} (count : callCount d.varAccesses = callees.length)
      (unindexed : Aliases.callsUnindexed d = true)
      (leaf : isLeafCallee (.node d callees) = true → callees = [])
      (below : ∀ callee ∈ callees, CalleePerCall callee) : CalleePerCall (.node d callees)

theorem footprintBefore_prefix {func callee : FuncInfo} {path : List Nat} (h : CalleePerCall func)
    (hat : func.subtreeAt path = some callee) :
    footprintBefore path func ++ buildVarAccessFootprint callee <+: buildVarAccessFootprint func := by
  induction path generalizing func with
  | nil =>
      obtain rfl := Option.some.inj hat
      exact List.prefix_rfl
  | cons i path ih =>
      obtain ⟨first, hfirst, hsub⟩ := Option.bind_eq_some_iff.mp hat
      cases h with
      | @node d callees count _ leaf below =>
          have hbelow := ih (below first (List.mem_of_getElem? hfirst)) hsub
          have hleaf : ¬ (d.inSystemHeader || !d.hasDefinition) = true := by
            intro h
            rw [leaf h] at hfirst
            cases hfirst
          rw [RoseTree.children_node] at hfirst
          have hsplice := @spliceFootprints_at d.varAccesses (calleeFootprints callees) i
            (buildVarAccessFootprint first) (by rw [count, calleeFootprints_eq, List.length_map])
            (by rw [calleeFootprints_eq, List.getElem?_map, hfirst, Option.map_some])
          rw [buildVarAccessFootprint, if_neg hleaf]
          refine List.IsPrefix.trans ?_ hsplice
          simp only [footprintBefore, RoseTree.label_node, RoseTree.children_node, hfirst, List.append_assoc,
            calleeFootprints_eq, List.map_take]
          exact (List.prefix_append_right_inj _).mpr hbelow

theorem lockPrimitiveTypeIn_cases (pairs : List LockPrimitivePair) (name : String) :
    lockPrimitiveTypeIn pairs name = .null ∨ lockPrimitiveTypeIn pairs name = .lockAcquire ∨
      lockPrimitiveTypeIn pairs name = .lockRelease := by
  induction pairs with
  | nil => exact .inl rfl
  | cons pair pairs ih =>
      rw [lockPrimitiveTypeIn]
      split
      · exact .inr (.inl rfl)
      · split
        · exact .inr (.inr rfl)
        · exact ih

theorem lockArgumentType_cases (va : VarAccess) : lockArgumentType va = .null ∨
    lockArgumentType va = .lockAcquire ∨ lockArgumentType va = .lockRelease := by
  rw [lockArgumentType]
  split
  · split
    · exact lockPrimitiveTypeIn_cases _ _
    · exact .inl rfl
  · exact .inl rfl

theorem markVarAccess_type (func : FuncData) (va : VarAccess) : (markVarAccess func va).type = va.type ∨
    (markVarAccess func va).type = .null ∨ (markVarAccess func va).type = .lockAcquire ∨
      (markVarAccess func va).type = .lockRelease := by
  have hlock := lockArgumentType_cases va
  unfold markVarAccess VarAccess.nullify
  grind

theorem lockArgumentType_unindexed {va : VarAccess} (h : va.escParamIdx = noIdx) :
    lockArgumentType va = .null := by
  have hidx : ¬ va.escParamIdx = 0 := by simp [h, noIdx]
  rw [lockArgumentType]
  split
  · rw [if_neg hidx]
  · rfl

theorem markVarAccess_placeholder {func : FuncData} {va : VarAccess} (hidx : va.escParamIdx = noIdx)
    (hlive : va.live = false) : (markVarAccess func va).type = va.type := by
  have hread : ¬ (va.type = .read ∨ va.type = .write) := by
    rintro (h | h) <;> rw [VarAccess.live_of_isAccess (by rw [h]; rfl)] at hlive <;> cases hlive
  simp [markVarAccess, lockArgumentType_unindexed hidx, hlive, hread]

theorem markVarAccess_call_iff {func : FuncData} {va : VarAccess}
    (h : va.type = .call → va.escParamIdx = noIdx) :
    (markVarAccess func va).type = .call ↔ va.type = .call := by
  constructor
  · intro hmarked
    rcases markVarAccess_type func va with ht | ht | ht | ht
    · rw [← ht, hmarked]
    all_goals simp [ht] at hmarked
  · intro hcall
    have hlive : va.live = false := by simp [VarAccess.live, hcall, vaIsPlaceholderType, VarAccessType.toNat]
    rw [markVarAccess_placeholder (h hcall) hlive, hcall]

theorem markVarAccess_escParamIdx (func : FuncData) (va : VarAccess) :
    (markVarAccess func va).escParamIdx = va.escParamIdx := by
  obtain ⟨type, h⟩ := Aliases.markVarAccess_retypes func va
  rw [h]

theorem callCount_map {f : VarAccess → VarAccess} {vas : List VarAccess}
    (h : ∀ va ∈ vas, (f va).type = .call ↔ va.type = .call) : callCount (vas.map f) = callCount vas := by
  rw [callCount, callCount, List.countP_map]
  apply List.countP_congr
  intro va hva
  simpa using h va hva

theorem callCount_renames {vas vas' : List VarAccess} (h : List.Forall₂ Renames vas vas') :
    callCount vas' = callCount vas := by
  induction h with
  | nil => rfl
  | cons hva _ ih =>
      obtain ⟨usr, rfl⟩ := hva
      rw [callCount, callCount, List.countP_cons, List.countP_cons, ← callCount, ← callCount, ih]

theorem length_unwindCallees {labels : List FuncData} {callees : List FuncInfo}
    (h : List.Forall₂ RenamesIn (callees.map RoseTree.label) labels) :
    (unwindCallees labels callees).length = callees.length := by
  induction callees generalizing labels with
  | nil =>
      cases h with
      | nil => rfl
  | cons callee callees ih =>
      cases h with
      | cons _ h => rw [unwindCallees, List.length_cons, ih h, List.length_cons]

theorem mem_unwindCallees {labels : List FuncData} {callees : List FuncInfo} {callee' : FuncInfo}
    (h : List.Forall₂ RenamesIn (callees.map RoseTree.label) labels)
    (hcallee' : callee' ∈ unwindCallees labels callees) :
    ∃ callee ∈ callees, ∃ label, RenamesIn callee.label label ∧ callee' = unwindAs none label callee := by
  induction callees generalizing labels with
  | nil =>
      cases h with
      | nil => cases hcallee'
  | cons callee callees ih =>
      cases h with
      | @cons _ label _ labels hlabel h =>
          rw [unwindCallees] at hcallee'
          rcases List.mem_cons.mp hcallee' with rfl | hcallee'
          · exact ⟨callee, List.mem_cons_self, label, hlabel, rfl⟩
          · obtain ⟨other, hother, found⟩ := ih h hcallee'
            exact ⟨other, List.mem_cons_of_mem _ hother, found⟩

theorem CalleePerCall.unwindAs {func : FuncInfo} (h : CalleePerCall func) :
    ∀ parsed label, RenamesIn func.label label → CalleePerCall (unwindAs parsed label func) := by
  induction h with
  | @node d callees count unindexed leaf below ih =>
      intro parsed label hlabel
      rw [RoseTree.label_node] at hlabel
      have hunindexed := Aliases.callsUnindexed_renames hlabel unindexed
      obtain ⟨vas, rfl, hvas⟩ := hlabel
      have hcount : callCount vas = callees.length := by
        rw [callCount_renames hvas]
        exact count
      rw [Unwind.unwindAs]
      split
      next hleaf =>
        have hnone : callees = [] := leaf hleaf
        subst hnone
        exact .node hcount hunindexed (fun _ => rfl) (fun _ hc => by cases hc)
      next hleaf =>
        have hargs := Aliases.argumentAccesses_unindexed parsed hunindexed
        have hresolved := resolveAliases_renames
          (argumentAccesses parsed { d with varAccesses := vas }) (callees.map RoseTree.label)
        refine .node ?_ ?_ (fun h => absurd h hleaf) ?_
        · rw [callCount_map fun va hva => markVarAccess_call_iff (hargs va hva),
            callCount_renames (argumentAccesses_renames parsed { d with varAccesses := vas }),
            length_unwindCallees hresolved]
          exact hcount
        · rw [Aliases.callsUnindexed_iff]
          intro va hva hcall
          obtain ⟨old, hold, rfl⟩ := List.mem_map.mp hva
          rw [markVarAccess_escParamIdx]
          exact hargs old hold ((markVarAccess_call_iff (hargs old hold)).mp hcall)
        · intro callee' hcallee'
          obtain ⟨callee, hcallee, label, hlabel, rfl⟩ := mem_unwindCallees hresolved hcallee'
          exact ih callee hcallee none label hlabel

theorem CalleePerCall.unwind_subtreeAt {func callee : FuncInfo} {path : List Nat} (h : CalleePerCall func)
    (hat : func.subtreeAt path = some callee) (parsed : Option (List String)) {label : FuncData}
    (hlabel : RenamesIn func.label label) :
    ∃ callee', (Unwind.unwindAs parsed label func).subtreeAt path = some callee' := by
  induction path generalizing func label parsed with
  | nil => exact ⟨_, rfl⟩
  | cons i path ih =>
      obtain ⟨first, hfirst, hsub⟩ := Option.bind_eq_some_iff.mp hat
      cases h with
      | @node d callees _ _ leaf below =>
          rw [RoseTree.children_node] at hfirst
          obtain ⟨vas, rfl, -⟩ := hlabel
          rw [Unwind.unwindAs]
          split
          next hleaf =>
            rw [leaf hleaf] at hfirst
            cases hfirst
          next hleaf =>
            obtain ⟨label', hlabel', hget⟩ := unwindCallees_getElem? (resolveAliases_renames
              (argumentAccesses parsed { d with varAccesses := vas }) (callees.map RoseTree.label)) hfirst
            obtain ⟨callee', hcallee'⟩ := ih (below first (List.mem_of_getElem? hfirst)) hsub none hlabel'
            refine ⟨callee', ?_⟩
            rw [RoseTree.subtreeAt, RoseTree.children_node]
            simp only [RoseTree.label_node, hget, Option.bind_some, hcallee']

end Trees

section Walk

variable {program : Program} {trackLocking : Bool}

structure CalleePerCallSoFar (s : WalkState) : Prop where
  count : callCount s.currentFunc.varAccesses = s.callees.length
  unindexed : Aliases.callsUnindexed s.currentFunc = true
  expanded : isLeafCallee s.func = false
  below : ∀ callee ∈ s.callees, CalleePerCall callee

theorem callCount_markersAt (current parent : Cursor) (s : WalkState) :
    callCount (markersAt program trackLocking current parent s) = 0 := by
  apply callCount_eq_zero
  intro va hva
  rcases markersAt_isMarker program trackLocking current parent s hva with ht | ht | ht | ht <;>
    simp [ht]

theorem callCount_of_accesses {vas : List VarAccess} (h : ∀ va ∈ vas, va.type.isAccess = true) :
    callCount vas = 0 := by
  apply callCount_eq_zero
  intro va hva hcall
  have haccess := h va hva
  rw [hcall] at haccess
  cases haccess

theorem unindexed_of_not_call {vas : List VarAccess} (h : callCount vas = 0) :
    ∀ va ∈ vas, va.type = .call → va.escParamIdx = noIdx := by
  intro va hva hcall
  rw [callCount, List.countP_eq_zero] at h
  exact absurd (by simpa using hcall) (h va hva)

theorem CalleePerCallSoFar.after {s s' : WalkState} {current parent : Cursor} {vas : List VarAccess}
    {new : List FuncInfo} (h : CalleePerCallSoFar s) (hadds : Adds program trackLocking current parent s vas new s')
    (hcount : callCount vas = new.length) (hunindexed : ∀ va ∈ vas, va.type = .call → va.escParamIdx = noIdx)
    (hnew : ∀ callee ∈ new, CalleePerCall callee) : CalleePerCallSoFar s' := by
  have hmarkers := @callCount_markersAt program trackLocking current parent s
  constructor
  · rw [hadds.varAccesses, callCount_append, callCount_append, h.count, hmarkers, hcount, hadds.callees,
      List.length_append, Nat.add_zero]
  · apply Aliases.callsUnindexed_append h.unindexed (hadds.varAccesses.trans (List.append_assoc _ _ _))
    exact List.forall_mem_append.mpr ⟨unindexed_of_not_call hmarkers, hunindexed⟩
  · rw [hadds.isLeaf, h.expanded]
  · rw [hadds.callees]
    exact List.forall_mem_append.mpr ⟨h.below, hnew⟩

theorem calleePerCall_calleeInfo (working : Cursor) : CalleePerCall (calleeInfo program working) :=
  .node rfl rfl (fun _ => rfl) (fun _ hc => by cases hc)

/-- A walk leaves one callee for each Call entry in every function. -/
theorem calleePerCall_rule : WalkRule program trackLocking
    (fun func _ => func.children = [] ∧ func.label.varAccesses = [] ∧ isLeafCallee func = false)
    (fun _ _ _ s => CalleePerCallSoFar s)
    (fun _ _ result => CalleePerCall result.1 ∧ isLeafCallee result.1 = false) where
  start func globals h := by
    obtain ⟨hchildren, hentries, hleaf⟩ := h
    constructor
    · simp [enterFunc, hchildren, hentries, callCount]
    · simp [enterFunc, hentries, Aliases.callsUnindexed]
    · exact hleaf
    · simp [enterFunc, hchildren]
  nested func globals visit rest s callee globals' _ h := by
    obtain ⟨working, -, -, hleaf, rfl, -⟩ := nestedWalk_eq_some.mp h
    exact ⟨rfl, rfl, hleaf⟩
  step func globals visit rest s hI hpost := by
    rcases visitorWalkFunc_adds (Q := fun _ callee => CalleePerCall callee)
      (fun working _ => calleePerCall_calleeInfo working) (fun _ _ hnested => (hpost _ _ hnested).1) with
        ⟨vas, hvas, hadds⟩ | ⟨working, callee, hcallee, hadds⟩
    · have hcount := callCount_of_accesses (References.isAccess_of_recorded hvas)
      exact hI.after hadds hcount (unindexed_of_not_call hcount) (List.forall_mem_nil _)
    · exact hI.after hadds rfl (List.forall_mem_singleton.mpr fun _ => rfl) (List.forall_mem_singleton.mpr hcallee)
  finish func globals s hI := by
    refine ⟨.node hI.count hI.unindexed (fun h => ?_) hI.below, hI.expanded⟩
    cases h.symm.trans hI.expanded

variable (program trackLocking) in
def WalkedAt (func : FuncInfo) (path : List Nat) (callee : Cursor) : Prop :=
  ∃ globals, func.subtreeAt path =
    some (processFuncInfo program trackLocking (calleeInfo program callee) globals).1

variable (program trackLocking) in
/-- The tree is a walk of the callee that holds a walk for every call reached by inlining. -/
def InlinedAs (callee : Cursor) (func : FuncInfo) : Prop :=
  ∀ path working, calleeAt program path callee = some working → WalkedAt program trackLocking func path working

variable (program) in
/-- The USR is that of the function or of one reached from it by inlining. -/
def Reaches (func : Cursor) (usr : String) : Prop :=
  ∃ path callee, calleeAt program path func = some callee ∧ callee.label.usr = usr

theorem reaches_self (func : Cursor) : Reaches program func func.label.usr := ⟨[], func, rfl, rfl⟩

section Call

variable {func callee : Cursor} {i : Nat}

theorem calleeAt_cons (hcallee : (calls program func)[i]? = some callee) (path : List Nat) :
    calleeAt program (i :: path) func = calleeAt program path callee := by
  rw [calleeAt, hcallee, Option.bind_some]

theorem DefinedBelow.child (h : DefinedBelow program func) (hcallee : (calls program func)[i]? = some callee) :
    isLeafCallee (calleeInfo program callee) = false ∧ DefinedBelow program callee := by
  constructor
  · exact h i [] callee (calleeAt_cons hcallee [])
  · intro j path working hworking
    exact h i (j :: path) working ((calleeAt_cons hcallee _).trans hworking)

theorem CalledOnce.child (h : CalledOnce program func) (hcallee : (calls program func)[i]? = some callee) :
    CalledOnce program callee := by
  intro j path j' path' working working' hworking hworking' husr
  have heq := h i (j :: path) i (j' :: path') working working' ((calleeAt_cons hcallee _).trans hworking)
    ((calleeAt_cons hcallee _).trans hworking') husr
  exact (List.cons.inj heq).2

theorem CalledOnce.apart (h : CalledOnce program func) {callee' : Cursor} {j : Nat} {usr : String}
    (hcallee : (calls program func)[i]? = some callee) (hcallee' : (calls program func)[j]? = some callee')
    (hreach : Reaches program callee usr) (hreach' : Reaches program callee' usr) : i = j := by
  obtain ⟨path, working, hworking, rfl⟩ := hreach
  obtain ⟨path', working', hworking', husr⟩ := hreach'
  exact (List.cons.inj (h i path j path' working working' ((calleeAt_cons hcallee _).trans hworking)
    ((calleeAt_cons hcallee' _).trans hworking') husr.symm)).1

theorem CalledOnce.not_below (h : CalledOnce program func) (hcallee : (calls program func)[i]? = some callee)
    {inner : Cursor} (hinner : inner ∈ calls program callee) : ¬ Reaches program inner callee.label.usr := by
  rintro ⟨path, working, hworking, husr⟩
  obtain ⟨k, hk⟩ := List.getElem?_of_mem hinner
  have heq := h i [] i (k :: path) callee working (calleeAt_cons hcallee [])
    ((calleeAt_cons hcallee _).trans ((calleeAt_cons hk path).trans hworking)) husr.symm
  cases (List.cons.inj heq).2

theorem reaches_of_call {inner : Cursor} (hinner : inner ∈ calls program callee) {usr : String}
    (h : Reaches program inner usr) : Reaches program callee usr := by
  obtain ⟨k, hk⟩ := List.getElem?_of_mem hinner
  obtain ⟨path, working, hworking, husr⟩ := h
  exact ⟨k :: path, working, (calleeAt_cons hk path).trans hworking, husr⟩

end Call

section Callback

variable {process : FuncInfo → Globals → FuncInfo × Globals} {current parent : Cursor} {s : WalkState}

theorem newCallee_of_fresh {callee : Cursor} (hcallee : calleeOf program current = some callee)
    (hfresh : callee.label.usr ∉ s.touchedFuncUsrs) : kindOf current = .callExpr ∧
      newCallee program current (enterCursor program trackLocking current parent s) = some callee := by
  rw [calleeOf] at hcallee
  split at hcallee
  next hkind =>
    refine ⟨hkind, Option.filter_eq_some_iff.mpr ⟨hcallee, ?_⟩⟩
    simpa using hfresh
  next => cases hcallee

theorem visitorWalkFunc_of_fresh {callee : Cursor} (hcallee : calleeOf program current = some callee)
    (hfresh : callee.label.usr ∉ s.touchedFuncUsrs)
    (hdefined : isLeafCallee (calleeInfo program callee) = false) :
    visitorWalkFunc program trackLocking process current parent s =
      expandCallee program process current callee (enterCursor program trackLocking current parent s) := by
  obtain ⟨hkind, hnew⟩ := @newCallee_of_fresh program trackLocking current parent s callee hcallee hfresh
  rcases visitorWalkFunc_cases program trackLocking process current parent s with
    ⟨hother, -⟩ | ⟨-, hnone, -⟩ | ⟨working, -, hsome, hleaf, -⟩ | ⟨working, -, hsome, -, h⟩
  · exact absurd hkind hother
  · rw [hnew] at hnone
    cases hnone
  · obtain rfl := Option.some.inj (hnew.symm.trans hsome)
    rw [hdefined] at hleaf
    cases hleaf
  · obtain rfl := Option.some.inj (hnew.symm.trans hsome)
    exact h

theorem visitorWalkFunc_of_no_callee (hnone : calleeOf program current = none) :
    (visitorWalkFunc program trackLocking process current parent s).touchedFuncUsrs = s.touchedFuncUsrs ∧
      (visitorWalkFunc program trackLocking process current parent s).callees = s.callees := by
  have hnot : ∀ working, kindOf current = .callExpr →
      newCallee program current (enterCursor program trackLocking current parent s) ≠ some working := by
    intro working hkind hnew
    rw [calleeOf, if_pos hkind, (Option.filter_eq_some_iff.mp hnew).1] at hnone
    cases hnone
  rcases visitorWalkFunc_cases program trackLocking process current parent s with
    ⟨-, vas, -, h⟩ | ⟨-, -, h⟩ | ⟨working, hkind, hnew, -⟩ | ⟨working, hkind, hnew, -⟩
  · simp [h]
  · simp [h]
  · exact absurd hnew (hnot working hkind)
  · exact absurd hnew (hnot working hkind)

end Callback

variable (program) in
structure StartsUntouched (func : FuncInfo) (globals : Globals) : Prop where
  children : func.children = []
  defined : DefinedBelow program func.label.cursor
  once : CalledOnce program func.label.cursor
  fresh : ∀ usr ∈ globals.touchedFuncUsrs, ∀ callee ∈ calls program func.label.cursor,
    ¬ Reaches program callee usr

variable (program trackLocking) in
structure InlinedSoFar (func : FuncInfo) (globals : Globals) (rest : List (Visit CursorInfo))
    (s : WalkState) : Prop where
  defined : DefinedBelow program func.label.cursor
  once : CalledOnce program func.label.cursor
  inlined : ∃ done, calls program func.label.cursor = done ++ callsAmong program rest ∧
    List.Forall₂ (InlinedAs program trackLocking) done s.callees
  fresh : ∀ usr ∈ s.touchedFuncUsrs, ∀ callee ∈ callsAmong program rest, ¬ Reaches program callee usr
  touched : ∀ usr ∈ s.touchedFuncUsrs, usr ∈ globals.touchedFuncUsrs ∨
    ∃ callee ∈ calls program func.label.cursor, Reaches program callee usr

variable (program trackLocking) in
/-- A walk holds a walk for every call below it, and touches nothing but what these reach. -/
structure InlinedBelow (func : FuncInfo) (globals : Globals) (result : FuncInfo × Globals) : Prop where
  inlined : ∀ i path callee, calleeAt program (i :: path) func.label.cursor = some callee →
    WalkedAt program trackLocking result.1 (i :: path) callee
  touched : ∀ usr ∈ result.2.touchedFuncUsrs, usr ∈ globals.touchedFuncUsrs ∨
    ∃ callee ∈ calls program func.label.cursor, Reaches program callee usr

section Step

variable {func : FuncInfo} {globals : Globals} {visit : Visit CursorInfo} {rest : List (Visit CursorInfo)}
  {s : WalkState}

theorem callsAmong_cons_some {callee : Cursor} (h : calleeOf program visit.node = some callee) :
    callsAmong program (visit :: rest) = callee :: callsAmong program rest := by
  simp [callsAmong, h]

theorem callsAmong_cons_none (h : calleeOf program visit.node = none) :
    callsAmong program (visit :: rest) = callsAmong program rest := by
  simp [callsAmong, h]

theorem InlinedSoFar.numbered (h : InlinedSoFar program trackLocking func globals (visit :: rest) s)
    {callee : Cursor} (hcallee : calleeOf program visit.node = some callee) :
    ∃ i : Nat, (calls program func.label.cursor)[i]? = some callee := by
  obtain ⟨done, hcalls, -⟩ := h.inlined
  rw [callsAmong_cons_some hcallee] at hcalls
  exact ⟨done.length, by simp [hcalls]⟩

theorem InlinedSoFar.fresh_usr (h : InlinedSoFar program trackLocking func globals (visit :: rest) s)
    {callee : Cursor} (hcallee : calleeOf program visit.node = some callee) :
    callee.label.usr ∉ s.touchedFuncUsrs := by
  intro hmem
  refine h.fresh _ hmem callee ?_ (reaches_self callee)
  rw [callsAmong_cons_some hcallee]
  exact List.mem_cons_self

theorem InlinedSoFar.nested (h : InlinedSoFar program trackLocking func globals (visit :: rest) s)
    {callee : Cursor} (hcallee : calleeOf program visit.node = some callee) {usrs : Globals}
    (husrs : usrs.touchedFuncUsrs = s.touchedFuncUsrs ++ [callee.label.usr]) :
    StartsUntouched program (calleeInfo program callee) usrs := by
  obtain ⟨i, hi⟩ := h.numbered hcallee
  refine ⟨rfl, (h.defined.child hi).2, h.once.child hi, ?_⟩
  intro usr husr inner hinner hreach
  rw [husrs] at husr
  rcases List.mem_append.mp husr with husr | husr
  · refine h.fresh usr husr callee ?_ (reaches_of_call hinner hreach)
    rw [callsAmong_cons_some hcallee]
    exact List.mem_cons_self
  · rw [List.mem_singleton.mp husr] at hreach
    exact h.once.not_below hi hinner hreach

theorem InlinedSoFar.call (h : InlinedSoFar program trackLocking func globals (visit :: rest) s)
    {callee : Cursor} (hcallee : calleeOf program visit.node = some callee) {s' : WalkState}
    {usrs : Globals} (husrs : usrs.touchedFuncUsrs = s.touchedFuncUsrs ++ [callee.label.usr])
    (hwalk : InlinedBelow program trackLocking (calleeInfo program callee) usrs
      (processFuncInfo program trackLocking (calleeInfo program callee) usrs))
    (hcallees : s'.callees =
      s.callees ++ [(processFuncInfo program trackLocking (calleeInfo program callee) usrs).1])
    (htouched : s'.touchedFuncUsrs =
      (processFuncInfo program trackLocking (calleeInfo program callee) usrs).2.touchedFuncUsrs) :
    InlinedSoFar program trackLocking func globals rest s' := by
  obtain ⟨done, hcalls, hdone⟩ := h.inlined
  have hmem : callee ∈ callsAmong program (visit :: rest) := by
    rw [callsAmong_cons_some hcallee]
    exact List.mem_cons_self
  rw [callsAmong_cons_some hcallee] at hcalls
  have hi : (calls program func.label.cursor)[done.length]? = some callee := by simp [hcalls]
  have hreached : ∀ usr ∈ s'.touchedFuncUsrs, usr ∈ s.touchedFuncUsrs ∨ Reaches program callee usr := by
    intro usr husr
    rw [htouched] at husr
    rcases hwalk.touched usr husr with husr | ⟨inner, hinner, hreach⟩
    · rw [husrs] at husr
      rcases List.mem_append.mp husr with husr | husr
      · exact .inl husr
      · rw [List.mem_singleton.mp husr]
        exact .inr (reaches_self callee)
    · exact .inr (reaches_of_call hinner hreach)
  constructor
  · exact h.defined
  · exact h.once
  · refine ⟨done ++ [callee], by rw [hcalls, List.append_assoc, List.singleton_append], ?_⟩
    rw [hcallees]
    refine List.rel_append hdone (.cons ?_ .nil)
    intro path working hworking
    cases path with
    | nil =>
        obtain rfl := Option.some.inj hworking
        exact ⟨usrs, rfl⟩
    | cons j path => exact hwalk.inlined j path working hworking
  · intro usr husr later hlater hreach
    rcases hreached usr husr with husr | hbelow
    · refine h.fresh usr husr later ?_ hreach
      rw [callsAmong_cons_some hcallee]
      exact List.mem_cons_of_mem _ hlater
    · obtain ⟨k, hk⟩ := List.getElem?_of_mem hlater
      have hj : (calls program func.label.cursor)[done.length + (k + 1)]? = some later := by
        rw [hcalls, List.getElem?_append_right (Nat.le_add_right _ _), Nat.add_sub_cancel_left]
        exact hk
      have := h.once.apart hi hj hbelow hreach
      omega
  · intro usr husr
    rcases hreached usr husr with husr | hbelow
    · exact h.touched usr husr
    · exact .inr ⟨callee, List.mem_of_getElem? hi, hbelow⟩

theorem InlinedSoFar.skip (h : InlinedSoFar program trackLocking func globals (visit :: rest) s)
    (hnone : calleeOf program visit.node = none) {s' : WalkState} (hcallees : s'.callees = s.callees)
    (htouched : s'.touchedFuncUsrs = s.touchedFuncUsrs) :
    InlinedSoFar program trackLocking func globals rest s' := by
  obtain ⟨hdefined, honce, hinlined, hfresh, hold⟩ := h
  rw [callsAmong_cons_none hnone] at hinlined hfresh
  constructor
  · exact hdefined
  · exact honce
  · rwa [hcallees]
  · rwa [htouched]
  · rwa [htouched]

end Step

theorem inlined_rule : WalkRule program trackLocking (StartsUntouched program)
    (InlinedSoFar program trackLocking) (InlinedBelow program trackLocking) where
  start func globals h := by
    refine ⟨h.defined, h.once, ⟨[], rfl, ?_⟩, h.fresh, fun usr husr => .inl husr⟩
    rw [enterFunc, h.children]
    exact .nil
  nested func globals visit rest s callee globals' hI h := by
    obtain ⟨working, hkind, hnew, -, rfl, rfl⟩ := nestedWalk_eq_some.mp h
    have hcallee : calleeOf program visit.node = some working := by
      rw [calleeOf, if_pos hkind]
      exact (Option.filter_eq_some_iff.mp hnew).1
    exact hI.nested hcallee (by simp [touchCallee])
  step func globals visit rest s hI hpost := by
    cases hcallee : calleeOf program visit.node with
    | none =>
        obtain ⟨htouched, hcallees⟩ := @visitorWalkFunc_of_no_callee program trackLocking
          (processFuncInfo program trackLocking) visit.node visit.parent s hcallee
        exact hI.skip hcallee hcallees htouched
    | some callee =>
        obtain ⟨i, hi⟩ := hI.numbered hcallee
        have hdefined := (hI.defined.child hi).1
        obtain ⟨hkind, hnew⟩ := @newCallee_of_fresh program trackLocking visit.node visit.parent s callee
          hcallee (hI.fresh_usr hcallee)
        have hwalk := hpost _ _ (nestedWalk_eq_some.mpr ⟨callee, hkind, hnew, hdefined, rfl, rfl⟩)
        rw [visitorWalkFunc_of_fresh hcallee (hI.fresh_usr hcallee) hdefined]
        refine hI.call hcallee ?_ hwalk ?_ rfl
        · simp [touchCallee]
        · simp [expandCallee, touchCallee]
  finish func globals s hI := by
    refine ⟨?_, hI.touched⟩
    obtain ⟨done, hcalls, hdone⟩ := hI.inlined
    intro i path callee hcallee
    rw [calleeAt, hcalls, callsAmong, List.filterMap_nil, List.append_nil] at hcallee
    obtain ⟨first, hfirst, hbelow⟩ := Option.bind_eq_some_iff.mp hcallee
    have hlength := hdone.length_eq
    obtain ⟨hi, -⟩ := List.getElem?_eq_some_iff.mp hfirst
    obtain ⟨tree, htree⟩ : ∃ tree, s.callees[i]? = some tree :=
      ⟨_, List.getElem?_eq_getElem (hlength ▸ hi)⟩
    obtain ⟨walked, hwalked⟩ := forall₂_getElem? hdone hfirst htree path callee hbelow
    refine ⟨walked, ?_⟩
    rw [WalkState.func, RoseTree.subtreeAt, RoseTree.children_node, htree, Option.bind_some, hwalked]

theorem pushedEntries_of_fresh {cb : Callback} {callee : Cursor}
    (hcallee : calleeOf program cb.visit.node = some callee)
    (hfresh : callee.label.usr ∉ cb.before.touchedFuncUsrs)
    (hdefined : isLeafCallee (calleeInfo program callee) = false) :
    pushedEntries program trackLocking cb =
      markersAt program trackLocking cb.visit.node cb.visit.parent cb.before ++ [callEntry callee cb.before] := by
  have hentry : callEntry callee
      (enterCursor program trackLocking cb.visit.node cb.visit.parent cb.before) =
        callEntry callee cb.before := by
    simp [callEntry]
  rw [pushedEntries, visitorWalkFunc_of_fresh hcallee hfresh hdefined]
  simp [expandCallee, touchCallee, hentry]

theorem startsUntouched_requested {root : Cursor} (hdefined : DefinedBelow program root)
    (honce : CalledOnce program root) : StartsUntouched program (requestedFunc root) initGlobals :=
  ⟨rfl, hdefined, honce, fun usr husr => by cases husr⟩

/-- Every call expression reached by inlining counts exactly if no function is called by two of
them. -/
theorem calls_count_iff {root : Cursor} (hdefined : DefinedBelow program root) (funcCall : String) :
    EveryCallCounts program trackLocking root funcCall ↔ CalledOnce program root := by
  constructor
  · intro h i path j path' callee callee' hcallee hcallee' husr
    obtain ⟨globals, -, hat, -⟩ := h.inlined i path callee hcallee
    obtain ⟨globals', -, hat', -⟩ := h.inlined j path' callee' hcallee'
    obtain ⟨first, hfirst, hsub⟩ := Option.bind_eq_some_iff.mp hat
    obtain ⟨first', hfirst', hsub'⟩ := Option.bind_eq_some_iff.mp hat'
    have hnodup : (calleeUsrs (processFuncInfo program trackLocking (requestedFunc root) initGlobals).1).Nodup := by
      have honce := (@touchedOnce_rule program trackLocking).result (requestedFunc root) initGlobals
        ⟨List.nodup_nil, List.nil_subset _⟩
      have htouched := @touched_eq program trackLocking (requestedFunc root) rfl initGlobals
      rw [TouchedOnce, htouched] at honce
      exact honce.1
    apply RoseTree.path_unique hnodup hfirst hfirst' hsub hsub'
    have hname := fun (c : Cursor) (g : Globals) =>
      (@touched_rule program trackLocking).result (calleeInfo program c) g rfl
    rw [(hname callee globals).2, (hname callee' globals').2]
    exact husr
  · intro honce
    have hstart := startsUntouched_requested hdefined honce
    constructor
    · refine inlined_rule.callbacks ?_ (requestedFunc root) initGlobals hstart
      intro func globals visit rest s hI callee hcallee
      obtain ⟨i, hi⟩ := hI.numbered hcallee
      exact pushedEntries_of_fresh hcallee (hI.fresh_usr hcallee) (hI.defined.child hi).1
    · intro i path callee hcallee
      obtain ⟨globals, hat⟩ := (inlined_rule.result (requestedFunc root) initGlobals hstart).inlined i path
        callee hcallee
      have hwf := ((@calleePerCall_rule program trackLocking).result (requestedFunc root) initGlobals
        ⟨rfl, rfl, rfl⟩).1
      obtain ⟨func', hat'⟩ := hwf.unwind_subtreeAt hat (some (parseFuncCall funcCall).2) (RenamesIn.refl _)
      exact ⟨globals, func', hat, hat', footprintBefore_prefix (hwf.unwindAs _ _ (RenamesIn.refl _)) hat'⟩

end Walk

/-- void f() { h(); h(); } -/
def helperCallerTwice : Cursor :=
  definitionOf 10 "f" []
    [.node { id := 12, kind := .callExpr, referenced := some 1 }
      [.node { id := 13, kind := .declRefExpr, referenced := some 1 } []],
     .node { id := 14, kind := .callExpr, referenced := some 1 }
      [.node { id := 15, kind := .declRefExpr, referenced := some 1 } []]]

theorem calleeAt_helperCaller {i : Nat} {path : List Nat} {callee : Cursor}
    (h : calleeAt helperProgram (i :: path) (helperCaller 10 "f") = some callee) :
    i = 0 ∧ path = [] ∧ callee = helper := by
  have hcalls : calls helperProgram (helperCaller 10 "f") = [helper] := rfl
  have hnone : calls helperProgram helper = [] := rfl
  rw [calleeAt, hcalls] at h
  obtain ⟨first, hfirst, hbelow⟩ := Option.bind_eq_some_iff.mp h
  obtain ⟨rfl, rfl⟩ : i = 0 ∧ helper = first := by
    simpa [List.getElem?_singleton] using hfirst
  cases path with
  | nil => exact ⟨rfl, rfl, (Option.some.inj hbelow).symm⟩
  | cons j path =>
      rw [calleeAt, hnone] at hbelow
      cases hbelow

theorem helperCaller_calls_count : EveryCallCounts helperProgram true (helperCaller 10 "f") "f()" := by
  have hdefined : DefinedBelow helperProgram (helperCaller 10 "f") := by
    intro i path callee h
    obtain ⟨-, -, rfl⟩ := calleeAt_helperCaller h
    decide +kernel
  apply (calls_count_iff hdefined "f()").mpr
  intro i path j path' callee callee' h h' _
  obtain ⟨rfl, rfl, -⟩ := calleeAt_helperCaller h
  obtain ⟨rfl, rfl, -⟩ := calleeAt_helperCaller h'
  rfl

/-- The second call of h is not in the tree, and the write to x stands in the footprint once. -/
theorem helperCallerTwice_calls_lost :
    ¬ EveryCallCounts helperProgram true helperCallerTwice "f()" ∧
      ((footprints helperProgram true [requestedFunc helperCallerTwice] ["f()"]).map
        fun footprint => footprint.map VarAccess.type) = [[.write]] := by
  constructor
  · intro h
    obtain ⟨globals, -, hat, -⟩ := h.inlined 1 [] helper rfl
    have hnone : ((processFuncInfo helperProgram true (requestedFunc helperCallerTwice) initGlobals).1.subtreeAt
        [1]).isSome = false := by
      decide +kernel
    rw [hat] at hnone
    cases hnone
  · decide +kernel

end Prongc.CallSites
