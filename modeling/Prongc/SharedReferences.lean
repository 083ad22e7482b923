import Prongc.NameBuffers
import Prongc.PrivateObjects
import Prongc.RequestBinding
import Prongc.WholeRun

namespace Prongc.SharedReferences

open Access Ast DeclRef WalkFunc WalkAst Callbacks Recursion Unwind UnwindFrame Aliases CallSites PrivateObjects
  NameBuffers PairReports ParseCall Comparison WholeRun Library.Traversal

section Recording

variable (program : Program) (trackLocking : Bool)

def recordedAt (visit : Visit CursorInfo) (s : WalkState) : Option VarAccess :=
  if kindOf visit.node = .declRefExpr then
    declRefAccess program (stackAt program visit.parent s) s.currentFunc.spelling visit.node
  else none

def Records (p : VarAccess → Prop) (visit : Visit CursorInfo) (s : WalkState) : Prop :=
  ∃ va, recordedAt program visit s = some va ∧ p va

def ownSteps (func : FuncInfo) (globals : Globals) : List (Visit CursorInfo × WalkState) :=
  ownCallbacks program trackLocking (processFuncInfo program trackLocking) func globals

def RecordsBelow (p : VarAccess → Prop) (visit : Visit CursorInfo) (s : WalkState) : Prop :=
  ∃ callee globals, nestedWalk program trackLocking visit.node visit.parent s = some (callee, globals) ∧
    ∃ cb ∈ callbacksOf program trackLocking callee globals, Records program p cb.visit cb.before

end Recording

def HasEntry (p : VarAccess → Prop) (tree : FuncInfo) : Prop :=
  ∃ d ∈ tree.labels, (d.inSystemHeader || !d.hasDefinition) = false ∧ ∃ va ∈ d.varAccesses, p va

def OnAccesses (p : VarAccess → Prop) : Prop := ∀ va, p va → va.type.isAccess = true

theorem hasEntry_node {p : VarAccess → Prop} {d : FuncData} {callees : List FuncInfo} :
    HasEntry p (.node d callees) ↔
      ((d.inSystemHeader || !d.hasDefinition) = false ∧ ∃ va ∈ d.varAccesses, p va) ∨
        ∃ callee ∈ callees, HasEntry p callee := by
  rw [HasEntry, RoseTree.labels, RoseTree.labelsAll_eq]
  constructor
  · rintro ⟨d', hd', hentry⟩
    rcases List.mem_cons.mp hd' with rfl | hd'
    · exact .inl hentry
    · obtain ⟨callee, hcallee, hd'⟩ := List.mem_flatMap.mp hd'
      exact .inr ⟨callee, hcallee, d', hd', hentry⟩
  · rintro (hentry | ⟨callee, hcallee, d', hd', hentry⟩)
    · exact ⟨d, List.mem_cons_self, hentry⟩
    · exact ⟨d', List.mem_cons_of_mem _ (List.mem_flatMap.mpr ⟨callee, hcallee, hd'⟩), hentry⟩

section Walk

variable {program : Program} {trackLocking : Bool} {p : VarAccess → Prop} {visit : Visit CursorInfo} {s : WalkState}
  {process : FuncInfo → Globals → FuncInfo × Globals}

theorem exists_append_iff {β : Type} {q : β → Prop} {l l' : List β} :
    (∃ x ∈ l ++ l', q x) ↔ (∃ x ∈ l, q x) ∨ ∃ x ∈ l', q x := by
  simp only [List.mem_append, or_and_right, exists_or]

theorem exists_map_iff {β γ : Type} {q : γ → Prop} {f : β → γ} {l : List β} :
    (∃ y ∈ l.map f, q y) ↔ ∃ x ∈ l, q (f x) := by
  simp

theorem no_markers (hp : OnAccesses p) (current parent : Cursor) (s : WalkState) :
    ¬ ∃ va ∈ markersAt program trackLocking current parent s, p va := by
  rintro ⟨va, hva, hpva⟩
  have haccess := hp va hpva
  rcases markersAt_isMarker program trackLocking _ _ _ hva with ht | ht | ht | ht <;>
    simp [ht, VarAccessType.isAccess] at haccess

theorem no_callEntry (hp : OnAccesses p) (working : Cursor) (s : WalkState) :
    ¬ ∃ va ∈ [callEntry working s], p va := by
  rintro ⟨va, hva, hpva⟩
  obtain rfl := List.mem_singleton.mp hva
  cases hp _ hpva

theorem records_iff : Records program p visit s ↔ kindOf visit.node = .declRefExpr ∧
    ∃ va ∈ (declRefAccess program (stackAt program visit.parent s) s.currentFunc.spelling visit.node).toList, p va := by
  rw [Records, recordedAt]
  split
  next hkind => simp [hkind]
  next hkind => simp [hkind]

theorem visitCallExpr_entries (hp : OnAccesses p) (current : Cursor) (s : WalkState) :
    (∃ va ∈ (visitCallExpr program process current s).currentFunc.varAccesses, p va) ↔
      ∃ va ∈ s.currentFunc.varAccesses, p va := by
  rw [visitCallExpr]
  split
  next => rfl
  next working _ =>
    have hentries : (processCallee program process working s).currentFunc.varAccesses =
        s.currentFunc.varAccesses ++ [callEntry working s] := by
      rw [processCallee]
      dsimp only
      split <;> rfl
    rw [pushCursor_currentFunc, hentries, exists_append_iff, or_iff_left (no_callEntry hp working s)]

theorem visit_entries (hp : OnAccesses p) :
    (∃ va ∈ (visitorWalkFunc program trackLocking process visit.node visit.parent s).currentFunc.varAccesses, p va) ↔
      (∃ va ∈ s.currentFunc.varAccesses, p va) ∨ Records program p visit s := by
  have hentered : (∃ va ∈ (enterCursor program trackLocking visit.node visit.parent s).currentFunc.varAccesses,
      p va) ↔ ∃ va ∈ s.currentFunc.varAccesses, p va := by
    rw [enterCursor_varAccesses, exists_append_iff, or_iff_left (no_markers hp visit.node visit.parent s)]
  rw [records_iff]
  rw [visitorWalkFunc]
  cases hkind : kindOf visit.node with
  | declRefExpr =>
      dsimp only
      rw [visitDeclRefExpr, pushVarAccesses_varAccesses, exists_append_iff, hentered, enterCursor_ancestryStack,
        enterCursor_spelling]
      simp
  | callExpr =>
      dsimp only
      rw [visitCallExpr_entries hp, hentered]
      simp
  | _ => simpa using hentered

theorem not_hasEntry_leaf {working : Cursor} (hleaf : isLeafCallee (calleeInfo program working) = true) :
    ¬ HasEntry p (calleeInfo program working) := by
  rintro ⟨d, hd, hopen, -⟩
  obtain rfl := List.mem_singleton.mp hd
  rw [isLeafCallee] at hleaf
  exact absurd (hleaf.symm.trans hopen) (by decide)

theorem visit_callees :
    (∃ c ∈ (visitorWalkFunc program trackLocking process visit.node visit.parent s).callees, HasEntry p c) ↔
      (∃ c ∈ s.callees, HasEntry p c) ∨ ∃ callee globals,
        nestedWalk program trackLocking visit.node visit.parent s = some (callee, globals) ∧
          HasEntry p (process callee globals).1 := by
  have hadd : ∀ callees (callee : FuncInfo), (∃ c ∈ callees ++ [callee], HasEntry p c) ↔
      (∃ c ∈ callees, HasEntry p c) ∨ HasEntry p callee := by
    intro callees callee
    rw [exists_append_iff]
    simp
  rcases visitorWalkFunc_cases program trackLocking process visit.node visit.parent s with
    ⟨hkind, vas, -, h⟩ | ⟨hkind, hnew, h⟩ | ⟨working, hkind, hnew, hleaf, h⟩ | ⟨working, hkind, hnew, hopen, h⟩
  · have hnone : nestedWalk program trackLocking visit.node visit.parent s = none := if_neg hkind
    rw [h, hnone, pushVarAccesses_callees, enterCursor_callees]
    simp
  · rw [h, nestedWalk_none_of_skipped hnew, pushCursor_callees, enterCursor_callees]
    simp
  · rw [h, nestedWalk_none_of_leaf hnew hleaf, addLeafCallee, pushCursor_callees, hadd, touchCallee,
      pushVarAccesses_callees, enterCursor_callees, or_iff_left (not_hasEntry_leaf hleaf)]
    simp
  · rw [h, nestedWalk_eq_some.mpr ⟨working, hkind, hnew, hopen, rfl, rfl⟩, expandCallee, pushCursor_callees, hadd,
      touchCallee, pushVarAccesses_callees, enterCursor_callees]
    simp

structure WalkRecords (program : Program) (trackLocking : Bool) (p : VarAccess → Prop) (func : FuncInfo)
    (globals : Globals) (tree : FuncInfo) : Prop where
  own : (∃ va ∈ tree.label.varAccesses, p va) ↔
    ∃ x ∈ ownSteps program trackLocking func globals, Records program p x.1 x.2
  below : (∃ callee ∈ tree.children, HasEntry p callee) ↔
    ∃ x ∈ ownSteps program trackLocking func globals, RecordsBelow program trackLocking p x.1 x.2

structure RecordsSoFar (program : Program) (trackLocking : Bool) (p : VarAccess → Prop)
    (done : List (Visit CursorInfo × WalkState)) (s : WalkState) : Prop where
  expanded : isLeafCallee s.func = false
  own : (∃ va ∈ s.currentFunc.varAccesses, p va) ↔ ∃ x ∈ done, Records program p x.1 x.2
  below : (∃ callee ∈ s.callees, HasEntry p callee) ↔ ∃ x ∈ done, RecordsBelow program trackLocking p x.1 x.2

theorem exists_callbacksOf_iff {func : FuncInfo} {globals : Globals} :
    (∃ cb ∈ callbacksOf program trackLocking func globals, Records program p cb.visit cb.before) ↔
      (∃ x ∈ ownSteps program trackLocking func globals, Records program p x.1 x.2) ∨
        ∃ x ∈ ownSteps program trackLocking func globals, RecordsBelow program trackLocking p x.1 x.2 := by
  rw [callbacksOf_eq]
  constructor
  · rintro ⟨cb, hcb, hrecords⟩
    obtain ⟨x, hx, hcb⟩ := List.mem_flatMap.mp hcb
    rcases List.mem_cons.mp hcb with rfl | hcb
    · exact .inl ⟨x, hx, hrecords⟩
    · split at hcb
      next => cases hcb
      next callee globals' hnested => exact .inr ⟨x, hx, callee, globals', hnested, cb, hcb, hrecords⟩
  · rintro (⟨x, hx, hrecords⟩ | ⟨x, hx, callee, globals', hnested, cb, hcb, hrecords⟩)
    · exact ⟨⟨x.1, x.2⟩, List.mem_flatMap.mpr ⟨x, hx, List.mem_cons_self⟩, hrecords⟩
    · refine ⟨cb, List.mem_flatMap.mpr ⟨x, hx, List.mem_cons_of_mem _ ?_⟩, hrecords⟩
      rw [hnested]
      exact hcb

theorem WalkRecords.hasEntry {func tree : FuncInfo} {globals : Globals}
    (h : WalkRecords program trackLocking p func globals tree) (hopen : isLeafCallee tree = false) :
    HasEntry p tree ↔ ∃ cb ∈ callbacksOf program trackLocking func globals, Records program p cb.visit cb.before := by
  rw [exists_callbacksOf_iff, ← h.own, ← h.below]
  cases tree with
  | node d callees =>
      rw [hasEntry_node]
      apply or_congr_left
      exact and_iff_right hopen

theorem records_rule (hp : OnAccesses p) : WalkRule program trackLocking
    (fun func _ => func.children = [] ∧ func.label.varAccesses = [] ∧ isLeafCallee func = false)
    (fun func globals rest s => ∃ done, ownSteps program trackLocking func globals = done ++
      stepsFrom (visitStep (visitorWalkFunc program trackLocking (processFuncInfo program trackLocking))) s rest ∧
        RecordsSoFar program trackLocking p done s)
    (fun func globals result => WalkRecords program trackLocking p func globals result.1 ∧
      isLeafCallee result.1 = false) where
  start func globals h := by
    obtain ⟨hchildren, hentries, hleaf⟩ := h
    refine ⟨[], rfl, hleaf, ?_, ?_⟩
    · simp [enterFunc, hentries]
    · simp [enterFunc, hchildren]
  nested func globals visit rest s callee globals' _ h := by
    obtain ⟨working, -, -, hleaf, rfl, -⟩ := nestedWalk_eq_some.mp h
    exact ⟨rfl, rfl, hleaf⟩
  step func globals visit rest s hI hpost := by
    obtain ⟨done, hsteps, hsofar⟩ := hI
    refine ⟨done ++ [(visit, s)], ?_, ?_, ?_, ?_⟩
    · rw [hsteps, List.append_assoc]
      rfl
    · rcases @visitorWalkFunc_adds program trackLocking visit.node visit.parent s
        (processFuncInfo program trackLocking) (fun _ _ => True) (fun _ _ => trivial) (fun _ _ _ => trivial) with
          ⟨vas, -, hadds⟩ | ⟨working, callee, -, hadds⟩
      · exact hadds.isLeaf.trans hsofar.expanded
      · exact hadds.isLeaf.trans hsofar.expanded
    · rw [visit_entries hp, hsofar.own, exists_append_iff]
      simp
    · have hnested : RecordsBelow program trackLocking p visit s ↔ ∃ callee globals',
          nestedWalk program trackLocking visit.node visit.parent s = some (callee, globals') ∧
            HasEntry p (processFuncInfo program trackLocking callee globals').1 := by
        apply exists_congr
        intro callee
        apply exists_congr
        intro globals'
        apply and_congr_right
        intro hsome
        obtain ⟨hwalked, hopen⟩ := hpost callee globals' hsome
        exact (hwalked.hasEntry hopen).symm
      rw [visit_callees, hsofar.below, exists_append_iff, ← hnested]
      simp
  finish func globals s hI := by
    obtain ⟨done, hsteps, hsofar⟩ := hI
    rw [stepsFrom, List.append_nil] at hsteps
    refine ⟨⟨?_, ?_⟩, hsofar.expanded⟩
    · rw [hsteps]
      exact hsofar.own
    · rw [hsteps]
      exact hsofar.below

end Walk

section Unwinding

def boundEntry (parsed : Option (List String)) (func : FuncData) (va : VarAccess) : VarAccess :=
  match parsed with
  | some call => mapEntry (func.params.zip call.tail) va
  | none => va

def recordedEntry (va : VarAccess) : Bool :=
  va.type.isAccess || va.usr.isNone || (va.type == .call && va.escParamIdx == noIdx)

/-- The USR is none that a function declares for itself. -/
def notDeclared (u : String) (func : FuncData) : Bool := !(func.params ++ func.locals).contains u

variable {u : String} {func : FuncData}

theorem unwoundEntries_eq (parsed : Option (List String)) (func : FuncData) :
    unwoundEntries parsed func = func.varAccesses.map fun va => markVarAccess func (boundEntry parsed func va) := by
  rw [unwoundEntries]
  cases parsed with
  | none => rfl
  | some call =>
      apply List.ext_getElem?
      intro j
      rw [List.getElem?_map, argumentAccesses_getElem?, List.getElem?_map, Option.map_map]
      rfl

theorem mapEntry_renames (l : List (String × String)) (va : VarAccess) : Renames va (mapEntry l va) := by
  induction l generalizing va with
  | nil => exact .refl va
  | cons x l ih => exact (mapArgument_renames x.1 x.2 va).trans (ih _)

theorem boundEntry_renames (parsed : Option (List String)) (func : FuncData) (va : VarAccess) :
    Renames va (boundEntry parsed func va) := by
  cases parsed with
  | none => exact .refl va
  | some call => exact mapEntry_renames _ va

theorem boundEntry_unnamed {parsed : Option (List String)} {va : VarAccess} (h : va.usr = none) :
    boundEntry parsed func va = va := by
  cases parsed with
  | none => rfl
  | some call => exact mapEntry_unnamed h _

theorem markVarAccess_shared {va : VarAccess} (haccess : va.type.isAccess = true) (husr : va.usr = some u)
    (hu : notDeclared u func = true) : (markVarAccess func va).live = true := by
  have hdeclared : containsUsr func.locals va.usr = false ∧ containsUsr func.params va.usr = false := by
    rw [husr]
    simpa [notDeclared, containsUsr, not_or, and_comm] using hu
  have hlive := VarAccess.live_of_isAccess haccess
  rw [markVarAccess]
  split
  next hlock =>
    rw [VarAccess.live_iff]
    exact .inr ((lockArgumentType_cases va).resolve_left hlock)
  next => simp [hdeclared.1, hdeclared.2, hlive]

/-- Which entries are live under such a USR when a function has been unwound. -/
theorem unwound_live_iff (parsed : Option (List String)) {va : VarAccess} (hva : recordedEntry va = true)
    (hu : notDeclared u func = true) :
    ((markVarAccess func (boundEntry parsed func va)).live = true ∧
        (markVarAccess func (boundEntry parsed func va)).usr = some u) ↔
      va.type.isAccess = true ∧ (boundEntry parsed func va).usr = some u := by
  rw [markVarAccess_usr]
  obtain ⟨usr, hrenamed⟩ := boundEntry_renames parsed func va
  constructor
  · rintro ⟨hlive, husr⟩
    refine ⟨?_, husr⟩
    rw [recordedEntry, Bool.or_eq_true_iff, Bool.or_eq_true_iff] at hva
    rcases hva with (haccess | hnone) | hcall
    · exact haccess
    · rw [boundEntry_unnamed (Option.isNone_iff_eq_none.mp hnone), Option.isNone_iff_eq_none.mp hnone] at husr
      cases husr
    · obtain ⟨htype, hidx⟩ := Bool.and_eq_true_iff.mp hcall
      rw [hrenamed] at hlive
      have hcalled : (markVarAccess func { va with usr := usr }).type = .call :=
        (@markVarAccess_call_iff func { va with usr := usr } fun _ => beq_iff_eq.mp hidx).mpr (beq_iff_eq.mp htype)
      simp [VarAccess.live, hcalled, vaIsPlaceholderType, VarAccessType.toNat] at hlive
  · rintro ⟨haccess, husr⟩
    refine ⟨markVarAccess_shared ?_ husr hu, husr⟩
    rw [hrenamed]
    exact haccess

theorem exists_splice_iff {P : VarAccess → Prop} (hP : ∀ va, P va → va.live = true) {vas : List VarAccess}
    {footprints : List (List VarAccess)} (h : callCount vas = footprints.length) :
    (∃ va ∈ spliceFootprints vas footprints, P va) ↔
      (∃ va ∈ vas, P va) ∨ ∃ footprint ∈ footprints, ∃ va ∈ footprint, P va := by
  have hnot : ∀ va : VarAccess, va.live = false → ¬ P va := by
    intro va hva hPva
    exact absurd (hva.symm.trans (hP va hPva)) (by decide)
  refine splicing_induction (motive := fun vas footprints => (∃ va ∈ spliceFootprints vas footprints, P va) ↔
    (∃ va ∈ vas, P va) ∨ ∃ footprint ∈ footprints, ∃ va ∈ footprint, P va) ?_ ?_ ?_ h
  · simp [spliceFootprints]
  · intro va vas footprint footprints hcall ih
    have hva := hnot va (by simp [VarAccess.live, hcall, vaIsPlaceholderType, VarAccessType.toNat])
    rw [spliceFootprints_call _ _ hcall, exists_append_iff, ih]
    simp only [List.exists_mem_cons_iff, hva, false_or]
    exact or_left_comm
  · intro va vas footprints hcall ih
    by_cases hnull : va.type = .null
    · have hva := hnot va (by simp [VarAccess.live, hnull, vaIsPlaceholderType])
      rw [spliceFootprints_null _ _ hnull, ih]
      simp only [List.exists_mem_cons_iff, hva, false_or]
    · rw [spliceFootprints_other _ _ hcall hnull]
      simp only [List.exists_mem_cons_iff, ih, or_assoc]

/-- What the footprint of an unwound tree holds of a variable that no function of the tree declares. -/
theorem footprint_liveIn_iff {tree : FuncInfo} (htree : CalleePerCall tree) (hwf : tree.all fromWalk = true)
    (hrecorded : tree.all (entriesAll recordedEntry) = true) (hu : tree.all (notDeclared u) = true)
    (parsed : Option (List String)) :
    LiveIn u (buildVarAccessFootprint (unwindFuncInfo parsed tree)) ↔
      (isLeafCallee tree = false ∧
        ∃ va ∈ tree.label.varAccesses, va.type.isAccess = true ∧ (boundEntry parsed tree.label va).usr = some u) ∨
      ∃ callee ∈ tree.children, HasEntry (fun va => va.type.isAccess = true ∧ va.usr = some u) callee := by
  induction tree using RoseTree.childInduction generalizing parsed with
  | hnode d callees ih =>
      obtain ⟨hd, hcallees⟩ := (RoseTree.all_iff _ _).mp hrecorded
      obtain ⟨hud, hucallees⟩ := (RoseTree.all_iff _ _).mp hu
      have hwfs := ((RoseTree.all_iff _ _).mp hwf).2
      have hunwound := unwindFuncInfo_node parsed hwf
      cases htree with
      | node count unindexed leaf below =>
          rw [RoseTree.label_node, RoseTree.children_node]
          cases hleaf : isLeafCallee (.node d callees) with
          | true =>
              obtain rfl := leaf hleaf
              have hclosed : (d.inSystemHeader || !d.hasDefinition) = true := hleaf
              rw [hunwound, if_pos hclosed, buildVarAccessFootprint, if_pos hclosed]
              simp [LiveIn]
          | false =>
              have hopen : ¬ (d.inSystemHeader || !d.hasDefinition) = true := by
                rw [Bool.not_eq_true]
                exact hleaf
              have hbelow : ∀ callee ∈ callees,
                  LiveIn u (buildVarAccessFootprint (unwindFuncInfo none callee)) ↔
                    HasEntry (fun va => va.type.isAccess = true ∧ va.usr = some u) callee := by
                intro callee hcallee
                rw [ih callee hcallee (below callee hcallee) (hwfs callee hcallee) (hcallees callee hcallee)
                  (hucallees callee hcallee) none]
                cases callee with
                | node d' callees' => exact hasEntry_node.symm
              have hcount : callCount (unwoundEntries parsed d) =
                  (calleeFootprints (callees.map (unwindFuncInfo none))).length := by
                rw [calleeFootprints_eq, List.length_map, List.length_map, ← count, unwoundEntries,
                  callCount_map fun va hva => markVarAccess_call_iff
                    (argumentAccesses_unindexed parsed unindexed va hva),
                  callCount_renames (argumentAccesses_renames parsed d)]
              rw [hunwound, if_neg hopen, buildVarAccessFootprint, if_neg hopen, LiveIn,
                ← unwoundEntries, exists_splice_iff (fun va h => h.1) hcount]
              apply or_congr
              · rw [unwoundEntries_eq, exists_map_iff, and_iff_right rfl]
                apply exists_congr
                intro va
                apply and_congr_right
                intro hva
                exact unwound_live_iff parsed (List.all_eq_true.mp hd va hva) hud
              · rw [calleeFootprints_eq, List.map_map, exists_map_iff]
                apply exists_congr
                intro callee
                apply and_congr_right
                intro hcallee
                exact hbelow callee hcallee

end Unwinding

section Run

variable {program : Program} {trackLocking : Bool} {funcs : List FuncInfo} {funcNames : List String} {u : String}

def isVariable (c : Cursor) : Bool := isOfKind .varDecl c || isOfKind .parmDecl c

/-- libclang gives every variable a USR. -/
def VariablesNamed (program : Program) : Prop := ∀ d ∈ program.decls, isVariable d = true → d.label.usr ≠ ""

def walkStart (program : Program) (trackLocking : Bool) (funcs : List FuncInfo) (k : Nat) : Globals :=
  (processFuncs program trackLocking (funcs.take k) initGlobals).2

/-- A callback of the walk of a requested function records a reference to the variable: in the function's
own body under the name that the call string gives it, or in the walk of a callee. -/
def RefersTo (program : Program) (trackLocking : Bool) (funcs : List FuncInfo) (funcNames : List String)
    (u : String) (k : Nat) : Prop :=
  ∃ func funcCall, funcs[k]? = some func ∧ funcNames[k]? = some funcCall ∧
    ∃ x ∈ ownSteps program trackLocking func (walkStart program trackLocking funcs k),
      Records program (fun va => (boundEntry (some (parseFuncCall funcCall).2)
        (processFuncInfo program trackLocking func (walkStart program trackLocking funcs k)).1.label va).usr = some u)
          x.1 x.2 ∨
      RecordsBelow program trackLocking (fun va => va.usr = some u) x.1 x.2

theorem processFuncs_getElem? (funcs : List FuncInfo) (globals : Globals) (k : Nat) :
    (processFuncs program trackLocking funcs globals).1[k]? = funcs[k]?.map fun func =>
      (processFuncInfo program trackLocking func
        (processFuncs program trackLocking (funcs.take k) globals).2).1 := by
  induction funcs generalizing globals k with
  | nil => rfl
  | cons func funcs ih =>
      cases k with
      | zero => rfl
      | succ k => exact ih _ k

theorem declNames_named (stack : CursorArr) {referenced : Cursor} (h : referenced.label.usr ≠ "") :
    (declNames program stack referenced).usr ≠ "" := by
  have hfold : ∀ (members : List Cursor) (chain : MemberChain), chain.usr ≠ "" →
      (members.foldl (appendMember program) chain).usr ≠ "" := by
    intro members
    induction members with
    | nil => exact fun _ h => h
    | cons member members ih =>
        intro chain hchain
        apply ih
        rw [appendMember]
        split
        next => simp
        next => exact hchain
  rw [declNames]
  split
  next => exact hfold _ _ h
  next => exact h

theorem declRefAccess_named (hnamed : VariablesNamed program) {stack : CursorArr} {spelling : String}
    {current : Cursor} {va : VarAccess} (h : declRefAccess program stack spelling current = some va) :
    va.usr ≠ some "" := by
  rw [declRefAccess] at h
  obtain ⟨referenced, hreferenced, h⟩ := Option.bind_eq_some_iff.mp h
  obtain ⟨hfound, hvariable⟩ := Option.filter_eq_some_iff.mp hreferenced
  obtain ⟨id, -, hfound⟩ := Option.bind_eq_some_iff.mp hfound
  have hchain := @declNames_named program stack referenced (hnamed _ (List.mem_of_find?_eq_some hfound) hvariable)
  dsimp only at h
  split at h
  next hcall =>
    obtain rfl := Option.some.inj h
    have htype : callArgumentType (closestAncestors stack) (isPtrType referenced.label.typeKind) ≠ .call := by
      intro htype
      have haccess := References.callArgumentType_isAccess (closestAncestors stack)
        (isPtrType referenced.label.typeKind)
      rw [htype] at haccess
      cases haccess
    simpa [initVarAccess, htype] using hchain
  next hcall =>
    obtain ⟨type, htype, rfl⟩ := Option.map_eq_some_iff.mp h
    have hcall : type ≠ .call := by
      rintro rfl
      cases References.operandType_isAccess htype
    simpa [initVarAccess, hcall] using hchain

/-- A test of the entries that is kept on a walk from a fresh function. -/
theorem walked_entries {p : VarAccess → Bool}
    (hmarker : ∀ (s : WalkState) type, type ≠ .call → p (s.marker type) = true)
    (hcall : ∀ working s, p (callEntry working s) = true)
    (href : ∀ stack spelling current va, declRefAccess program stack spelling current = some va → p va = true)
    (root : Cursor) (globals : Globals) :
    (processFuncInfo program trackLocking (requestedFunc root) globals).1.all (entriesAll p) = true := by
  refine (entries_rule ?_ hcall href).result (requestedFunc root) globals rfl
  intro current parent s va hva
  have htype := markersAt_isMarker program trackLocking current parent s hva
  obtain ⟨type, rfl⟩ := mem_markersAt program trackLocking current parent s hva
  apply hmarker
  rintro rfl
  simp at htype

theorem walked_fromWalk (hnamed : VariablesNamed program) (root : Cursor) (globals : Globals) :
    (processFuncInfo program trackLocking (requestedFunc root) globals).1.all fromWalk = true := by
  have htest : fromWalk = entriesAll fun va =>
      (va.type != .call || va.escParamIdx == noIdx) && (!va.live || va.usr != some "") := by
    funext func
    rw [Bool.eq_iff_iff, fromWalk, Bool.and_eq_true, callsUnindexed, accessesNamed, entriesAll, List.all_eq_true,
      List.all_eq_true, List.all_eq_true]
    simp only [Bool.and_eq_true]
    exact forall₂_and.symm
  rw [htest]
  apply walked_entries
  · intro s type htype
    simp [WalkState.marker, initVarAccess, noIdx, htype]
  · exact fun _ _ => rfl
  · intro stack spelling current va hva
    have haccess := (References.declRefAccess_isAccess hva).1
    have husr := declRefAccess_named hnamed hva
    cases htype : va.type <;> simp_all [VarAccessType.isAccess]

theorem walked_recorded (root : Cursor) (globals : Globals) :
    (processFuncInfo program trackLocking (requestedFunc root) globals).1.all (entriesAll recordedEntry) = true := by
  apply walked_entries
  · intro s type htype
    simp [recordedEntry, WalkState.marker, initVarAccess, htype]
  · exact fun _ _ => rfl
  · intro stack spelling current va hva
    rw [recordedEntry, (References.declRefAccess_isAccess hva).1]
    rfl

theorem walked_calleePerCall (root : Cursor) (globals : Globals) :
    CalleePerCall (processFuncInfo program trackLocking (requestedFunc root) globals).1 :=
  (calleePerCall_rule.result (requestedFunc root) globals ⟨rfl, rfl, rfl⟩).1

theorem records_access {p : VarAccess → Prop} {visit : Visit CursorInfo} {s : WalkState} :
    Records program (fun va => va.type.isAccess = true ∧ p va) visit s ↔ Records program p visit s := by
  rw [Records, Records]
  apply exists_congr
  intro va
  apply and_congr_right
  intro hva
  rw [recordedAt] at hva
  split at hva
  next => exact and_iff_right (References.declRefAccess_isAccess hva).1
  next => cases hva

theorem recordsBelow_access {p : VarAccess → Prop} {visit : Visit CursorInfo} {s : WalkState} :
    RecordsBelow program trackLocking (fun va => va.type.isAccess = true ∧ p va) visit s ↔
      RecordsBelow program trackLocking p visit s := by
  rw [RecordsBelow, RecordsBelow]
  simp only [records_access]

/-- The footprint of a requested function holds the variable exactly if its walk refers to it. -/
theorem rootFootprint_liveIn_iff (hnamed : VariablesNamed program) {root : Cursor} {globals : Globals}
    (hu : (processFuncInfo program trackLocking (requestedFunc root) globals).1.all (notDeclared u) = true)
    (funcCall : String) :
    LiveIn u (rootFootprint (processFuncInfo program trackLocking (requestedFunc root) globals).1 funcCall) ↔
      ∃ x ∈ ownSteps program trackLocking (requestedFunc root) globals,
        Records program (fun va => (boundEntry (some (parseFuncCall funcCall).2)
          (processFuncInfo program trackLocking (requestedFunc root) globals).1.label va).usr = some u) x.1 x.2 ∨
        RecordsBelow program trackLocking (fun va => va.usr = some u) x.1 x.2 := by
  rw [rootFootprint, footprint_liveIn_iff (walked_calleePerCall root globals) (walked_fromWalk hnamed root globals)
    (walked_recorded root globals) hu]
  have hown := (@records_rule program trackLocking (fun va => va.type.isAccess = true ∧
    (boundEntry (some (parseFuncCall funcCall).2)
      (processFuncInfo program trackLocking (requestedFunc root) globals).1.label va).usr = some u)
        fun _ h => h.1).result (requestedFunc root) globals ⟨rfl, rfl, rfl⟩
  have hbelow := ((@records_rule program trackLocking (fun va => va.type.isAccess = true ∧ va.usr = some u)
    fun _ h => h.1).result (requestedFunc root) globals ⟨rfl, rfl, rfl⟩).1.below
  rw [and_iff_right hown.2, hown.1.own, hbelow]
  simp only [records_access, recordsBelow_access, and_or_left, exists_or]

theorem footprints_liveIn_iff (hnamed : VariablesNamed program)
    (hfuncs : ∀ func ∈ funcs, ∃ root, func = requestedFunc root)
    (hu : ∀ tree ∈ (processFuncs program trackLocking funcs initGlobals).1, tree.all (notDeclared u) = true) (k : Nat) :
    0 < liveCounts u (footprints program trackLocking funcs funcNames) k ↔
      RefersTo program trackLocking funcs funcNames u k := by
  rw [liveCounts_pos_iff, RefersTo, footprints]
  constructor
  · rintro ⟨fp, hfp, hlive⟩
    obtain ⟨tree, funcCall, htree, hcall, rfl⟩ := List.getElem?_zipWith_eq_some.mp hfp
    have hmem := hu tree (List.mem_of_getElem? htree)
    rw [processFuncs_getElem?] at htree
    obtain ⟨func, hfunc, rfl⟩ := Option.map_eq_some_iff.mp htree
    obtain ⟨root, rfl⟩ := hfuncs func (List.mem_of_getElem? hfunc)
    exact ⟨_, funcCall, hfunc, hcall, (rootFootprint_liveIn_iff hnamed hmem funcCall).mp hlive⟩
  · rintro ⟨func, funcCall, hfunc, hcall, hrefers⟩
    obtain ⟨root, rfl⟩ := hfuncs func (List.mem_of_getElem? hfunc)
    have htree : (processFuncs program trackLocking funcs initGlobals).1[k]? = some
        (processFuncInfo program trackLocking (requestedFunc root) (walkStart program trackLocking funcs k)).1 := by
      rw [processFuncs_getElem?, hfunc]
      rfl
    refine ⟨_, List.getElem?_zipWith_eq_some.mpr ⟨_, _, htree, hcall, rfl⟩, ?_⟩
    exact (rootFootprint_liveIn_iff hnamed (hu _ (List.mem_of_getElem? htree)) funcCall).mpr hrefers

theorem requested_root (h : requestedFuncs program funcNames = some funcs) :
    ∀ func ∈ funcs, ∃ root, func = requestedFunc root := by
  rw [requestedFuncs] at h
  simp only [Option.ite_none_right_eq_some, Option.some.injEq] at h
  obtain ⟨-, rfl⟩ := h
  intro func hfunc
  rw [RequestBinding.processTuArray_funcs] at hfunc
  obtain ⟨root, -, hmem⟩ := List.mem_flatMap.mp hfunc
  obtain ⟨_, -, rfl⟩ := List.mem_map.mp hmem
  exact ⟨root, rfl⟩

end Run

theorem plain_run_reports (moves : Nat → Bool) (lockPairArray : List LockPrimitivePair) {program : Program}
    {funcNames : List String} {funcs : List FuncInfo} {u : String} (hnamed : VariablesNamed program)
    (hroots : ∀ func ∈ funcs, ∃ root, func = requestedFunc root)
    (hu : ∀ tree ∈ (processFuncs program false funcs initGlobals).1, tree.all (notDeclared u) = true) :
    ∃ left reports, compareAllFuncs moves lockPairArray false (footprints program false funcs funcNames) =
        some (left, reports) ∧
      ((∃ r ∈ reports, r.vaI.usr = some u) ↔ ∃ i j, i ≠ j ∧ RefersTo program false funcs funcNames u i ∧
        RefersTo program false funcs funcNames u j) := by
  obtain ⟨left, reports, hrun, hcancels⟩ := double_loop_cancels moves lockPairArray
    (footprints program false funcs funcNames)
  refine ⟨left, reports, hrun, ?_⟩
  simp only [← footprints_liveIn_iff hnamed hroots hu]
  rw [← total_pairs_pos_iff, ← (hcancels u).2, reportsOf, List.countP_pos_iff]
  simp

/-- Where the run stays in its memory, a variable that no function declares for itself is reported exactly if
the walks of two requested functions record references to it. With lock tracking nothing else is reported either. -/
theorem shared_variables_reported (moves : Nat → Bool) (lockPairArray : List LockPrimitivePair) (program : Program)
    {funcNames : List String} {funcs : List FuncInfo} (hfuncs : requestedFuncs program funcNames = some funcs)
    (_hmemory : ∀ trackLocking, staysInMemory program trackLocking funcs funcNames = true)
    (hnamed : VariablesNamed program) {u : String} (hu : ∀ trackLocking,
      ∀ tree ∈ (processFuncs program trackLocking funcs initGlobals).1, tree.all (notDeclared u) = true) :
    (∃ left reports, compareAllFuncs moves lockPairArray false (footprints program false funcs funcNames) =
        some (left, reports) ∧
      ((∃ r ∈ reports, r.vaI.usr = some u) ↔ ∃ i j, i ≠ j ∧ RefersTo program false funcs funcNames u i ∧
        RefersTo program false funcs funcNames u j)) ∧
    ∀ left reports, compareAllFuncs moves lockPairArray true (footprints program true funcs funcNames) =
      some (left, reports) → (∃ r ∈ reports, r.vaI.usr = some u) → ∃ i j, i ≠ j ∧
        RefersTo program true funcs funcNames u i ∧ RefersTo program true funcs funcNames u j := by
  have hroots := requested_root hfuncs
  constructor
  · exact plain_run_reports moves lockPairArray hnamed hroots (hu false)
  · intro left reports hrun hreported
    obtain ⟨r, hr, husr⟩ := hreported
    obtain ⟨usr, husr', hshared⟩ := report_shared hrun hr
    obtain rfl : usr = u := Option.some.inj (husr'.symm.trans husr)
    simpa only [footprints_liveIn_iff hnamed hroots (hu true)] using hshared

def globalWriter (id : Nat) (name : String) : Cursor :=
  definitionOf id name []
    [.node { id := id + 2, kind := .binaryOperator, binaryOperatorKind := .assign }
      [.node { id := id + 3, kind := .declRefExpr, referenced := some 20 } [],
       .node { id := id + 4, kind := .other 106 } []]]

def globalProgram : Program where
  tuArray := [.node { id := 0, kind := .translationUnit } [globalWriter 1 "f", globalWriter 11 "g"]]
  fileNames := ["fg.c"]
  decls := [.node { id := 20, kind := .varDecl, usr := "c:@x", linkage := .external } []]
  zeroCursorIsNull := false

/-- x is reported, and both functions refer to it. -/
theorem globalWriters_refer : ∃ funcs, requestedFuncs globalProgram ["f()", "g()"] = some funcs ∧
    ∃ i j, i ≠ j ∧ RefersTo globalProgram false funcs ["f()", "g()"] "c:@x" i ∧
      RefersTo globalProgram false funcs ["f()", "g()"] "c:@x" j := by
  have hrequested : (requestedFuncs globalProgram ["f()", "g()"]).isSome = true := by decide +kernel
  have hdeclared : ∀ trackLocking, (requestedFuncs globalProgram ["f()", "g()"]).all (fun funcs =>
      (processFuncs globalProgram trackLocking funcs initGlobals).1.all fun tree => tree.all (notDeclared "c:@x")) =
        true := by decide +kernel
  have hstays : ∀ trackLocking, (requestedFuncs globalProgram ["f()", "g()"]).all (fun funcs =>
      staysInMemory globalProgram trackLocking funcs ["f()", "g()"]) = true := by decide +kernel
  have hreported : ((requestedFuncs globalProgram ["f()", "g()"]).bind fun funcs =>
      compareAllFuncs (fun _ => false) [] false (footprints globalProgram false funcs ["f()", "g()"])).any
        (fun result => result.2.any fun r => r.vaI.usr == some "c:@x") = true := by decide +kernel
  obtain ⟨funcs, hfuncs⟩ := Option.isSome_iff_exists.mp hrequested
  have hnamed : VariablesNamed globalProgram := by
    intro d hd _
    obtain rfl := List.mem_singleton.mp hd
    decide
  have hu : ∀ trackLocking, ∀ tree ∈ (processFuncs globalProgram trackLocking funcs initGlobals).1,
      tree.all (notDeclared "c:@x") = true := by
    intro trackLocking tree htree
    have hall := hdeclared trackLocking
    rw [hfuncs, Option.all_some] at hall
    exact List.all_eq_true.mp hall tree htree
  have hmemory : ∀ trackLocking, staysInMemory globalProgram trackLocking funcs ["f()", "g()"] = true := by
    intro trackLocking
    have hall := hstays trackLocking
    rwa [hfuncs, Option.all_some] at hall
  obtain ⟨⟨left, reports, hrun, hiff⟩, -⟩ :=
    shared_variables_reported (fun _ => false) [] globalProgram hfuncs hmemory hnamed hu
  rw [hfuncs, Option.bind_some, hrun, Option.any_some, List.any_eq_true] at hreported
  obtain ⟨r, hr, husr⟩ := hreported
  exact ⟨funcs, hfuncs, hiff.mp ⟨r, hr, beq_iff_eq.mp husr⟩⟩

end Prongc.SharedReferences
