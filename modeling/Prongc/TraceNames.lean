import Prongc.MemberPaths
import Prongc.FootprintBrackets

namespace Prongc.TraceNames

open Access Ast DeclRef ParseCall WalkFunc WalkAst Callbacks Recursion Unwind UnwindFrame Library.Traversal

/-- A trace name is split at its first '@'; without one there is nothing to split. -/
def markPostfixFuncName (varName : String) : Option (String × String) :=
  match varName.toList.dropWhile (· ≠ '@') with
  | [] => none
  | _ :: argName => some (String.ofList (varName.toList.takeWhile (· ≠ '@')), String.ofList argName)

/-- strcmp tells that the strings are equal; `none` is a call with a null pointer. -/
def strcmpEqual (str : String) (pointer : Option String) : Option Bool := pointer.map (str == ·)

def aosContainsString (array : List String) (pointer : Option String) : Option Bool :=
  pointer.map array.contains

structure VarTrace where
  varName : String
  access : VarAccess
  deriving DecidableEq

section Loop

variable (globalUsrs : List String)

/-- A name with a function is compared with an entry of that function only, one without with every
entry. -/
def isTraced (va : VarAccess) (varName : String) : Option Bool :=
  match markPostfixFuncName varName with
  | some (funcName, argName) => do
      if ← strcmpEqual funcName (some va.parentFuncName) then strcmpEqual argName va.name else some false
  | none => do
      if ← strcmpEqual varName va.name then aosContainsString globalUsrs va.usr else some false

def traceName (st : VarAccess × List VarTrace) (varName : String) : Option (VarAccess × List VarTrace) :=
  (isTraced globalUsrs st.1 varName).map fun traced =>
    if traced then (st.1.nullify, st.2 ++ [⟨varName, st.1⟩]) else st

def findExclusiveVaNames (traceVarNames : List String) : List VarAccess → Option (List VarAccess × List VarTrace)
  | [] => some ([], [])
  | va :: fp => do
      let first ← traceVarNames.foldlM (traceName globalUsrs) (va, [])
      let rest ← findExclusiveVaNames traceVarNames fp
      some (first.1 :: rest.1, first.2 ++ rest.2)

end Loop

structure StringCall where
  va : VarAccess
  pointer : Option String
  deriving DecidableEq

def stringCalls (va : VarAccess) (varName : String) : List StringCall :=
  match markPostfixFuncName varName with
  | some (funcName, _) =>
      ⟨va, some va.parentFuncName⟩ :: if funcName = va.parentFuncName then [⟨va, va.name⟩] else []
  | none => ⟨va, va.name⟩ :: if va.name = some varName then [⟨va, va.usr⟩] else []

def upToNull : List StringCall → List StringCall
  | [] => []
  | c :: calls => c :: if c.pointer.isSome then upToNull calls else []

def callsMade (traceVarNames : List String) (fp : List VarAccess) : List StringCall :=
  upToNull (fp.flatMap fun va => traceVarNames.flatMap (stringCalls va))

def isNamed (va : VarAccess) : Bool := va.name.isSome && va.usr.isSome

def isBranchMarker (va : VarAccess) : Bool :=
  va.type == .ifStmt || va.type == .thenBlock || va.type == .elseStmt || va.type == .endIf

def builtFootprint (program : Program) (trackLocking : Bool) (root : Cursor) (globals : Globals)
    (funcCall : String) : List VarAccess :=
  rootFootprint (processFuncInfo program trackLocking (requestedFunc root) globals).1 funcCall

def ForOtherFunc (va : VarAccess) (varName : String) : Prop :=
  ∃ funcName argName, markPostfixFuncName varName = some (funcName, argName) ∧ funcName ≠ va.parentFuncName

section Calls

variable {globalUsrs traceVarNames : List String} {va : VarAccess} {varName : String} {fp : List VarAccess}

theorem isTraced_isSome_iff : (isTraced globalUsrs va varName).isSome = true ↔
    ∀ c ∈ stringCalls va varName, c.pointer.isSome = true := by
  rw [isTraced, stringCalls]
  cases markPostfixFuncName varName with
  | some split =>
      obtain ⟨funcName, argName⟩ := split
      by_cases hfunc : funcName = va.parentFuncName
      · simp [strcmpEqual, hfunc]
      · simp [strcmpEqual, hfunc]
  | none =>
      cases va.name with
      | none => simp [strcmpEqual]
      | some name =>
          by_cases hsame : varName = name
          · simp [strcmpEqual, aosContainsString, hsame]
          · simp [strcmpEqual, hsame, Ne.symm hsame]

theorem isTraced_nullify : isTraced globalUsrs va.nullify varName = isTraced globalUsrs va varName := rfl

/-- An entry keeps its names while its type is nulled, so each trace name decides for itself. -/
theorem traceNames_isSome_iff {st : VarAccess × List VarTrace} (hst : st.1 = va ∨ st.1 = va.nullify) :
    (traceVarNames.foldlM (traceName globalUsrs) st).isSome = true ↔
      ∀ varName ∈ traceVarNames, (isTraced globalUsrs va varName).isSome = true := by
  induction traceVarNames generalizing st with
  | nil => simp
  | cons varName names ih =>
      have hsame : isTraced globalUsrs st.1 varName = isTraced globalUsrs va varName := by
        rcases hst with hst | hst
        · rw [hst]
        · rw [hst, isTraced_nullify]
      rw [List.foldlM_cons, List.forall_mem_cons, traceName, hsame]
      cases htraced : isTraced globalUsrs va varName with
      | none => simp
      | some traced =>
          have hrest := @ih (if traced then (st.1.nullify, st.2 ++ [⟨varName, st.1⟩]) else st) (by
            cases traced with
            | false => exact hst
            | true =>
                rcases hst with hst | hst
                · exact .inr (congrArg VarAccess.nullify hst)
                · exact .inr (by rw [hst]; rfl))
          rw [Option.map_some]
          exact hrest.trans (by simp)

theorem findExclusiveVaNames_isSome_iff : (findExclusiveVaNames globalUsrs traceVarNames fp).isSome = true ↔
    ∀ va ∈ fp, ∀ varName ∈ traceVarNames, ∀ c ∈ stringCalls va varName, c.pointer.isSome = true := by
  induction fp with
  | nil => simp [findExclusiveVaNames]
  | cons va fp ih =>
      have hfirst := @traceNames_isSome_iff globalUsrs traceVarNames va (va, []) (.inl rfl)
      simp only [isTraced_isSome_iff] at hfirst
      rw [List.forall_mem_cons, ← hfirst, ← ih, findExclusiveVaNames]
      cases traceVarNames.foldlM (traceName globalUsrs) (va, []) with
      | none => simp
      | some first => cases findExclusiveVaNames globalUsrs traceVarNames fp <;> simp

theorem stringCalls_va {c : StringCall} (hc : c ∈ stringCalls va varName) : c.va = va := by
  rw [stringCalls] at hc
  grind

theorem pointer_of_named (hva : isNamed va = true) {c : StringCall} (hc : c ∈ stringCalls va varName) :
    c.pointer.isSome = true := by
  obtain ⟨hname, husr⟩ := (Bool.and_eq_true _ _).mp hva
  rw [stringCalls] at hc
  grind

theorem upToNull_sublist (calls : List StringCall) : (upToNull calls).Sublist calls := by
  induction calls with
  | nil => exact .slnil
  | cons c calls ih =>
      rw [upToNull]
      split
      next => exact ih.cons_cons c
      next => exact (List.nil_sublist calls).cons_cons c

theorem upToNull_eq_self {calls : List StringCall} (h : ∀ c ∈ upToNull calls, c.pointer.isSome = true) :
    upToNull calls = calls := by
  induction calls with
  | nil => rfl
  | cons c calls ih =>
      rw [upToNull] at h ⊢
      obtain ⟨hc, hrest⟩ := List.forall_mem_cons.mp h
      rw [if_pos hc] at hrest ⊢
      rw [ih hrest]

theorem mem_calls_iff {c : StringCall} : c ∈ fp.flatMap (fun va => traceVarNames.flatMap (stringCalls va)) ↔
    ∃ va ∈ fp, ∃ varName ∈ traceVarNames, c ∈ stringCalls va varName := by
  simp only [List.mem_flatMap]

theorem callsMade_named_iff : (∀ c ∈ callsMade traceVarNames fp, isNamed c.va = true) ↔
    traceVarNames = [] ∨ ∀ va ∈ fp, isNamed va = true := by
  constructor
  · intro h
    have hall : callsMade traceVarNames fp = fp.flatMap fun va => traceVarNames.flatMap (stringCalls va) := by
      apply upToNull_eq_self
      intro c hc
      obtain ⟨va, -, varName, -, hcall⟩ := mem_calls_iff.mp ((upToNull_sublist _).subset hc)
      exact pointer_of_named (stringCalls_va hcall ▸ h c hc) hcall
    cases traceVarNames with
    | nil => exact .inl rfl
    | cons varName names =>
        refine .inr fun va hva => ?_
        obtain ⟨c, hc⟩ : ∃ c, c ∈ stringCalls va varName := by
          rw [stringCalls]
          cases markPostfixFuncName varName <;> exact ⟨_, List.mem_cons_self⟩
        rw [hall] at h
        rw [← stringCalls_va hc]
        exact h c (mem_calls_iff.mpr ⟨va, hva, varName, List.mem_cons_self, hc⟩)
  · intro h c hc
    obtain ⟨va, hva, varName, hsame, hcall⟩ := mem_calls_iff.mp ((upToNull_sublist _).subset hc)
    rcases h with rfl | h
    · cases hsame
    · rw [stringCalls_va hcall]
      exact h va hva

theorem pointers_of_unnamed (hname : va.name = none) :
    (∀ c ∈ stringCalls va varName, c.pointer.isSome = true) ↔ ForOtherFunc va varName := by
  rw [stringCalls, ForOtherFunc]
  cases markPostfixFuncName varName with
  | none => simp [hname]
  | some split =>
      obtain ⟨funcName, argName⟩ := split
      by_cases hfunc : funcName = va.parentFuncName
      · simp [hfunc, hname]
      · simp [hfunc]

end Calls

section Unwinding

structure SurvivesUnwinding (p : VarAccess → Bool) : Prop where
  rename : ∀ va old new, p va = true → va.usr = some old → p { va with usr := some new } = true
  mark : ∀ func va, p va = true → p (markVarAccess func va) = true
  call : ∀ va, p va = true → va.type = .call → va.usr.isSome = true

variable {p : VarAccess → Bool}

theorem SurvivesUnwinding.mapArgument (hp : SurvivesUnwinding p) (paramUsr arg : String) {va : VarAccess}
    (h : p va = true) : p (Unwind.mapArgument paramUsr arg va) = true := by
  rw [Unwind.mapArgument]
  split
  next usr husr =>
    split
    next => exact hp.rename va usr _ h husr
    next => exact h
  next => exact h

theorem SurvivesUnwinding.argumentAccesses (hp : SurvivesUnwinding p) (parsed : Option (List String))
    {func : FuncData} (h : entriesAll p func = true) : (Unwind.argumentAccesses parsed func).all p = true := by
  cases parsed with
  | none => exact h
  | some call =>
      apply List.foldlRecOn (motive := fun vas : List VarAccess => vas.all p = true) _ _ h
      intro vas hvas arg _
      rw [List.all_eq_true] at hvas ⊢
      intro va hva
      obtain ⟨old, hold, rfl⟩ := List.mem_map.mp hva
      exact hp.mapArgument arg.1 arg.2 (hvas old hold)

theorem SurvivesUnwinding.resolve (hp : SurvivesUnwinding p) {callee : FuncData} (h : entriesAll p callee = true)
    {va : VarAccess} {usr : String} (husr : va.usr = some usr) :
    entriesAll p (resolveVarAccessAlias callee va) = true := by
  rw [entriesAll, List.all_eq_true] at h ⊢
  intro working hworking
  obtain ⟨old, hold, rfl⟩ := List.mem_map.mp hworking
  split
  next hparam =>
    rw [husr]
    exact hp.rename old _ usr (h old hold) hparam.2
  next => exact h old hold

theorem SurvivesUnwinding.resolveAliases (hp : SurvivesUnwinding p) {vas : List VarAccess}
    {callees : List FuncData} (hvas : vas.all p = true) (h : ∀ callee ∈ callees, entriesAll p callee = true) :
    ∀ callee ∈ Unwind.resolveAliases vas callees, entriesAll p callee = true := by
  refine List.foldlRecOn (motive := fun st : Nat × List FuncData => ∀ callee ∈ st.2, entriesAll p callee = true)
    _ _ h ?_
  intro st hst va hva
  rw [resolveNext]
  split
  next hcall =>
    split
    next callee hcallee =>
      split
      next => exact hst
      next =>
        obtain ⟨usr, husr⟩ := Option.isSome_iff_exists.mp (hp.call va (List.all_eq_true.mp hvas va hva) hcall)
        intro other hother
        rcases List.mem_or_eq_of_mem_set hother with hother | rfl
        · exact hst other hother
        · exact hp.resolve (hst callee (List.mem_of_getElem? hcallee)) husr
    next => exact hst
  next => exact hst

theorem unwindCallees_all {labels : List FuncData} {callees : List FuncInfo}
    (hlabels : ∀ label ∈ labels, entriesAll p label = true)
    (hcallees : ∀ callee ∈ callees, ∀ label, entriesAll p label = true →
      (unwindAs none label callee).all (entriesAll p) = true) :
    ∀ callee ∈ unwindCallees labels callees, callee.all (entriesAll p) = true := by
  induction callees generalizing labels with
  | nil =>
      intro callee hcallee
      cases labels <;> cases hcallee
  | cons first callees ih =>
      cases labels with
      | nil => exact fun callee hcallee => by cases hcallee
      | cons label labels =>
          obtain ⟨hlabel, hlabels⟩ := List.forall_mem_cons.mp hlabels
          obtain ⟨hfirst, hcallees⟩ := List.forall_mem_cons.mp hcallees
          rw [unwindCallees, List.forall_mem_cons]
          exact ⟨hfirst label hlabel, ih hlabels hcallees⟩

theorem SurvivesUnwinding.unwindAs (hp : SurvivesUnwinding p) (tree : FuncInfo)
    (h : tree.all (entriesAll p) = true) : ∀ parsed label, entriesAll p label = true →
      (Unwind.unwindAs parsed label tree).all (entriesAll p) = true := by
  induction tree using RoseTree.childInduction with
  | hnode d callees ih =>
      intro parsed label hlabel
      obtain ⟨-, hcallees⟩ := (RoseTree.all_iff _ _).mp h
      rw [Unwind.unwindAs]
      split
      next => exact (RoseTree.all_iff _ _).mpr ⟨hlabel, hcallees⟩
      next =>
        have hargs := hp.argumentAccesses parsed hlabel
        refine (RoseTree.all_iff _ _).mpr ⟨?_, ?_⟩
        · rw [RoseTree.label_node, entriesAll, List.all_eq_true]
          intro va hva
          obtain ⟨old, hold, rfl⟩ := List.mem_map.mp hva
          exact hp.mark label old (List.all_eq_true.mp hargs old hold)
        · refine unwindCallees_all (hp.resolveAliases hargs ?_) fun callee hcallee =>
            ih callee hcallee (hcallees callee hcallee) none
          intro label hlabel
          obtain ⟨callee, hcallee, rfl⟩ := List.mem_map.mp hlabel
          exact ((RoseTree.all_iff _ _).mp (hcallees callee hcallee)).1

theorem forall_spliceFootprints {P : VarAccess → Prop} {vas : List VarAccess} {footprints : List (List VarAccess)}
    (hvas : ∀ va ∈ vas, P va) (hfootprints : ∀ footprint ∈ footprints, ∀ va ∈ footprint, P va) :
    ∀ va ∈ spliceFootprints vas footprints, P va := by
  induction vas generalizing footprints with
  | nil => exact fun va hva => by cases hva
  | cons first vas ih =>
      obtain ⟨hfirst, hvas⟩ := List.forall_mem_cons.mp hvas
      by_cases hcall : first.type = .call
      · cases footprints with
        | nil =>
            rw [spliceFootprints_call_nil _ hcall]
            exact ih hvas hfootprints
        | cons footprint footprints =>
            obtain ⟨hfootprint, hfootprints⟩ := List.forall_mem_cons.mp hfootprints
            rw [spliceFootprints_call _ _ hcall]
            exact List.forall_mem_append.mpr ⟨hfootprint, ih hvas hfootprints⟩
      · by_cases hnull : first.type = .null
        · rw [spliceFootprints_null _ _ hnull]
          exact ih hvas hfootprints
        · rw [spliceFootprints_other _ _ hcall hnull]
          exact List.forall_mem_cons.mpr ⟨hfirst, ih hvas hfootprints⟩

theorem forall_footprint {p : VarAccess → Bool} (tree : FuncInfo) (h : tree.all (entriesAll p) = true) :
    ∀ va ∈ buildVarAccessFootprint tree, p va = true := by
  induction tree using RoseTree.childInduction with
  | hnode d callees ih =>
      obtain ⟨hd, hcallees⟩ := (RoseTree.all_iff _ _).mp h
      rw [buildVarAccessFootprint]
      split
      next => exact fun va hva => by cases hva
      next =>
        apply forall_spliceFootprints (List.all_eq_true.mp hd)
        rw [CallSites.calleeFootprints_eq]
        intro footprint hfootprint
        obtain ⟨callee, hcallee, rfl⟩ := List.mem_map.mp hfootprint
        exact ih callee hcallee (hcallees callee hcallee)

/-- Such a fact about all entries of a walked tree holds of the footprint. -/
theorem SurvivesUnwinding.rootFootprint (hp : SurvivesUnwinding p) {tree : FuncInfo}
    (h : tree.all (entriesAll p) = true) (funcCall : String) :
    ∀ va ∈ Unwind.rootFootprint tree funcCall, p va = true :=
  forall_footprint _ (hp.unwindAs tree h _ _ ((RoseTree.all_iff _ _).mp h).1)

end Unwinding

section Footprints

variable {program : Program} {trackLocking : Bool}

def wellNamed (va : VarAccess) : Bool :=
  if isBranchMarker va then va.name.isNone && va.usr.isNone && va.escFuncSpelling.isNone else isNamed va

theorem isNamed_of_wellNamed {va : VarAccess} (h : wellNamed va = true) (hmarker : isBranchMarker va = false) :
    isNamed va = true := by
  rwa [wellNamed, hmarker] at h

theorem unnamed_of_wellNamed {va : VarAccess} (h : wellNamed va = true) (hmarker : isBranchMarker va = true) :
    va.name = none ∧ va.usr = none ∧ va.escFuncSpelling = none := by
  rw [wellNamed, if_pos hmarker] at h
  simpa [and_assoc] using h

theorem isNamed_iff_of_wellNamed {va : VarAccess} (h : wellNamed va = true) :
    isNamed va = true ↔ isBranchMarker va = false := by
  constructor
  · intro hnamed
    by_contra hmarker
    obtain ⟨hname, -⟩ := unnamed_of_wellNamed h ((Bool.not_eq_false _).mp hmarker)
    rw [isNamed, hname] at hnamed
    cases hnamed
  · exact isNamed_of_wellNamed h

theorem notMarker_of_usr {va : VarAccess} {usr : String} (h : wellNamed va = true) (husr : va.usr = some usr) :
    isBranchMarker va = false := by
  by_contra hmarker
  have hnone := (unnamed_of_wellNamed h ((Bool.not_eq_false _).mp hmarker)).2.1
  rw [husr] at hnone
  cases hnone

theorem wellNamed_rename {va : VarAccess} {usr : String} (h : wellNamed va = true) (husr : va.usr = some usr)
    (new : String) : wellNamed { va with usr := some new } = true := by
  have hmarker := notMarker_of_usr h husr
  have hname := ((Bool.and_eq_true _ _).mp (isNamed_of_wellNamed h hmarker)).1
  rw [wellNamed, if_neg (show ¬ isBranchMarker { va with usr := some new } = true from Bool.eq_false_iff.mp hmarker),
    isNamed, hname]
  rfl

theorem isNamed_mark (func : FuncData) (va : VarAccess) : isNamed (markVarAccess func va) = isNamed va := by
  obtain ⟨type, h⟩ := Aliases.markVarAccess_retypes func va
  rw [h]
  rfl

theorem reference_named {stack : CursorArr} {spelling : String} {current : Cursor} {va : VarAccess}
    (hva : declRefAccess program stack spelling current = some va) : isNamed va = true ∧ isBranchMarker va = false := by
  obtain ⟨referenced, hreferenced, -⟩ := Option.bind_eq_some_iff.mp hva
  obtain ⟨hname, husr⟩ := MemberPaths.declRefAccess_names hreferenced hva
  have haccess := (References.declRefAccess_isAccess hva).1
  constructor
  · rw [isNamed, hname, husr]
    rfl
  · rw [isBranchMarker]
    cases htype : va.type <;> simp_all [VarAccessType.isAccess]

theorem wellNamed_walked (func : FuncInfo) (globals : Globals) (h : func.all (entriesAll wellNamed) = true) :
    (processFuncInfo program trackLocking func globals).1.all (entriesAll wellNamed) = true := by
  refine (entries_rule (p := wellNamed) ?_ ?_ ?_).result func globals h
  · intro current parent s va hva
    have htype := markersAt_isMarker program trackLocking current parent s hva
    obtain ⟨type, rfl⟩ := mem_markersAt program trackLocking current parent s hva
    rw [marker_type] at htype
    rcases htype with rfl | rfl | rfl | rfl <;> rfl
  · exact fun _ _ => rfl
  · intro stack spelling current va hva
    obtain ⟨hnamed, hmarker⟩ := reference_named hva
    rw [wellNamed, if_neg (Bool.eq_false_iff.mp hmarker), hnamed]

theorem notMarker_mark (func : FuncData) {va : VarAccess} (h : isBranchMarker va = false) :
    isBranchMarker (markVarAccess func va) = false := by
  rcases CallSites.markVarAccess_type func va with htype | htype | htype | htype
  · rw [isBranchMarker, htype]
    exact h
  · rw [isBranchMarker, htype]
    rfl
  · rw [isBranchMarker, htype]
    rfl
  · rw [isBranchMarker, htype]
    rfl

theorem wellNamed_mark (func : FuncData) {va : VarAccess} (h : wellNamed va = true) :
    wellNamed (markVarAccess func va) = true := by
  cases hmarker : isBranchMarker va with
  | true =>
      -- a marker is no lock argument and no access, so it stays as it is
      obtain ⟨-, husr, hspelling⟩ := unnamed_of_wellNamed h hmarker
      have hlock : lockArgumentType va = .null := by
        rw [lockArgumentType, hspelling]
      have hkept : markVarAccess func va = va := by
        simp [markVarAccess, hlock, husr, containsUsr]
      rw [hkept]
      exact h
  | false =>
      rw [wellNamed, if_neg (Bool.eq_false_iff.mp (notMarker_mark func hmarker)), isNamed_mark]
      exact isNamed_of_wellNamed h hmarker

/-- Unwinding changes USRs and types, but no name goes missing. -/
theorem wellNamed_survives : SurvivesUnwinding wellNamed where
  rename _ _ new h husr := wellNamed_rename h husr new
  mark func _ h := wellNamed_mark func h
  call va h hcall := by
    have hmarker : isBranchMarker va = false := by
      rw [isBranchMarker, hcall]
      rfl
    exact ((Bool.and_eq_true _ _).mp (isNamed_of_wellNamed h hmarker)).2

/-- The only entries of a footprint without names are its branch markers. -/
theorem wellNamed_footprint (program : Program) (trackLocking : Bool) (root : Cursor) (globals : Globals)
    (funcCall : String) : ∀ va ∈ builtFootprint program trackLocking root globals funcCall, wellNamed va = true :=
  wellNamed_survives.rootFootprint (wellNamed_walked (requestedFunc root) globals rfl) funcCall

/-- Without lock tracking a footprint has no branch markers. -/
theorem untracked_unmarked (program : Program) (root : Cursor) (globals : Globals) (funcCall : String) :
    ∀ va ∈ builtFootprint program false root globals funcCall, isBranchMarker va = false := by
  have hsurvives : SurvivesUnwinding fun va => isNamed va && !isBranchMarker va := by
    constructor
    · intro va old new h husr
      simpa [isNamed, isBranchMarker, husr] using h
    · intro func va h
      obtain ⟨hnamed, hmarker⟩ := (Bool.and_eq_true _ _).mp h
      rw [isNamed_mark, hnamed, notMarker_mark func (by simpa using hmarker)]
      rfl
    · intro va h _
      obtain ⟨hnamed, -⟩ := (Bool.and_eq_true _ _).mp h
      exact ((Bool.and_eq_true _ _).mp hnamed).2
  have hwalked : (processFuncInfo program false (requestedFunc root) globals).1.all
      (entriesAll fun va => isNamed va && !isBranchMarker va) = true := by
    refine (entries_rule ?_ ?_ ?_).result (requestedFunc root) globals rfl
    · intro current parent s va hva
      simp [markersAt, closedBranches, branchMarkers, ifStmtMarkers] at hva
    · exact fun _ _ => rfl
    · intro stack spelling current va hva
      obtain ⟨hnamed, hmarker⟩ := reference_named hva
      rw [hnamed, hmarker]
      rfl
  intro va hva
  have hva := hsurvives.rootFootprint hwalked funcCall va hva
  simpa using ((Bool.and_eq_true _ _).mp hva).2

theorem footprints_built {roots : List Cursor} {funcNames : List String} {fp : List VarAccess}
    (h : fp ∈ footprints program trackLocking (roots.map requestedFunc) funcNames) :
    ∃ root ∈ roots, ∃ globals funcCall, fp = builtFootprint program trackLocking root globals funcCall := by
  obtain ⟨func, hfunc, funcCall, rfl⟩ := mem_footprints h
  obtain ⟨before, started, after, hsplit, rfl⟩ := mem_processFuncs hfunc
  have hmem : started ∈ roots.map requestedFunc := by
    rw [hsplit]
    exact List.mem_append_right _ List.mem_cons_self
  obtain ⟨root, hroot, rfl⟩ := List.mem_map.mp hmem
  exact ⟨root, hroot, _, funcCall, rfl⟩

end Footprints

/-- String functions are called for named entries only exactly if nothing is traced or the footprint has no
branch markers, and none gets a null pointer exactly if all trace names are for other functions
than those of the markers. -/
theorem tracing_iff (program : Program) (trackLocking : Bool) (root : Cursor) (globals : Globals) (funcCall : String)
    (globalUsrs traceVarNames : List String) :
    ((∀ c ∈ callsMade traceVarNames (builtFootprint program trackLocking root globals funcCall),
          isNamed c.va = true) ↔
        traceVarNames = [] ∨
          ∀ va ∈ builtFootprint program trackLocking root globals funcCall, isBranchMarker va = false) ∧
      ((findExclusiveVaNames globalUsrs traceVarNames
          (builtFootprint program trackLocking root globals funcCall)).isSome = true ↔
        ∀ va ∈ builtFootprint program trackLocking root globals funcCall, isBranchMarker va = true →
          ∀ varName ∈ traceVarNames, ForOtherFunc va varName) := by
  have hnames := wellNamed_footprint program trackLocking root globals funcCall
  constructor
  · rw [callsMade_named_iff]
    exact or_congr_right (forall₂_congr fun va hva => isNamed_iff_of_wellNamed (hnames va hva))
  · rw [findExclusiveVaNames_isSome_iff]
    apply forall₂_congr
    intro va hva
    constructor
    · intro h hmarker varName hvarName
      exact (pointers_of_unnamed (unnamed_of_wellNamed (hnames va hva) hmarker).1).mp (h varName hvarName)
    · intro h varName hvarName
      cases hmarker : isBranchMarker va with
      | true =>
          exact (pointers_of_unnamed (unnamed_of_wellNamed (hnames va hva) hmarker).1).mpr
            (h hmarker varName hvarName)
      | false => exact fun c hc => pointer_of_named (isNamed_of_wellNamed (hnames va hva) hmarker) hc

open FootprintBrackets in
/-- Tracing x in a function with an if under lock tracking compares x with the missing name of a
marker. -/
theorem endsInIf_null_compared :
    findExclusiveVaNames ["c:@x", "c:@c"] ["x"] (builtFootprint branchProgram true endsInIf initGlobals "f()") = none ∧
      ∃ c ∈ callsMade ["x"] (builtFootprint branchProgram true endsInIf initGlobals "f()"),
        c.va.name = none ∧ c.pointer = none := by
  constructor
  · decide +kernel
  · decide +kernel

end Prongc.TraceNames
