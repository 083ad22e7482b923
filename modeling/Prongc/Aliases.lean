import Prongc.Recursion
import Prongc.References
import Prongc.UnwindFrame

namespace Prongc.Aliases

open Access Ast WalkFunc Callbacks Recursion Unwind UnwindFrame Library.Traversal

/-- Call entries carry no parameter index. -/
def callsUnindexed (func : FuncData) : Bool :=
  func.varAccesses.all fun va => va.type != .call || va.escParamIdx == noIdx

def accessesNamed (func : FuncData) : Bool :=
  func.varAccesses.all fun va => !va.live || va.usr != some ""

def paramUsr (callee : FuncInfo) (k : Nat) : String :=
  cursorUsr (clangCursorGetArgument callee.label.cursor k)

/-- An entry of the caller passes its variable to a callee of the caller that has a definition. -/
structure Passes (caller : FuncInfo) (m n : Nat) (escape : VarAccess) (callee : FuncInfo) : Prop where
  entry : caller.label.varAccesses[m]? = some escape
  type : escape.type = .escape
  child : caller.children[n]? = some callee
  usr : escape.escFuncUsr = some callee.label.usr
  expanded : isLeafCallee callee = false

/-- Every access of the callee's k-th parameter ends up with the USR of the passed variable. -/
def CarriesAlias (escape : VarAccess) (k : Nat) (callee unwound : FuncInfo) : Prop :=
  ∀ (j : Nat) va, callee.label.varAccesses[j]? = some va → va.live = true →
    va.usr = some (paramUsr callee k) →
      ∃ va', unwound.label.varAccesses[j]? = some va' ∧ va'.usr = escape.usr

def AliasResolved (unwound : FuncInfo) (path : List Nat) (m n k : Nat) (callee : FuncInfo) : Prop :=
  ∃ caller' escape' callee', unwound.subtreeAt path = some caller' ∧
    caller'.label.varAccesses[m]? = some escape' ∧ caller'.children[n]? = some callee' ∧
      CarriesAlias escape' k callee callee'

def UsesParam (callee : FuncInfo) (k : Nat) : Prop :=
  ∃ va ∈ callee.label.varAccesses, va.live = true ∧ va.usr = some (paramUsr callee k)

/-- The USR of the passed variable in the caller: the root's arguments are mapped first. -/
def passedUsr (call : List String) (root : FuncInfo) (path : List Nat) (m : Nat) (escape : VarAccess) :
    Option String :=
  if path = [] then (argumentAccesses (some call) root.label)[m]?.bind VarAccess.usr else escape.usr

theorem cursorUsr_argument_noIdx (c : Cursor) : cursorUsr (clangCursorGetArgument c noIdx) = "" := rfl

theorem resolveVarAccessAlias_self {callee : FuncData} {va : VarAccess}
    (hnamed : accessesNamed callee = true) (hidx : va.escParamIdx = noIdx) :
    resolveVarAccessAlias callee va = callee := by
  have hmap : callee.varAccesses.map (fun working =>
      if working.live ∧ working.usr = some "" then { working with usr := va.usr } else working) =
        callee.varAccesses := by
    refine (List.map_congr_left fun working hw => ?_).trans (List.map_id _)
    have hname := List.all_eq_true.mp hnamed working hw
    refine if_neg ?_
    rintro ⟨hlive, husr⟩
    simp [hlive, husr] at hname
  unfold resolveVarAccessAlias
  rw [hidx, cursorUsr_argument_noIdx]
  dsimp only
  rw [hmap]

theorem resolveNext_self {st : Nat × List FuncData} {va : VarAccess}
    (hidx : va.type = .call → va.escParamIdx = noIdx) (hnamed : ∀ c ∈ st.2, accessesNamed c = true) :
    (resolveNext st va).2 = st.2 := by
  rw [resolveNext]
  split
  · next hcall =>
      cases hc : st.2[st.1]? with
      | none => rfl
      | some callee =>
          dsimp only
          split
          · rfl
          · rw [resolveVarAccessAlias_self (hnamed callee (List.mem_of_getElem? hc)) (hidx hcall)]
            obtain ⟨hlt, rfl⟩ := List.getElem?_eq_some_iff.mp hc
            exact List.set_getElem_self hlt
  · rfl

theorem resolveAliases_self {vas : List VarAccess} {callees : List FuncData}
    (hidx : ∀ va ∈ vas, va.type = .call → va.escParamIdx = noIdx)
    (hnamed : ∀ c ∈ callees, accessesNamed c = true) : resolveAliases vas callees = callees := by
  have hfold : ∀ st : Nat × List FuncData, st.2 = callees → (vas.foldl resolveNext st).2 = callees := by
    induction vas with
    | nil => exact fun _ h => h
    | cons va vas ih =>
        intro st hst
        apply ih (fun va hva => hidx va (List.mem_cons_of_mem _ hva)) _
        rw [resolveNext_self (hidx va List.mem_cons_self) (hst ▸ hnamed), hst]
  exact hfold (0, callees) rfl

theorem callsUnindexed_iff {func : FuncData} : callsUnindexed func = true ↔
    ∀ va ∈ func.varAccesses, va.type = .call → va.escParamIdx = noIdx := by
  simp [callsUnindexed, List.all_eq_true, imp_iff_not_or]

theorem callsUnindexed_renames {func func' : FuncData} (h : RenamesIn func func')
    (hfunc : callsUnindexed func = true) : callsUnindexed func' = true := by
  obtain ⟨vas, rfl, hvas⟩ := h
  rw [callsUnindexed_iff] at hfunc ⊢
  generalize func.varAccesses = old at hvas hfunc
  show ∀ va ∈ vas, va.type = .call → va.escParamIdx = noIdx
  induction hvas with
  | nil => simp
  | cons hva _ ih =>
      obtain ⟨usr, rfl⟩ := hva
      rw [List.forall_mem_cons] at hfunc ⊢
      exact ⟨hfunc.1, ih hfunc.2⟩

theorem argumentAccesses_unindexed (parsed : Option (List String)) {func : FuncData}
    (h : callsUnindexed func = true) :
    ∀ va ∈ argumentAccesses parsed func, va.type = .call → va.escParamIdx = noIdx := by
  have hrenames : RenamesIn func { func with varAccesses := argumentAccesses parsed func } :=
    ⟨_, rfl, argumentAccesses_renames parsed func⟩
  exact callsUnindexed_iff.mp (callsUnindexed_renames hrenames h)

theorem argumentAccesses_length (parsed : Option (List String)) (func : FuncData) :
    (argumentAccesses parsed func).length = func.varAccesses.length :=
  (argumentAccesses_renames parsed func).length_eq.symm

theorem unwindCallees_labels (callees : List FuncInfo) :
    unwindCallees (callees.map RoseTree.label) callees = callees.map (unwindFuncInfo none) := by
  induction callees with
  | nil => rfl
  | cons callee callees ih => rw [List.map_cons, unwindCallees, ih, List.map_cons, unwindFuncInfo]

def fromWalk (func : FuncData) : Bool := callsUnindexed func && accessesNamed func

theorem unwindFuncInfo_node (parsed : Option (List String)) {func : FuncData} {callees : List FuncInfo}
    (h : (RoseTree.node func callees).all fromWalk = true) :
    unwindFuncInfo parsed (.node func callees) =
      if func.inSystemHeader || !func.hasDefinition then .node func callees
      else .node { func with varAccesses := (argumentAccesses parsed func).map (markVarAccess func) }
        (callees.map (unwindFuncInfo none)) := by
  obtain ⟨hfunc, hcallees⟩ := (RoseTree.all_iff fromWalk _).mp h
  have hresolve : resolveAliases (argumentAccesses parsed func) (callees.map RoseTree.label) =
      callees.map RoseTree.label := by
    apply resolveAliases_self (argumentAccesses_unindexed parsed (Bool.and_eq_true_iff.mp hfunc).1)
    intro c hc
    obtain ⟨callee, hcallee, rfl⟩ := List.mem_map.mp hc
    exact (Bool.and_eq_true_iff.mp ((RoseTree.all_iff fromWalk callee).mp (hcallees callee hcallee)).1).2
  rw [unwindFuncInfo, RoseTree.label_node, unwindAs]
  simp only [hresolve, unwindCallees_labels]

theorem markVarAccess_retypes (func : FuncData) (va : VarAccess) :
    ∃ type, markVarAccess func va = { va with type := type } := by
  rw [markVarAccess]
  split
  · exact ⟨_, rfl⟩
  · dsimp only
    split
    · split
      · exact ⟨_, rfl⟩
      · exact ⟨_, rfl⟩
    · split
      · exact ⟨_, rfl⟩
      · exact ⟨_, rfl⟩

theorem markVarAccess_usr (func : FuncData) (va : VarAccess) : (markVarAccess func va).usr = va.usr := by
  obtain ⟨type, h⟩ := markVarAccess_retypes func va
  rw [h]

theorem map_markVarAccess_usr (func : FuncData) (vas : List VarAccess) :
    (vas.map (markVarAccess func)).map VarAccess.usr = vas.map VarAccess.usr := by
  rw [List.map_map]
  exact List.map_congr_left fun va _ => markVarAccess_usr func va

/-- Below the root no USR changes, and in the root only the mapped arguments do. -/
theorem unwind_subtreeAt (parsed : Option (List String)) {t func : FuncInfo} {path : List Nat}
    (h : t.all fromWalk = true) (hat : t.subtreeAt path = some func) :
    ∃ func', (unwindFuncInfo parsed t).subtreeAt path = some func' ∧
      func'.label.varAccesses.map VarAccess.usr =
        if path = [] ∧ isLeafCallee t = false then (argumentAccesses parsed t.label).map VarAccess.usr
        else func.label.varAccesses.map VarAccess.usr := by
  induction path generalizing parsed t with
  | nil =>
      obtain rfl : t = func := Option.some.inj hat
      refine ⟨_, rfl, ?_⟩
      cases t with
      | node d cs =>
          rw [unwindFuncInfo_node parsed h]
          split
          next hleaf => rw [if_neg (by simp [isLeafCallee, hleaf])]
          next hleaf =>
            rw [if_pos ⟨rfl, by simpa [isLeafCallee] using hleaf⟩]
            exact map_markVarAccess_usr d _
  | cons i path ih =>
      rw [if_neg (by simp)]
      cases t with
      | node d cs =>
          rw [unwindFuncInfo_node parsed h]
          obtain ⟨c, hc, hsub⟩ := Option.bind_eq_some_iff.mp hat
          split
          · exact ⟨func, hat, rfl⟩
          · have hall := ((RoseTree.all_iff fromWalk _).mp h).2 c (List.mem_of_getElem? hc)
            obtain ⟨func', hat', husr⟩ := ih none hall hsub
            refine ⟨func', ?_, ?_⟩
            · rw [RoseTree.children_node] at hc
              rw [RoseTree.subtreeAt, RoseTree.children_node, List.getElem?_map, hc, Option.map_some,
                Option.bind_some, hat']
            · rw [husr]
              split
              next hroot =>
                obtain ⟨rfl, -⟩ := hroot
                rw [Option.some.inj hsub]
                rfl
              next => rfl

theorem getElem?_usr {vas vas' : List VarAccess} (h : vas'.map VarAccess.usr = vas.map VarAccess.usr)
    {j : Nat} {va : VarAccess} (hva : vas[j]? = some va) :
    ∃ va', vas'[j]? = some va' ∧ va'.usr = va.usr := by
  have hj := congrArg (·[j]?) h
  simp only [List.getElem?_map, hva, Option.map_some] at hj
  exact Option.map_eq_some_iff.mp hj

theorem callsUnindexed_append {func func' : FuncData} {vas : List VarAccess}
    (h : callsUnindexed func = true) (hfunc' : func'.varAccesses = func.varAccesses ++ vas)
    (hvas : ∀ va ∈ vas, va.type = .call → va.escParamIdx = noIdx) : callsUnindexed func' = true := by
  rw [callsUnindexed_iff] at h ⊢
  rw [hfunc', List.forall_mem_append]
  exact ⟨h, hvas⟩

theorem processFuncInfo_unindexed (program : Program) (trackLocking : Bool) (func : FuncInfo)
    (globals : Globals) (h : func.all callsUnindexed = true) :
    (processFuncInfo program trackLocking func globals).1.all callsUnindexed = true := by
  refine (@entries_rule program trackLocking (fun va => va.type != .call || va.escParamIdx == noIdx)
    ?_ ?_ ?_).result func globals h
  · intro current parent s va hva
    obtain ⟨type, rfl⟩ := mem_markersAt program trackLocking current parent s hva
    rw [Bool.or_eq_true_iff]
    exact .inr rfl
  · exact fun _ _ => rfl
  · intro stack spelling current va hva
    have haccess := (References.declRefAccess_isAccess hva).1
    cases htype : va.type <;> simp_all [VarAccessType.isAccess]

/-- The alias of a passed variable is resolved exactly when the callee makes no access under the
name of its parameter, or this name is the variable's own. -/
theorem alias_resolved_iff {root caller callee : FuncInfo} {call : List String} {path : List Nat}
    {m n : Nat} {escape : VarAccess} (hwf : root.all fromWalk = true) (hroot : isLeafCallee root = false)
    (hcaller : root.subtreeAt path = some caller) (h : Passes caller m n escape callee) :
    AliasResolved (unwindFuncInfo (some call) root) path m n escape.escParamIdx callee ↔
      (UsesParam callee escape.escParamIdx →
        passedUsr call root path m escape = some (paramUsr callee escape.escParamIdx)) := by
  obtain ⟨caller', hcaller', husr⟩ := unwind_subtreeAt (some call) hwf hcaller
  simp only [hroot, and_true] at husr
  have hcallee : root.subtreeAt (path ++ [n]) = some callee := by
    rw [RoseTree.subtreeAt_append, hcaller, Option.bind_some, RoseTree.subtreeAt_singleton, h.child]
  obtain ⟨callee', hcallee', husr'⟩ := unwind_subtreeAt (some call) hwf hcallee
  rw [RoseTree.subtreeAt_append, hcaller', Option.bind_some, RoseTree.subtreeAt_singleton] at hcallee'
  rw [if_neg (by simp)] at husr'
  obtain ⟨escape', hescape', hpassed⟩ : ∃ escape', caller'.label.varAccesses[m]? = some escape' ∧
      escape'.usr = passedUsr call root path m escape := by
    rw [passedUsr]
    by_cases hpath : path = []
    · subst hpath
      rw [if_pos rfl] at husr ⊢
      obtain rfl : root = caller := Option.some.inj hcaller
      have hlt : m < (argumentAccesses (some call) root.label).length := by
        rw [argumentAccesses_length]
        exact (List.getElem?_eq_some_iff.mp h.entry).1
      obtain ⟨escape', hescape', heq⟩ := getElem?_usr husr (List.getElem?_eq_getElem hlt)
      exact ⟨escape', hescape', by rw [heq, List.getElem?_eq_getElem hlt, Option.bind_some]⟩
    · rw [if_neg hpath] at husr ⊢
      exact getElem?_usr husr h.entry
  constructor
  · rintro ⟨c', e', g', hc', he', hg', hcarries⟩ ⟨va, hva, hlive, hparam⟩
    obtain rfl : caller' = c' := Option.some.inj (hcaller'.symm.trans hc')
    obtain rfl : escape' = e' := Option.some.inj (hescape'.symm.trans he')
    obtain rfl : callee' = g' := Option.some.inj (hcallee'.symm.trans hg')
    obtain ⟨j, hj⟩ := List.getElem?_of_mem hva
    obtain ⟨va', hva', heq⟩ := hcarries j va hj hlive hparam
    obtain ⟨va'', hva'', hkept⟩ := getElem?_usr husr' hj
    obtain rfl : va' = va'' := Option.some.inj (hva'.symm.trans hva'')
    rw [← hpassed, ← heq, hkept, hparam]
  · intro hown
    refine ⟨caller', escape', callee', hcaller', hescape', hcallee', ?_⟩
    intro j va hj hlive hparam
    obtain ⟨va', hva', hkept⟩ := getElem?_usr husr' hj
    refine ⟨va', hva', ?_⟩
    rw [hkept, hparam, hpassed, hown ⟨va, List.mem_of_getElem? hj, hlive, hparam⟩]

/-- void g(int *q) { *q = 1; } -/
def pointerWriter : Cursor :=
  definitionOf 1 "g"
    [.node { id := 3, kind := .parmDecl, usr := "c:g@q", linkage := .noLinkage, typeKind := .pointer } []]
    [.node { id := 4, kind := .binaryOperator, binaryOperatorKind := .assign }
      [.node { id := 5, kind := .unaryOperator, unaryOperatorKind := .deref }
        [.node { id := 6, kind := .declRefExpr, referenced := some 3 } []],
       .node { id := 7, kind := .other 106 } []]]

/-- void f(int *p) { g(p); } -/
def forwarder : Cursor :=
  definitionOf 11 "f"
    [.node { id := 13, kind := .parmDecl, usr := "c:f@p", linkage := .noLinkage, typeKind := .pointer } []]
    [.node { id := 14, kind := .callExpr, referenced := some 1 }
      [.node { id := 15, kind := .declRefExpr, referenced := some 1 } [],
       .node { id := 16, kind := .unexposedExpr }
        [.node { id := 17, kind := .declRefExpr, referenced := some 13 } []]]]

def forwarderProgram : Program where
  tuArray := []
  fileNames := []
  decls := [pointerWriter,
    .node { id := 3, kind := .parmDecl, usr := "c:g@q", typeKind := .pointer } [],
    .node { id := 13, kind := .parmDecl, usr := "c:f@p", typeKind := .pointer } []]
  zeroCursorIsNull := false

def forwarded : FuncInfo :=
  (processFuncInfo forwarderProgram false (WalkAst.requestedFunc forwarder) initGlobals).1

theorem forwarded_passes : ∃ escape callee, Passes forwarded 1 0 escape callee ∧
    UsesParam callee escape.escParamIdx := by
  refine ⟨_, _, ⟨rfl, ?_, rfl, ?_, ?_⟩, ?_⟩
  · decide +kernel
  · decide +kernel
  · decide +kernel
  · rw [UsesParam]
    decide +kernel

theorem forwarded_alias_iff : ∃ escape callee, Passes forwarded 1 0 escape callee ∧
    (AliasResolved (unwindFuncInfo (some ["f", "shared"]) forwarded) [] 1 0 escape.escParamIdx callee ↔
      (UsesParam callee escape.escParamIdx →
        passedUsr ["f", "shared"] forwarded [] 1 escape = some (paramUsr callee escape.escParamIdx))) := by
  obtain ⟨escape, callee, h, _⟩ := forwarded_passes
  exact ⟨escape, callee, h, alias_resolved_iff (by decide +kernel) (by decide +kernel) rfl h⟩

/-- The write through q stays under the name of q, although f is called with a shared argument. -/
theorem forwarded_unresolved : ∃ escape callee, Passes forwarded 1 0 escape callee ∧
    ¬ AliasResolved (unwindFuncInfo (some ["f", "shared"]) forwarded) [] 1 0 escape.escParamIdx callee := by
  obtain ⟨escape, callee, h, va, hva, hlive, hparam⟩ := forwarded_passes
  refine ⟨escape, callee, h, ?_⟩
  rintro ⟨caller', escape', callee', hcaller', hescape', hcallee', hcarries⟩
  obtain rfl := Option.some.inj hcaller'
  obtain ⟨j, hj⟩ := List.getElem?_of_mem hva
  obtain ⟨va', hva', husr⟩ := hcarries j va hj hlive hparam
  have hcaller : ((unwindFuncInfo (some ["f", "shared"]) forwarded).label.varAccesses[1]?).map VarAccess.usr ≠
      some (some "c:g@q") := by decide +kernel
  have hcallee : ((unwindFuncInfo (some ["f", "shared"]) forwarded).children[0]?).map (fun c =>
      c.label.varAccesses.map VarAccess.usr) = some [some "c:g@q"] := by decide +kernel
  rw [hcallee', Option.map_some, Option.some.injEq] at hcallee
  have hmem : va'.usr ∈ callee'.label.varAccesses.map VarAccess.usr :=
    List.mem_map_of_mem (List.mem_of_getElem? hva')
  rw [hcallee, List.mem_singleton, husr] at hmem
  rw [hescape', Option.map_some, hmem] at hcaller
  exact hcaller rfl

end Prongc.Aliases
