import Prongc.WalkAst
import Prongc.Library.Grouping

namespace Prongc.RequestBinding

open Ast WalkFunc ParseCall WalkAst Library.Traversal Library.Grouping

def Names (funcName : String) (func : FuncInfo) : Prop :=
  ∃ args, (parseFuncCall funcName).2 = func.label.spelling :: args ∧
    numArguments func.label.cursor = args.length

def Bound (funcNames : List String) (funcs : List FuncInfo) : Prop :=
  ∀ (i : Nat) funcName func, funcNames[i]? = some funcName → funcs[i]? = some func → Names funcName func

def visitorDefinitions (current parent : Cursor) (defs : List Cursor) : List Cursor × ChildVisitResult :=
  if current.label.inSystemHeader then (defs, .childVisitContinue)
  else if isDefinitionBody current parent then (defs ++ [parent], .childVisitContinue)
  else if isOfKind .varDecl current then (defs, .childVisitContinue)
  else (defs, .childVisitRecurse)

def definitions (program : Program) : List Cursor :=
  program.tuArray.foldl (fun defs tu => visitChildren visitorDefinitions tu defs) []

/-- Every call string is accepted by exactly one definition, and the call strings stand in the
order of their definitions. -/
def InDefinitionOrder (program : Program) (funcNames : List String) : Prop :=
  (∀ funcName ∈ funcNames, (definitions program).countP (acceptsCall · funcName) = 1) ∧
    (funcNames.map fun funcName => (definitions program).findIdx (acceptsCall · funcName)).Pairwise (· ≤ ·)

instance (program : Program) (funcNames : List String) : Decidable (InDefinitionOrder program funcNames) :=
  inferInstanceAs (Decidable (_ ∧ _))

def callKey (funcName : String) : Option (String × Nat) :=
  match (parseFuncCall funcName).2 with
  | [] => none
  | name :: args => some (name, args.length)

def definitionKey (funcDecl : Cursor) : Option (String × Nat) :=
  some (funcDecl.label.spelling, numArguments funcDecl)

theorem acceptsCall_eq (funcDecl : Cursor) (funcName : String) :
    acceptsCall funcDecl funcName = (callKey funcName == definitionKey funcDecl) := by
  rw [acceptsCall, callKey, definitionKey]
  cases (parseFuncCall funcName).2 with
  | nil => rfl
  | cons name args =>
      rw [Bool.eq_iff_iff]
      simp only [Bool.and_eq_true, beq_iff_eq, Option.some.injEq, Prod.mk.injEq]
      exact and_congr_right fun _ => eq_comm

theorem processTuArray_funcs (program : Program) (funcNames : List String) :
    (processTuArray program funcNames).funcs = (definitions program).flatMap (fun funcDecl =>
      (funcNames.filter (acceptsCall funcDecl)).map (fun _ => requestedFunc funcDecl)) := by
  let R : AstState → List Cursor → Prop := fun s defs =>
    s.funcs = defs.flatMap (fun funcDecl =>
      (funcNames.filter (acceptsCall funcDecl)).map (fun _ => requestedFunc funcDecl))
  have hstep : Simulates (visitorWalkAst funcNames) visitorDefinitions R := by
    intro current parent s defs h
    rw [visitorWalkAst, visitorDefinitions]
    split
    · exact ⟨h, rfl⟩
    · split
      · refine ⟨?_, rfl⟩
        simp only [R, collectFunc, List.flatMap_append, List.flatMap_singleton]
        rw [h]
      · split
        · refine ⟨?_, rfl⟩
          rw [collectGlobal]
          split <;> exact h
        · exact ⟨h, rfl⟩
  have hfold : ∀ (tus : List Cursor) (s : AstState) (defs : List Cursor), R s defs →
      R (tus.foldl (fun s tu => visitChildren (visitorWalkAst funcNames) tu s) s)
        (tus.foldl (fun defs tu => visitChildren visitorDefinitions tu defs) defs) := by
    intro tus
    induction tus with
    | nil => exact fun _ _ h => h
    | cons tu tus ih => exact fun s defs h => ih _ _ (visitChildren_simulates hstep tu h)
  exact hfold program.tuArray _ _ rfl

/-- The collected functions are the call strings, grouped by the definitions that accept them. -/
theorem funcs_keys (program : Program) (funcNames : List String) :
    (processTuArray program funcNames).funcs.map (fun func => definitionKey func.label.cursor) =
      grouped ((definitions program).map definitionKey) (funcNames.map callKey) := by
  rw [processTuArray_funcs, grouped, List.map_flatMap, List.flatMap_map]
  apply List.flatMap_congr
  intro funcDecl _
  rw [List.map_map, List.filter_map]
  have hfilter : funcNames.filter (acceptsCall funcDecl) =
      funcNames.filter ((· == definitionKey funcDecl) ∘ callKey) := by
    apply List.filter_congr
    intro funcName _
    exact acceptsCall_eq funcDecl funcName
  rw [hfilter]
  apply List.map_congr_left
  intro funcName hmem
  have hkey := (List.mem_filter.mp hmem).2
  exact (beq_iff_eq.mp hkey).symm

theorem names_iff (funcName : String) (func : FuncInfo)
    (hfunc : func.label.spelling = func.label.cursor.label.spelling) :
    Names funcName func ↔ callKey funcName = definitionKey func.label.cursor := by
  rw [Names, callKey, definitionKey]
  rw [hfunc]
  cases (parseFuncCall funcName).2 with
  | nil => simp
  | cons name args =>
      simp only [List.cons.injEq, Option.some.injEq, Prod.mk.injEq]
      constructor
      · rintro ⟨args', ⟨hname, rfl⟩, hlength⟩
        exact ⟨hname, hlength.symm⟩
      · rintro ⟨hname, hlength⟩
        exact ⟨args, ⟨hname, rfl⟩, hlength.symm⟩

theorem requested_spelling {program : Program} {funcNames : List String} {func : FuncInfo}
    (h : func ∈ (processTuArray program funcNames).funcs) :
    func.label.spelling = func.label.cursor.label.spelling := by
  rw [processTuArray_funcs] at h
  obtain ⟨funcDecl, _, hmem⟩ := List.mem_flatMap.mp h
  obtain ⟨_, _, rfl⟩ := List.mem_map.mp hmem
  rfl

theorem inDefinitionOrder_iff (program : Program) (funcNames : List String) :
    InDefinitionOrder program funcNames ↔
      InGroupOrder ((definitions program).map definitionKey) (funcNames.map callKey) := by
  have haccepts : ∀ funcName, (fun funcDecl => acceptsCall funcDecl funcName) =
      (· == callKey funcName) ∘ definitionKey := by
    intro funcName
    funext funcDecl
    rw [acceptsCall_eq, Function.comp, Bool.beq_comm]
  rw [InDefinitionOrder, InGroupOrder]
  simp only [haccepts, List.mem_map, forall_exists_index, and_imp, forall_apply_eq_imp_iff₂,
    List.map_map, List.count, List.countP_map, List.idxOf]
  simp only [Function.comp_def, List.findIdx_map]

/-- Whenever the counts agree, the functions are bound to their own call strings exactly when
the call strings follow the order of the definitions. -/
theorem requests_bound_iff {program : Program} {funcNames : List String} {funcs : List FuncInfo}
    (h : requestedFuncs program funcNames = some funcs) :
    Bound funcNames funcs ↔ InDefinitionOrder program funcNames := by
  rw [requestedFuncs] at h
  simp only [Option.ite_none_right_eq_some, Option.some.injEq] at h
  obtain ⟨hlength, rfl⟩ := h
  rw [inDefinitionOrder_iff, ← grouped_eq_iff, ← funcs_keys]
  constructor
  · intro hbound
    apply List.ext_getElem (by simpa using hlength)
    intro i hi hi'
    rw [List.getElem_map, List.getElem_map]
    have hfunc := List.getElem?_eq_getElem (by simpa using hi)
    have hname := List.getElem?_eq_getElem (by simpa using hi')
    exact ((names_iff _ _ (requested_spelling (List.getElem_mem _))).mp (hbound i _ _ hname hfunc)).symm
  · intro hkeys i funcName func hname hfunc
    rw [names_iff funcName func (requested_spelling (List.mem_of_getElem? hfunc))]
    have hi := congrArg (·[i]?) hkeys
    simpa [hname, hfunc] using hi.symm

def twoDefinitions : Program where
  tuArray := [.node { id := 0, kind := .translationUnit } [definitionOf 1 "a" [] [], definitionOf 3 "b" [] []]]
  fileNames := ["ab.c"]
  decls := []
  zeroCursorIsNull := false

theorem twoDefinitions_bound_iff :
    (∃ funcs, requestedFuncs twoDefinitions ["a()", "b()"] = some funcs ∧ Bound ["a()", "b()"] funcs) ∧
      InDefinitionOrder twoDefinitions ["a()", "b()"] := by
  have hsome : (requestedFuncs twoDefinitions ["a()", "b()"]).isSome = true := by decide +kernel
  have horder : InDefinitionOrder twoDefinitions ["a()", "b()"] := by decide +kernel
  obtain ⟨funcs, hfuncs⟩ := Option.isSome_iff_exists.mp hsome
  exact ⟨⟨funcs, hfuncs, (requests_bound_iff hfuncs).mpr horder⟩, horder⟩

theorem twoDefinitions_swapped :
    ∃ funcs, requestedFuncs twoDefinitions ["b()", "a()"] = some funcs ∧ ¬ Bound ["b()", "a()"] funcs := by
  have hsome : (requestedFuncs twoDefinitions ["b()", "a()"]).isSome = true := by decide +kernel
  obtain ⟨funcs, hfuncs⟩ := Option.isSome_iff_exists.mp hsome
  refine ⟨funcs, hfuncs, fun hbound => ?_⟩
  have hhead : ((requestedFuncs twoDefinitions ["b()", "a()"]).map fun funcs =>
      funcs.map fun func => func.label.spelling) = some ["a", "b"] := by decide +kernel
  rw [hfuncs, Option.map_some, Option.some.injEq] at hhead
  cases funcs with
  | nil => simp at hhead
  | cons func funcs =>
      obtain ⟨args, hparsed, _⟩ := hbound 0 "b()" func rfl rfl
      have hspelling : func.label.spelling = "a" := (List.cons.inj hhead).1
      have hb : (parseFuncCall "b()").2 = ["b"] := by decide +kernel
      rw [hb, hspelling] at hparsed
      simp at hparsed

end Prongc.RequestBinding
