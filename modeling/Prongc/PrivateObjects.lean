import Prongc.Aliases
import Prongc.LockPairs

namespace Prongc.PrivateObjects

open Access Ast WalkFunc Unwind UnwindFrame LockPairs Aliases ArtificialUsr Library.CStrings Library.Traversal

def hasBase (u : String) (va : VarAccess) : Bool :=
  match va.usr with
  | some usr => usr == u || startsWith usr (u ++ "::")
  | none => false

def EscapesIn (func : FuncData) (u : String) : Prop :=
  ∃ va ∈ func.varAccesses, va.type = .escape ∧ hasBase u va = true

/-- Locals are recorded by linkage and kind alone, so which of them are static is given apart. -/
def AutomaticLocal (isStatic : String → Prop) (func : FuncData) (u : String) : Prop :=
  u ∈ func.locals ∧ ¬ isStatic u

/-- The object an entry accesses belongs to one invocation: a parameter that was not bound to an
outer variable, or an automatic local that never escapes. The second entry is the first one behind
the unwinding. -/
def AccessesPrivate (isStatic : String → Prop) (func : FuncData) (va va' : VarAccess) : Prop :=
  ∃ u, va.usr = some u ∧ va'.usr = some u ∧
    (u ∈ func.params ∨ AutomaticLocal isStatic func u ∧ ¬ EscapesIn func u)

def OnlyPrivateDropped (isStatic : String → Prop) (parsed : Option (List String)) (root : FuncInfo) :
    Prop :=
  ∀ path func j va va', root.subtreeAt path = some func → func.label.varAccesses[j]? = some va →
    va.type ≠ .null → entryAt (unwindFuncInfo parsed root) path j = some va' → va'.type = .null →
      AccessesPrivate isStatic func.label va va'

def isBound (parsed : Option (List String)) (func : FuncData) (usr : String) : Bool :=
  match parsed with
  | some call => (func.params.zip call.tail).any fun x => startsWith usr x.1
  | none => false

/-- Only the root has a call string. -/
def parsedAt (parsed : Option (List String)) (path : List Nat) : Option (List String) :=
  if path = [] then parsed else none

def takenForLocal (func : FuncData) (va : VarAccess) : Bool :=
  lockArgumentType va == .null && !va.isPtrType && va.type != .escape && va.live &&
    containsUsr func.locals va.usr

/-- No local that is static or escapes has an entry which is taken for one of a local that does not
escape. -/
def SharedLocalsSpared (isStatic : String → Prop) (parsed : Option (List String)) (root : FuncInfo) :
    Prop :=
  ∀ path func, root.subtreeAt path = some func → Unwound root path →
    ∀ va ∈ func.label.varAccesses, ∀ u, va.usr = some u → takenForLocal func.label va = true →
      u ∉ func.label.params → isBound (parsedAt parsed path) func.label u = false →
        ¬ isStatic u ∧ ¬ EscapesIn func.label u

def declaresNatural (func : FuncData) : Bool :=
  (func.params ++ func.locals).all fun u => !startsWith u "p:"

theorem startsWith_artificial (arg usr : String) :
    startsWith (generateArtificialParamUsr arg usr) "p:" = true := by
  obtain ⟨rest, hrest⟩ := generateBytes_marked (ascii arg) (ascii usr)
  rw [generateArtificialParamUsr, hrest, text_append, startsWith, String.toList_append]
  exact List.isPrefixOf_iff_prefix.mpr (List.prefix_append _ _)

def mapEntry (arguments : List (String × String)) (va : VarAccess) : VarAccess :=
  arguments.foldl (fun va x => mapArgument x.1 x.2 va) va

theorem argumentAccesses_getElem? (call : List String) (func : FuncData) (j : Nat) :
    (argumentAccesses (some call) func)[j]? =
      func.varAccesses[j]?.map (mapEntry (func.params.zip call.tail)) := by
  have hfold : ∀ (l : List (String × String)) (vas : List VarAccess),
      (l.foldl (fun vas x => vas.map (mapArgument x.1 x.2)) vas)[j]? =
        vas[j]?.map (mapEntry l) := by
    intro l
    induction l with
    | nil => exact fun vas => (Option.map_id_apply).symm
    | cons x l ih =>
        intro vas
        rw [List.foldl_cons, ih, List.getElem?_map, Option.map_map]
        rfl
  exact hfold _ _

theorem mapEntry_unnamed {va : VarAccess} (h : va.usr = none) (l : List (String × String)) :
    mapEntry l va = va := by
  induction l with
  | nil => rfl
  | cons x l ih =>
      have hx : mapArgument x.1 x.2 va = va := by
        simp [mapArgument, h]
      rw [mapEntry, List.foldl_cons, hx]
      exact ih

theorem mapEntry_unbound {va : VarAccess} {u : String} (husr : va.usr = some u)
    {l : List (String × String)} (h : (l.any fun x => startsWith u x.1) = false) : mapEntry l va = va := by
  induction l with
  | nil => rfl
  | cons x l ih =>
      rw [List.any_cons, Bool.or_eq_false_iff] at h
      have hx : mapArgument x.1 x.2 va = va := by
        simp [mapArgument, husr, h.1]
      rw [mapEntry, List.foldl_cons, hx]
      exact ih h.2

theorem mapArgument_live {va : VarAccess} {u : String} (husr : va.usr = some u) (hlive : va.live = true)
    (p a : String) : mapArgument p a va =
      if startsWith u p then { va with usr := some (generateArtificialParamUsr a u) } else va := by
  simp [mapArgument, husr, hlive]

theorem mapEntry_bound {va : VarAccess} {u : String} (husr : va.usr = some u) (hlive : va.live = true)
    {l : List (String × String)}
    (h : (l.any fun x => startsWith u x.1) = true ∨ startsWith u "p:" = true) :
    ∃ u', (mapEntry l va).usr = some u' ∧ startsWith u' "p:" = true := by
  induction l generalizing va u with
  | nil => exact ⟨u, husr, h.resolve_left (by simp)⟩
  | cons x l ih =>
      rw [mapEntry, List.foldl_cons, mapArgument_live husr hlive]
      by_cases hx : startsWith u x.1 = true
      · rw [if_pos hx]
        exact @ih { va with usr := some (generateArtificialParamUsr x.2 u) } _ rfl hlive
          (.inr (startsWith_artificial x.2 u))
      · rw [if_neg hx]
        refine ih husr hlive (h.imp_left fun hany => ?_)
        simpa [hx] using hany

section Unwinding

variable {parsed : Option (List String)} {root func callee : FuncInfo} {path : List Nat} {i : Nat}

theorem unwound_nil : Unwound root [] ↔ isLeafCallee root = false := by
  constructor
  · exact fun h => h [] List.nil_prefix root rfl
  · intro h above habove func hfunc
    obtain rfl := List.prefix_nil.mp habove
    obtain rfl := Option.some.inj hfunc
    exact h

theorem unwound_cons (hcallee : root.children[i]? = some callee) :
    Unwound root (i :: path) ↔ isLeafCallee root = false ∧ Unwound callee path := by
  constructor
  · exact fun h => ⟨h [] List.nil_prefix root rfl, h.child hcallee⟩
  · rintro ⟨hroot, hbelow⟩ above habove func hfunc
    cases above with
    | nil =>
        obtain rfl := Option.some.inj hfunc
        exact hroot
    | cons j above =>
        obtain ⟨rfl, hprefix⟩ := List.cons_prefix_cons.mp habove
        rw [RoseTree.subtreeAt, hcallee, Option.bind_some] at hfunc
        exact hbelow above hprefix func hfunc

def unwoundEntries (parsed : Option (List String)) (func : FuncData) : List VarAccess :=
  (argumentAccesses parsed func).map (markVarAccess func)

theorem unwind_subtreeAt_cases (hwf : root.all fromWalk = true) (hat : root.subtreeAt path = some func) :
    ∃ func', (unwindFuncInfo parsed root).subtreeAt path = some func' ∧
      ((Unwound root path ∧
          func'.label.varAccesses = unwoundEntries (parsedAt parsed path) func.label) ∨
        (¬ Unwound root path ∧ func' = func)) := by
  induction path generalizing root parsed with
  | nil =>
      obtain rfl : root = func := Option.some.inj hat
      refine ⟨_, rfl, ?_⟩
      rw [unwound_nil]
      cases root with
      | node d cs =>
          rw [unwindFuncInfo_node parsed hwf]
          split
          next hleaf => exact .inr ⟨by simp [isLeafCallee, hleaf], rfl⟩
          next hleaf => exact .inl ⟨by simpa [isLeafCallee] using hleaf, rfl⟩
  | cons i path ih =>
      obtain ⟨callee, hcallee, hsub⟩ := Option.bind_eq_some_iff.mp hat
      rw [unwound_cons hcallee]
      have hbelow := ((RoseTree.all_iff fromWalk _).mp hwf).2 callee (List.mem_of_getElem? hcallee)
      cases root with
      | node d cs =>
          rw [unwindFuncInfo_node parsed hwf]
          split
          next hleaf =>
            have hroot : isLeafCallee (RoseTree.node d cs) = true := hleaf
            exact ⟨func, hat, .inr ⟨by simp [hroot], rfl⟩⟩
          next hleaf =>
            obtain ⟨func', hsub', h⟩ := @ih none callee hbelow hsub
            refine ⟨func', ?_, ?_⟩
            · rw [RoseTree.children_node] at hcallee
              rw [RoseTree.subtreeAt, RoseTree.children_node, List.getElem?_map, hcallee, Option.map_some,
                Option.bind_some, hsub']
            · have hroot : isLeafCallee (RoseTree.node d cs) = false := by
                simpa [isLeafCallee] using hleaf
              have hparsed : parsedAt none path = parsedAt parsed (i :: path) := by
                simp [parsedAt]
              rw [hparsed] at h
              simpa only [hroot, true_and] using h

end Unwinding

section Nulling

variable {func : FuncData} {va : VarAccess}

theorem markVarAccess_null_iff (hrecorded : va.type ≠ .null) :
    (markVarAccess func va).type = .null ↔
      takenForLocal func va = true ∨
        (lockArgumentType va = .null ∧ (va.type = .read ∨ va.type = .write) ∧
          containsUsr func.params va.usr = true) := by
  rw [markVarAccess, takenForLocal]
  by_cases hlock : lockArgumentType va = .null
  · rw [if_neg (not_not.mpr hlock)]
    grind [VarAccess.nullify_type]
  · rw [if_pos hlock]
    simp [hlock]

theorem containsUsr_iff {usrs : List String} {usr : Option String} :
    containsUsr usrs usr = true ↔ ∃ u, usr = some u ∧ u ∈ usrs := by
  cases usr with
  | none => simp [containsUsr]
  | some u => simp [containsUsr]

theorem isBound_iff {parsed : Option (List String)} {u : String} (husr : va.usr = some u)
    (hlive : va.live = true) {j : Nat} (hva : func.varAccesses[j]? = some va) :
    (isBound parsed func u = false → (argumentAccesses parsed func)[j]? = some va) ∧
      (isBound parsed func u = true → ∃ va' u', (argumentAccesses parsed func)[j]? = some va' ∧
        va'.usr = some u' ∧ startsWith u' "p:" = true) := by
  cases parsed with
  | none => exact ⟨fun _ => hva, fun h => by cases h⟩
  | some call =>
      rw [argumentAccesses_getElem?, hva, Option.map_some]
      constructor
      · intro h
        rw [mapEntry_unbound husr h]
      · intro h
        obtain ⟨u', husr', hartificial⟩ := @mapEntry_bound va u husr hlive _ (.inl h)
        exact ⟨_, u', rfl, husr', hartificial⟩

theorem unbound_of_natural {parsed : Option (List String)} {u : String} (hlive : va.live = true) {j : Nat}
    (hva : func.varAccesses[j]? = some va) {va' : VarAccess}
    (hmapped : (argumentAccesses parsed func)[j]? = some va') (husr : va'.usr = some u)
    (hnatural : startsWith u "p:" = false) : va.usr = some u ∧ isBound parsed func u = false ∧ va' = va := by
  cases hw : va.usr with
  | none =>
      have hkept : (argumentAccesses parsed func)[j]? = some va := by
        cases parsed with
        | none => exact hva
        | some call => rw [argumentAccesses_getElem?, hva, Option.map_some, mapEntry_unnamed hw]
      obtain rfl := Option.some.inj (hmapped.symm.trans hkept)
      rw [hw] at husr
      cases husr
  | some w =>
      obtain ⟨hkept, hbound⟩ := isBound_iff hw hlive hva
      cases hb : isBound parsed func w with
      | true =>
          obtain ⟨va'', u', hmapped', husr', hartificial⟩ := hbound hb
          obtain rfl := Option.some.inj (hmapped.symm.trans hmapped')
          obtain rfl := Option.some.inj (husr.symm.trans husr')
          rw [hnatural] at hartificial
          cases hartificial
      | false =>
          obtain rfl := Option.some.inj (hmapped.symm.trans (hkept hb))
          obtain rfl := Option.some.inj (husr.symm.trans hw)
          exact ⟨rfl, hb, rfl⟩

theorem live_of_takenForLocal (h : takenForLocal func va = true) : va.live = true := by
  rw [takenForLocal] at h
  simp only [Bool.and_eq_true] at h
  exact h.1.2

theorem containsUsr_of_takenForLocal (h : takenForLocal func va = true) :
    containsUsr func.locals va.usr = true := by
  rw [takenForLocal] at h
  simp only [Bool.and_eq_true] at h
  exact h.2

theorem declared_of_nulled (hrecorded : va.type ≠ .null) (hnull : (markVarAccess func va).type = .null) :
    va.live = true ∧ ∃ u, va.usr = some u ∧
      (u ∈ func.params ∨ (u ∈ func.locals ∧ takenForLocal func va = true)) := by
  rcases (markVarAccess_null_iff hrecorded).mp hnull with htaken | ⟨-, hplain, hparam⟩
  · obtain ⟨u, husr, hlocal⟩ := containsUsr_iff.mp (containsUsr_of_takenForLocal htaken)
    exact ⟨live_of_takenForLocal htaken, u, husr, .inr ⟨hlocal, htaken⟩⟩
  · obtain ⟨u, husr, hparam⟩ := containsUsr_iff.mp hparam
    refine ⟨VarAccess.live_of_isAccess ?_, u, husr, .inl hparam⟩
    rcases hplain with ht | ht <;> rw [ht] <;> rfl

theorem natural_of_declared (h : declaresNatural func = true) {u : String}
    (hu : u ∈ func.params ∨ u ∈ func.locals) : startsWith u "p:" = false := by
  simpa using List.all_eq_true.mp h u (List.mem_append.mpr hu)

end Nulling

/-- Only private objects are dropped exactly if, in every function that is unwound, no access of a
local that is static or escapes there is taken for one of a local that does not escape. -/
theorem private_dropped_iff {root : FuncInfo} (hwf : root.all fromWalk = true)
    (hnatural : root.all declaresNatural = true) (isStatic : String → Prop)
    (parsed : Option (List String)) (_hread : ∀ call ∈ parsed, ParamsReadable root.label.params call) :
    OnlyPrivateDropped isStatic parsed root ↔ SharedLocalsSpared isStatic parsed root := by
  constructor
  · intro h path func hat hunwound va hva u husr htaken hparam hbound
    obtain ⟨func', hat', ⟨-, hentries⟩ | ⟨hnot, -⟩⟩ := @unwind_subtreeAt_cases parsed root func path hwf hat
    · have hlive := live_of_takenForLocal htaken
      have hrecorded : va.type ≠ .null := by
        intro hnull
        simp [VarAccess.live, hnull, vaIsPlaceholderType] at hlive
      obtain ⟨j, hj⟩ := List.getElem?_of_mem hva
      have hentry : entryAt (unwindFuncInfo parsed root) path j = some (markVarAccess func.label va) := by
        rw [entryAt, hat', Option.bind_some, hentries, unwoundEntries, List.getElem?_map,
          (isBound_iff husr hlive hj).1 hbound, Option.map_some]
      obtain ⟨w, hw, -, hprivate⟩ := h path func j va _ hat hj hrecorded hentry
        ((markVarAccess_null_iff hrecorded).mpr (.inl htaken))
      obtain rfl : u = w := Option.some.inj (husr.symm.trans hw)
      obtain ⟨⟨-, hauto⟩, hescape⟩ := hprivate.resolve_left hparam
      exact ⟨hauto, hescape⟩
    · exact absurd hunwound hnot
  · intro h path func j va va' hat hj hrecorded hentry hnull
    obtain ⟨func', hat', ⟨hunwound, hentries⟩ | ⟨-, rfl⟩⟩ :=
      @unwind_subtreeAt_cases parsed root func path hwf hat
    · rw [entryAt, hat', Option.bind_some, hentries, unwoundEntries, List.getElem?_map] at hentry
      obtain ⟨mapped, hmapped, rfl⟩ := Option.map_eq_some_iff.mp hentry
      obtain ⟨usr, rfl⟩ := forall₂_getElem? (argumentAccesses_renames _ _) hj hmapped
      obtain ⟨hlive, u, hu, hdeclared⟩ := declared_of_nulled
        (show ({ va with usr := usr } : VarAccess).type ≠ .null from hrecorded) hnull
      obtain ⟨husr, hbound, hkept⟩ := @unbound_of_natural _ va _ u hlive j hj _ hmapped hu
        (natural_of_declared (RoseTree.all_subtreeAt hnatural hat) (hdeclared.imp_right And.left))
      rw [hkept] at hdeclared ⊢
      refine ⟨u, husr, by rw [markVarAccess_usr, husr], ?_⟩
      by_cases hparam : u ∈ func.label.params
      · exact .inl hparam
      · obtain ⟨hlocal, htaken⟩ := hdeclared.resolve_left hparam
        obtain ⟨hauto, hescape⟩ :=
          h path func hat hunwound va (List.mem_of_getElem? hj) u husr htaken hparam hbound
        exact .inr ⟨⟨hlocal, hauto⟩, hescape⟩
    · rw [entryAt, hat', Option.bind_some, hj] at hentry
      obtain rfl := Option.some.inj hentry
      exact absurd hnull hrecorded

/-- void f() { int x; x = 1; } -/
def localWriter : Cursor :=
  definitionOf 1 "f" []
    [.node { id := 3, kind := .varDecl, usr := "c:f@x", linkage := .noLinkage } [],
     .node { id := 4, kind := .binaryOperator, binaryOperatorKind := .assign }
      [.node { id := 5, kind := .declRefExpr, referenced := some 3 } [],
       .node { id := 6, kind := .other 106 } []]]

def localProgram : Program where
  tuArray := []
  fileNames := []
  decls := [.node { id := 3, kind := .varDecl, usr := "c:f@x", linkage := .noLinkage } []]
  zeroCursorIsNull := false

def localTree : FuncInfo :=
  (processFuncInfo localProgram false (WalkAst.requestedFunc localWriter) initGlobals).1

theorem localTree_private_iff :
    OnlyPrivateDropped (fun _ => False) (some ["f"]) localTree ↔
      SharedLocalsSpared (fun _ => False) (some ["f"]) localTree :=
  private_dropped_iff (by decide +kernel) (by decide +kernel) (fun _ => False) (some ["f"]) (by decide +kernel)

/-- If the local is static, its write is dropped all the same. -/
theorem localTree_static_dropped : ¬ OnlyPrivateDropped (fun u => u = "c:f@x") (some ["f"]) localTree := by
  intro h
  have hentry : (entryAt localTree [] 0).map (fun va => (va.type, va.usr)) = some (.write, some "c:f@x") := by
    decide +kernel
  have hdropped : (entryAt (unwindFuncInfo (some ["f"]) localTree) [] 0).map VarAccess.type = some .null := by
    decide +kernel
  have hparams : localTree.label.params = [] := by decide +kernel
  obtain ⟨va, hva, hfields⟩ := Option.map_eq_some_iff.mp hentry
  obtain ⟨va', hva', hnull⟩ := Option.map_eq_some_iff.mp hdropped
  obtain ⟨htype, husr⟩ := Prod.mk.inj hfields
  obtain ⟨u, hu, -, hprivate⟩ := h [] localTree 0 va va' rfl hva (by rw [htype]; exact VarAccessType.noConfusion)
    hva' hnull
  obtain rfl : u = "c:f@x" := Option.some.inj (hu.symm.trans husr)
  rcases hprivate with hparam | ⟨⟨-, hauto⟩, -⟩
  · rw [hparams] at hparam
    cases hparam
  · exact hauto rfl

end Prongc.PrivateObjects
