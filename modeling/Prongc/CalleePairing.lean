import Mathlib.Logic.Function.Iterate
import Prongc.CalleeAlignment

namespace Prongc.CalleePairing

open Access Ast WalkFunc WalkAst Recursion Unwind UnwindFrame CallSites CalleeAlignment Library.Traversal

/-- The number of the callee that the alias loop has come to at an entry. -/
def aliasCounter (vas : List VarAccess) (callees : List FuncData) (n : Nat) : Nat :=
  ((vas.take n).foldl resolveNext (0, callees)).1

/-- The number of the callee that the builder has come to at an entry. -/
def buildCounter (vas : List VarAccess) (n : Nat) : Nat := callCount (vas.take n)

/-- At each Call entry of a function the builder goes on with the callee the alias loop has used. -/
def PairsAlike (parsedFuncCall : Option (List String)) (func : FuncData) (callees : List FuncInfo) : Prop :=
  ∀ n va, (argumentAccesses parsedFuncCall func)[n]? = some va → va.type = .call →
    aliasCounter (argumentAccesses parsedFuncCall func) (callees.map RoseTree.label) n =
      buildCounter ((argumentAccesses parsedFuncCall func).map (markVarAccess func)) n

mutual

/-- The recursion of the unwinding, with the pairing of both passes compared in each function. -/
def WalksAgree (parsedFuncCall : Option (List String)) (func : FuncData) : FuncInfo → Prop
  | .node _ callees =>
      if func.inSystemHeader || !func.hasDefinition then True
      else PairsAlike parsedFuncCall func callees ∧
        CalleesAgree (resolveAliases (argumentAccesses parsedFuncCall func) (callees.map RoseTree.label)) callees

def CalleesAgree : List FuncData → List FuncInfo → Prop
  | label :: labels, callee :: callees => WalksAgree none label callee ∧ CalleesAgree labels callees
  | _, _ => True

end

structure CallTree where
  tree : FuncInfo
  aligned : Aligned tree
  unindexed : tree.all Aliases.callsUnindexed = true

def walkedTree (program : Program) (trackLocking : Bool) (root : Cursor) (globals : Globals) : CallTree where
  tree := (processFuncInfo program trackLocking (requestedFunc root) globals).1
  aligned := ((aligned_rule program trackLocking).result (requestedFunc root) globals ⟨rfl, rfl⟩).1
  unindexed := Aliases.processFuncInfo_unindexed program trackLocking (requestedFunc root) globals rfl

/-- In each function that is unwound, no callee but the last is in a system header. -/
def SystemCalleesLast (tree : FuncInfo) : Prop :=
  ∀ path func, tree.subtreeAt path = some func → Unwound tree path →
    ∀ callee ∈ func.children.dropLast, callee.label.inSystemHeader = false

section Counter

def advance (flags : List Bool) (i : Nat) : Nat := if flags[i]? = some false then i + 1 else i

theorem resolveNext_counter {st : Nat × List FuncData} {flags : List Bool} (va : VarAccess)
    (h : st.2.map FuncData.inSystemHeader = flags) :
    (resolveNext st va).2.map FuncData.inSystemHeader = flags ∧
      (resolveNext st va).1 = if va.type = .call then advance flags st.1 else st.1 := by
  have hget : flags[st.1]? = st.2[st.1]?.map FuncData.inSystemHeader := by
    rw [← h, List.getElem?_map]
  rw [resolveNext, advance]
  split
  next hcall =>
    split
    next callee hcallee =>
      rw [hcallee, Option.map_some] at hget
      rw [hget]
      cases hsystem : callee.inSystemHeader with
      | true => exact ⟨h, rfl⟩
      | false =>
          refine ⟨?_, rfl⟩
          obtain ⟨hlt, hflag⟩ := List.getElem?_eq_some_iff.mp hget
          have hresolved : (resolveVarAccessAlias callee va).inSystemHeader = flags[st.1] := hflag.symm
          rw [if_neg Bool.false_ne_true, List.map_set, h, hresolved]
          exact List.set_getElem_self hlt
    next hnone =>
      rw [hnone, Option.map_none] at hget
      rw [hget]
      exact ⟨h, rfl⟩
  next => exact ⟨h, rfl⟩

theorem foldl_counter {flags : List Bool} (vas : List VarAccess) {st : Nat × List FuncData}
    (h : st.2.map FuncData.inSystemHeader = flags) :
    (vas.foldl resolveNext st).1 = (advance flags)^[callCount vas] st.1 := by
  induction vas generalizing st with
  | nil => rfl
  | cons va vas ih =>
      obtain ⟨hflags, hcounter⟩ := resolveNext_counter va h
      rw [List.foldl_cons, ih hflags, hcounter]
      by_cases hcall : va.type = .call
      · rw [if_pos hcall, callCount, callCount, List.countP_cons_of_pos (by rw [hcall]; rfl),
          Function.iterate_succ_apply]
      · rw [if_neg hcall, callCount, callCount, List.countP_cons_of_neg (by simpa using hcall)]

/-- The counter keeps up with the Call entries as long as it meets no flag. -/
theorem iterate_advance_iff {flags : List Bool} {m : Nat} :
    (∀ k < m, (advance flags)^[k] 0 = k) ↔ ∀ j, j + 1 < m → flags[j]? = some false := by
  constructor
  · intro h j hj
    have hstep := h (j + 1) hj
    rw [Function.iterate_succ_apply', h j (by omega), advance] at hstep
    by_contra hflag
    rw [if_neg hflag] at hstep
    omega
  · intro h k hk
    induction k with
    | zero => rfl
    | succ k ih => rw [Function.iterate_succ_apply', ih (by omega), advance, if_pos (h k hk)]

theorem take_entriesBefore {k : Nat} {vas : List VarAccess} (h : k < callCount vas) :
    ∃ n va, vas[n]? = some va ∧ va.type = .call ∧ callCount (vas.take n) = k := by
  obtain ⟨call, after, hsplit, hcall, hbefore⟩ := entriesBefore_split h
  generalize entriesBefore k vas = before at hsplit hbefore
  subst hsplit
  refine ⟨before.length, call, ?_, hcall, ?_⟩
  · rw [List.getElem?_append_right (Nat.le_refl _), Nat.sub_self]
    rfl
  · rw [List.take_left, hbefore]

theorem callCount_take_lt {n : Nat} {vas : List VarAccess} {va : VarAccess} (hva : vas[n]? = some va)
    (hcall : va.type = .call) : callCount (vas.take n) < callCount vas := by
  obtain ⟨hn, hget⟩ := List.getElem?_eq_some_iff.mp hva
  have hsplit : callCount vas = callCount (vas.take n) + callCount (vas.drop n) := by
    rw [← callCount_append, List.take_append_drop]
  have hpos : 0 < callCount (vas.drop n) := by
    rw [List.drop_eq_getElem_cons hn, hget, callCount, List.countP_cons_of_pos (by rw [hcall]; rfl)]
    exact Nat.succ_pos _
  omega

end Counter

section Functions

variable {parsed : Option (List String)} {func : FuncData} {callees : List FuncInfo}

theorem pairsAlike_iff_iterate (hunindexed : Aliases.callsUnindexed func = true) :
    PairsAlike parsed func callees ↔ ∀ k < callCount (argumentAccesses parsed func),
      (advance (callees.map fun callee => callee.label.inSystemHeader))^[k] 0 = k := by
  have hflags : (callees.map RoseTree.label).map FuncData.inSystemHeader =
      callees.map fun callee => callee.label.inSystemHeader := List.map_map
  have hcalls := Aliases.argumentAccesses_unindexed parsed hunindexed
  have hbuild : ∀ n, buildCounter ((argumentAccesses parsed func).map (markVarAccess func)) n =
      callCount ((argumentAccesses parsed func).take n) := by
    intro n
    rw [buildCounter, ← List.map_take]
    exact callCount_map fun va hva => markVarAccess_call_iff (hcalls va (List.mem_of_mem_take hva))
  constructor
  · intro h k hk
    obtain ⟨n, va, hva, hcall, hcount⟩ := take_entriesBefore hk
    have hagree := h n va hva hcall
    rwa [aliasCounter, foldl_counter _ hflags, hbuild, hcount] at hagree
  · intro h n va hva hcall
    rw [aliasCounter, foldl_counter _ hflags, hbuild]
    exact h _ (callCount_take_lt hva hcall)

/-- The passes agree in a function exactly if only its last callee may be in a system header. -/
theorem pairsAlike_iff (hunindexed : Aliases.callsUnindexed func = true)
    (hcount : callCount func.varAccesses = callees.length) :
    PairsAlike parsed func callees ↔ ∀ callee ∈ callees.dropLast, callee.label.inSystemHeader = false := by
  rw [pairsAlike_iff_iterate hunindexed, callCount_renames (argumentAccesses_renames parsed func), hcount,
    iterate_advance_iff]
  constructor
  · intro h callee hcallee
    obtain ⟨j, hj⟩ := List.mem_iff_getElem?.mp hcallee
    rw [List.getElem?_dropLast] at hj
    split at hj
    next hlt =>
      have hflag := h j (by omega)
      rw [List.getElem?_map, hj, Option.map_some] at hflag
      exact Option.some.inj hflag
    next => cases hj
  · intro h j hj
    have hlt : j < callees.length - 1 := by omega
    have hget : callees[j]? = some callees[j] := List.getElem?_eq_getElem (by omega)
    rw [List.getElem?_map, hget, Option.map_some, h callees[j] ?_]
    apply @List.mem_of_getElem? _ _ j
    rw [List.getElem?_dropLast, if_pos hlt, hget]

end Functions

section Trees

theorem calleesAgree_iff {labels : List FuncData} {callees : List FuncInfo}
    (h : List.Forall₂ RenamesIn (callees.map RoseTree.label) labels) {P : FuncInfo → Prop}
    (hP : ∀ callee ∈ callees, ∀ label, RenamesIn callee.label label → (WalksAgree none label callee ↔ P callee)) :
    CalleesAgree labels callees ↔ ∀ callee ∈ callees, P callee := by
  induction callees generalizing labels with
  | nil =>
      cases h
      simp [CalleesAgree]
  | cons callee callees ih =>
      cases h with
      | cons hlabel h =>
          obtain ⟨hcallee, hcallees⟩ := List.forall_mem_cons.mp hP
          rw [CalleesAgree, hcallee _ hlabel, ih h hcallees, List.forall_mem_cons]

theorem Unwound.cons {root callee : FuncInfo} {i : Nat} {path : List Nat} (hroot : isLeafCallee root = false)
    (hcallee : root.children[i]? = some callee) (h : Unwound callee path) : Unwound root (i :: path) := by
  intro above habove func hfunc
  cases above with
  | nil => exact Option.some.inj hfunc ▸ hroot
  | cons j above =>
      obtain ⟨rfl, hbelow⟩ := List.cons_prefix_cons.mp habove
      rw [RoseTree.subtreeAt, hcallee, Option.bind_some] at hfunc
      exact h above hbelow func hfunc

theorem systemCalleesLast_node {d : FuncData} {callees : List FuncInfo}
    (hopen : isLeafCallee (.node d callees) = false) : SystemCalleesLast (.node d callees) ↔
      (∀ callee ∈ callees.dropLast, callee.label.inSystemHeader = false) ∧
        ∀ callee ∈ callees, SystemCalleesLast callee := by
  constructor
  · intro h
    constructor
    · apply h [] _ rfl
      intro above habove func hfunc
      obtain rfl := List.prefix_nil.mp habove
      exact Option.some.inj hfunc ▸ hopen
    · intro callee hcallee path func hat hunwound
      obtain ⟨i, hi⟩ := List.mem_iff_getElem?.mp hcallee
      refine h (i :: path) func ?_ (Unwound.cons hopen hi hunwound)
      rw [RoseTree.subtreeAt, RoseTree.children_node, hi, Option.bind_some, hat]
  · rintro ⟨hown, hbelow⟩ path func hat hunwound
    cases path with
    | nil =>
        obtain rfl := Option.some.inj hat
        exact hown
    | cons i path =>
        obtain ⟨callee, hcallee, hsub⟩ := Option.bind_eq_some_iff.mp hat
        exact hbelow callee (List.mem_of_getElem? hcallee) path func hsub (hunwound.child hcallee)

theorem systemCalleesLast_of_leaf {tree : FuncInfo} (hleaf : isLeafCallee tree = true) : SystemCalleesLast tree := by
  intro path func _ hunwound
  have hopen := hunwound [] List.nil_prefix tree rfl
  rw [hleaf] at hopen
  cases hopen

theorem walksAgree_renamed_iff {tree : FuncInfo} (haligned : Aligned tree)
    (hunindexed : tree.all Aliases.callsUnindexed = true) : ∀ parsed label, RenamesIn tree.label label →
      (WalksAgree parsed label tree ↔ SystemCalleesLast tree) := by
  induction haligned with
  | @node d callees own below ih =>
      intro parsed label hlabel
      obtain ⟨hd, hcallees⟩ := (RoseTree.all_iff Aliases.callsUnindexed _).mp hunindexed
      rw [RoseTree.label_node] at hlabel hd
      have hrenamed := Aliases.callsUnindexed_renames hlabel hd
      obtain ⟨vas, rfl, hvas⟩ := hlabel
      rw [WalksAgree]
      split
      next hleaf => exact iff_of_true trivial (systemCalleesLast_of_leaf hleaf)
      next hleaf =>
        have hcount : callCount vas = callees.length := by
          rw [callCount_renames hvas, ← length_callUsrs, own, List.length_map]
        have hopen : isLeafCallee (.node d callees) = false := Bool.eq_false_iff.mpr hleaf
        rw [systemCalleesLast_node hopen, pairsAlike_iff hrenamed hcount,
          calleesAgree_iff (resolveAliases_renames _ _) fun callee hcallee label hlabel =>
            ih callee hcallee (hcallees callee hcallee) none label hlabel]

end Trees

theorem WalksAgree.pairsAlike {parsed : Option (List String)} {tree : FuncInfo}
    (h : WalksAgree parsed tree.label tree) (hopen : isLeafCallee tree = false) :
    PairsAlike parsed tree.label tree.children := by
  cases tree with
  | node d callees =>
      rw [WalksAgree] at h
      split at h
      next hleaf => exact absurd hleaf (Bool.eq_false_iff.mp hopen)
      next => exact h.1

/-- Both passes pair Call entries and callees alike exactly if each function that is unwound calls
functions of system headers last. -/
theorem walksAgree_iff (func : CallTree) (parsedFuncCall : Option (List String)) :
    WalksAgree parsedFuncCall func.tree.label func.tree ↔ SystemCalleesLast func.tree :=
  walksAgree_renamed_iff func.aligned func.unindexed parsedFuncCall _ (RenamesIn.refl _)

/-- s() is declared in a system header. -/
def headerProgram : Program where
  tuArray := []
  fileNames := []
  decls := [RootIsolation.helper, .node { id := 30, kind := .varDecl, usr := "c:@x" } [],
    .node { id := 40, kind := .functionDecl, usr := "c:@F@s", spelling := "s", inSystemHeader := true } []]
  zeroCursorIsNull := false

/-- void f() { s(); h(); } -/
def headerCaller : Cursor :=
  definitionOf 10 "f" []
    [.node { id := 12, kind := .callExpr, referenced := some 40 } [],
     .node { id := 13, kind := .callExpr, referenced := some 1 } []]

/-- At the call of h() the alias loop still is at s(). -/
theorem headerCaller_apart :
    ¬ WalksAgree (some ["f"]) (walkedTree headerProgram true headerCaller initGlobals).tree.label
      (walkedTree headerProgram true headerCaller initGlobals).tree := by
  intro hagree
  have hpairs := hagree.pairsAlike (by decide +kernel)
  have hcall : ((argumentAccesses (some ["f"]) (walkedTree headerProgram true headerCaller initGlobals).tree.label)[1]?.map
      VarAccess.type) = some .call := by
    decide +kernel
  obtain ⟨va, hva, htype⟩ := Option.map_eq_some_iff.mp hcall
  exact absurd (hpairs 1 va hva htype) (by decide +kernel)

end Prongc.CalleePairing
