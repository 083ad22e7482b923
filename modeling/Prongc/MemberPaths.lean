import Prongc.Ancestry
import Prongc.References

namespace Prongc.MemberPaths

open Access Ast DeclRef WalkFunc WalkAst Callbacks RootIsolation Ancestry
open Library.Traversal Library.VisitOrder

def membersOf (l : List Cursor) : List Cursor := l.filter (isOfKind .memberRefExpr)

/-- The operand of a subscript that points to something, also by way of a typedef or as an array
parameter. -/
def subscriptBase (arrsubexp : Cursor) : Option Cursor :=
  arrsubexp.children.find? fun c => isPtrType c.label.canonicalTypeKind

/-- The parent selects a member of the child, casts it, dereferences it or subscripts it. 117 is the code of
an explicit cast. -/
def isBaseOf (child parent : Cursor) : Bool :=
  match kindOf parent with
  | .memberRefExpr | .parenExpr | .unexposedExpr => true
  | .unaryOperator => parent.label.unaryOperatorKind == .deref
  | .arraySubscriptExpr => (subscriptBase parent).any (clangEqualCursors child)
  | .other code => code == 117
  | _ => false

def baseChain : Cursor → List Cursor → List Cursor
  | _, [] => []
  | child, parent :: above => if isBaseOf child parent then parent :: baseChain parent above else []

def outside (v : Visit CursorInfo) : List Cursor := v.path.drop (baseChain v.node v.path).length

def objectNames (program : Program) (referenced : Cursor) (members : List Cursor) : MemberChain :=
  members.foldl (appendMember program) ⟨referenced.label.displayName, referenced.label.usr, some referenced⟩

def NamedAfterObject (program : Program) (v : Visit CursorInfo) (referenced : Cursor) (va : VarAccess) : Prop :=
  va.name = some (objectNames program referenced (membersOf (baseChain v.node v.path))).name ∧
    va.usr = some (objectNames program referenced (membersOf (baseChain v.node v.path))).usr

/-- The stack that a callback works with holds the member selections above its cursor, none of them at the
bottom, and its offsets are told apart from a failed search. -/
structure HoldsMembers (program : Program) (cb : Callback) : Prop where
  members : membersOf (stackAt program cb.visit.parent cb.before).dropLast = membersOf cb.visit.path
  short : (stackAt program cb.visit.parent cb.before).length < ancestorNotFound

section Names

variable {program : Program} {stack : CursorArr} {referenced : Cursor}

theorem appendMember_of_other {c : Cursor} (h : isOfKind .memberRefExpr c = false) (chain : MemberChain) :
    appendMember program chain c = chain := by
  rw [appendMember, h, if_neg Bool.false_ne_true]

theorem foldl_appendMember (chain : MemberChain) (l : List Cursor) :
    l.foldl (appendMember program) chain = (membersOf l).foldl (appendMember program) chain := by
  induction l generalizing chain with
  | nil => rfl
  | cons c l ih =>
      rw [List.foldl_cons, ih]
      unfold membersOf
      cases h : isOfKind .memberRefExpr c with
      | true => rw [List.filter_cons_of_pos h, List.foldl_cons]
      | false => rw [List.filter_cons_of_neg (by simp [h]), appendMember_of_other h]

/-- The loop collects the member selections above the bottom of the stack. -/
theorem declNames_eq (hshort : stack.length < ancestorNotFound) :
    declNames program stack referenced = objectNames program referenced (membersOf stack.dropLast) := by
  rw [declNames, getCursorOffsetOfKind, offsetOf, objectNames]
  cases hfound : stack.findIdx? (isOfKind .memberRefExpr) with
  | none =>
      have hnone : membersOf stack.dropLast = [] := by
        apply List.filter_eq_nil_iff.mpr
        intro c hc
        simpa using List.findIdx?_eq_none_iff.mp hfound c (List.dropLast_subset stack hc)
      rw [hnone]
      simp
  | some i =>
      obtain ⟨hi, -, hbefore⟩ := List.findIdx?_eq_some_iff_getElem.mp hfound
      have hskip : membersOf (stack.dropLast.take i) = [] := by
        apply List.filter_eq_nil_iff.mpr
        intro c hc
        obtain ⟨j, hj, rfl⟩ := List.mem_iff_getElem.mp hc
        rw [List.getElem_take, List.getElem_dropLast]
        exact hbefore j (by rw [List.length_take] at hj; omega)
      have hmembers : membersOf (stack.dropLast.drop i) = membersOf stack.dropLast := by
        conv_rhs => rw [← List.take_append_drop i stack.dropLast, membersOf, List.filter_append]
        rw [← membersOf, hskip]
        rfl
      dsimp only
      rw [if_pos (by omega), Nat.add_sub_cancel, foldl_appendMember, hmembers]

theorem appendMember_longer {c : Cursor} (h : isOfKind .memberRefExpr c = true) (chain : MemberChain) :
    chain.name.length < (appendMember program chain c).name.length := by
  rw [appendMember, if_pos h]
  dsimp only
  rw [String.length_append, String.length_append]
  have hselector : ∀ b : Prop, [Decidable b] → 0 < (if b then "->" else ".").length := by
    intro b _
    split <;> decide
  have := hselector (typeKindOf chain.previousMemberref = .pointer)
  omega

theorem foldl_appendMember_longer (members : List Cursor) (hmembers : ∀ c ∈ members, isOfKind .memberRefExpr c = true)
    (chain : MemberChain) :
    chain.name.length + members.length ≤ (members.foldl (appendMember program) chain).name.length := by
  induction members generalizing chain with
  | nil => exact Nat.le_refl _
  | cons c members ih =>
      obtain ⟨hc, hrest⟩ := List.forall_mem_cons.mp hmembers
      have hlonger := @appendMember_longer program _ hc chain
      have hgrown := ih hrest (appendMember program chain c)
      rw [List.foldl_cons, List.length_cons]
      omega

theorem objectNames_append_iff {members more : List Cursor} (hmore : ∀ c ∈ more, isOfKind .memberRefExpr c = true) :
    (objectNames program referenced (members ++ more)).name = (objectNames program referenced members).name ∧
      (objectNames program referenced (members ++ more)).usr = (objectNames program referenced members).usr ↔
        more = [] := by
  constructor
  · rintro ⟨hname, -⟩
    have hgrown := @foldl_appendMember_longer program more hmore (objectNames program referenced members)
    have hsplit : objectNames program referenced (members ++ more) =
        more.foldl (appendMember program) (objectNames program referenced members) := List.foldl_append
    rw [← hsplit, hname] at hgrown
    exact List.length_eq_zero_iff.mp (by omega)
  · rintro rfl
    rw [List.append_nil]
    exact ⟨rfl, rfl⟩

theorem baseChain_prefix (child : Cursor) (path : List Cursor) : baseChain child path <+: path := by
  induction path generalizing child with
  | nil => exact List.prefix_rfl
  | cons parent above ih =>
      rw [baseChain]
      split
      · exact List.cons_prefix_cons.mpr ⟨rfl, ih parent⟩
      · exact List.nil_prefix

theorem membersOf_path (v : Visit CursorInfo) :
    membersOf v.path = membersOf (baseChain v.node v.path) ++ membersOf (outside v) := by
  obtain ⟨rest, hrest⟩ := baseChain_prefix v.node v.path
  have houtside : outside v = rest := by
    have hdrop := congrArg (List.drop (baseChain v.node v.path).length) hrest
    rw [List.drop_left] at hdrop
    exact hdrop.symm
  rw [houtside, membersOf, membersOf, membersOf, ← List.filter_append, hrest]

theorem initVarAccess_names {usr name esc escUsr : Option String} {parent : String} {idx line column : Nat}
    {type : VarAccessType} {isPtr : Bool} (h : type.isAccess = true) :
    (initVarAccess usr name esc escUsr parent idx line column type isPtr).name = name ∧
      (initVarAccess usr name esc escUsr parent idx line column type isPtr).usr = usr := by
  have hcall : type ≠ .call := by
    rintro rfl
    cases h
  simp [initVarAccess, hcall]

theorem declRefAccess_names {spelling : String} {current : Cursor} {va : VarAccess}
    (hreferenced : referencedVariable program current = some referenced)
    (h : declRefAccess program stack spelling current = some va) :
    va.name = some (declNames program stack referenced).name ∧
      va.usr = some (declNames program stack referenced).usr := by
  rw [declRefAccess, hreferenced, Option.bind_some] at h
  dsimp only at h
  split at h
  · obtain rfl := Option.some.inj h
    exact initVarAccess_names (References.callArgumentType_isAccess _ _)
  · obtain ⟨type, htype, rfl⟩ := Option.map_eq_some_iff.mp h
    exact initVarAccess_names (References.operandType_isAccess htype)

end Names

section Run

variable {program : Program} {trackLocking : Bool}

def KeepsMembers (program : Program) (v : Visit CursorInfo) (s : WalkState) : Prop :=
  OnStack program ⟨v, s⟩ ∧ membersOf (stackAt program v.parent s) = membersOf v.path.dropLast

theorem nodup_of_upward {l : List Cursor} (h : l.IsChain ChildOf) : l.Nodup :=
  (sizeOf_pairwise h).imp fun hlt => by
    rintro rfl
    exact Nat.lt_irrefl _ hlt

theorem members_next {v w : Visit CursorInfo} {s : WalkState} (hup : (v.node :: v.path).IsChain ChildOf)
    (hnext : Next v w) (hfollows : Follows v s) (hmembers : membersOf s.ancestryStack = membersOf v.path.dropLast)
    (hrecognised : ParentRecognised w s) : KeepsMembers program w s := by
  have hstack : OnStack program ⟨w, s⟩ := onStack_next hup hnext hfollows hrecognised
  refine ⟨hstack, ?_⟩
  rw [OnStack, stackAt] at hstack
  rw [stackAt]
  cases hnext with
  | @down c cs hchildren =>
      have hpath : (⟨c, v.node, v.path⟩ : Visit CursorInfo).path.dropLast = v.node :: v.path.dropLast := rfl
      dsimp only
      rw [if_pos hfollows.descends, hpath]
      unfold membersOf at hmembers ⊢
      rw [List.filter_cons, List.filter_cons, hmembers]
  | @across _ left before after hleaf hpath hlast hsiblings =>
      have hdescends := @not_descends program v w s left hup hpath hfollows.last hrecognised
      dsimp only at hstack ⊢
      rw [if_neg hdescends] at hstack ⊢
      have hcut : v.path.dropLast = left ++ w.path.dropLast := by
        rw [hpath, List.dropLast_append_of_ne_nil (show w.path ≠ [] from List.cons_ne_nil _ _)]
      have hnodup : (membersOf (left ++ w.path.dropLast)).Nodup := by
        rw [← hcut]
        exact ((nodup_of_upward hup).sublist
          ((List.dropLast_sublist _).trans (List.sublist_cons_self _ _))).filter _
      rw [hcut, membersOf, membersOf, ← List.takeWhile_append_dropWhile
        (p := fun tail => !cursorsAreEqual (some tail) (some w.parent)) (l := s.ancestryStack), List.filter_append,
        List.filter_append] at hmembers
      -- the two tails hold the same cursors, each once, and end the same list
      have hperm : (membersOf (s.ancestryStack.dropWhile fun tail =>
          !cursorsAreEqual (some tail) (some w.parent))).Perm (membersOf w.path.dropLast) := by
        rw [membersOf, List.filter_append] at hnodup
        refine (List.perm_ext_iff_of_nodup ?_ (List.nodup_append.mp hnodup).2.1).mpr fun c => ?_
        · rw [← hmembers] at hnodup
          exact (List.nodup_append.mp hnodup).2.1
        · simp only [membersOf, List.mem_filter, hstack.mem_iff]
      exact (List.append_inj' hmembers hperm.length_eq).2

theorem members_step {v : Visit CursorInfo} {s : WalkState}
    (hmembers : membersOf (stackAt program v.parent s) = membersOf v.path.dropLast)
    (hsilent : SilentWalk program trackLocking v s) :
    membersOf (visitorWalkFunc program trackLocking (processFuncInfo program trackLocking) v.node v.parent
      s).ancestryStack = membersOf v.path.dropLast := by
  rw [← hmembers]
  obtain ⟨-, hkept | ⟨hkind, hpushed⟩⟩ :=
    Recursion.visitorWalkFunc_stack hsilent.kept
  · rw [hkept]
  · rw [hpushed, membersOf, List.filter_cons_of_neg (by simp [isOfKind, hkind])]
    rfl

/-- In a run whose walks are undisturbed the stack holds each member selection above a cursor once. -/
theorem members_kept {roots : List FuncInfo} (h : WalksUndisturbed program trackLocking roots) :
    ∀ cb ∈ runCallbacks program trackLocking roots initGlobals, KeepsMembers program cb.visit cb.before := by
  refine undisturbed_rule (J := KeepsMembers program)
    (K := fun v s => Follows v s ∧ membersOf s.ancestryStack = membersOf v.path.dropLast) ?_ ?_ ?_ h
  · intro func globals v hstart hparent habove
    refine ⟨onStack_start hstart hparent habove, ?_⟩
    rw [hparent, stackAt_startsApart hstart, Visit.path, habove]
    rfl
  · exact fun _ _ _ hup hnext hv hrecognised => members_next hup hnext hv.1 hv.2 hrecognised
  · exact fun _ _ hv hsilent => ⟨follows_of_onStack hv.1 hsilent, members_step hv.2 hsilent⟩

/-- In such a run each callback finds the member selections it asks for. -/
theorem holdsMembers_of_undisturbed {roots : List FuncInfo} (h : WalksUndisturbed program trackLocking roots)
    (hbodies : ∀ func globals, IsWalk program trackLocking roots func globals →
      ∀ c ∈ func.label.cursor :: func.label.cursor.children, isOfKind .memberRefExpr c = false)
    {cb : Callback} (hcb : cb ∈ runCallbacks program trackLocking roots initGlobals)
    (hshort : (stackAt program cb.visit.parent cb.before).length < ancestorNotFound) : HoldsMembers program cb := by
  obtain ⟨hstack, hmembers⟩ := members_kept h cb hcb
  obtain ⟨func, globals, hwalk, hown⟩ := isWalk_of_callback hcb
  have hplain := hbodies func globals hwalk
  obtain ⟨hup, below, hpath⟩ := descendants_upward (mem_of_stepsFrom _ hown)
  refine ⟨?_, hshort⟩
  rw [← hpath, List.dropLast_concat] at hmembers
  rw [OnStack, ← hpath, List.dropLast_concat] at hstack
  rw [← hpath, membersOf, membersOf, List.filter_append, List.filter_cons_of_neg (by simp [hplain _ List.mem_cons_self]),
    List.filter_nil, List.append_nil]
  refine Eq.trans ?_ hmembers
  generalize stackAt program cb.visit.parent cb.before = stack at hstack
  rcases List.eq_nil_or_concat' stack with rfl | ⟨stack, bottom, rfl⟩
  · rfl
  · have hlast := hstack.getLast?
    rw [List.getLast?_concat] at hlast
    have hchild : ChildOf bottom func.label.cursor := by
      obtain ⟨below', rfl⟩ := List.getLast?_eq_some_iff.mp hlast.symm
      rw [← hpath, List.append_assoc, ← List.cons_append] at hup
      exact (List.isChain_append_cons_cons.mp hup).2.1
    rw [List.dropLast_concat, membersOf, List.filter_append,
      List.filter_cons_of_neg (by simp [hplain _ (List.mem_cons_of_mem _ hchild)]), List.filter_nil, List.append_nil]

end Run

/-- void f() { x = p[i].m; } with global variables, p of a typedef'd pointer type. -/
def memberReader : Cursor :=
  definitionOf 1 "f" []
    [.node { id := 3, kind := .binaryOperator, binaryOperatorKind := .assign }
      [.node { id := 15, kind := .declRefExpr, referenced := some 16 } [],
       .node { id := 4, kind := .unexposedExpr }
        [.node { id := 5, kind := .memberRefExpr, referenced := some 11 }
          [.node { id := 6, kind := .arraySubscriptExpr }
            [.node { id := 7, kind := .unexposedExpr, typeKind := .other 107, canonicalTypeKind := .pointer }
              [.node { id := 8, kind := .declRefExpr, referenced := some 10, typeKind := .other 107,
                       canonicalTypeKind := .pointer } []],
             .node { id := 9, kind := .unexposedExpr }
              [.node { id := 13, kind := .declRefExpr, referenced := some 14 } []]]]]]]

/-- int f() { return a[i].m; } with the global variables a and i. -/
def elementMemberReader : Cursor :=
  definitionOf 1 "f" []
    [.node { id := 3, kind := .other 214 }
      [.node { id := 4, kind := .unexposedExpr }
        [.node { id := 5, kind := .memberRefExpr, referenced := some 11 }
          [.node { id := 6, kind := .arraySubscriptExpr }
            [.node { id := 7, kind := .unexposedExpr, typeKind := .pointer }
              [.node { id := 8, kind := .declRefExpr, referenced := some 12 } []],
             .node { id := 9, kind := .unexposedExpr }
              [.node { id := 13, kind := .declRefExpr, referenced := some 14 } []]]]]]]

def memberProgram : Program where
  tuArray := []
  fileNames := []
  decls := [.node { id := 10, kind := .varDecl, usr := "c:@p", displayName := "p", typeKind := .other 107,
                    canonicalTypeKind := .pointer } [],
    .node { id := 11, kind := .other 6, usr := "c:@S@T@FI@m", displayName := "m", spelling := "m" } [],
    .node { id := 12, kind := .varDecl, usr := "c:@a", displayName := "a", typeKind := .constantArray } [],
    .node { id := 14, kind := .varDecl, usr := "c:@i", displayName := "i" } [],
    .node { id := 16, kind := .varDecl, usr := "c:@x", displayName := "x" } []]
  zeroCursorIsNull := false

end Prongc.MemberPaths
