import Prongc.Callbacks
import Prongc.WalkAst

namespace Prongc.References

open Access Ast DeclRef WalkFunc Callbacks Library.Traversal

theorem callArgumentType_isAccess (closest : ClosestAncestors) (isPtr : Bool) :
    (callArgumentType closest isPtr).isAccess = true := by
  rw [callArgumentType]
  repeat' split
  all_goals rfl

theorem operandType_isAccess {stack : CursorArr} {current : Cursor} {closest : ClosestAncestors}
    {type : VarAccessType} (h : operandType stack current closest = some type) :
    type.isAccess = true := by
  rw [operandType, subscriptType, unopType, derefType, assignmentType] at h
  grind [VarAccessType.isAccess]

/-- The one path through the classification that pushes nothing. -/
theorem operandType_eq_none_iff (stack : CursorArr) (current : Cursor) (closest : ClosestAncestors) :
    operandType stack current closest = none ↔
      inSubscript closest = true ∧ onLhsOf stack current closest.arrsubexp = true ∧
        closest.binopOffset = ancestorNotFound := by
  rw [operandType, subscriptType]
  grind

/-- The closest subscript, which is nearer than any unary operator and any call, has the
reference in its base, and no ancestor is an assignment. -/
def BareSubscriptBase (stack : CursorArr) (current : Cursor) : Prop :=
  getCursorOffsetOfKind stack .arraySubscriptExpr < ancestorNotFound ∧
    getCursorOffsetOfKind stack .arraySubscriptExpr < getCursorOffsetOfKind stack .unaryOperator ∧
    getCursorOffsetOfKind stack .arraySubscriptExpr ≤ getCursorOffsetOfKind stack .callExpr ∧
    onLhsOf stack current (getCursorOfKind stack .arraySubscriptExpr) = true ∧
    getBinopAssignmentOffset stack = ancestorNotFound

instance (stack : CursorArr) (current : Cursor) : Decidable (BareSubscriptBase stack current) :=
  inferInstanceAs (Decidable (_ ∧ _))

theorem bareSubscriptBase_iff (stack : CursorArr) (current : Cursor) :
    BareSubscriptBase stack current ↔ inCall (closestAncestors stack) = false ∧
      operandType stack current (closestAncestors stack) = none := by
  rw [operandType_eq_none_iff]
  rw [BareSubscriptBase, inCall, inSubscript, closestAncestors]
  simp only [Bool.and_eq_true, decide_eq_true_eq, Bool.and_eq_false_iff, decide_eq_false_iff_not]
  grind

theorem declRefAccess_isAccess {program : Program} {stack : CursorArr} {spelling : String}
    {current : Cursor} {va : VarAccess} (h : declRefAccess program stack spelling current = some va) :
    va.type.isAccess = true ∧ va.line = current.label.line ∧ va.column = current.label.column := by
  rw [declRefAccess] at h
  obtain ⟨referenced, _, h⟩ := Option.bind_eq_some_iff.mp h
  dsimp only at h
  split at h
  · obtain rfl := Option.some.inj h
    exact ⟨callArgumentType_isAccess _ _, rfl, rfl⟩
  · obtain ⟨type, htype, rfl⟩ := Option.map_eq_some_iff.mp h
    exact ⟨operandType_isAccess htype, rfl, rfl⟩

theorem isAccess_of_recorded {program : Program} {stack : CursorArr} {spelling : String} {current : Cursor}
    {vas : List VarAccess} (h : vas ⊆ (declRefAccess program stack spelling current).toList) :
    ∀ va ∈ vas, va.type.isAccess = true := by
  intro va hva
  exact (declRefAccess_isAccess (Option.mem_toList.mp (h hva))).1

theorem declRefAccess_eq_none_iff {program : Program} {stack : CursorArr} {spelling : String}
    {current : Cursor} (href : (referencedVariable program current).isSome = true) :
    declRefAccess program stack spelling current = none ↔ BareSubscriptBase stack current := by
  obtain ⟨referenced, href⟩ := Option.isSome_iff_exists.mp href
  rw [bareSubscriptBase_iff]
  rw [declRefAccess]
  rw [href]
  dsimp only [Option.bind_some]
  split <;> simp_all

section Run

variable (program : Program) (trackLocking : Bool)

/-- A callback pushes exactly one access, and it stands at the place of the reference. -/
def pushesOne (cb : Callback) : Bool :=
  match pushedAccesses program trackLocking cb with
  | [va] => va.line == cb.visit.node.label.line && va.column == cb.visit.node.label.column
  | _ => false

theorem pushesOne_iff {cb : Callback} (h : isReference program cb = true) :
    pushesOne program trackLocking cb = true ↔
      ¬ BareSubscriptBase (stackAt program cb.visit.parent cb.before) cb.visit.node := by
  have href := (Bool.and_eq_true_iff.mp h).2
  rw [← @declRefAccess_eq_none_iff program _ cb.before.currentFunc.spelling _ href]
  rw [pushesOne]
  rw [pushedAccesses_reference program trackLocking h]
  cases hva : declRefAccess program (stackAt program cb.visit.parent cb.before)
      cb.before.currentFunc.spelling cb.visit.node with
  | none => simp
  | some va =>
      obtain ⟨haccess, hline, hcolumn⟩ := declRefAccess_isAccess hva
      simp [haccess, hline, hcolumn]

/-- Every reference that a run of the walk meets is pushed exactly once just when none is the
base of a subscript outside every assignment. -/
theorem references_pushed_iff (funcs : List FuncInfo) (globals : Globals) :
    (∀ cb ∈ runCallbacks program trackLocking funcs globals, isReference program cb = true →
      pushesOne program trackLocking cb = true) ↔
    ∀ cb ∈ runCallbacks program trackLocking funcs globals, isReference program cb = true →
      ¬ BareSubscriptBase (stackAt program cb.visit.parent cb.before) cb.visit.node :=
  forall₂_congr fun _ _ => forall_congr' fun href => pushesOne_iff program trackLocking href

end Run

/-- int f() { return a[i]; } with the global variables a and i. -/
def elementReader : Cursor :=
  definitionOf 1 "f" []
    [.node { id := 3, kind := .other 214 }
      [.node { id := 4, kind := .unexposedExpr }
        [.node { id := 5, kind := .arraySubscriptExpr }
          [.node { id := 6, kind := .unexposedExpr, typeKind := .pointer }
            [.node { id := 7, kind := .declRefExpr, referenced := some 10 } []],
           .node { id := 8, kind := .unexposedExpr }
            [.node { id := 9, kind := .declRefExpr, referenced := some 11 } []]]]]]

def elementProgram : Program where
  tuArray := []
  fileNames := []
  decls := [.node { id := 10, kind := .varDecl, usr := "c:@a", typeKind := .constantArray } [],
    .node { id := 11, kind := .varDecl, usr := "c:@i" } []]
  zeroCursorIsNull := false

/-- Reading an element outside an assignment drops the array. -/
theorem elementReader_dropped :
    ¬ ∀ cb ∈ runCallbacks elementProgram false [WalkAst.requestedFunc elementReader] initGlobals,
      isReference elementProgram cb = true → pushesOne elementProgram false cb = true := by
  decide +kernel

end Prongc.References
