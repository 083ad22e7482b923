import Prongc.Ancestry
import Prongc.LockReach
import Prongc.References

namespace Prongc.OpenBranches

open Access Ast WalkFunc Callbacks Recursion Ancestry LockReach Library.Traversal Library.VisitOrder
  Library.BranchMarkers

abbrev isIf (c : Cursor) : Bool := isOfKind .ifStmt c

def NoIf (cursors : List Cursor) : Prop := ∀ c ∈ cursors, isIf c = false

section Phases

def phaseOf (ifstmt child : Cursor) : Phase :=
  if (getIfstmtInfo ifstmt).thenBlock.any (clangEqualCursors child) then .thenPart
  else if (getIfstmtInfo ifstmt).elseBlock.any (clangEqualCursors child) then .elsePart
  else .cond

def phasesAbove : Cursor → List Cursor → List Phase
  | _, [] => []
  | child, parent :: above =>
      if isIf parent then phaseOf parent child :: phasesAbove parent above else phasesAbove parent above

/-- The conditionals that are open at a visit. A conditional itself opens with its condition. -/
def openPhases (v : Visit CursorInfo) : List Phase :=
  if isIf v.node then .cond :: phasesAbove v.node v.path else phasesAbove v.node v.path

structure IfShape (ifstmt : Cursor) : Prop where
  length : ifstmt.children.length = 2 ∨ ifstmt.children.length = 3
  apart : ifstmt.children.Pairwise fun a b => cursorsAreEqual (some a) (some b) = false

theorem not_clangEqualCursors {a b : Cursor} (h : cursorsAreEqual (some a) (some b) = false) :
    clangEqualCursors a b = false := by
  rw [cursorsAreEqual, Bool.or_eq_false_iff] at h
  exact h.1

theorem clangEqualCursors_self (c : Cursor) : clangEqualCursors c c = true := by
  simp [clangEqualCursors]

theorem clangEqualCursors_comm (a b : Cursor) : clangEqualCursors a b = clangEqualCursors b a := by
  simp [clangEqualCursors, Bool.beq_comm]

theorem IfShape.cases {ifstmt : Cursor} (h : IfShape ifstmt) :
    (∃ cond thn, ifstmt.children = [cond, thn]) ∨ ∃ cond thn els, ifstmt.children = [cond, thn, els] := by
  rcases h.length with h | h
  · exact .inl (List.length_eq_two.mp h)
  · exact .inr (List.length_eq_three.mp h)

theorem phaseOf_last {ifstmt child : Cursor} (h : IfShape ifstmt) (hlast : LastChildOf child ifstmt) :
    phaseOf ifstmt child = .thenPart ∨ phaseOf ifstmt child = .elsePart := by
  rw [LastChildOf] at hlast
  rcases h.cases with ⟨cond, thn, hchildren⟩ | ⟨cond, thn, els, hchildren⟩
  · rw [hchildren] at hlast
    obtain rfl : thn = child := by simpa using hlast
    simp [phaseOf, getIfstmtInfo, hchildren, clangEqualCursors_self]
  · rw [hchildren] at hlast
    obtain rfl : els = child := by simpa using hlast
    have hthen := h.apart
    rw [hchildren] at hthen
    simp only [List.pairwise_cons, List.mem_cons, List.not_mem_nil, or_false, forall_eq_or_imp, forall_eq] at hthen
    have hother : clangEqualCursors els thn = false := by
      rw [clangEqualCursors_comm]
      exact not_clangEqualCursors hthen.2.1
    simp [phaseOf, getIfstmtInfo, hchildren, clangEqualCursors_self, hother]

theorem run_closing {child : Cursor} {left above : List Cursor} {closings : List VarAccess}
    (hlast : (child :: left).IsChain LastChildOf) (hshape : ∀ c ∈ left, isIf c = true → IfShape c)
    (hlength : closings.length = left.countP isIf) (hend : ∀ va ∈ closings, va.type = .endIf) :
    run mark (phasesAbove child (left ++ above)) closings =
      some (phasesAbove ((child :: left).getLast (List.cons_ne_nil _ _)) above) := by
  induction left generalizing child closings with
  | nil =>
      obtain rfl : closings = [] := List.eq_nil_of_length_eq_zero hlength
      rfl
  | cons parent left ih =>
      obtain ⟨hparent, hrest⟩ := List.isChain_cons_cons.mp hlast
      rw [List.getLast_cons (List.cons_ne_nil _ _), List.cons_append, phasesAbove]
      by_cases hif : isIf parent = true
      · rw [if_pos hif]
        rw [List.countP_cons_of_pos hif] at hlength
        cases closings with
        | nil => cases hlength
        | cons va closings =>
            have hmark : mark va = some .endIf := by simp [mark, hend va List.mem_cons_self]
            have hstep : ∀ st, step .endIf (phaseOf parent child :: st) = some st := by
              intro st
              rcases phaseOf_last (hshape parent List.mem_cons_self hif) hparent with h | h <;> rw [h] <;> rfl
            rw [run_cons_mark hmark, hstep, Option.bind_some]
            exact ih hrest (fun c hc => hshape c (List.mem_cons_of_mem _ hc)) (Nat.succ.inj hlength)
              fun a ha => hend a (List.mem_cons_of_mem _ ha)
      · rw [if_neg hif]
        rw [List.countP_cons_of_neg hif] at hlength
        exact ih hrest (fun c hc => hshape c (List.mem_cons_of_mem _ hc)) hlength hend

end Phases

section Stack

/-- The stack holds the conditionals of the path. Once neither of them has any left, they need not agree
any more. -/
inductive IfsOnStack : CursorArr → List Cursor → Prop
  | lost {stack : CursorArr} {path : List Cursor} (stack_noIf : NoIf stack) (path_noIf : NoIf path) :
      IfsOnStack stack path
  | again {c : Cursor} {stack : CursorArr} {path : List Cursor} (noIf : isIf c = false)
      (rest : IfsOnStack stack (c :: path)) : IfsOnStack (c :: stack) (c :: path)
  | next {c : Cursor} {stack : CursorArr} {path : List Cursor} (rest : IfsOnStack stack path) :
      IfsOnStack (c :: stack) (c :: path)

theorem NoIf.cons {c : Cursor} {cursors : List Cursor} (hc : isIf c = false) (h : NoIf cursors) :
    NoIf (c :: cursors) := List.forall_mem_cons.mpr ⟨hc, h⟩

theorem NoIf.mono {cursors cursors' : List Cursor} (h : NoIf cursors) (hsub : cursors' ⊆ cursors) :
    NoIf cursors' := fun c hc => h c (hsub hc)

theorem NoIf.countP {cursors : List Cursor} (h : NoIf cursors) : cursors.countP isIf = 0 := by
  rw [List.countP_eq_zero]
  intro c hc
  simp [h c hc]

theorem IfsOnStack.noIf {stack : CursorArr} {path : List Cursor} (h : IfsOnStack stack path)
    (hpath : NoIf path) : NoIf stack := by
  induction h with
  | lost stack_noIf _ => exact stack_noIf
  | again noIf _ ih => exact (ih hpath).cons noIf
  | next _ ih =>
      obtain ⟨hc, hpath⟩ := List.forall_mem_cons.mp hpath
      exact (ih hpath).cons hc

/-- Popping down to a parent pops the conditionals in front of it. -/
theorem IfsOnStack.pop {stack : CursorArr} {left above : List Cursor} {parent : Cursor} {p : Cursor → Bool}
    (h : IfsOnStack stack (left ++ parent :: above)) (hleft : ∀ c ∈ left, c ≠ parent)
    (hstop : ∀ c ∈ stack, p c = false → c = parent) (hparent : p parent = false) :
    IfsOnStack (stack.dropWhile p) (parent :: above) ∧
      (stack.takeWhile p).countP isIf = left.countP isIf := by
  have hpop : ∀ {c : Cursor} {stack : CursorArr}, (∀ d ∈ c :: stack, p d = false → d = parent) →
      c ≠ parent → p c = true := by
    intro c stack hstop hc
    rw [← Bool.not_eq_false]
    exact fun h => hc (hstop c List.mem_cons_self h)
  generalize hpath : left ++ parent :: above = path at h
  induction h generalizing left with
  | @lost stack path stack_noIf path_noIf =>
      rw [← hpath] at path_noIf
      refine ⟨.lost (stack_noIf.mono (List.dropWhile_subset p)) (path_noIf.mono (List.subset_append_right _ _)),
        ?_⟩
      rw [(stack_noIf.mono (List.takeWhile_subset p)).countP,
        (path_noIf.mono (List.subset_append_left _ _)).countP]
  | @again c stack path noIf rest ih =>
      cases left with
      | nil =>
          obtain ⟨rfl, rfl⟩ := List.cons.inj hpath
          rw [List.dropWhile_cons_of_neg (by simp [hparent]), List.takeWhile_cons_of_neg (by simp [hparent])]
          exact ⟨.again noIf rest, rfl⟩
      | cons d left =>
          obtain ⟨rfl, -⟩ := List.cons.inj hpath
          have hd := hpop hstop (hleft d List.mem_cons_self)
          rw [List.dropWhile_cons_of_pos hd, List.takeWhile_cons_of_pos hd,
            List.countP_cons_of_neg (by simp [noIf])]
          exact ih hleft (fun e he => hstop e (List.mem_cons_of_mem _ he)) hpath
  | @next c stack path rest ih =>
      cases left with
      | nil =>
          obtain ⟨rfl, rfl⟩ := List.cons.inj hpath
          rw [List.dropWhile_cons_of_neg (by simp [hparent]), List.takeWhile_cons_of_neg (by simp [hparent])]
          exact ⟨.next rest, rfl⟩
      | cons d left =>
          obtain ⟨rfl, htail⟩ := List.cons.inj hpath
          have hd := hpop hstop (hleft d List.mem_cons_self)
          obtain ⟨hstack, hcount⟩ := ih (fun e he => hleft e (List.mem_cons_of_mem _ he))
            (fun e he => hstop e (List.mem_cons_of_mem _ he)) htail
          rw [List.dropWhile_cons_of_pos hd, List.takeWhile_cons_of_pos hd, List.countP_cons, List.countP_cons,
            hcount]
          exact ⟨hstack, rfl⟩

end Stack

section Markers

theorem branchMarkers_noIf {current parent : Cursor} (h : isIf parent = false) :
    branchMarkers true current parent = [] := by
  have hif : isOfKind .ifStmt parent = false := h
  simp [branchMarkers, hif]

theorem branchMarkers_first {ifstmt child : Cursor} {children : List Cursor} (h : IfShape ifstmt)
    (hchildren : ifstmt.children = child :: children) :
    branchMarkers true child ifstmt = [] ∧ phaseOf ifstmt child = .cond := by
  have hapart := h.apart
  rcases h.cases with ⟨cond, thn, hcases⟩ | ⟨cond, thn, els, hcases⟩
  · obtain rfl := (List.cons.inj (hchildren.symm.trans hcases)).1
    rw [hcases] at hapart
    have hthen : cursorsAreEqual (some child) (some thn) = false := by simpa using hapart
    simp [branchMarkers, phaseOf, getIfstmtInfo, hcases, hthen, not_clangEqualCursors hthen]
  · obtain rfl := (List.cons.inj (hchildren.symm.trans hcases)).1
    rw [hcases] at hapart
    simp only [List.pairwise_cons, List.mem_cons, List.not_mem_nil, or_false, forall_eq_or_imp, forall_eq] at hapart
    obtain ⟨⟨hthen, helse⟩, -⟩ := hapart
    simp [branchMarkers, phaseOf, getIfstmtInfo, hcases, hthen, helse, not_clangEqualCursors hthen,
      not_clangEqualCursors helse]

/-- What stands in front of a later child of a conditional: the marker of the part that it is. -/
theorem branchMarkers_sibling {ifstmt left child : Cursor} {before after : List Cursor}
    (h : IfShape ifstmt) (hif : isIf ifstmt = true)
    (hchildren : ifstmt.children = before ++ left :: child :: after) :
    (phaseOf ifstmt left = .cond ∧ phaseOf ifstmt child = .thenPart ∧
        branchMarkers true child ifstmt = [.thenBlock]) ∨
      (phaseOf ifstmt left = .thenPart ∧ phaseOf ifstmt child = .elsePart ∧
        branchMarkers true child ifstmt = [.elseStmt]) := by
  have hkind : isOfKind .ifStmt ifstmt = true := hif
  have hapart := h.apart
  rcases h.cases with ⟨cond, thn, hcases⟩ | ⟨cond, thn, els, hcases⟩
  · cases before with
    | nil =>
        obtain ⟨rfl, rfl, -⟩ : left = cond ∧ child = thn ∧ after = [] := by
          simpa using hchildren.symm.trans hcases
        rw [hcases] at hapart
        have hcond : cursorsAreEqual (some left) (some child) = false := by simpa using hapart
        refine .inl ⟨?_, ?_, ?_⟩
        · simp [phaseOf, getIfstmtInfo, hcases, not_clangEqualCursors hcond]
        · simp [phaseOf, getIfstmtInfo, hcases, clangEqualCursors_self]
        · simp [branchMarkers, getIfstmtInfo, hcases, hkind, cursorsAreEqual_self]
    | cons b before =>
        have hlength := congrArg List.length (hchildren.symm.trans hcases)
        simp only [List.cons_append, List.length_cons, List.length_append, List.length_nil] at hlength
        omega
  · have hparts := hapart
    rw [hcases] at hparts
    simp only [List.pairwise_cons, List.mem_cons, List.not_mem_nil, or_false, forall_eq_or_imp, forall_eq] at hparts
    obtain ⟨⟨hct, hce⟩, hte, -⟩ := hparts
    cases before with
    | nil =>
        obtain ⟨rfl, rfl, -⟩ : left = cond ∧ child = thn ∧ after = [els] := by
          simpa using hchildren.symm.trans hcases
        refine .inl ⟨?_, ?_, ?_⟩
        · simp [phaseOf, getIfstmtInfo, hcases, not_clangEqualCursors hct, not_clangEqualCursors hce]
        · simp [phaseOf, getIfstmtInfo, hcases, clangEqualCursors_self]
        · simp [branchMarkers, getIfstmtInfo, hcases, hkind, cursorsAreEqual_self]
    | cons b before =>
        cases before with
        | nil =>
            obtain ⟨-, rfl, rfl, -⟩ : b = cond ∧ left = thn ∧ child = els ∧ after = [] := by
              simpa using hchildren.symm.trans hcases
            have het : cursorsAreEqual (some child) (some left) = false := by
              rw [cursorsAreEqual_comm]
              exact hte
            refine .inr ⟨?_, ?_, ?_⟩
            · simp [phaseOf, getIfstmtInfo, hcases, clangEqualCursors_self]
            · simp [phaseOf, getIfstmtInfo, hcases, clangEqualCursors_self, not_clangEqualCursors het]
            · simp [branchMarkers, getIfstmtInfo, hcases, hkind, cursorsAreEqual_self, het]
        | cons b' before =>
            have hlength := congrArg List.length (hchildren.symm.trans hcases)
            simp only [List.cons_append, List.length_cons, List.length_append, List.length_nil] at hlength
            omega

theorem run_ifStmtMarkers (s : WalkState) (current : Cursor) (st : List Phase) :
    run mark st ((ifStmtMarkers true current).map s.marker) =
      some (if isIf current then .cond :: st else st) := by
  rw [ifStmtMarkers]
  by_cases hif : isOfKind .ifStmt current = true
  · have hmark : mark (s.marker .ifStmt) = some .ifStmt := by simp [mark]
    simp only [hif, Bool.true_and, if_true, List.map_cons, List.map_nil, run_cons_mark hmark, step,
      Option.bind_some, run_nil]
  · simp only [hif, Bool.true_and, if_false, List.map_nil, run_nil, Bool.false_eq_true]

end Markers

section Step

variable {program : Program} {v w : Visit CursorInfo} {s : WalkState}

/-- The state behind the callback for a visit. Behind the walk of a callee the stack is not that of the
ancestors any more, but there is no conditional around. -/
inductive BranchState (v : Visit CursorInfo) (s : WalkState) : Prop
  | visited (last : s.lastVisited = some v.node) (stack : IfsOnStack s.ancestryStack v.path)
  | called {stack : CursorArr} (call : isIf v.node = false) (last : s.lastVisited = some v.node)
      (pushed : s.ancestryStack = v.node :: stack) (rest : IfsOnStack stack v.path)
  | walked {stack : CursorArr} (call : isIf v.node = false) (pushed : s.ancestryStack = v.node :: stack)
      (stack_noIf : NoIf stack) (path_noIf : NoIf v.path)

theorem BranchState.noIf (h : BranchState v s) (hnode : isIf v.node = false) (hpath : NoIf v.path) :
    NoIf s.ancestryStack := by
  cases h with
  | visited _ stack => exact stack.noIf hpath
  | called _ _ pushed rest => exact pushed ▸ (rest.noIf hpath).cons hnode
  | walked _ pushed stack_noIf _ => exact pushed ▸ stack_noIf.cons hnode

theorem stackAt_noIf {parent : Cursor} (hstack : NoIf s.ancestryStack) (hparent : isIf parent = false) :
    NoIf (stackAt program parent s) ∧ closedBranches program true parent s = [] := by
  rw [stackAt, closedBranches]
  split
  · exact ⟨hstack.cons hparent, rfl⟩
  · refine ⟨hstack.mono (List.dropWhile_subset _), ?_⟩
    rw [if_pos rfl, List.map_eq_nil_iff, List.filter_eq_nil_iff]
    intro c hc
    simp [hstack c (List.takeWhile_subset _ hc)]

theorem closedBranches_type {parent : Cursor} :
    ∀ va ∈ closedBranches program true parent s, va.type = .endIf := by
  rw [closedBranches]
  intro va hva
  split at hva
  · cases hva
  · rw [if_pos rfl] at hva
    obtain ⟨c, -, rfl⟩ := List.mem_map.mp hva
    rfl

theorem enter_down (hstate : BranchState v s) :
    IfsOnStack (stackAt program v.node s) (v.node :: v.path) ∧ closedBranches program true v.node s = [] := by
  have hself : ∀ last : s.lastVisited = some v.node, descends program v.node s.lastVisited = true := by
    intro last
    rw [last]
    exact cursorsAreEqual_self v.node
  cases hstate with
  | visited last stack =>
      rw [stackAt, closedBranches, if_pos (hself last), if_pos (hself last)]
      exact ⟨.next stack, rfl⟩
  | called call last pushed rest =>
      rw [stackAt, closedBranches, if_pos (hself last), if_pos (hself last), pushed]
      exact ⟨.again call (.next rest), rfl⟩
  | walked call pushed stack_noIf path_noIf =>
      obtain ⟨hstack, hclosed⟩ := @stackAt_noIf program s v.node (pushed ▸ stack_noIf.cons call) call
      exact ⟨.lost hstack (path_noIf.cons call), hclosed⟩

theorem enter_across {left : List Cursor} (hup : (v.node :: v.path).IsChain ChildOf)
    (hpath : v.path = left ++ w.path) (hstate : BranchState v s)
    (hrecognised : ParentRecognised w s) :
    IfsOnStack (stackAt program w.parent s) w.path ∧
      (closedBranches program true w.parent s).length = left.countP isIf := by
  have hne := left_ne_parent hup hpath
  have hstop : ∀ c ∈ s.ancestryStack, (!cursorsAreEqual (some c) (some w.parent)) = false → c = w.parent := by
    intro c hc h
    exact hrecognised c (List.mem_append_right _ hc) (by simpa using h)
  have hparent : (!cursorsAreEqual (some w.parent) (some w.parent)) = false := by simp [cursorsAreEqual_self]
  cases hstate with
  | visited last stack =>
      have hdescends := @not_descends program v w s left hup hpath last hrecognised
      rw [hpath] at stack
      obtain ⟨hpop, hcount⟩ :=
        stack.pop (fun c hc => hne c (List.mem_cons_of_mem _ hc)) hstop hparent
      rw [stackAt, closedBranches, if_neg hdescends, if_neg hdescends, if_pos rfl, List.length_map,
        ← List.countP_eq_length_filter]
      exact ⟨hpop, hcount⟩
  | called call last pushed rest =>
      have hdescends := @not_descends program v w s left hup hpath last hrecognised
      have hstack : IfsOnStack s.ancestryStack (v.node :: left ++ w.path) := by
        rw [pushed, List.cons_append, ← hpath]
        exact .next rest
      obtain ⟨hpop, hcount⟩ := hstack.pop hne hstop hparent
      rw [List.countP_cons_of_neg (by simp [call])] at hcount
      rw [stackAt, closedBranches, if_neg hdescends, if_neg hdescends, if_pos rfl, List.length_map,
        ← List.countP_eq_length_filter]
      exact ⟨hpop, hcount⟩
  | walked call pushed stack_noIf path_noIf =>
      rw [hpath] at path_noIf
      have hpath_noIf : NoIf w.path := path_noIf.mono (List.subset_append_right _ _)
      obtain ⟨hstack, hclosed⟩ := @stackAt_noIf program s w.parent (pushed ▸ stack_noIf.cons call)
        (hpath_noIf _ List.mem_cons_self)
      rw [hclosed, (path_noIf.mono (List.subset_append_left _ _)).countP]
      exact ⟨.lost hstack hpath_noIf, rfl⟩

/-- The markers of a callback bring the open conditionals to those of its visit. -/
theorem run_markersAt (hup : (v.node :: v.path).IsChain ChildOf) (hnext : Next v w)
    (hshape : ∀ c ∈ v.node :: v.path, isIf c = true → IfShape c) (hstate : BranchState v s)
    (hrecognised : ParentRecognised w s) :
    IfsOnStack (stackAt program w.parent s) w.path ∧
      run mark (openPhases v) (markersAt program true w.node w.parent s) = some (openPhases w) := by
  rw [markersAt]
  rw [List.map_append]
  cases hnext with
  | @down c cs hchildren =>
      obtain ⟨hstack, hclosed⟩ := @enter_down program v s hstate
      refine ⟨hstack, ?_⟩
      rw [hclosed, List.nil_append, openPhases, openPhases]
      by_cases hif : isIf v.node = true
      · obtain ⟨hmarkers, hphase⟩ := branchMarkers_first (hshape _ List.mem_cons_self hif) hchildren
        rw [hmarkers, List.map_nil, List.nil_append, run_ifStmtMarkers, if_pos hif]
        simp only [Visit.path, phasesAbove, hif, if_true, hphase]
      · rw [branchMarkers_noIf (by simpa using hif), List.map_nil, List.nil_append, run_ifStmtMarkers, if_neg hif]
        simp only [Visit.path, phasesAbove, hif, Bool.false_eq_true, if_false]
  | @across _ left before after hleaf hpath hlast hsiblings =>
      have hnode : isIf v.node = false := by
        rw [← Bool.not_eq_true]
        intro hif
        have hlength := (hshape _ List.mem_cons_self hif).length
        rw [hleaf] at hlength
        simp at hlength
      obtain ⟨hstack, hlength⟩ := @enter_across program v w s left hup hpath hstate hrecognised
      refine ⟨hstack, ?_⟩
      have hclosing := @run_closing v.node left w.path _ hlast
        (fun c hc => hshape c (List.mem_cons_of_mem _ (hpath ▸ List.mem_append_left _ hc))) hlength
        (@closedBranches_type program s w.parent)
      rw [run_append, openPhases, if_neg (by simp [hnode]), hpath, hclosing, Option.bind_some, run_append]
      have hopen : run mark (phasesAbove ((v.node :: left).getLast (List.cons_ne_nil _ _)) w.path)
          ((branchMarkers true w.node w.parent).map s.marker) = some (phasesAbove w.node w.path) := by
        have hmem : w.parent ∈ v.node :: v.path :=
          List.mem_cons_of_mem _ (hpath ▸ List.mem_append_right _ List.mem_cons_self)
        rw [Visit.path, phasesAbove, phasesAbove]
        by_cases hif : isIf w.parent = true
        · rw [if_pos hif, if_pos hif]
          rcases branchMarkers_sibling (hshape _ hmem hif) hif hsiblings with
            ⟨hleft, hchild, hmarkers⟩ | ⟨hleft, hchild, hmarkers⟩
          · rw [hleft, hchild, hmarkers, List.map_singleton,
              run_cons_mark (show mark (s.marker .thenBlock) = some .thenBlock by simp [mark])]
            rfl
          · rw [hleft, hchild, hmarkers, List.map_singleton,
              run_cons_mark (show mark (s.marker .elseStmt) = some .elseStmt by simp [mark])]
            rfl
        · rw [if_neg hif, if_neg hif, branchMarkers_noIf (by simpa using hif)]
          rfl
      rw [hopen, Option.bind_some, run_ifStmtMarkers, openPhases]

end Step

section Walk

variable (program : Program)

/-- In every walk of the run conditionals have the shape of the language, the last thing visited is
outside all of them, no callee is visited from inside one, and parents are recognised. -/
structure BranchesSafe (roots : List FuncInfo) : Prop where
  shape : ∀ func globals, IsWalk program true roots func globals → isIf func.label.cursor = false ∧
    ∀ v ∈ descendants func.label.cursor, isIf v.node = true → IfShape v.node
  ends : ∀ func globals, IsWalk program true roots func globals →
    ∀ v ∈ (descendants func.label.cursor).getLast?, NoIf v.path
  calls : ∀ func globals, IsWalk program true roots func globals → ∀ x ∈
    ownCallbacks program true (processFuncInfo program true) func globals, ¬ NoIf x.1.path →
      SilentWalk program true x.1 x.2
  recognised : ∀ func globals, IsWalk program true roots func globals → ∀ x ∈
    ownCallbacks program true (processFuncInfo program true) func globals, ParentRecognised x.1 x.2

def closesBranches (func : FuncData) : Bool := run mark [] func.varAccesses == some []

def Reached (globals : Globals) (last : Option (Visit CursorInfo)) (s : WalkState) : Prop :=
  match last with
  | none => s.ancestryStack = globals.ancestryStack ∧ s.currentFunc.varAccesses = []
  | some v => BranchState v s ∧ run mark [] s.currentFunc.varAccesses = some (openPhases v)

structure Walking (roots : List FuncInfo) (func : FuncInfo) (globals : Globals)
    (rest : List (Visit CursorInfo)) (s : WalkState) : Prop where
  walk : IsWalk program true roots func globals
  own : ∃ done, ownCallbacks program true (processFuncInfo program true) func globals =
    done ++ stepsFrom (visitStep (visitorWalkFunc program true (processFuncInfo program true))) s rest
  outside : NoIf globals.ancestryStack ∨ descendants func.label.cursor = []
  visits : ∃ done, descendants func.label.cursor = done ++ rest ∧ Reached globals done.getLast? s
  callees : ∀ callee ∈ s.callees, callee.all closesBranches = true

variable {program} {roots : List FuncInfo} {func : FuncInfo} {globals : Globals} {w : Visit CursorInfo}
  {rest : List (Visit CursorInfo)} {s : WalkState}

theorem phasesAbove_noIf {child : Cursor} {path : List Cursor} (h : NoIf path) : phasesAbove child path = [] := by
  induction path generalizing child with
  | nil => rfl
  | cons parent above ih =>
      obtain ⟨hparent, habove⟩ := List.forall_mem_cons.mp h
      rw [phasesAbove, if_neg (by simp [hparent])]
      exact ih habove

theorem Walking.mem_own (h : Walking program roots func globals (w :: rest) s) :
    (w, s) ∈ ownCallbacks program true (processFuncInfo program true) func globals := by
  obtain ⟨done, hown⟩ := h.own
  rw [hown]
  exact List.mem_append_right _ List.mem_cons_self

theorem upward_shape (hsafe : BranchesSafe program roots) (hwalk : IsWalk program true roots func globals)
    {v : Visit CursorInfo} (hv : v ∈ descendants func.label.cursor) :
    ∀ c ∈ v.node :: v.path, isIf c = true → IfShape c := by
  intro c hc hif
  obtain ⟨hfunc, hshape⟩ := hsafe.shape func globals hwalk
  rcases descendants_above hv hc with rfl | ⟨u, hu, rfl⟩
  · rw [hfunc] at hif
    cases hif
  · exact hshape u hu hif

/-- Behind the markers of a callback exactly the conditionals of its visit are open. -/
theorem Walking.enter (hsafe : BranchesSafe program roots)
    (h : Walking program roots func globals (w :: rest) s) :
    IfsOnStack (stackAt program w.parent s) w.path ∧
      run mark [] (s.currentFunc.varAccesses ++ markersAt program true w.node w.parent s) =
        some (openPhases w) := by
  obtain ⟨done, hvisits, hreached⟩ := h.visits
  cases hlast : done.getLast? with
  | none =>
      obtain rfl := List.getLast?_eq_none_iff.mp hlast
      rw [hlast] at hreached
      obtain ⟨hstack, hentries⟩ := hreached
      have houtside : NoIf s.ancestryStack := by
        rw [hstack]
        exact h.outside.resolve_right (by simp [hvisits])
      obtain ⟨hparent, habove⟩ := @descendants_head _ func.label.cursor w (by simp [hvisits])
      have hfunc := (hsafe.shape func globals h.walk).1
      have hpath : NoIf w.path := by
        rw [Visit.path, hparent, habove]
        exact NoIf.cons hfunc fun c hc => by cases hc
      obtain ⟨hnoIf, hclosed⟩ := @stackAt_noIf program s w.parent houtside (hparent ▸ hfunc)
      refine ⟨.lost hnoIf hpath, ?_⟩
      rw [hentries, markersAt, hclosed, branchMarkers_noIf (hparent ▸ hfunc), List.nil_append, List.nil_append,
        List.nil_append, run_ifStmtMarkers, openPhases, phasesAbove_noIf hpath]
  | some v =>
      rw [hlast] at hreached
      obtain ⟨hstate, hrun⟩ := hreached
      have hnext : Next v w := by
        have hchain := (descendants_next func.label.cursor).1
        rw [hvisits, List.isChain_append] at hchain
        exact hchain.2.2 v hlast w rfl
      have hv : v ∈ descendants func.label.cursor := by
        rw [hvisits]
        exact List.mem_append_left _ (List.mem_of_getLast? hlast)
      obtain ⟨hstack, hmarkers⟩ := run_markersAt (descendants_upward hv).1 hnext
        (upward_shape hsafe h.walk hv) hstate (hsafe.recognised func globals h.walk _ h.mem_own)
      exact ⟨hstack, by rw [run_append, hrun, Option.bind_some, hmarkers]⟩

theorem run_events {vas : List VarAccess} (h : ∀ va ∈ vas, mark va = none) (st : List Phase) :
    run mark st vas = some st := by
  induction vas generalizing st with
  | nil => rfl
  | cons va vas ih =>
      rw [run_cons_event (h va List.mem_cons_self)]
      exact ih (fun a ha => h a (List.mem_cons_of_mem _ ha)) st

theorem mark_isAccess {va : VarAccess} (h : va.type.isAccess = true) : mark va = none := by
  rw [mark]
  cases ht : va.type <;> simp_all [VarAccessType.isAccess]

theorem Walking.branchState (hsafe : BranchesSafe program roots)
    (h : Walking program roots func globals (w :: rest) s)
    (hpost : ∀ callee globals', nestedWalk program true w.node w.parent s = some (callee, globals') →
      NoIf globals'.ancestryStack → NoIf (processFuncInfo program true callee globals').2.ancestryStack) :
    BranchState w (visitorWalkFunc program true (processFuncInfo program true) w.node w.parent s) := by
  obtain ⟨hstack, -⟩ := h.enter hsafe
  have hcall : kindOf w.node = .callExpr → isIf w.node = false := by
    intro hkind
    simp [isIf, isOfKind, hkind]
  by_cases hsilent : SilentWalk program true w s
  · obtain ⟨hlast, hkept | ⟨hkind, hpushed⟩⟩ := visitorWalkFunc_stack hsilent.kept
    · exact .visited hlast (hkept ▸ hstack)
    · exact .called (hcall hkind) hlast hpushed hstack
  · have hpath : NoIf w.path := by
      by_contra hpath
      exact hsilent (hsafe.calls func globals h.walk _ h.mem_own hpath)
    simp only [SilentWalk, not_forall] at hsilent
    obtain ⟨callee, globals', hnested, -⟩ := hsilent
    obtain ⟨hkind, hpushed⟩ :=
      @visitorWalkFunc_walked program true w.node w.parent s (processFuncInfo program true) _ _ hnested
    refine .walked (hcall hkind) hpushed (hpost _ _ hnested ?_) hpath
    rw [nestedWalk_stack hnested]
    exact hstack.noIf hpath

/-- Behind its markers a callback opens and closes nothing. -/
theorem Walking.after (hsafe : BranchesSafe program roots)
    (h : Walking program roots func globals (w :: rest) s) {vas : List VarAccess} {new : List FuncInfo}
    (hadds : Adds program true w.node w.parent s vas new
      (visitorWalkFunc program true (processFuncInfo program true) w.node w.parent s))
    (hvas : ∀ va ∈ vas, mark va = none) (hnew : ∀ callee ∈ new, callee.all closesBranches = true)
    (hstate : BranchState w (visitorWalkFunc program true (processFuncInfo program true) w.node w.parent s)) :
    Walking program roots func globals rest
      (visitorWalkFunc program true (processFuncInfo program true) w.node w.parent s) := by
  obtain ⟨-, hrun⟩ := h.enter hsafe
  obtain ⟨own, hown⟩ := h.own
  obtain ⟨done, hvisits, -⟩ := h.visits
  constructor
  · exact h.walk
  · refine ⟨own ++ [(w, s)], ?_⟩
    rw [hown, stepsFrom, visitStep, List.append_assoc]
    rfl
  · exact h.outside
  · refine ⟨done ++ [w], by rw [hvisits, List.append_assoc]; rfl, ?_⟩
    rw [List.getLast?_concat]
    refine ⟨hstate, ?_⟩
    rw [hadds.varAccesses, run_append, hrun, Option.bind_some, run_events hvas]
  · rw [hadds.callees]
    exact List.forall_mem_append.mpr ⟨h.callees, hnew⟩

variable (program) in
/-- A walk starts outside all conditionals, unless it visits nothing. -/
structure StartsOutside (roots : List FuncInfo) (func : FuncInfo) (globals : Globals) : Prop where
  walk : IsWalk program true roots func globals
  children : func.children = []
  entries : func.label.varAccesses = []
  stack : NoIf globals.ancestryStack ∨ descendants func.label.cursor = []

/-- A walk that starts outside all conditionals comes out of all it enters. -/
theorem branches_rule (hsafe : BranchesSafe program roots) : WalkRule program true
    (StartsOutside program roots) (Walking program roots)
    (fun _ globals result => (NoIf globals.ancestryStack → NoIf result.2.ancestryStack) ∧
      result.1.all closesBranches = true) where
  start func globals h := by
    refine ⟨h.walk, ⟨[], rfl⟩, h.stack, ⟨[], rfl, rfl, h.entries⟩, ?_⟩
    rw [enterFunc, h.children]
    exact fun _ hc => by cases hc
  nested func globals visit rest s callee globals' hI h := by
    obtain ⟨hstack, -⟩ := hI.enter hsafe
    have houtside : NoIf globals'.ancestryStack ∨ descendants callee.label.cursor = [] := by
      by_cases hpath : NoIf visit.path
      · exact .inl (nestedWalk_stack h ▸ hstack.noIf hpath)
      · exact .inr (hsafe.calls func globals hI.walk _ hI.mem_own hpath callee globals' h)
    have hwalk := hI.walk.nested hI.mem_own h
    obtain ⟨working, -, -, -, rfl, -⟩ := nestedWalk_eq_some.mp h
    exact ⟨hwalk, rfl, rfl, houtside⟩
  step func globals visit rest s hI hpost := by
    have hstate := hI.branchState hsafe fun _ _ hnested => (hpost _ _ hnested).1
    rcases visitorWalkFunc_adds (Q := fun _ callee => callee.all closesBranches = true) (fun _ _ => rfl)
      (fun _ _ hnested => (hpost _ _ hnested).2) with ⟨vas, hvas, hadds⟩ | ⟨working, callee, hcallee, hadds⟩
    · refine hI.after hsafe hadds (fun va hva => ?_) (List.forall_mem_nil _) hstate
      exact mark_isAccess (References.isAccess_of_recorded hvas va hva)
    · exact hI.after hsafe hadds (List.forall_mem_singleton.mpr rfl) (List.forall_mem_singleton.mpr hcallee) hstate
  finish func globals s hI := by
    obtain ⟨done, hvisits, hreached⟩ := hI.visits
    rw [List.append_nil] at hvisits
    have hend : (NoIf globals.ancestryStack → NoIf s.ancestryStack) ∧
        run mark [] s.currentFunc.varAccesses = some [] := by
      cases hlast : done.getLast? with
      | none =>
          rw [hlast] at hreached
          exact ⟨fun hstack => hreached.1 ▸ hstack, by rw [hreached.2]; rfl⟩
      | some v =>
          rw [hlast] at hreached
          obtain ⟨hstate, hrun⟩ := hreached
          have hv : v ∈ (descendants func.label.cursor).getLast? := by rw [hvisits]; exact hlast
          have hpath := hsafe.ends func globals hI.walk v hv
          have hnode : isIf v.node = false := by
            rw [← Bool.not_eq_true]
            intro hif
            have hshape := (hsafe.shape func globals hI.walk).2 v (List.mem_of_getLast? hv) hif
            have hlength := hshape.length
            rw [(descendants_next func.label.cursor).2 v hv] at hlength
            simp at hlength
          refine ⟨fun _ => hstate.noIf hnode hpath, ?_⟩
          rw [hrun, openPhases, if_neg (by simp [hnode]), phasesAbove_noIf hpath]
    refine ⟨hend.1, ?_⟩
    rw [RoseTree.all_iff]
    exact ⟨by simpa [closesBranches, WalkState.func] using hend.2, hI.callees⟩

end Walk

end Prongc.OpenBranches
