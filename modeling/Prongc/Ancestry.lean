import Prongc.Library.VisitOrder
import Prongc.Recursion
import Prongc.RootIsolation

namespace Prongc.Ancestry

open Access Ast WalkFunc WalkAst Callbacks Recursion RootIsolation Library.Traversal Library.VisitOrder

section Walks

variable (program : Program) (trackLocking : Bool)

/-- The walks of a run: those of the roots, each from the state that the roots before it leave, and
those that callbacks of other walks start. -/
inductive IsWalk (roots : List FuncInfo) : FuncInfo → Globals → Prop
  | root {before after : List FuncInfo} {func : FuncInfo} (h : roots = before ++ func :: after) :
      IsWalk roots func (processFuncs program trackLocking before initGlobals).2
  | nested {func callee : FuncInfo} {globals globals' : Globals} {visit : Visit CursorInfo} {s : WalkState}
      (walk : IsWalk roots func globals)
      (own : (visit, s) ∈ ownCallbacks program trackLocking (processFuncInfo program trackLocking) func globals)
      (h : nestedWalk program trackLocking visit.node visit.parent s = some (callee, globals')) :
      IsWalk roots callee globals'

/-- The stack that a callback works with holds the ancestors of its cursor below the function, up to
repetitions. -/
def OnStack (cb : Callback) : Prop :=
  Repeats (stackAt program cb.visit.parent cb.before) cb.visit.path.dropLast

def AncestryKept (roots : List FuncInfo) : Prop :=
  ∀ cb ∈ runCallbacks program trackLocking roots initGlobals, OnStack program cb

/-- Neither the cursor visited last nor one on the stack is taken for the function. -/
structure StartsApart (func : FuncInfo) (globals : Globals) : Prop where
  last : descends program func.label.cursor globals.lastVisited = false
  stack : ∀ c ∈ globals.ancestryStack, cursorsAreEqual (some c) (some func.label.cursor) = false

/-- Neither the cursor visited last nor one on the stack is taken for the parent unless it is the
parent. -/
def ParentRecognised (visit : Visit CursorInfo) (s : WalkState) : Prop :=
  ∀ c ∈ s.lastVisited.toList ++ s.ancestryStack, cursorsAreEqual (some c) (some visit.parent) = true →
    c = visit.parent

/-- A walk that the callback starts visits nothing, as for a call through a parameter that declares nothing. -/
def SilentWalk (visit : Visit CursorInfo) (s : WalkState) : Prop :=
  ∀ callee globals, nestedWalk program trackLocking visit.node visit.parent s = some (callee, globals) →
    descendants callee.label.cursor = []

/-- In every walk of the run cursors are told apart, and nothing is visited behind a call whose callee
was visited. -/
structure WalksUndisturbed (roots : List FuncInfo) : Prop where
  starts : ∀ func globals, IsWalk program trackLocking roots func globals → descendants func.label.cursor ≠ [] →
    StartsApart program func globals
  recognised : ∀ func globals, IsWalk program trackLocking roots func globals → ∀ x ∈
    ownCallbacks program trackLocking (processFuncInfo program trackLocking) func globals,
      ParentRecognised x.1 x.2
  calls : ∀ func globals, IsWalk program trackLocking roots func globals → ∀ before x after,
    ownCallbacks program trackLocking (processFuncInfo program trackLocking) func globals =
      before ++ x :: after → after ≠ [] → SilentWalk program trackLocking x.1 x.2

variable {program trackLocking}

theorem isWalk_rule (roots : List FuncInfo) : WalkRule program trackLocking
    (IsWalk program trackLocking roots)
    (fun func globals rest s => IsWalk program trackLocking roots func globals ∧ ∃ done,
      ownCallbacks program trackLocking (processFuncInfo program trackLocking) func globals =
        done ++ stepsFrom (visitStep (visitorWalkFunc program trackLocking
          (processFuncInfo program trackLocking))) s rest)
    (fun _ _ _ => True) where
  start func globals h := ⟨h, [], rfl⟩
  nested func globals visit rest s callee globals' hI h := by
    obtain ⟨hwalk, done, hown⟩ := hI
    refine .nested hwalk ?_ h
    rw [hown]
    exact List.mem_append_right _ List.mem_cons_self
  step func globals visit rest s hI _ := by
    obtain ⟨hwalk, done, hown⟩ := hI
    exact ⟨hwalk, done ++ [(visit, s)], by rw [hown, stepsFrom, List.append_assoc]; rfl⟩
  finish _ _ _ _ := trivial

theorem isWalk_of_callback {roots : List FuncInfo} {cb : Callback}
    (h : cb ∈ runCallbacks program trackLocking roots initGlobals) :
    ∃ func globals, IsWalk program trackLocking roots func globals ∧ (cb.visit, cb.before) ∈
      ownCallbacks program trackLocking (processFuncInfo program trackLocking) func globals := by
  obtain ⟨before, func, after, hroots, hcb⟩ := mem_runCallbacks h
  refine (isWalk_rule roots).callbacks (J := fun cb => ∃ func globals,
    IsWalk program trackLocking roots func globals ∧ (cb.visit, cb.before) ∈
      ownCallbacks program trackLocking (processFuncInfo program trackLocking) func globals)
    ?_ func _ (.root hroots) cb hcb
  rintro func globals visit rest s ⟨hwalk, done, hown⟩
  refine ⟨func, globals, hwalk, ?_⟩
  rw [hown]
  exact List.mem_append_right _ List.mem_cons_self

end Walks

section Step

variable {program : Program} {trackLocking : Bool}

theorem cursorsAreEqual_self (c : Cursor) : cursorsAreEqual (some c) (some c) = true := by
  simp [cursorsAreEqual, clangEqualCursors]

theorem cursorsAreEqual_comm (a b : Option Cursor) : cursorsAreEqual a b = cursorsAreEqual b a := by
  cases a with
  | none => cases b <;> rfl
  | some a =>
      cases b with
      | none => rfl
      | some b => simp [cursorsAreEqual, clangEqualCursors, Bool.beq_comm]

structure Follows (v : Visit CursorInfo) (s : WalkState) : Prop where
  last : s.lastVisited = some v.node
  stack : Repeats s.ancestryStack v.path.dropLast ∨ Repeats s.ancestryStack (v.node :: v.path.dropLast)

theorem silentWalk_of_none {v : Visit CursorInfo} {s : WalkState}
    (h : nestedWalk program trackLocking v.node v.parent s = none) : SilentWalk program trackLocking v s := by
  intro callee globals hnested
  rw [h] at hnested
  cases hnested

theorem SilentWalk.kept {v : Visit CursorInfo} {s : WalkState} (h : SilentWalk program trackLocking v s) :
    ∀ callee globals, nestedWalk program trackLocking v.node v.parent s = some (callee, globals) →
      (processFuncInfo program trackLocking callee globals).2 = globals := by
  intro callee globals hnested
  rw [processFuncInfo_eq, walkFunc_eq, h callee globals hnested]
  rfl

theorem follows_of_onStack {v : Visit CursorInfo} {s : WalkState} (h : OnStack program ⟨v, s⟩)
    (hsilent : SilentWalk program trackLocking v s) :
    Follows v (visitorWalkFunc program trackLocking (processFuncInfo program trackLocking) v.node v.parent s) := by
  obtain ⟨hlast, hkept | ⟨-, hpushed⟩⟩ := visitorWalkFunc_stack hsilent.kept
  · exact ⟨hlast, .inl (hkept ▸ h)⟩
  · exact ⟨hlast, .inr (hpushed ▸ Repeats.next h)⟩

theorem Follows.descends {v : Visit CursorInfo} {s : WalkState} (h : Follows v s) :
    descends program v.node s.lastVisited = true := by
  rw [h.last]
  exact cursorsAreEqual_self v.node

section Leaving

variable {v w : Visit CursorInfo} {s : WalkState} {left : List Cursor}

theorem left_ne_parent (hup : (v.node :: v.path).IsChain ChildOf) (hpath : v.path = left ++ w.path) :
    ∀ c ∈ v.node :: left, c ≠ w.parent := by
  intro c hc
  refine ne_above ?_ hc (show w.parent ∈ w.path from List.mem_cons_self)
  rw [List.cons_append, ← hpath]
  exact hup

theorem not_descends (hup : (v.node :: v.path).IsChain ChildOf) (hpath : v.path = left ++ w.path)
    (hvisited : s.lastVisited = some v.node) (hrecognised : ParentRecognised w s) :
    ¬ descends program w.parent s.lastVisited = true := by
  intro h
  rw [hvisited, descends, cursorsAreEqual_comm] at h
  exact left_ne_parent hup hpath _ List.mem_cons_self (hrecognised _ (by simp [hvisited]) h)

end Leaving

/-- Whatever the next cursor is, the stack is brought to its ancestors. -/
theorem onStack_next {v w : Visit CursorInfo} {s : WalkState} (hup : (v.node :: v.path).IsChain ChildOf)
    (hnext : Next v w) (hfollows : Follows v s) (hrecognised : ParentRecognised w s) :
    OnStack program ⟨w, s⟩ := by
  rw [OnStack, stackAt]
  cases hnext with
  | @down c cs hchildren =>
      dsimp only
      rw [if_pos hfollows.descends]
      rcases hfollows.stack with hstack | hstack
      · exact .next hstack
      · exact .again hstack
  | @across _ left before after hleaf hpath hlast hsiblings =>
      have hother := left_ne_parent hup hpath
      have hdescends := @not_descends program v w s left hup hpath hfollows.last hrecognised
      have hcut : v.path.dropLast = left ++ w.path.dropLast := by
        rw [hpath, List.dropLast_append_of_ne_nil (show w.path ≠ [] from List.cons_ne_nil _ _)]
      have hskip : ∃ skip, (∀ c ∈ skip, c ≠ w.parent) ∧ Repeats s.ancestryStack (skip ++ w.path.dropLast) := by
        rcases hfollows.stack with hstack | hstack
        · exact ⟨left, fun c hc => hother c (List.mem_cons_of_mem _ hc), hcut ▸ hstack⟩
        · exact ⟨v.node :: left, hother, by rwa [List.cons_append, ← hcut]⟩
      dsimp only
      rw [if_neg hdescends]
      obtain ⟨skip, hskip, hstack⟩ := hskip
      have hpop : ∀ c ∈ skip, (!cursorsAreEqual (some c) (some w.parent)) = true := by
        intro c hc
        rw [Bool.not_eq_true', ← Bool.not_eq_true]
        intro h
        refine hskip c hc (hrecognised c (List.mem_append_right _ ?_) h)
        exact (hstack.mem_iff c).mpr (List.mem_append_left _ hc)
      have hcut : w.path.dropLast = [] ∨ ∃ above, w.path.dropLast = w.parent :: above := by
        cases habove : w.above with
        | nil => exact .inl (by simp [Visit.path, habove])
        | cons a above => exact .inr ⟨(a :: above).dropLast, by simp [Visit.path, habove]⟩
      rcases hcut with hcut | ⟨above, hcut⟩
      · rw [hcut, List.append_nil] at hstack
        rw [hcut, List.dropWhile_eq_nil_iff.mpr fun c hc => hpop c ((hstack.mem_iff c).mp hc)]
        exact .nil
      · rw [hcut] at hstack ⊢
        exact hstack.dropWhile hpop (by simp [cursorsAreEqual_self])

theorem stackAt_startsApart {func : FuncInfo} {globals : Globals} (h : StartsApart program func globals) :
    stackAt program func.label.cursor (enterFunc func globals) = [] := by
  have hlast : ¬ descends program func.label.cursor (enterFunc func globals).lastVisited = true := by
    rw [enterFunc, h.last]
    exact Bool.noConfusion
  rw [stackAt, if_neg hlast, List.dropWhile_eq_nil_iff]
  intro c hc
  rw [h.stack c hc]
  rfl

section Rule

variable {J K : Visit CursorInfo → WalkState → Prop}

theorem undisturbed_steps {process : FuncInfo → Globals → FuncInfo × Globals}
    (hnext : ∀ v w s, (v.node :: v.path).IsChain ChildOf → Next v w → K v s → ParentRecognised w s → J w s)
    (hstep : ∀ v s, J v s → SilentWalk program trackLocking v s →
      K v (visitorWalkFunc program trackLocking process v.node v.parent s))
    {v : Visit CursorInfo} {rest : List (Visit CursorInfo)} {s : WalkState} (hvisits : (v :: rest).IsChain Next)
    (hup : ∀ u ∈ v :: rest, (u.node :: u.path).IsChain ChildOf) (hv : K v s)
    (hrecognised : ∀ x ∈ stepsFrom (visitStep (visitorWalkFunc program trackLocking process)) s rest,
      ParentRecognised x.1 x.2)
    (hcalls : ∀ before x after,
      stepsFrom (visitStep (visitorWalkFunc program trackLocking process)) s rest = before ++ x :: after →
        after ≠ [] → SilentWalk program trackLocking x.1 x.2) :
    ∀ x ∈ stepsFrom (visitStep (visitorWalkFunc program trackLocking process)) s rest, J x.1 x.2 := by
  induction rest generalizing v s with
  | nil => exact fun x hx => by cases hx
  | cons w rest ih =>
      obtain ⟨hvw, hrest⟩ := List.isChain_cons_cons.mp hvisits
      have hw : J w s := hnext v w s (hup v List.mem_cons_self) hvw hv (hrecognised _ List.mem_cons_self)
      intro x hx
      rcases List.mem_cons.mp hx with rfl | hx
      · exact hw
      · have hsilent : SilentWalk program trackLocking w s := hcalls [] (w, s) _ rfl (List.ne_nil_of_mem hx)
        refine ih hrest (fun u hu => hup u (List.mem_cons_of_mem _ hu)) (hstep w s hw hsilent)
          (fun x hx => hrecognised x (List.mem_cons_of_mem _ hx)) ?_ x hx
        intro before x after hsplit hafter
        refine hcalls ((w, s) :: before) x after ?_ hafter
        rw [stepsFrom, List.cons_append, ← hsplit]
        rfl

/-- What holds at the first callback of a walk, and goes from a callback through the state behind it to the
next one, holds at each callback of a run whose walks are undisturbed. -/
theorem undisturbed_rule {roots : List FuncInfo}
    (hstart : ∀ func globals v, StartsApart program func globals → v.parent = func.label.cursor → v.above = [] →
      J v (enterFunc func globals))
    (hnext : ∀ v w s, (v.node :: v.path).IsChain ChildOf → Next v w → K v s → ParentRecognised w s → J w s)
    (hstep : ∀ v s, J v s → SilentWalk program trackLocking v s →
      K v (visitorWalkFunc program trackLocking (processFuncInfo program trackLocking) v.node v.parent s))
    (h : WalksUndisturbed program trackLocking roots) :
    ∀ cb ∈ runCallbacks program trackLocking roots initGlobals, J cb.visit cb.before := by
  intro cb hcb
  obtain ⟨func, globals, hwalk, hown⟩ := isWalk_of_callback hcb
  have hrecognised := h.recognised func globals hwalk
  have hcalls := h.calls func globals hwalk
  have hvisits := (descendants_next func.label.cursor).1
  have hup := fun v => @descendants_upward _ func.label.cursor v
  have hhead := fun v => @descendants_head _ func.label.cursor v
  rw [ownCallbacks] at hown hrecognised hcalls
  cases hdescendants : descendants func.label.cursor with
  | nil =>
      rw [hdescendants] at hown
      cases hown
  | cons v rest =>
      rw [hdescendants] at hown hrecognised hcalls hvisits hup hhead
      obtain ⟨hparent, habove⟩ := hhead v rfl
      have hstarts := h.starts func globals hwalk (by rw [hdescendants]; exact List.cons_ne_nil _ _)
      have hfirst := hstart func globals v hstarts hparent habove
      rcases List.mem_cons.mp hown with heq | hown
      · obtain ⟨hvisit, hbefore⟩ := Prod.mk.inj heq
        rw [hvisit, hbefore]
        exact hfirst
      · have hsilent := hcalls [] (v, enterFunc func globals) _ rfl (List.ne_nil_of_mem hown)
        refine undisturbed_steps hnext hstep hvisits (fun u hu => (hup u hu).1) (hstep v _ hfirst hsilent)
          (fun x hx => hrecognised x (List.mem_cons_of_mem _ hx)) ?_ _ hown
        intro before x after hsplit hafter
        refine hcalls ((v, enterFunc func globals) :: before) x after ?_ hafter
        rw [stepsFrom, List.cons_append, ← hsplit]
        rfl

end Rule

theorem onStack_start {func : FuncInfo} {globals : Globals} {v : Visit CursorInfo}
    (h : StartsApart program func globals) (hparent : v.parent = func.label.cursor) (habove : v.above = []) :
    OnStack program ⟨v, enterFunc func globals⟩ := by
  rw [OnStack, hparent, stackAt_startsApart h, Visit.path, habove]
  exact .nil

end Step

/-- In every run whose walks are undisturbed, the stack holds the ancestors at each callback. -/
theorem ancestry_kept {program : Program} {trackLocking : Bool} {roots : List FuncInfo}
    (h : WalksUndisturbed program trackLocking roots) : AncestryKept program trackLocking roots := by
  refine undisturbed_rule (J := fun v s => OnStack program ⟨v, s⟩) (K := Follows) ?_ ?_ ?_ h
  · exact fun _ _ _ hstart hparent habove => onStack_start hstart hparent habove
  · exact fun _ _ _ hup hnext hfollows hrecognised => onStack_next hup hnext hfollows hrecognised
  · exact fun _ _ hstack hsilent => follows_of_onStack hstack hsilent

theorem isWalk_single {root func : FuncInfo} {globals : Globals}
    (hcalls : ∀ x ∈ ownCallbacks program trackLocking (processFuncInfo program trackLocking) root initGlobals,
      (nestedWalk program trackLocking x.1.node x.1.parent x.2).isNone = true)
    (h : IsWalk program trackLocking [root] func globals) : func = root ∧ globals = initGlobals := by
  induction h with
  | @root before after func h =>
      cases before with
      | nil => exact ⟨(List.cons.inj h).1.symm, rfl⟩
      | cons b before => simp at h
  | nested walk own hnested ih =>
      obtain ⟨rfl, rfl⟩ := ih
      have hnone := hcalls _ own
      rw [hnested] at hnone
      cases hnone

/-- Parents are recognised in a walk if the nodes it knows at each callback can be listed by their
paths. -/
theorem recognised_of_paths {node : List Nat → Cursor} {rows : List (List Nat × List (List Nat))}
    {callbacks : List (Visit CursorInfo × WalkState)}
    (hrows : callbacks.map (fun x => (x.1.parent, x.2.lastVisited.toList ++ x.2.ancestryStack)) =
      rows.map fun row => (node row.1, row.2.map node))
    (hapart : ∀ row ∈ rows, ∀ path ∈ row.2,
      cursorsAreEqual (some (node path)) (some (node row.1)) = true → path = row.1) :
    ∀ x ∈ callbacks, ParentRecognised x.1 x.2 := by
  intro x hx c hc hequal
  have hknown := List.mem_map_of_mem (f := fun x : Visit CursorInfo × WalkState =>
    (x.1.parent, x.2.lastVisited.toList ++ x.2.ancestryStack)) hx
  rw [hrows] at hknown
  obtain ⟨row, hrow, hknown⟩ := List.mem_map.mp hknown
  obtain ⟨hparent, hlist⟩ := Prod.mk.inj hknown
  rw [← hlist] at hc
  rw [← hparent] at hequal ⊢
  obtain ⟨path, hpath, rfl⟩ := List.mem_map.mp hc
  rw [hapart row hrow path hpath hequal]

def helperAt (path : List Nat) : Cursor := (helper.subtreeAt path).getD helper

theorem helper_calls : ∀ x ∈ ownCallbacks helperProgram true (processFuncInfo helperProgram true)
    (requestedFunc helper) initGlobals,
      (nestedWalk helperProgram true x.1.node x.1.parent x.2).isNone = true := by
  decide +kernel

theorem helper_recognised : ∀ x ∈ ownCallbacks helperProgram true (processFuncInfo helperProgram true)
    (requestedFunc helper) initGlobals, ParentRecognised x.1 x.2 :=
  @recognised_of_paths helperAt [([], []), ([0], [[0]]), ([0, 0], [[0, 0], [0]]),
    ([0, 0], [[0, 0, 0], [0, 0], [0]])] _ rfl (by decide)

theorem helper_ancestry_kept : AncestryKept helperProgram true [requestedFunc helper] := by
  refine ancestry_kept ⟨?_, ?_, ?_⟩
  · intro func globals h _
    obtain ⟨rfl, rfl⟩ := isWalk_single helper_calls h
    exact ⟨rfl, fun c hc => by cases hc⟩
  · intro func globals h
    obtain ⟨rfl, rfl⟩ := isWalk_single helper_calls h
    exact helper_recognised
  · intro func globals h before x after hown _
    obtain ⟨rfl, rfl⟩ := isWalk_single helper_calls h
    have hmem := helper_calls x (hown ▸ List.mem_append_right _ List.mem_cons_self)
    exact silentWalk_of_none (Option.isNone_iff_eq_none.mp hmem)

/-- Below the call of h the body of f is not on the stack any more. -/
theorem helperCaller_ancestry_lost :
    ¬ AncestryKept helperProgram true [requestedFunc (helperCaller 10 "f")] := by
  intro h
  have hfound : ∃ cb ∈ runCallbacks helperProgram true [requestedFunc (helperCaller 10 "f")] initGlobals,
      ∃ c ∈ cb.visit.path.dropLast, ∀ d ∈ stackAt helperProgram cb.visit.parent cb.before,
        d.label.id ≠ c.label.id := by
    decide +kernel
  obtain ⟨cb, hcb, c, hc, hother⟩ := hfound
  exact hother c (((h cb hcb).mem_iff c).mpr hc) rfl

end Prongc.Ancestry
