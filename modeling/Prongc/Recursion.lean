import Mathlib.Logic.Function.Iterate
import Prongc.Callbacks

namespace Prongc.Recursion

open Access Ast DeclRef WalkFunc Callbacks Library.Traversal

theorem pushVarAccesses_nil (s : WalkState) : s.pushVarAccesses [] = s := by
  rw [WalkState.pushVarAccesses, List.append_nil]

section Visitor

variable (program : Program) (trackLocking : Bool)
variable (process : FuncInfo → Globals → FuncInfo × Globals) {current parent : Cursor} {s : WalkState}

def expandCallee (current working : Cursor) (entered : WalkState) : WalkState :=
  let touched := touchCallee working entered
  let walked := process (calleeInfo program working) touched.toGlobals
  WalkState.pushCursor
    { walked.2 with currentFunc := touched.currentFunc, callees := touched.callees ++ [walked.1] } current

def addLeafCallee (current working : Cursor) (entered : WalkState) : WalkState :=
  let touched := touchCallee working entered
  WalkState.pushCursor { touched with callees := touched.callees ++ [calleeInfo program working] } current

theorem visitorWalkFunc_cases (current parent : Cursor) (s : WalkState) :
    (kindOf current ≠ .callExpr ∧ ∃ vas,
      vas ⊆ (declRefAccess program (stackAt program parent s) s.currentFunc.spelling current).toList ∧
        visitorWalkFunc program trackLocking process current parent s =
          (enterCursor program trackLocking current parent s).pushVarAccesses vas) ∨
    (kindOf current = .callExpr ∧
      newCallee program current (enterCursor program trackLocking current parent s) = none ∧
        visitorWalkFunc program trackLocking process current parent s =
          (enterCursor program trackLocking current parent s).pushCursor current) ∨
    (∃ working, kindOf current = .callExpr ∧
      newCallee program current (enterCursor program trackLocking current parent s) = some working ∧
        isLeafCallee (calleeInfo program working) = true ∧
          visitorWalkFunc program trackLocking process current parent s =
            addLeafCallee program current working (enterCursor program trackLocking current parent s)) ∨
    (∃ working, kindOf current = .callExpr ∧
      newCallee program current (enterCursor program trackLocking current parent s) = some working ∧
        isLeafCallee (calleeInfo program working) = false ∧
          visitorWalkFunc program trackLocking process current parent s =
            expandCallee program process current working
              (enterCursor program trackLocking current parent s)) := by
  by_cases hkind : kindOf current = .callExpr
  · have hvisit : visitorWalkFunc program trackLocking process current parent s =
        visitCallExpr program process current (enterCursor program trackLocking current parent s) := by
      simp only [visitorWalkFunc, hkind]
    rw [hvisit, visitCallExpr]
    refine .inr ?_
    cases hnew : newCallee program current (enterCursor program trackLocking current parent s) with
    | none => exact .inl ⟨hkind, rfl, rfl⟩
    | some working =>
        refine .inr ?_
        cases hleaf : isLeafCallee (calleeInfo program working) with
        | true => exact .inl ⟨working, hkind, rfl, hleaf, by simp [processCallee, addLeafCallee, hleaf]⟩
        | false => exact .inr ⟨working, hkind, rfl, hleaf, by simp [processCallee, expandCallee, hleaf]⟩
  · refine .inl ⟨hkind, ?_⟩
    rw [visitorWalkFunc]
    split
    · exact ⟨_, by simp, rfl⟩
    · next h => exact absurd h hkind
    · exact ⟨[], List.nil_subset _, (pushVarAccesses_nil _).symm⟩

variable {program trackLocking}

theorem nestedWalk_eq_some {callee : FuncInfo} {globals : Globals} :
    nestedWalk program trackLocking current parent s = some (callee, globals) ↔
      ∃ working, kindOf current = .callExpr ∧
        newCallee program current (enterCursor program trackLocking current parent s) = some working ∧
          isLeafCallee (calleeInfo program working) = false ∧ callee = calleeInfo program working ∧
            globals = (touchCallee working (enterCursor program trackLocking current parent s)).toGlobals := by
  rw [nestedWalk]
  split
  next hkind =>
    rw [Option.bind_eq_some_iff]
    constructor
    · rintro ⟨working, hnew, hsome⟩
      split at hsome
      next => cases hsome
      next hleaf =>
        obtain ⟨rfl, rfl⟩ := Prod.mk.inj (Option.some.inj hsome)
        exact ⟨working, hkind, hnew, by simpa using hleaf, rfl, rfl⟩
    · rintro ⟨working, -, hnew, hleaf, rfl, rfl⟩
      exact ⟨working, hnew, if_neg (by simp [hleaf])⟩
  next hkind =>
    constructor
    · intro h
      cases h
    · rintro ⟨_, h, _⟩
      exact absurd h hkind

theorem nestedWalk_none_of_leaf {working : Cursor}
    (hnew : newCallee program current (enterCursor program trackLocking current parent s) = some working)
    (hleaf : isLeafCallee (calleeInfo program working) = true) :
    nestedWalk program trackLocking current parent s = none := by
  rw [Option.eq_none_iff_forall_ne_some]
  rintro ⟨callee, globals⟩ hsome
  obtain ⟨working', -, hnew', hleaf', -⟩ := nestedWalk_eq_some.mp hsome
  obtain rfl := Option.some.inj (hnew.symm.trans hnew')
  rw [hleaf] at hleaf'
  cases hleaf'

theorem nestedWalk_none_of_skipped
    (hnew : newCallee program current (enterCursor program trackLocking current parent s) = none) :
    nestedWalk program trackLocking current parent s = none := by
  rw [Option.eq_none_iff_forall_ne_some]
  rintro ⟨callee, globals⟩ hsome
  obtain ⟨working', -, hnew', -⟩ := nestedWalk_eq_some.mp hsome
  rw [hnew] at hnew'
  cases hnew'

theorem visitorWalkFunc_congr {process process' : FuncInfo → Globals → FuncInfo × Globals}
    (h : ∀ callee globals, nestedWalk program trackLocking current parent s = some (callee, globals) →
      process callee globals = process' callee globals) :
    visitorWalkFunc program trackLocking process current parent s =
      visitorWalkFunc program trackLocking process' current parent s := by
  unfold visitorWalkFunc
  dsimp only
  split
  · rfl
  · next hkind =>
      unfold visitCallExpr
      split
      · rfl
      · next working hnew =>
          unfold processCallee
          dsimp only
          split
          · rfl
          · next hleaf =>
              rw [h _ _ (nestedWalk_eq_some.mpr ⟨working, hkind, hnew, by simpa using hleaf, rfl, rfl⟩)]
  · rfl

end Visitor

section Growth

variable {program : Program} {trackLocking : Bool} {current parent : Cursor} {s : WalkState}

variable (program trackLocking current parent) in
structure Adds (s : WalkState) (vas : List VarAccess) (new : List FuncInfo) (s' : WalkState) : Prop where
  varAccesses : s'.currentFunc.varAccesses =
    s.currentFunc.varAccesses ++ markersAt program trackLocking current parent s ++ vas
  callees : s'.callees = s.callees ++ new
  usr : s'.currentFunc.usr = s.currentFunc.usr
  cursor : s'.currentFunc.cursor = s.currentFunc.cursor
  isLeaf : isLeafCallee s'.func = isLeafCallee s.func

theorem adds_entered {vas : List VarAccess} {new : List FuncInfo} {s' : WalkState}
    (hfunc : s'.currentFunc = ((enterCursor program trackLocking current parent s).pushVarAccesses vas).currentFunc)
    (hcallees : s'.callees = s.callees ++ new) : Adds program trackLocking current parent s vas new s' where
  varAccesses := by rw [hfunc, pushVarAccesses_varAccesses, enterCursor_varAccesses]
  callees := hcallees
  usr := by
    rw [hfunc]
    exact enterCursor_usr program trackLocking current parent s
  cursor := by rw [hfunc, pushVarAccesses_cursor, enterCursor_cursor]
  isLeaf := by
    rw [WalkState.func, hfunc]
    exact enterCursor_isLeaf program trackLocking current parent s s.callees

/-- A callback adds a reference at most, or it adds a callee together with its Call entry. -/
theorem visitorWalkFunc_adds {process : FuncInfo → Globals → FuncInfo × Globals} {Q : Cursor → FuncInfo → Prop}
    (hleaf : ∀ working, isLeafCallee (calleeInfo program working) = true → Q working (calleeInfo program working))
    (hwalked : ∀ working globals, nestedWalk program trackLocking current parent s =
      some (calleeInfo program working, globals) → Q working (process (calleeInfo program working) globals).1) :
    (∃ vas, vas ⊆ (declRefAccess program (stackAt program parent s) s.currentFunc.spelling current).toList ∧
      Adds program trackLocking current parent s vas []
        (visitorWalkFunc program trackLocking process current parent s)) ∨
    ∃ working callee, Q working callee ∧ Adds program trackLocking current parent s
      [callEntry working (enterCursor program trackLocking current parent s)] [callee]
        (visitorWalkFunc program trackLocking process current parent s) := by
  rcases visitorWalkFunc_cases program trackLocking process current parent s with
    ⟨-, vas, hvas, h⟩ | ⟨-, -, h⟩ | ⟨working, -, -, hdefined, h⟩ | ⟨working, hkind, hnew, hdefined, h⟩
  · refine .inl ⟨vas, hvas, adds_entered (congrArg WalkState.currentFunc h) ?_⟩
    rw [h, pushVarAccesses_callees, enterCursor_callees, List.append_nil]
  · refine .inl ⟨[], List.nil_subset _, adds_entered ?_ ?_⟩
    · rw [h, pushVarAccesses_nil, pushCursor_currentFunc]
    · rw [h, pushCursor_callees, enterCursor_callees, List.append_nil]
  · refine .inr ⟨working, _, hleaf working hdefined, adds_entered ?_ ?_⟩
    · rw [h]
      rfl
    · rw [h, addLeafCallee, pushCursor_callees, touchCallee, pushVarAccesses_callees, enterCursor_callees]
  · have hnested := nestedWalk_eq_some.mpr ⟨working, hkind, hnew, hdefined, rfl, rfl⟩
    refine .inr ⟨working, _, hwalked working _ hnested, adds_entered ?_ ?_⟩
    · rw [h]
      rfl
    · rw [h, expandCallee, pushCursor_callees, touchCallee, pushVarAccesses_callees, enterCursor_callees]

/-- Where no walk changes the state, the stack is that of the callback, with a call expression on top. -/
theorem visitorWalkFunc_stack {process : FuncInfo → Globals → FuncInfo × Globals}
    (hkept : ∀ callee globals, nestedWalk program trackLocking current parent s = some (callee, globals) →
      (process callee globals).2 = globals) :
    (visitorWalkFunc program trackLocking process current parent s).lastVisited = some current ∧
      ((visitorWalkFunc program trackLocking process current parent s).ancestryStack = stackAt program parent s ∨
        kindOf current = .callExpr ∧ (visitorWalkFunc program trackLocking process current parent s).ancestryStack =
          current :: stackAt program parent s) := by
  rcases visitorWalkFunc_cases program trackLocking process current parent s with
    ⟨-, vas, -, h⟩ | ⟨hkind, -, h⟩ | ⟨working, hkind, -, -, h⟩ | ⟨working, hkind, hnew, hleaf, h⟩
  · rw [h]
    exact ⟨by simp, .inl (by simp)⟩
  · rw [h]
    exact ⟨by simp, .inr ⟨hkind, by simp⟩⟩
  · rw [h]
    exact ⟨by simp [addLeafCallee, touchCallee], .inr ⟨hkind, by simp [addLeafCallee, touchCallee]⟩⟩
  · rw [h, expandCallee]
    dsimp only
    rw [hkept _ _ (nestedWalk_eq_some.mpr ⟨working, hkind, hnew, hleaf, rfl, rfl⟩)]
    exact ⟨by simp [touchCallee], .inr ⟨hkind, by simp [touchCallee]⟩⟩

theorem nestedWalk_stack {callee : FuncInfo} {globals : Globals}
    (hsome : nestedWalk program trackLocking current parent s = some (callee, globals)) :
    globals.ancestryStack = stackAt program parent s := by
  obtain ⟨working, -, -, -, -, rfl⟩ := nestedWalk_eq_some.mp hsome
  simp [touchCallee]

theorem visitorWalkFunc_walked {process : FuncInfo → Globals → FuncInfo × Globals} {callee : FuncInfo}
    {globals : Globals} (hsome : nestedWalk program trackLocking current parent s = some (callee, globals)) :
    kindOf current = .callExpr ∧ (visitorWalkFunc program trackLocking process current parent s).ancestryStack =
      current :: (process callee globals).2.ancestryStack := by
  obtain ⟨working, hkind, hnew, hleaf, rfl, rfl⟩ := nestedWalk_eq_some.mp hsome
  refine ⟨hkind, ?_⟩
  simp only [visitorWalkFunc, hkind, visitCallExpr, hnew, processCallee, hleaf]
  rfl

end Growth

section Measure

variable {program : Program} {trackLocking : Bool}

variable (program) in
def untouched (usrs : List String) : Nat := program.decls.countP fun decl => !usrs.contains decl.label.usr

theorem findCallexprDefinition_usr {calleeDecl working : Cursor}
    (h : findCallexprDefinition program calleeDecl = some working) :
    working.label.usr = calleeDecl.label.usr := by
  rw [findCallexprDefinition] at h
  refine List.foldlRecOn (motive := fun found : Option Cursor => ∀ c, found = some c →
    c.label.usr = calleeDecl.label.usr) _ _ (fun c hc => by cases hc) ?_ working h
  intro found ih tu _ c hc
  split at hc
  next d hd =>
    obtain rfl := Option.some.inj hc
    have hdef := List.find?_some hd
    simp only [isCallDefinition, Bool.and_eq_true, beq_iff_eq] at hdef
    exact hdef.2.symm
  next => exact ih c hc

theorem workingCursor_declared {callExpr working : Cursor}
    (h : workingCursor program callExpr = some working) :
    ∃ decl ∈ program.decls, decl.label.usr = working.label.usr := by
  obtain ⟨decl, hdecl, hworking⟩ := Option.map_eq_some_iff.mp h
  obtain ⟨id, -, hfind⟩ := Option.bind_eq_some_iff.mp hdecl
  refine ⟨decl, List.mem_of_find?_eq_some hfind, ?_⟩
  rw [← hworking]
  split
  next => rfl
  next =>
    cases hfound : findCallexprDefinition program decl with
    | none => rfl
    | some found => exact (findCallexprDefinition_usr hfound).symm

theorem untouched_mono {usrs usrs' : List String} (h : usrs ⊆ usrs') :
    untouched program usrs' ≤ untouched program usrs := by
  apply List.countP_mono_left
  intro decl _ hdecl
  simp only [Bool.not_eq_true', List.contains_eq_mem, decide_eq_false_iff_not] at hdecl ⊢
  exact fun hmem => hdecl (h hmem)

theorem untouched_touch {usrs : List String} {usr : String}
    (hdecl : ∃ decl ∈ program.decls, decl.label.usr = usr) (hnew : usr ∉ usrs) :
    untouched program (usrs ++ [usr]) < untouched program usrs := by
  obtain ⟨decl, hmem, rfl⟩ := hdecl
  obtain ⟨before, after, hsplit⟩ := List.append_of_mem hmem
  have hmono : ∀ l : List Cursor, l.countP (fun d => !(usrs ++ [decl.label.usr]).contains d.label.usr) ≤
      l.countP (fun d => !usrs.contains d.label.usr) := by
    intro l
    apply List.countP_mono_left
    intro d _ hd
    simp only [List.contains_append, Bool.not_or, Bool.and_eq_true] at hd
    exact hd.1
  have hbefore := hmono before
  have hafter := hmono after
  unfold untouched
  rw [hsplit, List.countP_append, List.countP_append, List.countP_cons, List.countP_cons]
  simp [hnew] at hbefore hafter ⊢
  omega

theorem nestedWalk_touched {current parent : Cursor} {s : WalkState} {callee : FuncInfo}
    {globals : Globals} (h : nestedWalk program trackLocking current parent s = some (callee, globals)) :
    globals.touchedFuncUsrs = s.touchedFuncUsrs ++ [callee.label.usr] ∧
      callee.label.usr ∉ s.touchedFuncUsrs ∧
        ∃ decl ∈ program.decls, decl.label.usr = callee.label.usr := by
  obtain ⟨working, -, hnew, -, rfl, rfl⟩ := nestedWalk_eq_some.mp h
  obtain ⟨hworking, hfresh⟩ := Option.filter_eq_some_iff.mp hnew
  refine ⟨by simp [touchCallee, calleeInfo, initFuncInfo], ?_, workingCursor_declared hworking⟩
  simpa [calleeInfo, initFuncInfo] using hfresh

theorem nestedWalk_untouched {current parent : Cursor} {s : WalkState} {callee : FuncInfo}
    {globals : Globals} (h : nestedWalk program trackLocking current parent s = some (callee, globals)) :
    untouched program globals.touchedFuncUsrs < untouched program s.touchedFuncUsrs := by
  obtain ⟨htouched, hfresh, hdecl⟩ := nestedWalk_touched h
  rw [htouched]
  exact untouched_touch hdecl hfresh

theorem visitorWalkFunc_touched_subset {process : FuncInfo → Globals → FuncInfo × Globals}
    {current parent : Cursor} {s : WalkState}
    (hprocess : ∀ callee globals, nestedWalk program trackLocking current parent s = some (callee, globals) →
      globals.touchedFuncUsrs ⊆ (process callee globals).2.touchedFuncUsrs) :
    s.touchedFuncUsrs ⊆
      (visitorWalkFunc program trackLocking process current parent s).touchedFuncUsrs := by
  rcases visitorWalkFunc_cases program trackLocking process current parent s with
    ⟨-, vas, -, h⟩ | ⟨-, -, h⟩ | ⟨working, -, -, -, h⟩ | ⟨working, hkind, hnew, hleaf, h⟩
  · simp [h]
  · simp [h]
  · simp [h, addLeafCallee, touchCallee]
  · have hsub := hprocess _ _ (nestedWalk_eq_some.mpr ⟨working, hkind, hnew, hleaf, rfl, rfl⟩)
    rw [h]
    refine List.Subset.trans ?_ hsub
    simp [touchCallee]

theorem foldl_visitorWalkFunc_congr {process process' : FuncInfo → Globals → FuncInfo × Globals} {n : Nat}
    (hprocess : ∀ callee globals, untouched program globals.touchedFuncUsrs < n →
      process callee globals = process' callee globals ∧
        globals.touchedFuncUsrs ⊆ (process callee globals).2.touchedFuncUsrs)
    (visits : List (Visit CursorInfo)) {s : WalkState} (hs : untouched program s.touchedFuncUsrs ≤ n) :
    visits.foldl (visitStep (visitorWalkFunc program trackLocking process)) s =
      visits.foldl (visitStep (visitorWalkFunc program trackLocking process')) s ∧
    s.touchedFuncUsrs ⊆
      (visits.foldl (visitStep (visitorWalkFunc program trackLocking process)) s).touchedFuncUsrs := by
  induction visits generalizing s with
  | nil => exact ⟨rfl, List.Subset.refl _⟩
  | cons visit visits ih =>
      have hnested : ∀ callee globals,
          nestedWalk program trackLocking visit.node visit.parent s = some (callee, globals) →
            process callee globals = process' callee globals ∧
              globals.touchedFuncUsrs ⊆ (process callee globals).2.touchedFuncUsrs :=
        fun callee globals h => hprocess callee globals (Nat.lt_of_lt_of_le (nestedWalk_untouched h) hs)
      have hgrow := visitorWalkFunc_touched_subset fun callee globals h => (hnested callee globals h).2
      obtain ⟨heq, hsub⟩ := ih (Nat.le_trans (untouched_mono hgrow) hs)
      rw [List.foldl_cons, List.foldl_cons, visitStep, visitStep,
        ← visitorWalkFunc_congr fun callee globals h => (hnested callee globals h).1]
      exact ⟨heq, List.Subset.trans hgrow hsub⟩

theorem walkFunc_congr {process process' : FuncInfo → Globals → FuncInfo × Globals} {n : Nat}
    (hprocess : ∀ callee globals, untouched program globals.touchedFuncUsrs < n →
      process callee globals = process' callee globals ∧
        globals.touchedFuncUsrs ⊆ (process callee globals).2.touchedFuncUsrs)
    (func : FuncInfo) (globals : Globals) (h : untouched program globals.touchedFuncUsrs ≤ n) :
    walkFunc program trackLocking process func globals = walkFunc program trackLocking process' func globals ∧
      globals.touchedFuncUsrs ⊆ (walkFunc program trackLocking process func globals).2.touchedFuncUsrs := by
  rw [walkFunc_eq, walkFunc_eq]
  obtain ⟨heq, hsub⟩ := @foldl_visitorWalkFunc_congr program trackLocking process process' n hprocess
    (descendants func.label.cursor) (enterFunc func globals) h
  rw [heq] at hsub ⊢
  exact ⟨rfl, hsub⟩

variable (program trackLocking) in
/-- The recursion into callees never goes deeper than there are declarations left, so it does not
matter what stands for the walks beyond that depth. -/
theorem walkFunc_bounded (n : Nat) (beyond beyond' : FuncInfo → Globals → FuncInfo × Globals)
    (func : FuncInfo) (globals : Globals) (h : untouched program globals.touchedFuncUsrs ≤ n) :
    (walkFunc program trackLocking)^[n + 1] beyond func globals =
        (walkFunc program trackLocking)^[n + 1] beyond' func globals ∧
      globals.touchedFuncUsrs ⊆
        ((walkFunc program trackLocking)^[n + 1] beyond func globals).2.touchedFuncUsrs := by
  induction n generalizing func globals with
  | zero => exact walkFunc_congr (fun _ _ hlt => absurd hlt (Nat.not_lt_zero _)) func globals h
  | succ n ih =>
      rw [Function.iterate_succ_apply', Function.iterate_succ_apply' _ (n + 1)]
      exact walkFunc_congr (fun callee globals hlt => ih callee globals (Nat.le_of_lt_succ hlt)) func globals h

theorem processFuncInfoUpTo_eq (depth : Nat) : processFuncInfoUpTo program trackLocking depth =
    (walkFunc program trackLocking)^[depth] fun func globals => (func, globals) := by
  induction depth with
  | zero => rfl
  | succ depth ih =>
      funext func globals
      rw [Function.iterate_succ_apply', ← ih, processFuncInfoUpTo]

theorem processFuncInfoUpTo_stable {depth depth' : Nat} {func : FuncInfo} {globals : Globals}
    (h : untouched program globals.touchedFuncUsrs < depth)
    (h' : untouched program globals.touchedFuncUsrs < depth') :
    processFuncInfoUpTo program trackLocking depth func globals =
      processFuncInfoUpTo program trackLocking depth' func globals := by
  obtain ⟨k, hk⟩ := Nat.exists_eq_add_of_le (Nat.succ_le_of_lt h)
  obtain ⟨k', hk'⟩ := Nat.exists_eq_add_of_le (Nat.succ_le_of_lt h')
  rw [processFuncInfoUpTo_eq, processFuncInfoUpTo_eq, hk, hk', Function.iterate_add_apply _ (_ + 1),
    Function.iterate_add_apply _ (_ + 1)]
  exact (walkFunc_bounded program trackLocking _ _ _ func globals (Nat.le_refl _)).1

theorem untouched_le (usrs : List String) : untouched program usrs ≤ program.decls.length :=
  List.countP_le_length

variable (program trackLocking) in
/-- Whatever stands for the walks that lie deeper than there are declarations, the result is the
same. -/
theorem processFuncInfo_beyond (beyond : FuncInfo → Globals → FuncInfo × Globals) :
    (walkFunc program trackLocking)^[program.decls.length + 1] beyond =
      processFuncInfo program trackLocking := by
  funext func globals
  rw [processFuncInfo, processFuncInfoUpTo_eq]
  exact (walkFunc_bounded program trackLocking _ _ _ func globals (untouched_le _)).1

variable (program trackLocking) in
/-- The recursion equation of the source. -/
theorem processFuncInfo_eq : processFuncInfo program trackLocking =
    walkFunc program trackLocking (processFuncInfo program trackLocking) := by
  calc processFuncInfo program trackLocking
      = (walkFunc program trackLocking)^[program.decls.length + 1]
          (walkFunc program trackLocking (processFuncInfo program trackLocking)) :=
        (processFuncInfo_beyond program trackLocking _).symm
    _ = walkFunc program trackLocking ((walkFunc program trackLocking)^[program.decls.length + 1]
          (processFuncInfo program trackLocking)) := by
        rw [← Function.iterate_succ_apply, Function.iterate_succ_apply']
    _ = walkFunc program trackLocking (processFuncInfo program trackLocking) := by
        rw [processFuncInfo_beyond]

theorem processFuncInfo_touched_subset (func : FuncInfo) (globals : Globals) :
    globals.touchedFuncUsrs ⊆ (processFuncInfo program trackLocking func globals).2.touchedFuncUsrs := by
  rw [processFuncInfo, processFuncInfoUpTo_eq]
  exact (walkFunc_bounded program trackLocking _ _
    (fun func globals => (func, globals)) func globals (untouched_le _)).2

theorem stepsFrom_visitorWalkFunc_congr {process process' : FuncInfo → Globals → FuncInfo × Globals}
    {n : Nat} (hprocess : ∀ callee globals, untouched program globals.touchedFuncUsrs < n →
      process callee globals = process' callee globals ∧
        globals.touchedFuncUsrs ⊆ (process callee globals).2.touchedFuncUsrs)
    (visits : List (Visit CursorInfo)) {s : WalkState} (hs : untouched program s.touchedFuncUsrs ≤ n) :
    stepsFrom (visitStep (visitorWalkFunc program trackLocking process)) s visits =
      stepsFrom (visitStep (visitorWalkFunc program trackLocking process')) s visits ∧
    ∀ x ∈ stepsFrom (visitStep (visitorWalkFunc program trackLocking process)) s visits,
      untouched program x.2.touchedFuncUsrs ≤ n := by
  induction visits generalizing s with
  | nil => exact ⟨rfl, fun x hx => by cases hx⟩
  | cons visit visits ih =>
      have hone := @foldl_visitorWalkFunc_congr program trackLocking process process' n hprocess [visit] s hs
      simp only [List.foldl_cons, List.foldl_nil] at hone
      obtain ⟨heq, hbound⟩ := ih (Nat.le_trans (untouched_mono hone.2) hs)
      refine ⟨?_, ?_⟩
      · rw [stepsFrom, stepsFrom, ← hone.1, heq]
      · intro x hx
        rcases List.mem_cons.mp hx with rfl | hx
        · exact hs
        · exact hbound x hx

theorem processFuncInfoUpTo_agree {depth depth' n : Nat} (h : n ≤ depth) (h' : n ≤ depth') :
    ∀ callee globals, untouched program globals.touchedFuncUsrs < n →
      processFuncInfoUpTo program trackLocking depth callee globals =
          processFuncInfoUpTo program trackLocking depth' callee globals ∧
        globals.touchedFuncUsrs ⊆
          (processFuncInfoUpTo program trackLocking depth callee globals).2.touchedFuncUsrs := by
  intro callee globals hlt
  refine ⟨processFuncInfoUpTo_stable (by omega) (by omega), ?_⟩
  have hfix : processFuncInfoUpTo program trackLocking depth callee globals =
      processFuncInfo program trackLocking callee globals :=
    processFuncInfoUpTo_stable (by omega) (Nat.lt_succ_of_le (untouched_le _))
  rw [hfix]
  exact processFuncInfo_touched_subset callee globals

theorem callbacksUpTo_stable {depth depth' : Nat} {func : FuncInfo} {globals : Globals}
    (h : untouched program globals.touchedFuncUsrs < depth)
    (h' : untouched program globals.touchedFuncUsrs < depth') :
    callbacksUpTo program trackLocking depth func globals =
      callbacksUpTo program trackLocking depth' func globals := by
  induction depth generalizing depth' func globals with
  | zero => exact absurd h (Nat.not_lt_zero _)
  | succ depth ih =>
      cases depth' with
      | zero => exact absurd h' (Nat.not_lt_zero _)
      | succ depth' =>
          obtain ⟨heq, hbound⟩ := stepsFrom_visitorWalkFunc_congr
            (processFuncInfoUpTo_agree (Nat.le_of_lt_succ h) (Nat.le_of_lt_succ h'))
            (descendants func.label.cursor) (Nat.le_refl (untouched program (enterFunc func globals).touchedFuncUsrs))
          rw [callbacksUpTo, callbacksUpTo, ownCallbacks, ownCallbacks, ← heq]
          apply List.flatMap_congr
          intro x hx
          apply congrArg (Callback.mk x.1 x.2 :: ·)
          cases hnested : nestedWalk program trackLocking x.1.node x.1.parent x.2 with
          | none => rfl
          | some walk =>
              have hlt := Nat.lt_of_lt_of_le (nestedWalk_untouched hnested) (hbound x hx)
              exact ih (Nat.lt_of_lt_of_le hlt (Nat.le_of_lt_succ h))
                (Nat.lt_of_lt_of_le hlt (Nat.le_of_lt_succ h'))

variable (program trackLocking) in
/-- All callbacks of a walk: its own ones, and behind each those of the walk that it starts. -/
theorem callbacksOf_eq (func : FuncInfo) (globals : Globals) :
    callbacksOf program trackLocking func globals =
      (ownCallbacks program trackLocking (processFuncInfo program trackLocking) func globals).flatMap
        fun (visit, s) => ⟨visit, s⟩ ::
          match nestedWalk program trackLocking visit.node visit.parent s with
          | none => []
          | some (callee, globals) => callbacksOf program trackLocking callee globals := by
  have hdeep : callbacksOf program trackLocking func globals =
      callbacksUpTo program trackLocking (program.decls.length + 2) func globals :=
    callbacksUpTo_stable (Nat.lt_succ_of_le (untouched_le _))
      (Nat.lt_succ_of_le (Nat.le_succ_of_le (untouched_le _)))
  rw [hdeep, callbacksUpTo]
  rfl

end Measure

section Funcs

variable {program : Program} {trackLocking : Bool}

theorem processFuncs_append (before after : List FuncInfo) (globals : Globals) :
    (processFuncs program trackLocking (before ++ after) globals).1 =
      (processFuncs program trackLocking before globals).1 ++
        (processFuncs program trackLocking after (processFuncs program trackLocking before globals).2).1 := by
  induction before generalizing globals with
  | nil => rfl
  | cons func before ih => exact congrArg (_ :: ·) (ih _)

theorem processFuncs_length (funcs : List FuncInfo) (globals : Globals) :
    (processFuncs program trackLocking funcs globals).1.length = funcs.length := by
  induction funcs generalizing globals with
  | nil => rfl
  | cons func funcs ih => exact congrArg (· + 1) (ih _)

theorem processFuncs_append_globals (before after : List FuncInfo) (globals : Globals) :
    (processFuncs program trackLocking (before ++ after) globals).2 =
      (processFuncs program trackLocking after (processFuncs program trackLocking before globals).2).2 := by
  induction before generalizing globals with
  | nil => rfl
  | cons func before ih => exact ih _

/-- What comes out of the loop is the walk of each root, from the state the roots before it leave. -/
theorem mem_processFuncs {funcs : List FuncInfo} {globals : Globals} {walked : FuncInfo}
    (h : walked ∈ (processFuncs program trackLocking funcs globals).1) :
    ∃ before func after, funcs = before ++ func :: after ∧ walked =
      (processFuncInfo program trackLocking func (processFuncs program trackLocking before globals).2).1 := by
  induction funcs generalizing globals with
  | nil => cases h
  | cons func funcs ih =>
      rcases List.mem_cons.mp h with rfl | h
      · exact ⟨[], func, funcs, rfl, rfl⟩
      · obtain ⟨before, root, after, rfl, rfl⟩ := ih h
        exact ⟨func :: before, root, after, rfl, rfl⟩

theorem mem_runCallbacks {funcs : List FuncInfo} {globals : Globals} {cb : Callback}
    (h : cb ∈ runCallbacks program trackLocking funcs globals) :
    ∃ before func after, funcs = before ++ func :: after ∧ cb ∈
      callbacksOf program trackLocking func (processFuncs program trackLocking before globals).2 := by
  induction funcs generalizing globals with
  | nil => cases h
  | cons func funcs ih =>
      rcases List.mem_append.mp h with h | h
      · exact ⟨[], func, funcs, rfl, h⟩
      · obtain ⟨before, root, after, rfl, hcb⟩ := ih h
        exact ⟨func :: before, root, after, rfl, hcb⟩

end Funcs

section Rules

variable {program : Program} {trackLocking : Bool}
variable {Pre : FuncInfo → Globals → Prop}
  {I : FuncInfo → Globals → List (Visit CursorInfo) → WalkState → Prop}
  {Post : FuncInfo → Globals → FuncInfo × Globals → Prop}

variable (program trackLocking) in
/-- A condition on the start of a walk, an invariant over the visits still to come, and a condition
on the result. A callback may use that the walk it starts meets its condition. -/
structure WalkRule (Pre : FuncInfo → Globals → Prop)
    (I : FuncInfo → Globals → List (Visit CursorInfo) → WalkState → Prop)
    (Post : FuncInfo → Globals → FuncInfo × Globals → Prop) : Prop where
  start : ∀ func globals, Pre func globals →
    I func globals (descendants func.label.cursor) (enterFunc func globals)
  nested : ∀ func globals visit rest s callee globals', I func globals (visit :: rest) s →
    nestedWalk program trackLocking visit.node visit.parent s = some (callee, globals') →
      Pre callee globals'
  step : ∀ func globals visit rest s, I func globals (visit :: rest) s →
    (∀ callee globals', nestedWalk program trackLocking visit.node visit.parent s =
      some (callee, globals') →
        Post callee globals' (processFuncInfo program trackLocking callee globals')) →
    I func globals rest (visitorWalkFunc program trackLocking (processFuncInfo program trackLocking)
      visit.node visit.parent s)
  finish : ∀ func globals s, I func globals [] s → Post func globals (s.func, s.toGlobals)

theorem untouched_visitorWalkFunc_le (current parent : Cursor) (s : WalkState) :
    untouched program (visitorWalkFunc program trackLocking (processFuncInfo program trackLocking)
      current parent s).touchedFuncUsrs ≤ untouched program s.touchedFuncUsrs :=
  untouched_mono (visitorWalkFunc_touched_subset fun callee globals _ =>
    processFuncInfo_touched_subset callee globals)

theorem WalkRule.foldl (h : WalkRule program trackLocking Pre I Post) {func : FuncInfo}
    {globals : Globals} {n : Nat}
    (hless : ∀ callee globals', untouched program globals'.touchedFuncUsrs < n → Pre callee globals' →
      Post callee globals' (processFuncInfo program trackLocking callee globals'))
    (visits : List (Visit CursorInfo)) {s : WalkState} (hs : untouched program s.touchedFuncUsrs ≤ n)
    (hI : I func globals visits s) :
    I func globals [] (visits.foldl
      (visitStep (visitorWalkFunc program trackLocking (processFuncInfo program trackLocking))) s) := by
  induction visits generalizing s with
  | nil => exact hI
  | cons visit visits ih =>
      refine ih (Nat.le_trans (untouched_visitorWalkFunc_le _ _ _) hs) (h.step _ _ _ _ _ hI ?_)
      intro callee globals' hnested
      exact hless callee globals' (Nat.lt_of_lt_of_le (nestedWalk_untouched hnested) hs)
        (h.nested _ _ _ _ _ _ _ hI hnested)

theorem WalkRule.result (h : WalkRule program trackLocking Pre I Post) (func : FuncInfo)
    (globals : Globals) (hpre : Pre func globals) :
    Post func globals (processFuncInfo program trackLocking func globals) := by
  induction hn : untouched program globals.touchedFuncUsrs using Nat.strongRecOn
    generalizing func globals with
  | ind n ih =>
      have hless : ∀ callee globals', untouched program globals'.touchedFuncUsrs < n →
          Pre callee globals' →
            Post callee globals' (processFuncInfo program trackLocking callee globals') :=
        fun callee globals' hlt hpre' => ih _ hlt callee globals' hpre' rfl
      rw [processFuncInfo_eq, walkFunc_eq]
      exact h.finish func globals _ (h.foldl hless _ (Nat.le_of_eq hn) (h.start func globals hpre))

/-- The invariant holds at every callback of a walk, and no callback starts with more left to touch. -/
theorem WalkRule.own (h : WalkRule program trackLocking Pre I Post) {func : FuncInfo} {globals : Globals}
    (hpre : Pre func globals) :
    ∀ x ∈ ownCallbacks program trackLocking (processFuncInfo program trackLocking) func globals,
      (∃ rest, I func globals (x.1 :: rest) x.2) ∧
        untouched program x.2.touchedFuncUsrs ≤ untouched program globals.touchedFuncUsrs := by
  have hsteps : ∀ visits s, untouched program s.touchedFuncUsrs ≤ untouched program globals.touchedFuncUsrs →
      I func globals visits s →
        ∀ x ∈ stepsFrom (visitStep (visitorWalkFunc program trackLocking
            (processFuncInfo program trackLocking))) s visits,
          (∃ rest, I func globals (x.1 :: rest) x.2) ∧
            untouched program x.2.touchedFuncUsrs ≤ untouched program globals.touchedFuncUsrs := by
    intro visits
    induction visits with
    | nil => exact fun _ _ _ x hx => by cases hx
    | cons visit visits ih =>
        intro s hs hI x hx
        rcases List.mem_cons.mp hx with rfl | hx
        · exact ⟨⟨visits, hI⟩, hs⟩
        · refine ih _ (Nat.le_trans (untouched_visitorWalkFunc_le _ _ _) hs)
            (h.step _ _ _ _ _ hI fun callee globals' hnested =>
              h.result callee globals' (h.nested _ _ _ _ _ _ _ hI hnested)) x hx
  exact hsteps _ _ (Nat.le_refl _) (h.start func globals hpre)

/-- The invariant holds at every callback of a walk and of the walks nested in it. -/
theorem WalkRule.callbacks (h : WalkRule program trackLocking Pre I Post) {J : Callback → Prop}
    (hJ : ∀ func globals visit rest s, I func globals (visit :: rest) s → J ⟨visit, s⟩)
    (func : FuncInfo) (globals : Globals) (hpre : Pre func globals) :
    ∀ cb ∈ callbacksOf program trackLocking func globals, J cb := by
  induction hn : untouched program globals.touchedFuncUsrs using Nat.strongRecOn
    generalizing func globals with
  | ind n ih =>
      intro cb hcb
      rw [callbacksOf_eq] at hcb
      obtain ⟨⟨visit, s⟩, hx, hcb⟩ := List.mem_flatMap.mp hcb
      obtain ⟨⟨rest, hI⟩, hbound⟩ := h.own hpre _ hx
      rcases List.mem_cons.mp hcb with rfl | hcb
      · exact hJ func globals visit rest s hI
      · split at hcb
        next => cases hcb
        next callee globals' hnested =>
          exact ih _ (hn ▸ Nat.lt_of_lt_of_le (nestedWalk_untouched hnested) hbound) callee globals'
            (h.nested _ _ _ _ _ _ _ hI hnested) rfl cb hcb

def entriesAll (p : VarAccess → Bool) (func : FuncData) : Bool := func.varAccesses.all p

theorem entries_rule {p : VarAccess → Bool} (hmarker : ∀ current parent s,
      ∀ va ∈ markersAt program trackLocking current parent s, p va = true)
    (hcall : ∀ working s, p (callEntry working s) = true)
    (href : ∀ stack spelling current va, declRefAccess program stack spelling current = some va →
      p va = true) :
    WalkRule program trackLocking (fun func _ => func.all (entriesAll p) = true)
      (fun _ _ _ s => s.func.all (entriesAll p) = true)
      (fun _ _ result => result.1.all (entriesAll p) = true) where
  start func globals h := by
    rw [WalkState.func, enterFunc, RoseTree.node_label_children]
    exact h
  nested func globals visit rest s callee globals' _ h := by
    obtain ⟨working, -, -, -, rfl, -⟩ := nestedWalk_eq_some.mp h
    rfl
  step func globals visit rest s hI hpost := by
    obtain ⟨hown, hbelow⟩ := (RoseTree.all_iff _ _).mp hI
    have hown' : ∀ va ∈ s.currentFunc.varAccesses, p va = true := List.all_eq_true.mp hown
    have hgrow : ∀ {s' vas new}, Adds program trackLocking visit.node visit.parent s vas new s' →
        (∀ va ∈ vas, p va = true) → (∀ callee ∈ new, callee.all (entriesAll p) = true) →
          s'.func.all (entriesAll p) = true := by
      intro s' vas new hadds hvas hnew
      refine (RoseTree.all_iff _ _).mpr ⟨List.all_eq_true.mpr ?_, ?_⟩
      · rw [WalkState.func, RoseTree.label_node, hadds.varAccesses]
        exact List.forall_mem_append.mpr
          ⟨List.forall_mem_append.mpr ⟨hown', hmarker visit.node visit.parent s⟩, hvas⟩
      · rw [WalkState.func, RoseTree.children_node, hadds.callees]
        exact List.forall_mem_append.mpr ⟨hbelow, hnew⟩
    rcases visitorWalkFunc_adds (Q := fun _ callee => callee.all (entriesAll p) = true) (fun _ _ => rfl)
      (fun _ _ hnested => hpost _ _ hnested) with ⟨vas, hvas, hadds⟩ | ⟨working, callee, hcallee, hadds⟩
    · refine hgrow hadds (fun va hva => ?_) (List.forall_mem_nil _)
      exact href _ _ _ va (Option.mem_toList.mp (hvas hva))
    · exact hgrow hadds (List.forall_mem_singleton.mpr (hcall _ _)) (List.forall_mem_singleton.mpr hcallee)
  finish func globals s hI := hI

end Rules

end Prongc.Recursion
