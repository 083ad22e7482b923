import Prongc.PairReports
import Prongc.PrivateObjects

namespace Prongc.LocalReports

open Access Ast WalkFunc Unwind LockTracking Comparison PairReports PrivateObjects Library.FirstFit
open Library.Traversal

def AutomaticIn (isStatic : String → Prop) (trees : List FuncInfo) (u : String) : Prop :=
  ∃ root ∈ trees, ∃ func ∈ root.labels, AutomaticLocal isStatic func u

def isDirect (va : VarAccess) : Bool := va.type == .read || va.type == .write

/-- Two direct accesses of an automatic local or of members of it. -/
def IsLocalPair (isStatic : String → Prop) (trees : List FuncInfo) (va va' : VarAccess) : Prop :=
  isDirect va = true ∧ isDirect va' = true ∧
    ∃ u, AutomaticIn isStatic trees u ∧ hasBase u va = true ∧ hasBase u va' = true

def liveEntries (usr : String) (fp : List VarAccess) : List VarAccess :=
  fp.filter fun va => va.live && va.usr == some usr

theorem classOf_eq {va : VarAccess} {usr : String} (husr : va.usr = some usr) (fp : List VarAccess) :
    classOf VarAccess.live equalVarAccesses va fp = liveEntries usr fp := by
  rw [classOf, liveEntries]
  congr 1
  funext z
  congr 1
  rw [Bool.eq_iff_iff, equalVarAccesses_iff, husr]
  simp

section Runs

variable {moves : Nat → Bool} {lockPairArray : List LockPrimitivePair}
  {footprints footprints' : List (List VarAccess)} {c : Call} {reports : List Report}

/-- A call of find_va_overlap reports the entries of each variable in order. -/
theorem overlap_reports_iff {a b : List VarAccess} {judge : Nat → Nat → Option ReportKind}
    (h : CallEffect moves lockPairArray footprints c a b judge footprints' reports)
    (htrack : c.trackLocking = false) {va va' : VarAccess} :
    (∃ r ∈ reports, r.vaI = va ∧ r.vaJ = va') ↔
      ∃ usr, ∃ n : Nat, (liveEntries usr a)[n]? = some va ∧ (liveEntries usr b)[n]? = some va' := by
  have hjudge : judge = fun _ _ => some .variableOverlap := by
    have hj := h.judged
    rw [htrack] at hj
    exact (Option.some.inj hj).symm
  have hpaired : (∃ p ∈ matched judge a b, a[p.1]? = some va ∧ b[p.2]? = some va') ↔
      ∃ n : Nat, (classOf VarAccess.live equalVarAccesses va a)[n]? = some va ∧
        (classOf VarAccess.live equalVarAccesses va b)[n]? = some va' :=
    exists_mem_matching_iff equalVarAccesses_symm equalVarAccesses_trans (by simp [hjudge])
  constructor
  · rintro ⟨r, hr, rfl, rfl⟩
    obtain ⟨p, hp, v, hv, rfl⟩ := h.mem_reports.mp hr
    obtain ⟨hx, hy, -, -, heq, -⟩ := verdictOf_eq_some.mp hv
    obtain ⟨usr, husr, -⟩ := (equalVarAccesses_iff _ _).mp heq
    obtain ⟨n, hnx, hny⟩ := hpaired.mp ⟨p, hp, hx, hy⟩
    rw [classOf_eq husr] at hnx hny
    exact ⟨usr, n, hnx, hny⟩
  · rintro ⟨usr, n, hx, hy⟩
    have husr : va.live = true ∧ va.usr = some usr := by
      simpa using (List.mem_filter.mp (List.mem_of_getElem? hx)).2
    rw [← classOf_eq husr.2] at hx hy
    obtain ⟨p, hp, hpx, hpy⟩ := hpaired.mpr ⟨n, hx, hy⟩
    obtain ⟨v, hv⟩ := verdictOf_of_mem_matched hp
    obtain ⟨hvx, hvy, -⟩ := verdictOf_eq_some.mp hv
    refine ⟨_, h.mem_reports.mpr ⟨p, hp, v, hv, rfl⟩, ?_, ?_⟩
    · exact Option.some.inj (hvx.symm.trans hpx)
    · exact Option.some.inj (hvy.symm.trans hpy)

theorem forall_reports_iff (P : Report → Prop) {cs : List Call}
    (h : runCalls moves lockPairArray footprints cs = some (footprints', reports)) :
    (∀ r ∈ reports, P r) ↔ ∀ pre c post now rs next rs', cs = pre ++ c :: post →
      runCalls moves lockPairArray footprints pre = some (now, rs) →
        runCall moves lockPairArray now c = some (next, rs') → ∀ r ∈ rs', P r := by
  induction cs generalizing footprints reports with
  | nil =>
      cases h
      constructor
      · intro _ pre c post now rs next rs' hsplit
        simp at hsplit
      · exact fun _ r hr => by cases hr
  | cons d cs ih =>
      obtain ⟨mid, ms, ms', hd, hrest, rfl⟩ := runCalls_cons h
      rw [List.forall_mem_append, ih hrest]
      constructor
      · rintro ⟨hfirst, hlater⟩ pre c post now rs next rs' hsplit hpre hcall
        cases pre with
        | nil =>
            obtain ⟨rfl, rfl⟩ := List.cons.inj hsplit
            cases hpre
            rw [hd] at hcall
            obtain ⟨rfl, rfl⟩ := Prod.mk.inj (Option.some.inj hcall)
            exact hfirst
        | cons e pre =>
            obtain ⟨rfl, rfl⟩ := List.cons.inj hsplit
            obtain ⟨mid', ns, ns', hd', hpre', rfl⟩ := runCalls_cons hpre
            rw [hd] at hd'
            obtain ⟨rfl, rfl⟩ := Prod.mk.inj (Option.some.inj hd')
            exact hlater pre c post now ns' next rs' rfl hpre' hcall
      · intro hall
        refine ⟨hall [] d cs _ [] _ _ rfl rfl hd, ?_⟩
        intro pre c post now rs next rs' hsplit hpre hcall
        refine hall (d :: pre) c post now (ms ++ rs) next rs' (by rw [hsplit, List.cons_append]) ?_ hcall
        simp [runCalls, hd, hpre]

theorem overlap_isSome (hc : c.trackLocking = false) (hi : c.i < footprints.length)
    (hj : c.j < footprints.length) : (runCall moves lockPairArray footprints c).isSome = true := by
  simp [runCall, compareFuncs, hc, hi, hj]

theorem overlaps_isSome {cs : List Call} (hcs : ∀ c ∈ cs, c.trackLocking = false ∧
    c.i < footprints.length ∧ c.j < footprints.length) :
    (runCalls moves lockPairArray footprints cs).isSome = true := by
  induction cs generalizing footprints with
  | nil => rfl
  | cons c cs ih =>
      obtain ⟨htrack, hi, hj⟩ := hcs c List.mem_cons_self
      obtain ⟨⟨mid, rs⟩, hcall⟩ := Option.isSome_iff_exists.mp
        (@overlap_isSome moves lockPairArray _ _ htrack hi hj)
      obtain ⟨a, b, judge, heffect⟩ := runCall_effect hcall
      have hrest := @ih mid fun d hd => heffect.length ▸ hcs d (List.mem_cons_of_mem _ hd)
      obtain ⟨rest, hrest⟩ := Option.isSome_iff_exists.mp hrest
      simp [runCalls, hcall, hrest]

end Runs

/-- void f(int a) { int *p; p = 0; } -/
def pointerSetter : Cursor :=
  definitionOf 1 "f"
    [.node { id := 3, kind := .parmDecl, usr := "c:f@a", linkage := .noLinkage } []]
    [.node { id := 4, kind := .varDecl, usr := "c:f@p", linkage := .noLinkage, typeKind := .pointer } [],
     .node { id := 5, kind := .binaryOperator, binaryOperatorKind := .assign }
      [.node { id := 6, kind := .declRefExpr, referenced := some 4 } [],
       .node { id := 7, kind := .other 106 } []]]

def pointerProgram : Program where
  tuArray := []
  fileNames := []
  decls := [.node { id := 4, kind := .varDecl, usr := "c:f@p", typeKind := .pointer } []]
  zeroCursorIsNull := false

/-- The calls f(x) and f(y) share nothing, but the pointer p of both is reported. -/
theorem pointerSetter_reported :
    ∃ now reports, compareAllFuncs (fun _ => true) [] false (footprints pointerProgram false
        [WalkAst.requestedFunc pointerSetter, WalkAst.requestedFunc pointerSetter] ["f(x)", "f(y)"]) =
          some (now, reports) ∧
      ∃ r ∈ reports, IsLocalPair (fun _ => False) (processFuncs pointerProgram false
        [WalkAst.requestedFunc pointerSetter, WalkAst.requestedFunc pointerSetter] initGlobals).1
          r.vaI r.vaJ := by
  have hrun : ((compareAllFuncs (fun _ => true) [] false (footprints pointerProgram false
      [WalkAst.requestedFunc pointerSetter, WalkAst.requestedFunc pointerSetter] ["f(x)", "f(y)"])).map
        fun run => run.2.map fun r => (r.vaI.type, r.vaI.usr, r.vaJ.type, r.vaJ.usr)) =
      some [(.write, some "c:f@p", .write, some "c:f@p")] := by decide +kernel
  have hlocals : ∃ root ∈ (processFuncs pointerProgram false
      [WalkAst.requestedFunc pointerSetter, WalkAst.requestedFunc pointerSetter] initGlobals).1,
        ∃ func ∈ root.labels, "c:f@p" ∈ func.locals := by decide +kernel
  obtain ⟨⟨now, reports⟩, hsome, hreports⟩ := Option.map_eq_some_iff.mp hrun
  refine ⟨now, reports, hsome, ?_⟩
  cases reports with
  | nil => cases hreports
  | cons r reports =>
      obtain ⟨hr, -⟩ := List.cons.inj hreports
      simp only [Prod.mk.injEq] at hr
      obtain ⟨htype, husr, htype', husr'⟩ := hr
      obtain ⟨root, hroot, func, hfunc, hlocal⟩ := hlocals
      refine ⟨r, List.mem_cons_self, ?_, ?_, "c:f@p", ?_, ?_, ?_⟩
      · simp [isDirect, htype]
      · simp [isDirect, htype']
      · exact ⟨root, hroot, func, hfunc, hlocal, id⟩
      · simp [hasBase, husr]
      · simp [hasBase, husr']

end Prongc.LocalReports
