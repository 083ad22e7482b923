import Prongc.Library.Cancellation
import Prongc.ModeAgreement
import Prongc.OnePair

namespace Prongc.WholeRun

open Access Ast LockTracking Comparison PairReports LocalReports OnePair WalkFunc WalkAst Unwind FootprintBrackets
  VariableIsolation ModeAgreement Library.FirstFit Library.Reports Library.Cancellation

section Counts

variable {moves : Nat → Bool} {lockPairArray : List LockPrimitivePair} {footprints footprints' : List (List VarAccess)}
  {reports : List Report} {c : Call} {cs : List Call}

def liveCounts (usr : String) (footprints : List (List VarAccess)) (k : Nat) : Nat :=
  usrCount usr (footprints[k]?.getD [])

def pairOf (c : Call) : Nat × Nat := (c.i, c.j)

def reportsOf (usr : String) (reports : List Report) : Nat := reports.countP fun r => r.vaI.usr == some usr

theorem overlap_rest (a b : List VarAccess) (usr : String) :
    usrCount usr (findVaOverlap a b).left = usrCount usr a - min (usrCount usr a) (usrCount usr b) ∧
      usrCount usr (findVaOverlap a b).right = usrCount usr b - min (usrCount usr a) (usrCount usr b) := by
  have hnull : ∀ va : VarAccess, (va.nullify.live && va.nullify.usr == some usr) = false := fun _ => rfl
  obtain ⟨hleft, hright⟩ := @compareAll_count VarAccess ReportKind VarAccess.live equalVarAccesses VarAccess.nullify
    (fun _ _ => some .variableOverlap) a b (fun va => va.live && va.usr == some usr) hnull
  obtain ⟨hcountA, hcountB⟩ := (pairsEntries (fun _ _ => some .variableOverlap) a b).reportCount_eq usr
  have hcount := overlap_count a b usr
  rw [hcountA] at hleft
  rw [hcountB] at hright
  change reportCount usr (findVaOverlap a b) + usrCount usr (findVaOverlap a b).left = usrCount usr a at hleft
  change reportCount usr (findVaOverlap a b) + usrCount usr (findVaOverlap a b).right = usrCount usr b at hright
  omega

theorem runCall_cancels (htrack : c.trackLocking = false)
    (h : runCall moves lockPairArray footprints c = some (footprints', reports)) (usr : String) :
    liveCounts usr footprints' = cancel (liveCounts usr footprints) (pairOf c) ∧
      reportsOf usr reports = min (liveCounts usr footprints c.i) (liveCounts usr footprints c.j) := by
  rw [runCall, htrack] at h
  obtain ⟨a, ha, h⟩ := Option.bind_eq_some_iff.mp h
  obtain ⟨b, hb, h⟩ := Option.bind_eq_some_iff.mp h
  obtain ⟨rfl, rfl⟩ := Prod.mk.inj (Option.some.inj h)
  have hi := (List.getElem?_eq_some_iff.mp ha).1
  have hj := (List.getElem?_eq_some_iff.mp hb).1
  have hcountI : liveCounts usr footprints c.i = usrCount usr a := by
    rw [liveCounts, ha, Option.getD_some]
  have hcountJ : liveCounts usr footprints c.j = usrCount usr b := by
    rw [liveCounts, hb, Option.getD_some]
  obtain ⟨hleft, hright⟩ := overlap_rest a b usr
  constructor
  · funext k
    rw [cancel, pairOf, hcountI, hcountJ, liveCounts]
    by_cases hkj : k = c.j
    · rw [if_pos (.inr hkj), hkj, List.getElem?_set_self (by simpa using hj), Option.getD_some, hcountJ]
      exact hright
    · rw [List.getElem?_set_ne (Ne.symm hkj)]
      by_cases hki : k = c.i
      · rw [if_pos (.inl hki), hki, List.getElem?_set_self hi, Option.getD_some, hcountI]
        exact hleft
      · rw [List.getElem?_set_ne (Ne.symm hki), if_neg (not_or.mpr ⟨hki, hkj⟩), liveCounts]
  · rw [hcountI, hcountJ, ← overlap_count a b usr, reportsOf, callReports, List.countP_map]
    rfl

/-- A run of overlap calls refines the cancellation of the counts of each variable. -/
theorem runCalls_cancels (htrack : ∀ c ∈ cs, c.trackLocking = false)
    (h : runCalls moves lockPairArray footprints cs = some (footprints', reports)) (usr : String) :
    liveCounts usr footprints' = cancelAll (liveCounts usr footprints) (cs.map pairOf) ∧
      reportsOf usr reports = total (liveCounts usr footprints) (cs.map pairOf) := by
  induction cs generalizing footprints reports with
  | nil =>
      cases h
      exact ⟨rfl, rfl⟩
  | cons c cs ih =>
      obtain ⟨hc, hcs⟩ := List.forall_mem_cons.mp htrack
      obtain ⟨mid, rs, rs', hfirst, hrest, rfl⟩ := runCalls_cons h
      obtain ⟨hcounts, hreports⟩ := runCall_cancels hc hfirst usr
      obtain ⟨hcounts', hreports'⟩ := ih hcs hrest
      rw [hcounts] at hcounts' hreports'
      rw [reportsOf] at hreports hreports'
      constructor
      · exact hcounts'
      · rw [reportsOf, List.countP_append, hreports, hreports', List.map_cons, total]
        rfl

theorem usrCount_pos {usr : String} {fp : List VarAccess} {k : Nat} {va : VarAccess} (hk : fp[k]? = some va)
    (hlive : va.live = true) (husr : va.usr = some usr) : 0 < usrCount usr fp := by
  apply List.countP_pos_iff.mpr
  exact ⟨va, List.mem_of_getElem? hk, by simp [hlive, husr]⟩

theorem runCall_silent (htrack : c.trackLocking = false) (hi : c.i < footprints.length) (hj : c.j < footprints.length)
    (h : ∀ usr, liveCounts usr footprints c.i = 0 ∨ liveCounts usr footprints c.j = 0) :
    runCall moves lockPairArray footprints c = some (footprints, []) := by
  have hdefined : (runCall moves lockPairArray footprints c).isSome = true := overlap_isSome htrack hi hj
  obtain ⟨⟨footprints', reports⟩, hrun⟩ := Option.isSome_iff_exists.mp hdefined
  obtain ⟨a, b, judge, heffect⟩ := runCall_effect hrun
  have hnone : matched judge a b = [] := by
    apply List.eq_nil_iff_forall_not_mem.mpr
    intro p hp
    obtain ⟨v, hv⟩ := verdictOf_of_mem_matched hp
    obtain ⟨hx, hy, hlx, hly, hsame, -⟩ := verdictOf_eq_some.mp hv
    obtain ⟨usr, hux, huy⟩ := (equalVarAccesses_iff _ _).mp hsame
    have hposA := usrCount_pos hx hlx hux
    have hposB := usrCount_pos hy hly huy
    have hshared := h usr
    rw [liveCounts, liveCounts, heffect.left, heffect.right, Option.getD_some, Option.getD_some] at hshared
    omega
  have hfootprints := heffect.footprints_eq
  have hreports := heffect.reports_eq
  rw [hnone] at hfootprints hreports
  have ha : footprints[c.i] = a := (List.getElem_eq_iff hi).mpr heffect.left
  have hb : footprints[c.j] = b := (List.getElem_eq_iff hj).mpr heffect.right
  rw [List.map_nil, List.map_nil, clearAt_nil, clearAt_nil, ← ha, ← hb, List.set_getElem_self,
    List.set_getElem_self] at hfootprints
  rw [hrun, hfootprints, hreports]
  rfl

theorem runCalls_filter {keep : Call → Bool}
    (hcs : ∀ c ∈ cs, c.trackLocking = false ∧ c.i < footprints.length ∧ c.j < footprints.length)
    {done : List Call} {built : List (List VarAccess)} {rs : List Report}
    (hdone : ∀ d ∈ done, d.trackLocking = false)
    (hrun : runCalls moves lockPairArray built done = some (footprints, rs))
    (h : ∀ pre c post, cs = pre ++ c :: post → keep c = false →
      ∃ d ∈ done ++ pre, keep d = true ∧ d.i = c.j ∧ d.j = c.i) :
    runCalls moves lockPairArray footprints cs = runCalls moves lockPairArray footprints (cs.filter keep) := by
  induction cs generalizing footprints done rs with
  | nil => rfl
  | cons c cs ih =>
      obtain ⟨⟨htrack, hi, hj⟩, hcs⟩ := List.forall_mem_cons.mp hcs
      cases hkeep : keep c with
      | true =>
          have hfirst : (runCall moves lockPairArray footprints c).isSome = true := overlap_isSome htrack hi hj
          obtain ⟨first, hfirst⟩ := Option.isSome_iff_exists.mp hfirst
          obtain ⟨a, b, judge, heffect⟩ := runCall_effect hfirst
          have hrest : runCalls moves lockPairArray first.1 cs =
              runCalls moves lockPairArray first.1 (cs.filter keep) := by
            refine ih (fun d hd => heffect.length ▸ hcs d hd)
              (List.forall_mem_append.mpr ⟨hdone, List.forall_mem_singleton.mpr htrack⟩) (runCalls_snoc hrun hfirst) ?_
            intro pre d post hsplit hd
            have hbefore := h (c :: pre) d post (by rw [hsplit, List.cons_append]) hd
            rwa [List.append_assoc, List.singleton_append]
          rw [List.filter_cons_of_pos hkeep, runCalls, runCalls, hfirst, Option.bind_eq_bind, Option.bind_some, hrest]
          rfl
      | false =>
          obtain ⟨d, hd, -, hdi, hdj⟩ := h [] c cs rfl hkeep
          rw [List.append_nil] at hd
          have hsilent : runCall moves lockPairArray footprints c = some (footprints, []) := by
            apply runCall_silent htrack hi hj
            intro usr
            obtain ⟨hcounts, -⟩ := runCalls_cancels hdone hrun usr
            have hexhausted := cancelAll_exhausted (c := liveCounts usr built) (List.mem_map_of_mem (f := pairOf) hd)
            rw [← hcounts, pairOf, hdi, hdj] at hexhausted
            exact hexhausted.symm
          have hrest := ih hcs hdone hrun fun pre e post hsplit he => by
            obtain ⟨d', hd', hkeep', hpair⟩ := h (c :: pre) e post (by rw [hsplit, List.cons_append]) he
            refine ⟨d', ?_, hkeep', hpair⟩
            rcases List.mem_append.mp hd' with hd' | hd'
            · exact List.mem_append_left _ hd'
            · rcases List.mem_cons.mp hd' with rfl | hd'
              · rw [hkeep] at hkeep'
                cases hkeep'
              · exact List.mem_append_right _ hd'
          rw [List.filter_cons_of_neg (by simp [hkeep]), ← hrest, runCalls, hsilent, Option.bind_eq_bind,
            Option.bind_some]
          cases runCalls moves lockPairArray footprints cs <;> rfl

theorem pairCalls_pairs (trackLocking : Bool) (size : Nat) :
    (pairCalls trackLocking size).map pairOf = (indexPairs size size).filter fun p => p.1 != p.2 := by
  have hrow : ∀ (i : Nat) (js : List Nat),
      (js.filterMap fun j => if h : i = j then none else some (⟨trackLocking, i, j, h⟩ : Call)).map pairOf =
        (js.map fun j => (i, j)).filter fun p => p.1 != p.2 := by
    intro i js
    induction js with
    | nil => rfl
    | cons j js ih =>
        by_cases hij : i = j
        · simpa [hij] using hij ▸ ih
        · simpa [hij, pairOf] using ih
  rw [pairCalls, indexPairs, List.map_flatMap, List.filter_flatMap]
  simp only [hrow]

theorem pairCalls_flipped {trackLocking : Bool} {size : Nat} {pre post : List Call}
    (h : pairCalls trackLocking size = pre ++ c :: post) (hc : c.j < c.i) :
    ∃ d ∈ pre, d.i = c.j ∧ d.j = c.i := by
  have hmem : c ∈ pairCalls trackLocking size := by
    rw [h]
    exact List.mem_append_right _ List.mem_cons_self
  obtain ⟨htrack, hi, hj⟩ := mem_pairCalls.mp hmem
  have hflip : (⟨trackLocking, c.j, c.i, c.ne.symm⟩ : Call) ∈ pairCalls trackLocking size :=
    mem_pairCalls.mpr ⟨rfl, hj, hi⟩
  have hsorted : ((pairCalls trackLocking size).map pairOf).Pairwise Before := by
    rw [pairCalls_pairs]
    exact (indexPairs_pairwise size size).filter _
  rw [h, List.map_append, List.map_cons, List.pairwise_append] at hsorted
  obtain ⟨-, hafter, -⟩ := hsorted
  rw [h] at hflip
  rcases List.mem_append.mp hflip with hflip | hflip
  · exact ⟨_, hflip, rfl, rfl⟩
  · exfalso
    rcases List.mem_cons.mp hflip with hflip | hflip
    · have hsame := congrArg Call.i hflip
      change c.j = c.i at hsame
      omega
    · have hlater := (List.pairwise_cons.mp hafter).1 _ (List.mem_map_of_mem hflip)
      rw [Before, pairOf, pairOf] at hlater
      dsimp only at hlater
      omega

end Counts

/-- The second call that main makes on two functions finds nothing, so that the loop over the pairs with
i < j has the same outcome. -/
theorem half_loop_suffices (moves : Nat → Bool) (lockPairArray : List LockPrimitivePair)
    (footprints : List (List VarAccess)) :
    compareAllFuncs moves lockPairArray false footprints =
      runCalls moves lockPairArray footprints
        ((pairCalls false footprints.length).filter fun c => decide (c.i < c.j)) := by
  rw [compareAllFuncs]
  have hstart : runCalls moves lockPairArray footprints [] = some (footprints, []) := rfl
  refine runCalls_filter (fun c hc => mem_pairCalls.mp hc) (List.forall_mem_nil _) hstart ?_
  intro pre c post hsplit hc
  have hne := c.ne
  have hlt : c.j < c.i := by
    have hge := of_decide_eq_false hc
    omega
  obtain ⟨d, hd, hdi, hdj⟩ := pairCalls_flipped hsplit hlt
  exact ⟨d, hd, decide_eq_true (by omega), hdi, hdj⟩

theorem mem_pairs {size : Nat} {p : Nat × Nat} :
    p ∈ (pairCalls false size).map pairOf ↔ p.1 ≠ p.2 ∧ p.1 < size ∧ p.2 < size := by
  rw [pairCalls_pairs, List.mem_filter, mem_indexPairs, bne_iff_ne, and_comm]

/-- The double loop of the plain mode always comes to its end, having cancelled all pairs of functions. -/
theorem double_loop_cancels (moves : Nat → Bool) (lockPairArray : List LockPrimitivePair)
    (footprints : List (List VarAccess)) :
    ∃ left reports, compareAllFuncs moves lockPairArray false footprints = some (left, reports) ∧
      ∀ usr, liveCounts usr left =
          cancelAll (liveCounts usr footprints) ((pairCalls false footprints.length).map pairOf) ∧
        reportsOf usr reports = total (liveCounts usr footprints) ((pairCalls false footprints.length).map pairOf) := by
  have htrack : ∀ c ∈ pairCalls false footprints.length, c.trackLocking = false := fun c hc => (mem_pairCalls.mp hc).1
  have hdefined : (compareAllFuncs moves lockPairArray false footprints).isSome = true :=
    overlaps_isSome fun c hc => mem_pairCalls.mp hc
  obtain ⟨⟨left, reports⟩, hrun⟩ := Option.isSome_iff_exists.mp hdefined
  exact ⟨left, reports, hrun, runCalls_cancels htrack hrun⟩

theorem total_pairs_pos_iff {usr : String} {footprints : List (List VarAccess)} :
    0 < total (liveCounts usr footprints) ((pairCalls false footprints.length).map pairOf) ↔
      ∃ i j, i ≠ j ∧ 0 < liveCounts usr footprints i ∧ 0 < liveCounts usr footprints j := by
  have hinside : ∀ k, 0 < liveCounts usr footprints k → k < footprints.length := by
    intro k hk
    by_contra hout
    rw [liveCounts, List.getElem?_eq_none (Nat.le_of_not_lt hout)] at hk
    exact absurd hk (Nat.lt_irrefl 0)
  rw [total_pos_iff]
  constructor
  · rintro ⟨p, hp, hfirst, hsecond⟩
    exact ⟨p.1, p.2, (mem_pairs.mp hp).1, hfirst, hsecond⟩
  · rintro ⟨i, j, hij, hi, hj⟩
    exact ⟨(i, j), mem_pairs.mpr ⟨hij, hinside i hi, hinside j hj⟩, hi, hj⟩

structure LoopOutcome (usr : String) (built left : List (List VarAccess)) (reports : List Report) : Prop where
  apart : ∀ i j, i ≠ j → i < built.length → j < built.length → liveCounts usr left i = 0 ∨ liveCounts usr left j = 0
  conserved : (∑ k ∈ Finset.range built.length, liveCounts usr left k) + 2 * reportsOf usr reports =
    ∑ k ∈ Finset.range built.length, liveCounts usr built k
  reported : 0 < reportsOf usr reports ↔ ∃ i j, i ≠ j ∧ 0 < liveCounts usr built i ∧ 0 < liveCounts usr built j

/-- The plain double loop reports each variable that two functions share, with two entries in each report,
until at most one function has entries left. -/
theorem plain_loop_outcome (moves : Nat → Bool) (lockPairArray : List LockPrimitivePair)
    (footprints : List (List VarAccess)) :
    ∃ left reports, compareAllFuncs moves lockPairArray false footprints = some (left, reports) ∧
      ∀ usr, LoopOutcome usr footprints left reports := by
  obtain ⟨left, reports, hrun, hcancels⟩ := double_loop_cancels moves lockPairArray footprints
  refine ⟨left, reports, hrun, ?_⟩
  intro usr
  obtain ⟨hcounts, hreports⟩ := hcancels usr
  constructor
  · intro i j hij hi hj
    have hmem : (i, j) ∈ (pairCalls false footprints.length).map pairOf := mem_pairs.mpr ⟨hij, hi, hj⟩
    rw [hcounts]
    exact cancelAll_exhausted hmem
  · rw [hcounts, hreports]
    apply sum_cancelAll
    intro p hp
    obtain ⟨hne, hfirst, hsecond⟩ := mem_pairs.mp hp
    exact ⟨hne, Finset.mem_range.mpr hfirst, Finset.mem_range.mpr hsecond⟩
  · rw [hreports, total_pairs_pos_iff]

section Modes

variable {moves : Nat → Bool} {lockPairArray : List LockPrimitivePair} {footprints footprints' : List (List VarAccess)}
  {reports : List Report} {cs : List Call}

theorem usrCount_pos_iff {usr : String} {fp : List VarAccess} : 0 < usrCount usr fp ↔ LiveIn usr fp := by
  rw [usrCount, List.countP_pos_iff]
  apply exists_congr
  intro va
  apply and_congr_right
  intro _
  simp

theorem liveCounts_pos_iff {usr : String} {k : Nat} :
    0 < liveCounts usr footprints k ↔ ∃ fp, footprints[k]? = some fp ∧ LiveIn usr fp := by
  rw [liveCounts, usrCount_pos_iff]
  cases hk : footprints[k]? with
  | none =>
      constructor
      · rintro ⟨va, hva, -⟩
        cases hva
      · rintro ⟨fp, hfp, -⟩
        cases hfp
  | some fp => simp

/-- Whatever any comparisons report, two functions have live entries for it as built. -/
theorem report_shared (h : runCalls moves lockPairArray footprints cs = some (footprints', reports)) {r : Report}
    (hr : r ∈ reports) : ∃ usr, r.vaI.usr = some usr ∧
      ∃ i j, i ≠ j ∧ 0 < liveCounts usr footprints i ∧ 0 < liveCounts usr footprints j := by
  induction cs generalizing footprints reports with
  | nil =>
      cases h
      cases hr
  | cons c cs ih =>
      obtain ⟨mid, rs, rs', hfirst, hrest, rfl⟩ := runCalls_cons h
      obtain ⟨a, b, judge, heffect⟩ := runCall_effect hfirst
      rcases List.mem_append.mp hr with hr | hr
      · obtain ⟨p, -, v, hv, rfl⟩ := heffect.mem_reports.mp hr
        obtain ⟨hx, hy, hlx, hly, hsame, -⟩ := verdictOf_eq_some.mp hv
        obtain ⟨usr, hux, huy⟩ := (equalVarAccesses_iff _ _).mp hsame
        exact ⟨usr, hux, c.i, c.j, c.ne,
          liveCounts_pos_iff.mpr ⟨a, heffect.left, _, List.mem_of_getElem? hx, hlx, hux⟩,
          liveCounts_pos_iff.mpr ⟨b, heffect.right, _, List.mem_of_getElem? hy, hly, huy⟩⟩
      · obtain ⟨usr, husr, i, j, hij, hi, hj⟩ := ih hrest hr
        have hbefore : ∀ k, 0 < liveCounts usr mid k → 0 < liveCounts usr footprints k := by
          intro k hk
          obtain ⟨fp', hfp', hlive⟩ := liveCounts_pos_iff.mp hk
          have hlt : k < footprints.length := heffect.length ▸ (List.getElem?_eq_some_iff.mp hfp').1
          obtain ⟨fp'', hk', hfaded⟩ := heffect.faded (List.getElem?_eq_getElem hlt)
          obtain rfl := Option.some.inj (hfp'.symm.trans hk')
          exact liveCounts_pos_iff.mpr ⟨_, List.getElem?_eq_getElem hlt, hlive.of_faded hfaded⟩
        exact ⟨usr, husr, i, j, hij, hbefore i hi, hbefore j hj⟩

theorem liveCounts_unmarked (usr : String) (footprints : List (List VarAccess)) :
    liveCounts usr (footprints.map (List.filter MarkerErasure.isUnmarked)) = liveCounts usr footprints := by
  have hfp : ∀ fp : List VarAccess, usrCount usr (fp.filter MarkerErasure.isUnmarked) = usrCount usr fp := by
    intro fp
    rw [usrCount, usrCount, List.countP_filter]
    apply List.countP_congr
    intro va _
    rw [Bool.and_eq_true, Bool.and_eq_true, and_iff_left_iff_imp]
    rintro ⟨hlive, -⟩
    rw [MarkerErasure.isUnmarked, TraceNames.isBranchMarker]
    rw [VarAccess.live_iff] at hlive
    cases htype : va.type <;> simp_all [VarAccessType.isAccess]
  funext k
  rw [liveCounts, liveCounts, List.getElem?_map]
  cases footprints[k]? with
  | none => rfl
  | some fp => exact hfp fp

end Modes

/-- A variable that a run with lock tracking reports is one that the plain run reports. -/
theorem tracked_variables_overlap (moves : Nat → Bool) (lockPairArray : List LockPrimitivePair) (program : Program)
    (roots : List Cursor) (funcNames : List String) {left : List (List VarAccess)} {reports : List Report}
    (h : compareAllFuncs moves lockPairArray true (footprints program true (roots.map requestedFunc) funcNames) =
      some (left, reports)) :
    ∃ left' reports', compareAllFuncs moves lockPairArray false
        (footprints program false (roots.map requestedFunc) funcNames) = some (left', reports') ∧
      ∀ r ∈ reports, ∃ r' ∈ reports', r'.vaI.usr = r.vaI.usr := by
  obtain ⟨left', reports', hrun, hcancels⟩ := double_loop_cancels moves lockPairArray
    (footprints program false (roots.map requestedFunc) funcNames)
  refine ⟨left', reports', hrun, ?_⟩
  intro r hr
  obtain ⟨usr, husr, hshared⟩ := report_shared h hr
  rw [← liveCounts_unmarked, ← MarkerErasure.footprints_erase] at hshared
  have hcount := total_pairs_pos_iff.mpr hshared
  rw [← (hcancels usr).2, reportsOf, List.countP_pos_iff] at hcount
  obtain ⟨r', hr', husr'⟩ := hcount
  exact ⟨r', hr', (beq_iff_eq.mp husr').trans husr.symm⟩

/-- Both runs report x, which the two functions with the conditional write use. -/
theorem conditionalWrites_overlap :
    ∃ left reports, compareAllFuncs (fun _ => false) defaultLockPairs true
        (footprints branchProgram true ([endsBehindIf, endsInIf].map requestedFunc) ["f()", "f()"]) =
          some (left, reports) ∧ reports ≠ [] ∧
      ∃ left' reports', compareAllFuncs (fun _ => false) defaultLockPairs false
          (footprints branchProgram false ([endsBehindIf, endsInIf].map requestedFunc) ["f()", "f()"]) =
            some (left', reports') ∧
        ∀ r ∈ reports, ∃ r' ∈ reports', r'.vaI.usr = r.vaI.usr := by
  have hdefined : (compareAllFuncs (fun _ => false) defaultLockPairs true (footprints branchProgram true
      ([endsBehindIf, endsInIf].map requestedFunc) ["f()", "f()"])).any (fun result => result.2 ≠ []) = true := by
    decide +kernel
  obtain ⟨⟨left, reports⟩, hrun, hreports⟩ := (Option.any_eq_true _ _).mp hdefined
  exact ⟨left, reports, hrun, of_decide_eq_true hreports, tracked_variables_overlap _ _ _ _ _ hrun⟩

end Prongc.WholeRun
