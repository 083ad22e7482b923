import Prongc.Comparison

namespace Prongc.PairReports

open Access LockTracking Comparison Library.FirstFit

def LiveIn (usr : String) (fp : List VarAccess) : Prop := ∃ va ∈ fp, va.live = true ∧ va.usr = some usr

def Between (c : Call) (i j : Nat) : Prop := (c.i = i ∧ c.j = j) ∨ (c.i = j ∧ c.j = i)

def Reported (reports : List Report) (usr : String) (i j : Nat) : Prop :=
  ∃ r ∈ reports, ((r.funcI = i ∧ r.funcJ = j) ∨ (r.funcI = j ∧ r.funcJ = i)) ∧ r.vaI.usr = some usr

def Judged (moves : Nat → Bool) (lockPairArray : List LockPrimitivePair) (trackLocking : Bool)
    (usr : String) (a b : List VarAccess) : Prop :=
  ∃ judge, judgeOf moves lockPairArray trackLocking a b = some judge ∧
    ∃ p r, verdictOf judge a b p = some r ∧ r.1.usr = some usr

section Pairs

variable {moves : Nat → Bool} {lockPairArray : List LockPrimitivePair} {usr : String}
  {footprints footprints' : List (List VarAccess)} {c : Call} {reports : List Report}
  {a b : List VarAccess} {judge : Nat → Nat → Option ReportKind}

theorem LiveIn.of_faded {fp fp' : List VarAccess} (h : LiveIn usr fp') (hf : FadedFp fp fp') :
    LiveIn usr fp := by
  obtain ⟨va', hm, hl, hu⟩ := h
  obtain ⟨k, hk⟩ := List.mem_iff_getElem?.mp hm
  obtain ⟨va, hva, hv⟩ := hf.getElem? hk
  obtain rfl := hv.eq_of_live hl
  exact ⟨va', List.mem_of_getElem? hva, hl, hu⟩

theorem usr_right {x y : VarAccess} (h : equalVarAccesses x y = true) : x.usr = y.usr := by
  obtain ⟨u, hx, hy⟩ := (equalVarAccesses_iff x y).mp h
  rw [hx, hy]

theorem call_reports_iff (h : CallEffect moves lockPairArray footprints c a b judge footprints' reports) :
    (∃ r ∈ reports, r.vaI.usr = some usr) ↔ Judged moves lockPairArray c.trackLocking usr a b := by
  constructor
  · rintro ⟨r, hr, hu⟩
    obtain ⟨p, -, v, hv, rfl⟩ := h.mem_reports.mp hr
    exact ⟨judge, h.judged, p, v, hv, hu⟩
  · rintro ⟨judge', hj, p, v, hv, hu⟩
    obtain rfl : judge' = judge := by rw [h.judged] at hj; exact (Option.some.inj hj).symm
    obtain ⟨hx, hy, -, -, heq, -⟩ := verdictOf_eq_some.mp hv
    obtain ⟨q, hq, hs⟩ := matching_maximal (show (verdict _ _ judge' a b p).isSome from
      Option.isSome_iff_exists.mpr ⟨v, hv⟩)
    obtain ⟨w, hw⟩ := verdictOf_of_mem_matched hq
    obtain ⟨hwx, hwy, -, -, hweq, -⟩ := verdictOf_eq_some.mp hw
    refine ⟨_, h.mem_reports.mpr ⟨q, hq, w, hw, rfl⟩, ?_⟩
    rcases hs with hs | hs
    · rw [hs, hx, Option.some.injEq] at hwx
      exact hwx ▸ hu
    · rw [hs, hy, Option.some.injEq] at hwy
      change w.1.usr = some usr
      rw [usr_right hweq, ← hwy, ← usr_right heq, hu]

theorem judged_overlap_iff :
    Judged moves lockPairArray false usr a b ↔ LiveIn usr a ∧ LiveIn usr b := by
  constructor
  · rintro ⟨judge, -, p, r, hr, hu⟩
    obtain ⟨hx, hy, hlx, hly, heq, -⟩ := verdictOf_eq_some.mp hr
    exact ⟨⟨r.1, List.mem_of_getElem? hx, hlx, hu⟩, r.2.1, List.mem_of_getElem? hy, hly, usr_right heq ▸ hu⟩
  · rintro ⟨⟨x, hx, hlx, hux⟩, y, hy, hly, huy⟩
    obtain ⟨k, hk⟩ := List.mem_iff_getElem?.mp hx
    obtain ⟨l, hl⟩ := List.mem_iff_getElem?.mp hy
    refine ⟨fun _ _ => some .variableOverlap, rfl, (k, l), (x, y, .variableOverlap), ?_, hux⟩
    exact verdictOf_eq_some.mpr ⟨hk, hl, hlx, hly, (equalVarAccesses_iff x y).mpr ⟨usr, hux, huy⟩, rfl⟩

theorem LiveIn.of_not_judged (h : CallEffect moves lockPairArray footprints c a b judge footprints' reports)
    (hn : ¬ Judged moves lockPairArray c.trackLocking usr a b) {k : Nat} {fp fp' : List VarAccess}
    (hk : footprints[k]? = some fp) (hk' : footprints'[k]? = some fp') (hl : LiveIn usr fp) :
    LiveIn usr fp' := by
  obtain ⟨va, hm, hva, hu⟩ := hl
  obtain ⟨n, hn'⟩ := List.mem_iff_getElem?.mp hm
  have hkeep {is : List Nat} (hi : n ∉ is) : va ∈ clearAt VarAccess.nullify is fp :=
    List.mem_of_getElem? (i := n) (by rw [clearAt_getElem?, hn', Option.map_some, if_neg hi])
  refine ⟨va, ?_, hva, hu⟩
  by_cases hi : k = c.i
  · subst hi
    rw [h.left, Option.some.injEq] at hk
    subst hk
    rw [h.getElem_left, Option.some.injEq] at hk'
    subst hk'
    refine hkeep fun hmem => hn ?_
    obtain ⟨p, hp, rfl⟩ := List.mem_map.mp hmem
    obtain ⟨r, hr⟩ := verdictOf_of_mem_matched hp
    have hx := (verdictOf_eq_some.mp hr).1
    rw [hn', Option.some.injEq] at hx
    exact ⟨judge, h.judged, p, r, hr, hx ▸ hu⟩
  · by_cases hj : k = c.j
    · subst hj
      rw [h.right, Option.some.injEq] at hk
      subst hk
      rw [h.getElem_right, Option.some.injEq] at hk'
      subst hk'
      refine hkeep fun hmem => hn ?_
      obtain ⟨p, hp, rfl⟩ := List.mem_map.mp hmem
      obtain ⟨r, hr⟩ := verdictOf_of_mem_matched hp
      obtain ⟨-, hy, -, -, heq, -⟩ := verdictOf_eq_some.mp hr
      rw [hn', Option.some.injEq] at hy
      exact ⟨judge, h.judged, p, r, hr, (usr_right heq).trans (hy ▸ hu)⟩
    · rw [h.getElem_other hi hj, hk, Option.some.injEq] at hk'
      exact hk' ▸ hm

theorem not_liveIn_both (usr : String) (h : CallEffect moves lockPairArray footprints c a b judge footprints' reports)
    (htrack : c.trackLocking = false) {a' b' : List VarAccess} (ha : footprints'[c.i]? = some a')
    (hb : footprints'[c.j]? = some b') : ¬ (LiveIn usr a' ∧ LiveIn usr b') := by
  rintro ⟨⟨x, hx, hlx, hux⟩, y, hy, hly, huy⟩
  rw [h.getElem_left, Option.some.injEq] at ha
  rw [h.getElem_right, Option.some.injEq] at hb
  subst ha hb
  obtain ⟨k, hk⟩ := List.mem_iff_getElem?.mp hx
  obtain ⟨l, hl⟩ := List.mem_iff_getElem?.mp hy
  have hjudge : judge = fun _ _ => some .variableOverlap := by
    have hjudged := h.judged
    rw [htrack] at hjudged
    exact (Option.some.inj hjudged).symm
  have hnone := Library.Reports.judge_of_unmatched VarAccess.nullify_live hk hl hlx hly
    ((equalVarAccesses_iff x y).mpr ⟨usr, hux, huy⟩)
  rw [hjudge] at hnone
  cases hnone

/-- Before the call on two functions, what the calls before it have left. -/
def JudgedBefore (moves : Nat → Bool) (lockPairArray : List LockPrimitivePair)
    (footprints : List (List VarAccess)) (pre : List Call) (c : Call) (usr : String) : Prop :=
  ∃ mid rs a b, runCalls moves lockPairArray footprints pre = some (mid, rs) ∧ mid[c.i]? = some a ∧
    mid[c.j]? = some b ∧ Judged moves lockPairArray c.trackLocking usr a b

/-- A run reports a variable between two functions exactly if one of its calls
on them finds a pair it judges so. -/
theorem reported_iff {cs : List Call}
    (h : runCalls moves lockPairArray footprints cs = some (footprints', reports)) {i j : Nat} :
    Reported reports usr i j ↔ ∃ pre c post, cs = pre ++ c :: post ∧ Between c i j ∧
      JudgedBefore moves lockPairArray footprints pre c usr := by
  constructor
  · rintro ⟨r, hr, hb, hu⟩
    induction cs generalizing footprints reports with
    | nil =>
        cases h
        simp at hr
    | cons c cs ih =>
        obtain ⟨mid, rs, rs', hc, hrest, rfl⟩ := runCalls_cons h
        obtain ⟨a, b, judge, he⟩ := runCall_effect hc
        rcases List.mem_append.mp hr with hr | hr
        · refine ⟨[], c, cs, rfl, ?_, footprints, [], a, b, rfl, he.left, he.right,
            (call_reports_iff he).mp ⟨r, hr, hu⟩⟩
          obtain ⟨p, -, v, -, rfl⟩ := he.mem_reports.mp hr
          exact hb
        · obtain ⟨pre, d, post, rfl, hd, mid', ms, a', b', hm, ha', hb', hj⟩ := ih hrest hr
          exact ⟨c :: pre, d, post, rfl, hd, mid', rs ++ ms, a', b', by simp [runCalls, hc, hm], ha', hb', hj⟩
  · rintro ⟨pre, c, post, rfl, hc, mid, ms, a, b, hm, ha, hb, hj⟩
    obtain ⟨mid', rs, rs', hpre, hrest, rfl⟩ := runCalls_append h
    obtain rfl : mid' = mid := by rw [hm] at hpre; cases hpre; rfl
    obtain ⟨next, ns, ns', hcall, -, rfl⟩ := runCalls_cons hrest
    obtain ⟨a', b', judge, he⟩ := runCall_effect hcall
    obtain rfl : a = a' := by rw [he.left] at ha; exact (Option.some.inj ha).symm
    obtain rfl : b = b' := by rw [he.right] at hb; exact (Option.some.inj hb).symm
    obtain ⟨r, hr, hu⟩ := (call_reports_iff he).mpr hj
    refine ⟨r, by simp [hr], ?_, hu⟩
    obtain ⟨p, -, v, -, rfl⟩ := he.mem_reports.mp hr
    exact hc

def LiveInTwo (footprints : List (List VarAccess)) : Prop :=
  ∀ (usr : String) (i j k : Nat) fi fj fk, i ≠ j → i ≠ k → j ≠ k → footprints[i]? = some fi → footprints[j]? = some fj →
    footprints[k]? = some fk → ¬ (LiveIn usr fi ∧ LiveIn usr fj ∧ LiveIn usr fk)

theorem LiveIn.of_run {cs : List Call}
    (h : runCalls moves lockPairArray footprints cs = some (footprints', reports))
    (hcs : ∀ c ∈ cs, c.trackLocking = false ∧
      ((∃ fp, footprints[c.i]? = some fp ∧ ¬ LiveIn usr fp) ∨ ∃ fp, footprints[c.j]? = some fp ∧ ¬ LiveIn usr fp))
    {k : Nat} {fp fp' : List VarAccess} (hk : footprints[k]? = some fp) (hk' : footprints'[k]? = some fp')
    (hl : LiveIn usr fp) : LiveIn usr fp' := by
  induction cs generalizing footprints reports fp with
  | nil =>
      cases h
      rw [hk, Option.some.injEq] at hk'
      exact hk' ▸ hl
  | cons c cs ih =>
      obtain ⟨mid, rs, rs', hc, hrest, -⟩ := runCalls_cons h
      obtain ⟨a, b, judge, he⟩ := runCall_effect hc
      have hn : ¬ Judged moves lockPairArray c.trackLocking usr a b := by
        obtain ⟨htrack, hout⟩ := hcs c List.mem_cons_self
        rw [htrack, judged_overlap_iff]
        rintro ⟨hla, hlb⟩
        rcases hout with ⟨fp, hfp, hnl⟩ | ⟨fp, hfp, hnl⟩
        · rw [he.left, Option.some.injEq] at hfp
          exact hnl (hfp ▸ hla)
        · rw [he.right, Option.some.injEq] at hfp
          exact hnl (hfp ▸ hlb)
      obtain ⟨fp₁, hk₁, -⟩ := he.faded hk
      have hfade {n : Nat} : (∃ fp, footprints[n]? = some fp ∧ ¬ LiveIn usr fp) →
          ∃ fp, mid[n]? = some fp ∧ ¬ LiveIn usr fp := by
        rintro ⟨g, hg, hng⟩
        obtain ⟨g', hg', hf⟩ := he.faded hg
        exact ⟨g', hg', fun hl => hng (hl.of_faded hf)⟩
      exact ih hrest (fun d hd => ⟨(hcs d (List.mem_cons_of_mem _ hd)).1,
        (hcs d (List.mem_cons_of_mem _ hd)).2.imp hfade hfade⟩) hk₁ (.of_not_judged he hn hk hk₁ hl)

theorem exists_first {α : Type} {P : α → Prop} {l : List α} (h : ∃ a ∈ l, P a) :
    ∃ pre a post, l = pre ++ a :: post ∧ P a ∧ ∀ b ∈ pre, ¬ P b := by
  induction l with
  | nil => simp at h
  | cons a l ih =>
      by_cases ha : P a
      · exact ⟨[], a, l, rfl, ha, by simp⟩
      · obtain ⟨b, hb, hp⟩ := h
        have hm : b ∈ l := (List.mem_cons.mp hb).resolve_left fun he => ha (he ▸ hp)
        obtain ⟨pre, c, post, rfl, hc, hpre⟩ := ih ⟨b, hm, hp⟩
        refine ⟨a :: pre, c, post, rfl, hc, fun d hd => ?_⟩
        rcases List.mem_cons.mp hd with rfl | hd
        · exact ha
        · exact hpre d hd

def LiveBoth (usr : String) (footprints : List (List VarAccess)) (c : Call) : Prop :=
  ∃ a b, footprints[c.i]? = some a ∧ footprints[c.j]? = some b ∧ LiveIn usr a ∧ LiveIn usr b

theorem reported_of_liveInTwo (hrun : runCalls moves lockPairArray footprints
      (pairCalls false footprints.length) = some (footprints', reports))
    (htwo : LiveInTwo footprints) {i j : Nat} {a b : List VarAccess} (hij : i ≠ j)
    (ha : footprints[i]? = some a) (hb : footprints[j]? = some b) (hla : LiveIn usr a) (hlb : LiveIn usr b) :
    Reported reports usr i j := by
  have hi := (List.getElem?_eq_some_iff.mp ha).1
  have hj := (List.getElem?_eq_some_iff.mp hb).1
  obtain ⟨pre, c, post, hcs, hc, hpre⟩ := exists_first
    (P := fun c => Between c i j) ⟨⟨false, i, j, hij⟩, mem_pairCalls.mpr ⟨rfl, hi, hj⟩, .inl ⟨rfl, rfl⟩⟩
  have hmem {d : Call} (hd : d ∈ pre ∨ d = c) : d ∈ pairCalls false footprints.length := by
    rw [hcs, List.mem_append, List.mem_cons]
    exact hd.imp_right .inl
  obtain ⟨mid, rs, rs', hmid, -, -⟩ := runCalls_append (hcs ▸ hrun)
  -- every earlier call has a function besides these two, where the variable is not live
  have hout : ∀ d ∈ pre, d.trackLocking = false ∧
      ((∃ fp, footprints[d.i]? = some fp ∧ ¬ LiveIn usr fp) ∨
        ∃ fp, footprints[d.j]? = some fp ∧ ¬ LiveIn usr fp) := by
    intro d hd
    obtain ⟨htrack, hdi, hdj⟩ := mem_pairCalls.mp (hmem (.inl hd))
    have hthird {k : Nat} (hk : k < footprints.length) (hki : i ≠ k) (hkj : j ≠ k) :
        ∃ fp, footprints[k]? = some fp ∧ ¬ LiveIn usr fp :=
      ⟨footprints[k], List.getElem?_eq_getElem hk, fun hl =>
        htwo usr i j k a b _ hij hki hkj ha hb (List.getElem?_eq_getElem hk) ⟨hla, hlb, hl⟩⟩
    have hnot := hpre d hd
    have hne := d.ne
    by_cases hdi' : i ≠ d.i ∧ j ≠ d.i
    · exact ⟨htrack, .inl (hthird hdi hdi'.1 hdi'.2)⟩
    · refine ⟨htrack, .inr (hthird hdj ?_ ?_)⟩
      · rintro rfl
        refine hnot (.inr ⟨?_, rfl⟩)
        by_contra hne'
        exact hdi' ⟨fun h => hne h.symm, fun h => hne' h.symm⟩
      · rintro rfl
        refine hnot (.inl ⟨?_, rfl⟩)
        by_contra hne'
        exact hdi' ⟨fun h => hne' h.symm, fun h => hne h.symm⟩
  have hstill {k : Nat} {fp : List VarAccess} (hk : footprints[k]? = some fp) (hl : LiveIn usr fp) :
      ∃ fp', mid[k]? = some fp' ∧ LiveIn usr fp' := by
    obtain ⟨fp', hk', -⟩ := runCalls_faded hmid hk
    exact ⟨fp', hk', .of_run hmid hout hk hk' hl⟩
  obtain ⟨a', ha', hla'⟩ := hstill ha hla
  obtain ⟨b', hb', hlb'⟩ := hstill hb hlb
  have htrack := (mem_pairCalls.mp (hmem (.inr rfl))).1
  refine (reported_iff hrun).mpr ⟨pre, c, post, hcs, hc, ?_⟩
  rcases hc with ⟨rfl, rfl⟩ | ⟨rfl, rfl⟩
  · exact ⟨mid, rs, a', b', hmid, ha', hb', htrack ▸ judged_overlap_iff.mpr ⟨hla', hlb'⟩⟩
  · exact ⟨mid, rs, b', a', hmid, hb', ha', htrack ▸ judged_overlap_iff.mpr ⟨hlb', hla'⟩⟩

/-- If all pairs of functions get their report, no variable is live in three of them:
the first call on two of the three leaves one of them without it. -/
theorem liveInTwo_of_reported (hrun : runCalls moves lockPairArray footprints
      (pairCalls false footprints.length) = some (footprints', reports))
    (hall : ∀ usr i j a b, i ≠ j → footprints[i]? = some a → footprints[j]? = some b →
      LiveIn usr a → LiveIn usr b → Reported reports usr i j) : LiveInTwo footprints := by
  rintro usr i j k fi fj fk hij hik hjk hi hj hk ⟨hli, hlj, hlk⟩
  have hlen {n : Nat} {fp : List VarAccess} (h : footprints[n]? = some fp) : n < footprints.length :=
    (List.getElem?_eq_some_iff.mp h).1
  obtain ⟨pre, c, post, hcs, ⟨a, b, ha, hb, hla, hlb⟩, hpre⟩ := exists_first (P := LiveBoth usr footprints)
    ⟨⟨false, i, j, hij⟩, mem_pairCalls.mpr ⟨rfl, hlen hi, hlen hj⟩, fi, fj, hi, hj, hli, hlj⟩
  have htrack : c.trackLocking = false := by
    have : c ∈ pairCalls false footprints.length := by rw [hcs]; simp
    exact (mem_pairCalls.mp this).1
  obtain ⟨mid, rs, rs', hmid, hrest, -⟩ := runCalls_append (hcs ▸ hrun)
  obtain ⟨next, ns, ns', hcall, -, -⟩ := runCalls_cons hrest
  obtain ⟨a₁, b₁, judge, he⟩ := runCall_effect hcall
  -- one of the three is none of the two functions of the first call
  obtain ⟨r, fr, hr, hlr, hri, hrj⟩ : ∃ r fr, footprints[r]? = some fr ∧ LiveIn usr fr ∧ c.i ≠ r ∧ c.j ≠ r := by
    by_cases h₁ : c.i ≠ i ∧ c.j ≠ i
    · exact ⟨i, fi, hi, hli, h₁⟩
    · by_cases h₂ : c.i ≠ j ∧ c.j ≠ j
      · exact ⟨j, fj, hj, hlj, h₂⟩
      · exact ⟨k, fk, hk, hlk, by omega, by omega⟩
  -- a later report on the spent function and the third one is impossible
  have hspent {q : Nat} {fq fq' : List VarAccess} (hq : footprints[q]? = some fq) (hlq : LiveIn usr fq)
      (hq' : next[q]? = some fq') (hgone : ¬ LiveIn usr fq') (hqr : q ≠ r)
      (hne : ∀ d, Between d q r → d ≠ c) : False := by
    obtain ⟨pre', d, post', hcs', hd, mid', ms, a', b', hmid', ha', hb', hj'⟩ :=
      (reported_iff hrun).mp (hall usr q r fq fr hqr hq hr hlq hlr)
    have hdm : d ∈ pairCalls false footprints.length := by rw [hcs']; simp
    have hlive : LiveIn usr a' ∧ LiveIn usr b' := by
      rw [(mem_pairCalls.mp hdm).1, judged_overlap_iff] at hj'
      exact hj'
    have hsplit := hcs.symm.trans hcs'
    rcases List.append_eq_append_iff.mp hsplit with ⟨l, hl, hl'⟩ | ⟨l, hl, hl'⟩
    · cases l with
      | nil => exact hne d hd (List.cons.inj hl').1.symm
      | cons e l =>
          obtain ⟨rfl, -⟩ := List.cons.inj hl'
          rw [hl] at hmid'
          obtain ⟨mid₂, ms₂, ms₂', hm₂, hrest₂, -⟩ := runCalls_append hmid'
          obtain rfl : mid = mid₂ := by rw [hmid] at hm₂; cases hm₂; rfl
          obtain ⟨next₂, ns₂, ns₂', hcall₂, hlast, -⟩ := runCalls_cons hrest₂
          obtain rfl : next = next₂ := by rw [hcall] at hcall₂; cases hcall₂; rfl
          obtain ⟨fq₂, hq₂, hf⟩ := runCalls_faded hlast hq'
          refine hgone (LiveIn.of_faded ?_ hf)
          rcases hd with ⟨rfl, -⟩ | ⟨-, rfl⟩
          · rw [hq₂, Option.some.injEq] at ha'
            exact ha' ▸ hlive.1
          · rw [hq₂, Option.some.injEq] at hb'
            exact hb' ▸ hlive.2
    · cases l with
      | nil => exact hne d hd (List.cons.inj hl').1
      | cons e l =>
          obtain ⟨rfl, -⟩ := List.cons.inj hl'
          apply hpre d (by simp [hl])
          rcases hd with ⟨h₁, h₂⟩ | ⟨h₁, h₂⟩
          · exact ⟨fq, fr, h₁ ▸ hq, h₂ ▸ hr, hlq, hlr⟩
          · exact ⟨fr, fq, h₁ ▸ hr, h₂ ▸ hq, hlr, hlq⟩
  have hboth := not_liveIn_both usr he htrack he.getElem_left he.getElem_right
  have hnot {d : Call} {q : Nat} (hd : Between d q r) : d ≠ c := by
    rintro rfl
    rcases hd with ⟨-, h⟩ | ⟨h, -⟩
    · exact hrj h
    · exact hri h
  by_cases hleft : LiveIn usr (clearAt VarAccess.nullify ((matched judge a₁ b₁).map Prod.fst) a₁)
  · exact hspent hb hlb he.getElem_right (fun hr => hboth ⟨hleft, hr⟩) hrj fun _ hd => hnot hd
  · exact hspent ha hla he.getElem_left hleft hri fun _ hd => hnot hd

end Pairs

def writeBy (func usr : String) : VarAccess where
  usr := some usr
  name := some usr
  parentFuncName := func
  escFuncSpelling := none
  escFuncUsr := none
  escParamIdx := noIdx
  line := 1
  column := 1
  type := .write
  isPtrType := false

def threeWriters : List (List VarAccess) := [[writeBy "f" "x"], [writeBy "g" "x"], [writeBy "h" "x"]]

/-- The report on the first two functions uses up the variable of the first, so
the first and the third never get theirs. -/
theorem threeWriters_unreported :
    ∃ footprints' reports,
      compareAllFuncs (fun _ => true) defaultLockPairs false threeWriters = some (footprints', reports) ∧
      ¬ ∀ usr i j a b, i ≠ j → threeWriters[i]? = some a → threeWriters[j]? = some b →
        LiveIn usr a → LiveIn usr b → Reported reports usr i j := by
  have hrun : (compareAllFuncs (fun _ => true) defaultLockPairs false threeWriters).map Prod.snd =
      some [⟨0, 1, writeBy "f" "x", writeBy "g" "x", .variableOverlap⟩] := by decide +kernel
  obtain ⟨⟨footprints', reports⟩, h, rfl⟩ := Option.map_eq_some_iff.mp hrun
  refine ⟨footprints', _, h, fun hall => ?_⟩
  have hlive (func : String) : LiveIn "x" [writeBy func "x"] := ⟨_, List.mem_cons_self, rfl, rfl⟩
  obtain ⟨r, hr, hb, -⟩ := hall "x" 0 2 _ _ (by decide) rfl rfl (hlive "f") (hlive "h")
  simp only [List.mem_singleton] at hr
  subst hr
  simp at hb

end Prongc.PairReports
