import Prongc.Library.Reports
import Prongc.LocalReports
import Prongc.LockPaths

namespace Prongc.OnePair

open Access LockTracking Comparison PairReports LocalReports LockPaths Library.FirstFit Library.Reports

def usrCount (usr : String) (fp : List VarAccess) : Nat := fp.countP fun va => va.live && va.usr == some usr

def reportCount (usr : String) (st : State VarAccess ReportKind) : Nat :=
  st.reports.countP fun r => r.2.1.usr == some usr

structure PairsEntries (a b : List VarAccess) (st : State VarAccess ReportKind) : Prop where
  entries : ∀ r ∈ st.reports, a[r.1.1]? = some r.2.1 ∧ b[r.1.2]? = some r.2.2.1
  live : ∀ r ∈ st.reports, r.2.1.live = true ∧ r.2.2.1.live = true
  sameUsr : ∀ r ∈ st.reports, ∃ usr, r.2.1.usr = some usr ∧ r.2.2.1.usr = some usr
  once : (st.reports.map fun r => r.1.1).Nodup ∧ (st.reports.map fun r => r.1.2).Nodup

/-- The report is a maximum matching for each variable, and nothing is left to report. -/
structure MaximumMatching (a b : List VarAccess) (st : State VarAccess ReportKind) : Prop
    extends PairsEntries a b st where
  count : ∀ usr, reportCount usr st = min (usrCount usr a) (usrCount usr b)
  again : (findVaOverlap st.left st.right).reports = [] ∧ (findVaOverlap st.right st.left).reports = []

theorem pairsEntries (judge : Nat → Nat → Option ReportKind) (a b : List VarAccess) :
    PairsEntries a b (compareAll VarAccess.live equalVarAccesses VarAccess.nullify judge a b) := by
  have hverdict : ∀ r ∈ (compareAll VarAccess.live equalVarAccesses VarAccess.nullify judge a b).reports,
      _ := fun r hr => verdict_eq_some_iff.mp ((mem_reports_iff VarAccess.nullify_live).mp hr).2
  refine ⟨fun r hr => ?_, fun r hr => ?_, fun r hr => ?_, reports_nodup VarAccess.nullify_live⟩
  · obtain ⟨hx, hy, -⟩ := hverdict r hr
    exact ⟨hx, hy⟩
  · obtain ⟨-, -, ⟨hlx, hly, -⟩, -⟩ := hverdict r hr
    exact ⟨hlx, hly⟩
  · obtain ⟨-, -, ⟨-, -, hsame⟩, -⟩ := hverdict r hr
    exact (equalVarAccesses_iff _ _).mp hsame

/-- Entries a report is about count for the variable on both sides or on neither. -/
theorem PairsEntries.reportCount_eq {a b : List VarAccess} {st : State VarAccess ReportKind} (h : PairsEntries a b st)
    (usr : String) : (st.reports.countP fun r => r.2.1.live && r.2.1.usr == some usr) = reportCount usr st ∧
      (st.reports.countP fun r => r.2.2.1.live && r.2.2.1.usr == some usr) = reportCount usr st := by
  constructor
  · apply List.countP_congr
    intro r hr
    rw [(h.live r hr).1, Bool.true_and]
  · apply List.countP_congr
    intro r hr
    obtain ⟨v, hx, hy⟩ := h.sameUsr r hr
    rw [(h.live r hr).2, Bool.true_and, hx, hy]

theorem exists_of_usrCount {usr : String} {fp : List VarAccess} (h : 0 < usrCount usr fp) :
    ∃ (k : Nat) (va : VarAccess), fp[k]? = some va ∧ va.live = true ∧ va.usr = some usr := by
  obtain ⟨va, hmem, hva⟩ := List.countP_pos_iff.mp h
  obtain ⟨k, hk⟩ := List.mem_iff_getElem?.mp hmem
  obtain ⟨hlive, husr⟩ := (Bool.and_eq_true _ _).mp hva
  exact ⟨k, va, hk, hlive, beq_iff_eq.mp husr⟩

theorem overlap_apart (a b : List VarAccess) {i j : Nat} {x y : VarAccess}
    (hx : (findVaOverlap a b).left[i]? = some x) (hy : (findVaOverlap a b).right[j]? = some y)
    (hlx : x.live = true) (hly : y.live = true) : equalVarAccesses x y = false := by
  by_contra hsame
  cases judge_of_left VarAccess.nullify_live hx hy hlx hly ((Bool.not_eq_false _).mp hsame)

theorem reports_nil_of_apart {judge : Nat → Nat → Option ReportKind} {a b : List VarAccess}
    (h : ∀ (i j : Nat) (x y : VarAccess), a[i]? = some x → b[j]? = some y → x.live = true → y.live = true →
      equalVarAccesses x y = false) :
    (compareAll VarAccess.live equalVarAccesses VarAccess.nullify judge a b).reports = [] := by
  apply List.eq_nil_iff_forall_not_mem.mpr
  intro r hr
  obtain ⟨-, hverdict⟩ := (mem_reports_iff VarAccess.nullify_live).mp hr
  obtain ⟨hx, hy, ⟨hlx, hly, hsame⟩, -⟩ := verdict_eq_some_iff.mp hverdict
  rw [h _ _ _ _ hx hy hlx hly] at hsame
  cases hsame

theorem overlap_count (a b : List VarAccess) (usr : String) :
    reportCount usr (findVaOverlap a b) = min (usrCount usr a) (usrCount usr b) := by
  have hnull : ∀ va : VarAccess, (va.nullify.live && va.nullify.usr == some usr) = false := fun _ => rfl
  obtain ⟨hleft, hright⟩ := @compareAll_count VarAccess ReportKind VarAccess.live equalVarAccesses VarAccess.nullify
    (fun _ _ => some .variableOverlap) a b (fun va => va.live && va.usr == some usr) hnull
  obtain ⟨hcountA, hcountB⟩ := (pairsEntries (fun _ _ => some .variableOverlap) a b).reportCount_eq usr
  rw [hcountA] at hleft
  rw [hcountB] at hright
  change reportCount usr (findVaOverlap a b) + usrCount usr (findVaOverlap a b).left = usrCount usr a at hleft
  change reportCount usr (findVaOverlap a b) + usrCount usr (findVaOverlap a b).right = usrCount usr b at hright
  have hspent : usrCount usr (findVaOverlap a b).left = 0 ∨ usrCount usr (findVaOverlap a b).right = 0 := by
    by_contra hboth
    obtain ⟨hposA, hposB⟩ := not_or.mp hboth
    obtain ⟨i, x, hx, hlx, hux⟩ := exists_of_usrCount (Nat.pos_of_ne_zero hposA)
    obtain ⟨j, y, hy, hly, huy⟩ := exists_of_usrCount (Nat.pos_of_ne_zero hposB)
    have hsame := (equalVarAccesses_iff x y).mpr ⟨usr, hux, huy⟩
    rw [overlap_apart a b hx hy hlx hly] at hsame
    cases hsame
  omega

/-- find_va_overlap reports a maximum matching of each variable's entries. -/
theorem overlap_maximum (a b : List VarAccess) : MaximumMatching a b (findVaOverlap a b) := by
  refine ⟨pairsEntries _ a b, overlap_count a b, ?_, ?_⟩
  · exact reports_nil_of_apart fun _ _ _ _ hx hy => overlap_apart a b hx hy
  · refine reports_nil_of_apart fun i j x y hx hy hlx hly => Bool.eq_false_iff.mpr fun hsame => ?_
    have hflipped := equalVarAccesses_symm x y hsame
    rw [overlap_apart a b hy hx hly hlx] at hflipped
    cases hflipped

section Locks

variable {moves : Nat → Bool} {lockPairArray : List LockPrimitivePair} {a b : List VarAccess}
  {arrA arrB : ProtectionFieldArray}

def BadPair (arrA arrB : ProtectionFieldArray) (a b : List VarAccess) (usr : String) : Prop :=
  ∃ (i j : Nat) (x y : VarAccess), a[i]? = some x ∧ b[j]? = some y ∧ x.live = true ∧ y.live = true ∧
    x.usr = some usr ∧ y.usr = some usr ∧ badProtection arrA arrB i j = true

/-- Every variable with a badly protected pair of entries gets a report, and no other. -/
structure CompleteReport (arrA arrB : ProtectionFieldArray) (a b : List VarAccess)
    (st : State VarAccess ReportKind) : Prop extends PairsEntries a b st where
  bad : ∀ r ∈ st.reports, badProtection arrA arrB r.1.1 r.1.2 = true
  reported : ∀ usr, 0 < reportCount usr st ↔ BadPair arrA arrB a b usr

theorem protectionReport_isSome {i j : Nat} :
    (∃ kind, protectionReport arrA arrB i j = some kind) ↔ badProtection arrA arrB i j = true := by
  rw [protectionReport]
  constructor
  · rintro ⟨kind, hkind⟩
    by_contra hgood
    rw [if_neg hgood] at hkind
    cases hkind
  · intro hbad
    rw [if_pos hbad]
    split
    next => exact ⟨_, rfl⟩
    next => exact ⟨_, rfl⟩

theorem reportCount_pos {usr : String} {st : State VarAccess ReportKind} :
    0 < reportCount usr st ↔ ∃ r ∈ st.reports, r.2.1.usr = some usr := by
  rw [reportCount]
  simp only [List.countP_pos_iff, beq_iff_eq]

/-- A pair the loop comes too late for has an entry in a report on the same variable. -/
theorem reported_of_bad {usr : String} (h : BadPair arrA arrB a b usr) :
    ∃ r ∈ (compareAll VarAccess.live equalVarAccesses VarAccess.nullify (protectionReport arrA arrB) a b).reports,
      r.2.1.usr = some usr := by
  obtain ⟨i, j, x, y, hx, hy, hlx, hly, hux, huy, hbad⟩ := h
  obtain ⟨kind, hkind⟩ := protectionReport_isSome.mpr hbad
  have hverdict : verdict VarAccess.live equalVarAccesses (protectionReport arrA arrB) a b (i, j) = some (x, y, kind) :=
    verdict_eq_some_iff.mpr ⟨hx, hy, ⟨hlx, hly, (equalVarAccesses_iff x y).mpr ⟨usr, hux, huy⟩⟩, hkind⟩
  obtain ⟨q, hq, hshared⟩ := matching_maximal (Option.isSome_iff_exists.mpr ⟨_, hverdict⟩)
  obtain ⟨report, hreport⟩ := Option.isSome_iff_exists.mp (verdict_of_mem_matching hq)
  have hmem : (q, report) ∈
      (compareAll VarAccess.live equalVarAccesses VarAccess.nullify (protectionReport arrA arrB) a b).reports :=
    (mem_reports_iff VarAccess.nullify_live).mpr ⟨hq, hreport⟩
  refine ⟨(q, report), hmem, ?_⟩
  obtain ⟨hqx, hqy, ⟨-, -, hsame⟩, -⟩ := verdict_eq_some_iff.mp hreport
  obtain ⟨v, hvx, hvy⟩ := (equalVarAccesses_iff _ _).mp hsame
  rcases hshared with hshared | hshared
  · rw [hshared, hx] at hqx
    exact Option.some.inj hqx ▸ hux
  · rw [hshared, hy] at hqy
    obtain rfl := Option.some.inj hqy
    rw [hvx, ← hvy, huy]

/-- find_unprotected_va reports each variable with a badly protected pair. -/
theorem unprotected_complete (hA : annotateLockProtectionRanges moves lockPairArray a = some arrA)
    (hB : annotateLockProtectionRanges moves lockPairArray b = some arrB) :
    ∃ st, findUnprotectedVa moves lockPairArray a b = some st ∧ CompleteReport arrA arrB a b st := by
  refine ⟨compareAll VarAccess.live equalVarAccesses VarAccess.nullify (protectionReport arrA arrB) a b, ?_,
    pairsEntries _ a b, ?_, ?_⟩
  · rw [findUnprotectedVa, hA, hB]
    rfl
  · intro r hr
    obtain ⟨-, hverdict⟩ := (mem_reports_iff VarAccess.nullify_live).mp hr
    exact protectionReport_isSome.mp ⟨_, (verdict_eq_some_iff.mp hverdict).2.2.2⟩
  · intro usr
    rw [reportCount_pos]
    refine ⟨?_, reported_of_bad⟩
    rintro ⟨r, hr, husr⟩
    obtain ⟨-, hverdict⟩ := (mem_reports_iff VarAccess.nullify_live).mp hr
    obtain ⟨hx, hy, ⟨hlx, hly, hsame⟩, hjudged⟩ := verdict_eq_some_iff.mp hverdict
    obtain ⟨v, hvx, hvy⟩ := (equalVarAccesses_iff _ _).mp hsame
    rw [husr] at hvx
    exact ⟨r.1.1, r.1.2, _, _, hx, hy, hlx, hly, husr, hvx ▸ hvy, protectionReport_isSome.mp ⟨_, hjudged⟩⟩

def lockedFirst : List VarAccess := [lockOf "m", writeOf "x", unlockOf "m", writeOf "x"]

def lockedLast : List VarAccess := [writeOf "x", lockOf "m", writeOf "x", unlockOf "m", writeOf "x"]

/-- Each write under the lock is reported with one that is not. -/
theorem lockedOnce_complete : ∃ arrA arrB st,
    annotateLockProtectionRanges (fun _ => true) defaultLockPairs lockedFirst = some arrA ∧
    annotateLockProtectionRanges (fun _ => true) defaultLockPairs lockedLast = some arrB ∧
    findUnprotectedVa (fun _ => true) defaultLockPairs lockedFirst lockedLast = some st ∧
      st.reports.map Prod.fst = [(1, 0), (3, 2)] ∧ CompleteReport arrA arrB lockedFirst lockedLast st := by
  have hpairs : (findUnprotectedVa (fun _ => true) defaultLockPairs lockedFirst lockedLast).map
      (fun st => st.reports.map Prod.fst) = some [(1, 0), (3, 2)] := by
    decide +kernel
  obtain ⟨arrA, hA⟩ : ∃ arr, annotateLockProtectionRanges (fun _ => true) defaultLockPairs lockedFirst = some arr :=
    Option.isSome_iff_exists.mp (by decide +kernel)
  obtain ⟨arrB, hB⟩ : ∃ arr, annotateLockProtectionRanges (fun _ => true) defaultLockPairs lockedLast = some arr :=
    Option.isSome_iff_exists.mp (by decide +kernel)
  obtain ⟨st, hrun, hcomplete⟩ := unprotected_complete hA hB
  rw [hrun] at hpairs
  exact ⟨arrA, arrB, st, hA, hB, hrun, Option.some.inj hpairs, hcomplete⟩

end Locks

end Prongc.OnePair
