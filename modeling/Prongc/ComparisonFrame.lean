import Mathlib.Data.List.Induction
import Prongc.PairReports

namespace Prongc.ComparisonFrame

open Access LockTracking Comparison PairReports Library.FirstFit

def AccessNulled (va va' : VarAccess) : Prop := va' = va ∨ (va.type.isAccess = true ∧ va' = va.nullify)

theorem AccessNulled.faded {va va' : VarAccess} (h : AccessNulled va va') : Faded va va' :=
  h.imp_right fun ⟨ha, he⟩ => ⟨VarAccess.live_of_isAccess ha, he⟩

theorem AccessNulled.trans {va va' va'' : VarAccess} (h : AccessNulled va va') (h' : AccessNulled va' va'') :
    AccessNulled va va'' := by
  rcases h with rfl | ⟨ha, rfl⟩
  · exact h'
  · rcases h' with rfl | ⟨ha', -⟩
    · exact .inr ⟨ha, rfl⟩
    · simp [VarAccessType.isAccess] at ha'

theorem annotateAt_congr {moves : Nat → Bool} {lockPairArray : List LockPrimitivePair}
    {fp fp' : List VarAccess} (hf : FadedFp fp fp') {va va' : VarAccess} (h : AccessNulled va va') (i : Nat)
    (st : ProtectionFieldArray × Nat) :
    annotateAt moves lockPairArray fp' st (va', i) = annotateAt moves lockPairArray fp st (va, i) := by
  rcases h with rfl | ⟨ha, rfl⟩
  · simp only [annotateAt, hf.startOfBranch]
  · cases hty : va.type <;> simp [hty, VarAccessType.isAccess] at ha <;> simp [annotateAt, hty]

/-- A footprint that has lost only variable accesses has the same lock ranges. -/
theorem annotate_congr (moves : Nat → Bool) (lockPairArray : List LockPrimitivePair)
    {fp fp' : List VarAccess} (h : List.Forall₂ AccessNulled fp fp') :
    annotateLockProtectionRanges moves lockPairArray fp' = annotateLockProtectionRanges moves lockPairArray fp := by
  have hf : FadedFp fp fp' := h.imp fun _ _ => AccessNulled.faded
  suffices hs : ∀ {l l' : List VarAccess}, List.Forall₂ AccessNulled l l' → ∀ n st,
      (l'.zipIdx n).foldlM (annotateAt moves lockPairArray fp') st =
        (l.zipIdx n).foldlM (annotateAt moves lockPairArray fp) st by
    unfold annotateLockProtectionRanges
    rw [hs h]
  intro l l' hl
  induction hl with
  | nil => intro n st; rfl
  | cons hv _ ih =>
      intro n st
      rw [List.zipIdx_cons, List.zipIdx_cons, List.foldlM_cons, List.foldlM_cons, annotateAt_congr hf hv]
      exact congrArg _ (funext fun st' => ih (n + 1) st')

/-- What the comparisons made so far have left alone: lock and branch entries
are as built, reports are about variable accesses, and lock ranges are the same. -/
structure StructureKept (moves : Nat → Bool) (lockPairArray : List LockPrimitivePair)
    (built now : List (List VarAccess)) (reports : List Report) : Prop where
  entries : List.Forall₂ (List.Forall₂ AccessNulled) built now
  reports : ∀ r ∈ reports, r.vaI.type.isAccess = true ∧ r.vaJ.type.isAccess = true
  ranges : ∀ (f : Nat) fp fp', built[f]? = some fp → now[f]? = some fp' →
    annotateLockProtectionRanges moves lockPairArray fp' = annotateLockProtectionRanges moves lockPairArray fp

/-- Each lock and unlock entry of the one footprint has as many live entries of its object before it as the other
footprint has in all. -/
def LocksOutranked (a b : List VarAccess) : Prop :=
  ∀ (k : Nat) va, a[k]? = some va → va.type = .lockAcquire ∨ va.type = .lockRelease →
    (classOf VarAccess.live equalVarAccesses va b).length ≤ rank VarAccess.live equalVarAccesses a k va

/-- No lock or unlock entry is judged badly protected with a live entry of its object in the other footprint. -/
def LocksGuarded (moves : Nat → Bool) (lockPairArray : List LockPrimitivePair) (a b : List VarAccess) : Prop :=
  ∀ arrA arrB, annotateLockProtectionRanges moves lockPairArray a = some arrA →
    annotateLockProtectionRanges moves lockPairArray b = some arrB →
    ∀ (k l : Nat) x y, a[k]? = some x → b[l]? = some y → x.live = true → y.live = true →
      equalVarAccesses x y = true → badProtection arrA arrB k l = true →
      x.type.isAccess = true ∧ y.type.isAccess = true

/-- What the footprints must be like before a call, so that it leaves locks and branches alone. -/
def LocksSafe (moves : Nat → Bool) (lockPairArray : List LockPrimitivePair) (footprints : List (List VarAccess))
    (c : Call) : Prop :=
  ∀ a b, footprints[c.i]? = some a → footprints[c.j]? = some b →
    if c.trackLocking then LocksGuarded moves lockPairArray a b else LocksOutranked a b ∧ LocksOutranked b a

section Runs

variable {moves : Nat → Bool} {lockPairArray : List LockPrimitivePair}
  {footprints footprints' built : List (List VarAccess)} {c : Call} {reports : List Report}
  {a b : List VarAccess} {judge : Nat → Nat → Option ReportKind}

theorem forall₂_of_getElem? {α β : Type} {R : α → β → Prop} {l : List α} {l' : List β}
    (hlen : l.length = l'.length) (h : ∀ (k : Nat) x y, l[k]? = some x → l'[k]? = some y → R x y) :
    List.Forall₂ R l l' :=
  List.forall₂_iff_get.mpr ⟨hlen, fun k hk hk' =>
    h k _ _ (List.getElem?_eq_getElem hk) (List.getElem?_eq_getElem hk')⟩

theorem getElem?_of_forall₂ {α β : Type} {R : α → β → Prop} {l : List α} {l' : List β}
    (h : List.Forall₂ R l l') {k : Nat} {x : α} {y : β} (hx : l[k]? = some x) (hy : l'[k]? = some y) : R x y := by
  obtain ⟨hk, rfl⟩ := List.getElem?_eq_some_iff.mp hx
  obtain ⟨hk', rfl⟩ := List.getElem?_eq_some_iff.mp hy
  exact (List.forall₂_iff_get.mp h).2 k hk hk'

theorem StructureKept.of_entries (h : List.Forall₂ (List.Forall₂ AccessNulled) built footprints)
    (hr : ∀ r ∈ reports, r.vaI.type.isAccess = true ∧ r.vaJ.type.isAccess = true) :
    StructureKept moves lockPairArray built footprints reports :=
  ⟨h, hr, fun _ _ _ hfp hfp' => annotate_congr moves lockPairArray (getElem?_of_forall₂ h hfp hfp')⟩

theorem forall₂_clearAt {is : List Nat} {fp : List VarAccess}
    (h : ∀ i ∈ is, ∀ va, fp[i]? = some va → va.type.isAccess = true) :
    List.Forall₂ AccessNulled fp (clearAt VarAccess.nullify is fp) := by
  refine forall₂_of_getElem? (by simp) fun k va va' hk hk' => ?_
  rw [clearAt_getElem?, hk, Option.map_some, Option.some.injEq] at hk'
  subst hk'
  split_ifs with hm
  · exact .inr ⟨h k hm va hk, rfl⟩
  · exact .inl rfl

theorem judge_overlap (h : judgeOf moves lockPairArray false a b = some judge) (k l : Nat) :
    judge k l = some .variableOverlap := by
  obtain rfl := Option.some.inj h
  rfl

theorem protectionReport_isSome (arrA arrB : ProtectionFieldArray) (k l : Nat) :
    (protectionReport arrA arrB k l).isSome = badProtection arrA arrB k l := by
  rw [protectionReport]
  cases badProtection arrA arrB k l with
  | false => rfl
  | true =>
      rw [if_pos rfl]
      split <;> rfl

theorem judgeOf_tracked (h : judgeOf moves lockPairArray true a b = some judge) :
    ∃ arrA arrB, annotateLockProtectionRanges moves lockPairArray a = some arrA ∧
      annotateLockProtectionRanges moves lockPairArray b = some arrB ∧ judge = protectionReport arrA arrB := by
  simp only [judgeOf, if_true, Option.bind_eq_bind, Option.bind_eq_some_iff, Option.some.injEq] at h
  obtain ⟨arrA, hA, arrB, hB, hjudge⟩ := h
  exact ⟨arrA, arrB, hA, hB, hjudge.symm⟩

/-- An overlap call leaves an entry alone exactly if enough of its variable stand before it. -/
theorem overlap_left_iff (hjudge : judgeOf moves lockPairArray false a b = some judge) {k : Nat} {va : VarAccess}
    (hva : a[k]? = some va) (hlive : va.live = true) : (∃ p ∈ matched judge a b, p.1 = k) ↔
      rank VarAccess.live equalVarAccesses a k va < (classOf VarAccess.live equalVarAccesses va b).length :=
  exists_mem_matching_left_iff equalVarAccesses_symm equalVarAccesses_trans (by simp [judge_overlap hjudge]) hva hlive

theorem overlap_right_iff (hjudge : judgeOf moves lockPairArray false a b = some judge) {k : Nat} {va : VarAccess}
    (hva : b[k]? = some va) (hlive : va.live = true) : (∃ p ∈ matched judge a b, p.2 = k) ↔
      rank VarAccess.live equalVarAccesses b k va < (classOf VarAccess.live equalVarAccesses va a).length := by
  have hall : ∀ i j, (judge i j).isSome = true := by simp [judge_overlap hjudge]
  rw [matched, exists_mem_matching_swap equalVarAccesses_symm equalVarAccesses_trans hall]
  exact exists_mem_matching_left_iff equalVarAccesses_symm equalVarAccesses_trans hall hva hlive

theorem locksGuarded_iff : LocksGuarded moves lockPairArray a b ↔
    ∀ judge ∈ judgeOf moves lockPairArray true a b, ∀ p ∈ indexPairs a.length b.length,
      ∀ v ∈ verdictOf judge a b p, v.1.type.isAccess = true ∧ v.2.1.type.isAccess = true := by
  constructor
  · intro h judge hjudge p _ v hv
    obtain ⟨arrA, arrB, hA, hB, rfl⟩ := judgeOf_tracked hjudge
    obtain ⟨hx, hy, hlx, hly, hsame, hkind⟩ := verdictOf_eq_some.mp hv
    apply h arrA arrB hA hB p.1 p.2 _ _ hx hy hlx hly hsame
    rw [← protectionReport_isSome, hkind]
    rfl
  · intro h arrA arrB hA hB k l x y hx hy hlx hly hsame hbad
    rw [← protectionReport_isSome] at hbad
    obtain ⟨kind, hkind⟩ := Option.isSome_iff_exists.mp hbad
    exact h _ (by rw [judgeOf, if_pos rfl, hA, hB]; rfl) (k, l)
      (mem_indexPairs.mpr ⟨(List.getElem?_eq_some_iff.mp hx).1, (List.getElem?_eq_some_iff.mp hy).1⟩) (x, y, kind)
      (verdictOf_eq_some.mpr ⟨hx, hy, hlx, hly, hsame, hkind⟩)

instance : Decidable (LocksGuarded moves lockPairArray a b) := decidable_of_iff' _ locksGuarded_iff

theorem locksSafe_of_guarded {i j : Nat} {hne : i ≠ j} (h : ∀ a ∈ footprints[i]?, ∀ b ∈ footprints[j]?,
    LocksGuarded moves lockPairArray a b) : LocksSafe moves lockPairArray footprints ⟨true, i, j, hne⟩ :=
  fun a b ha hb => h a ha b hb

theorem LocksSafe.pairs (h : LocksSafe moves lockPairArray footprints c)
    (he : CallEffect moves lockPairArray footprints c a b judge footprints' reports) {p : Nat × Nat}
    (hp : p ∈ matched judge a b) {x y : VarAccess} (hx : a[p.1]? = some x) (hy : b[p.2]? = some y) :
    x.type.isAccess = true ∧ y.type.isAccess = true := by
  obtain ⟨v, hv⟩ := verdictOf_of_mem_matched hp
  obtain ⟨hvx, hvy, hlx, hly, hsame, hkind⟩ := verdictOf_eq_some.mp hv
  obtain rfl := Option.some.inj (hx.symm.trans hvx)
  obtain rfl := Option.some.inj (hy.symm.trans hvy)
  have hsafe := h a b he.left he.right
  have hjudge := he.judged
  cases htrack : c.trackLocking with
  | true =>
      rw [htrack] at hsafe hjudge
      exact locksGuarded_iff.mp hsafe judge hjudge p (mem_indexPairs.mpr
        ⟨(List.getElem?_eq_some_iff.mp hx).1, (List.getElem?_eq_some_iff.mp hy).1⟩) v hv
  | false =>
      rw [htrack] at hsafe hjudge
      obtain ⟨hleft, hright⟩ := hsafe
      constructor
      · apply ((VarAccess.live_iff _).mp hlx).resolve_right
        intro hlock
        exact absurd ((overlap_left_iff hjudge hx hlx).mp ⟨p, hp, rfl⟩) (Nat.not_lt.mpr (hleft _ _ hx hlock))
      · apply ((VarAccess.live_iff _).mp hly).resolve_right
        intro hlock
        exact absurd ((overlap_right_iff hjudge hy hly).mp ⟨p, hp, rfl⟩) (Nat.not_lt.mpr (hright _ _ hy hlock))

theorem LocksSafe.call (h : LocksSafe moves lockPairArray footprints c)
    (he : CallEffect moves lockPairArray footprints c a b judge footprints' reports) :
    List.Forall₂ (List.Forall₂ AccessNulled) footprints footprints' ∧
      ∀ r ∈ reports, r.vaI.type.isAccess = true ∧ r.vaJ.type.isAccess = true := by
  have hpair {p : Nat × Nat} (hp : p ∈ matched judge a b) {x y : VarAccess} (hx : a[p.1]? = some x)
      (hy : b[p.2]? = some y) := h.pairs he hp hx hy
  have hleft : List.Forall₂ AccessNulled a (clearAt VarAccess.nullify ((matched judge a b).map Prod.fst) a) := by
    apply forall₂_clearAt
    intro i hi va hva
    obtain ⟨p, hp, rfl⟩ := List.mem_map.mp hi
    obtain ⟨v, hv⟩ := verdictOf_of_mem_matched hp
    exact (hpair hp hva (verdictOf_eq_some.mp hv).2.1).1
  have hright : List.Forall₂ AccessNulled b (clearAt VarAccess.nullify ((matched judge a b).map Prod.snd) b) := by
    apply forall₂_clearAt
    intro i hi va hva
    obtain ⟨p, hp, rfl⟩ := List.mem_map.mp hi
    obtain ⟨v, hv⟩ := verdictOf_of_mem_matched hp
    exact (hpair hp (verdictOf_eq_some.mp hv).1 hva).2
  constructor
  · refine forall₂_of_getElem? he.length.symm fun k fp fp' hk hk' => ?_
    by_cases hi : k = c.i
    · subst hi
      rw [he.left, Option.some.injEq] at hk
      rw [he.getElem_left, Option.some.injEq] at hk'
      subst hk hk'
      exact hleft
    · by_cases hj : k = c.j
      · subst hj
        rw [he.right, Option.some.injEq] at hk
        rw [he.getElem_right, Option.some.injEq] at hk'
        subst hk hk'
        exact hright
      · rw [he.getElem_other hi hj, hk, Option.some.injEq] at hk'
        exact hk' ▸ List.forall₂_same.mpr fun _ _ => .inl rfl
  · intro r hr
    obtain ⟨p, hp, v, hv, rfl⟩ := he.mem_reports.mp hr
    exact hpair hp (verdictOf_eq_some.mp hv).1 (verdictOf_eq_some.mp hv).2.1

/-- An overlap call that reports no lock entry was made on footprints that are safe for it. -/
theorem locksSafe_of_reports (htrack : c.trackLocking = false)
    (he : CallEffect moves lockPairArray footprints c a b judge footprints' reports)
    (hreports : ∀ r ∈ reports, r.vaI.type.isAccess = true ∧ r.vaJ.type.isAccess = true) :
    LocksSafe moves lockPairArray footprints c := by
  have hjudge := he.judged
  rw [htrack] at hjudge
  have hreported : ∀ p ∈ matched judge a b, ∀ x y, a[p.1]? = some x → b[p.2]? = some y →
      x.type.isAccess = true ∧ y.type.isAccess = true := by
    intro p hp x y hx hy
    obtain ⟨v, hv⟩ := verdictOf_of_mem_matched hp
    obtain ⟨hvx, hvy, -⟩ := verdictOf_eq_some.mp hv
    obtain rfl := Option.some.inj (hx.symm.trans hvx)
    obtain rfl := Option.some.inj (hy.symm.trans hvy)
    exact hreports _ (he.mem_reports.mpr ⟨p, hp, v, hv, rfl⟩)
  have hlock : ∀ va : VarAccess, va.type = .lockAcquire ∨ va.type = .lockRelease →
      va.live = true ∧ va.type.isAccess = false := by
    rintro va (hty | hty) <;> simp [VarAccess.live_iff, hty, VarAccessType.isAccess]
  intro a' b' ha hb
  obtain rfl := Option.some.inj (he.left.symm.trans ha)
  obtain rfl := Option.some.inj (he.right.symm.trans hb)
  rw [htrack]
  constructor
  · intro k va hk hty
    obtain ⟨hlive, hno⟩ := hlock va hty
    by_contra hlt
    obtain ⟨p, hp, rfl⟩ := (overlap_left_iff hjudge hk hlive).mpr (Nat.not_le.mp hlt)
    obtain ⟨v, hv⟩ := verdictOf_of_mem_matched hp
    have haccess := (hreported p hp _ _ hk (verdictOf_eq_some.mp hv).2.1).1
    rw [hno] at haccess
    cases haccess
  · intro k va hk hty
    obtain ⟨hlive, hno⟩ := hlock va hty
    by_contra hlt
    obtain ⟨p, hp, rfl⟩ := (overlap_right_iff hjudge hk hlive).mpr (Nat.not_le.mp hlt)
    obtain ⟨v, hv⟩ := verdictOf_of_mem_matched hp
    have haccess := (hreported p hp _ _ (verdictOf_eq_some.mp hv).1 hk).2
    rw [hno] at haccess
    cases haccess

def RunSafe (moves : Nat → Bool) (lockPairArray : List LockPrimitivePair) (built : List (List VarAccess))
    (cs : List Call) : Prop :=
  ∀ pre c post now reports, cs = pre ++ c :: post → runCalls moves lockPairArray built pre = some (now, reports) →
    LocksSafe moves lockPairArray now c

def RunKept (moves : Nat → Bool) (lockPairArray : List LockPrimitivePair) (built : List (List VarAccess))
    (cs : List Call) : Prop :=
  ∀ pre post now reports, cs = pre ++ post → runCalls moves lockPairArray built pre = some (now, reports) →
    StructureKept moves lockPairArray built now reports

theorem runSafe_nil : RunSafe moves lockPairArray built [] := by
  intro pre c post now reports hsplit
  simp at hsplit

theorem runSafe_cons {cs : List Call} (hc : LocksSafe moves lockPairArray built c)
    (hcs : ∀ next rs, runCall moves lockPairArray built c = some (next, rs) → RunSafe moves lockPairArray next cs) :
    RunSafe moves lockPairArray built (c :: cs) := by
  intro pre d post now reports hsplit hrun
  cases pre with
  | nil =>
      obtain ⟨rfl, rfl⟩ := List.cons.inj hsplit
      cases hrun
      exact hc
  | cons e pre =>
      obtain ⟨rfl, rfl⟩ := List.cons.inj hsplit
      obtain ⟨next, rs, rs', hcall, hrest, -⟩ := runCalls_cons hrun
      exact hcs next rs hcall pre d post now rs' rfl hrest

theorem RunSafe.kept {cs : List Call} (h : RunSafe moves lockPairArray built cs) :
    RunKept moves lockPairArray built cs := by
  -- a reached state is the last one of a shorter run and one call more
  intro pre
  induction pre using List.reverseRecOn with
  | nil =>
      intro post now reports _ hrun
      cases hrun
      exact .of_entries (List.forall₂_same.mpr fun _ _ => List.forall₂_same.mpr fun _ _ => .inl rfl)
        (fun r hr => by simp at hr)
  | append_singleton pre c ih =>
      intro post now reports hsplit hrun
      obtain ⟨mid, rs, rs', hpre, hlast, rfl⟩ := runCalls_append hrun
      obtain ⟨next, ns, ns', hcall, hnil, rfl⟩ := runCalls_cons hlast
      cases hnil
      obtain ⟨a, b, judge, he⟩ := runCall_effect hcall
      have hkept := ih (c :: post) mid rs (by simp [hsplit]) hpre
      obtain ⟨hentries, hreports⟩ := (h pre c post mid rs (by simp [hsplit]) hpre).call he
      refine .of_entries (forall₂_trans (R := List.Forall₂ AccessNulled)
        (fun _ _ _ => forall₂_trans (R := AccessNulled) fun _ _ _ => AccessNulled.trans) hkept.entries hentries) ?_
      intro r hr
      simp only [List.append_nil, List.mem_append] at hr
      exact hr.elim (hkept.reports r) (hreports r)

theorem RunKept.safe {cs : List Call} (hdefined : (runCalls moves lockPairArray built cs).isSome)
    (htrack : ∀ c ∈ cs, c.trackLocking = false) (h : RunKept moves lockPairArray built cs) :
    RunSafe moves lockPairArray built cs := by
  intro pre c post now reports hsplit hrun
  obtain ⟨⟨last, all⟩, hall⟩ := Option.isSome_iff_exists.mp hdefined
  obtain ⟨now', rs, rs', hpre, hrest, -⟩ := runCalls_append (hsplit ▸ hall)
  obtain rfl : now = now' := by rw [hrun] at hpre; cases hpre; rfl
  obtain ⟨next, ns, ns', hcall, -, -⟩ := runCalls_cons hrest
  obtain ⟨a, b, judge, he⟩ := runCall_effect hcall
  have hnext := h (pre ++ [c]) post next _ (by simp [hsplit]) (runCalls_snoc hrun hcall)
  refine locksSafe_of_reports (htrack c (by simp [hsplit])) he ?_
  intro r hr
  exact hnext.reports r (List.mem_append_right _ hr)

/-- The calls of a run leave locks, branches and lock ranges alone if each is made on footprints that are safe for
it; for calls of find_va_overlap this is also necessary. -/
theorem structure_kept (moves : Nat → Bool) (hann : AllAnnotatable lockPairArray built) {cs : List Call}
    (hcs : ∀ c ∈ cs, c.i < built.length ∧ c.j < built.length) :
    (runCalls moves lockPairArray built cs).isSome ∧
      (RunSafe moves lockPairArray built cs → RunKept moves lockPairArray built cs) ∧
      ((∀ c ∈ cs, c.trackLocking = false) →
        (RunKept moves lockPairArray built cs ↔ RunSafe moves lockPairArray built cs)) :=
  have hdefined := runCalls_isSome moves hann hcs
  ⟨hdefined, RunSafe.kept, fun htrack => ⟨RunKept.safe hdefined htrack, RunSafe.kept⟩⟩

end Runs

def acquireBy (func usr : String) : VarAccess :=
  { writeBy func usr with type := .lockAcquire, escFuncSpelling := some "pthread_mutex_lock", escParamIdx := 0 }

def twoAcquirers : List (List VarAccess) := [[acquireBy "f" "m"], [acquireBy "g" "m"]]

def releaseBy (func usr : String) : VarAccess :=
  { writeBy func usr with type := .lockRelease, escFuncSpelling := some "pthread_mutex_unlock", escParamIdx := 0 }

/-- Two functions that take and give back m; the one writes x in between, the other behind it. -/
def lockedAndBare : List (List VarAccess) :=
  [[acquireBy "f" "m", writeBy "f" "x", releaseBy "f" "m"], [acquireBy "g" "m", releaseBy "g" "m", writeBy "g" "x"]]

/-- What the first call on them leaves: the writes of x are reported. -/
def lockedAndBareLeft : List (List VarAccess) :=
  [[acquireBy "f" "m", (writeBy "f" "x").nullify, releaseBy "f" "m"],
    [acquireBy "g" "m", releaseBy "g" "m", (writeBy "g" "x").nullify]]

def lockedAndBareCalls : List Call := [⟨true, 0, 1, by decide⟩, ⟨true, 1, 0, by decide⟩]

theorem lockedAndBare_annotatable : AllAnnotatable defaultLockPairs lockedAndBare := by
  intro fp hfp
  have hno : ∀ fp ∈ lockedAndBare, ∀ va ∈ fp, va.type ≠ .ifStmt := by decide
  refine ⟨?_, ?_, fun k va hk hty => absurd hty (hno fp hfp va (List.mem_of_getElem? hk))⟩
  · revert fp
    decide +kernel
  · revert fp
    decide +kernel

/-- Two acquisitions of a lock are reported as an overlap of it, and both are nulled. -/
theorem twoAcquirers_nulled :
    ∃ now reports, runCalls (fun _ => true) defaultLockPairs twoAcquirers [⟨false, 0, 1, by decide⟩] =
        some (now, reports) ∧
      ¬ StructureKept (fun _ => true) defaultLockPairs twoAcquirers now reports := by
  have hrun : (runCalls (fun _ => true) defaultLockPairs twoAcquirers [⟨false, 0, 1, by decide⟩]).map Prod.snd =
      some [⟨0, 1, acquireBy "f" "m", acquireBy "g" "m", .variableOverlap⟩] := by decide +kernel
  obtain ⟨⟨now, reports⟩, h, rfl⟩ := Option.map_eq_some_iff.mp hrun
  refine ⟨now, _, h, fun hkept => ?_⟩
  have hr := (hkept.reports _ List.mem_cons_self).1
  simp [acquireBy, VarAccessType.isAccess] at hr

theorem lockedAndBare_safe : RunSafe (fun _ => true) defaultLockPairs lockedAndBare lockedAndBareCalls := by
  have hcall : (runCall (fun _ => true) defaultLockPairs lockedAndBare ⟨true, 0, 1, by decide⟩).map Prod.fst =
      some lockedAndBareLeft := by decide +kernel
  refine runSafe_cons ?_ fun next rs hnext => ?_
  · exact locksSafe_of_guarded (by decide +kernel)
  · rw [hnext, Option.map_some, Option.some.injEq] at hcall
    subst hcall
    refine runSafe_cons ?_ fun last rs' _ => runSafe_nil
    exact locksSafe_of_guarded (by decide +kernel)

theorem lockedAndBare_kept : RunKept (fun _ => true) defaultLockPairs lockedAndBare lockedAndBareCalls :=
  (structure_kept (fun _ => true) lockedAndBare_annotatable (by decide)).2.1 lockedAndBare_safe

end Prongc.ComparisonFrame
