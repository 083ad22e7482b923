import Prongc.RangeFields

namespace Prongc.RangeOrder

open Access LockTracking LockRanges LockReach LockVerdict LockPaths AnnotationRun ElseBranch RangeFields
open Library.BranchMarkers

def ChainsOrdered (fields : List LockProtectionField) : Prop :=
  ∀ (i : Nat) f j, fields[i]? = some f → f.nextProtRange = some j →
    ∃ g e, fields[j]? = some g ∧ f.protectionRangeEnd = some e ∧ e ≤ g.protectionRangeStart

/-- Ranges start before they end and are ordered along their chains, and behind a release no range for the
lock covers what follows. -/
structure RangesOrdered (moves : Nat → Bool) (lockPairArray : List LockPrimitivePair) (fp : List VarAccess)
    (arr : ProtectionFieldArray) : Prop where
  start_le : ∀ f ∈ arr.lpFields, ∀ e, f.protectionRangeEnd = some e → f.protectionRangeStart ≤ e
  chains : ChainsOrdered arr.lpFields
  released : ∀ seen va rest usr st, fp = seen ++ va :: rest → va.type = .lockRelease → va.usr = some usr →
    stateAfter moves lockPairArray fp (seen ++ [va]) = some st → ∀ f ∈ st.1.lpFields,
      f.lockObjHash = lockTrackingGenHash usr → ∀ k, seen.length < k → inProtectionRange k f = false

/-- An if in front of the place was met while the lock was held, and no then-block since. -/
def SplitPending (fp : List VarAccess) (n : Nat) (objHash : UInt32) : Prop :=
  ∃ i < n, (∃ va, fp[i]? = some va ∧ va.type = .ifStmt) ∧
    (∀ m, i < m → m < n → ∀ va, fp[m]? = some va → va.type ≠ .thenBlock) ∧ heldAt fp i objHash = true

def ReleasedBehindSplits (fp : List VarAccess) (n : Nat) : Prop :=
  ∀ r < n, ∀ va, fp[r]? = some va → ∀ objHash, releases objHash va = true → ¬ SplitPending fp r objHash

section Bounds

variable {fp : List VarAccess} {n t : Nat} {va : VarAccess} {objHash : UInt32} {f : LockProtectionField}

def Reached (fp : List VarAccess) (n : Nat) (objHash : UInt32) (t : Nat) : Prop :=
  t < n ∨ (FirstThen fp n t ∧ SplitPending fp n objHash)

theorem not_then_of_firstThen (h : FirstThen fp n t) (hne : n ≠ t) (hva : fp[n]? = some va) :
    va.type ≠ .thenBlock :=
  h.first n (Nat.le_refl n) (Nat.lt_of_le_of_ne h.le hne) va hva

theorem SplitPending.next (h : SplitPending fp n objHash) (hthen : ∀ va, fp[n]? = some va → va.type ≠ .thenBlock) :
    SplitPending fp (n + 1) objHash := by
  obtain ⟨i, hi, hif, hquiet, hheld⟩ := h
  refine ⟨i, by omega, hif, fun m him hm va hva => ?_, hheld⟩
  rcases Nat.lt_or_eq_of_le (Nat.lt_succ_iff.mp hm) with hm | rfl
  · exact hquiet m him hm va hva
  · exact hthen va hva

/-- A pending split behind an entry was pending in front of it, or is made by it. -/
theorem SplitPending.prev (h : SplitPending fp (n + 1) objHash) (hva : fp[n]? = some va) :
    (va.type = .ifStmt ∧ heldAt fp n objHash = true) ∨ (va.type ≠ .thenBlock ∧ SplitPending fp n objHash) := by
  obtain ⟨i, hi, ⟨w, hw, hif⟩, hquiet, hheld⟩ := h
  rcases Nat.lt_or_eq_of_le (Nat.lt_succ_iff.mp hi) with hlt | rfl
  · refine .inr ⟨hquiet n hlt (Nat.lt_succ_self n) va hva, i, hlt, ⟨w, hw, hif⟩, fun m him hm => ?_, hheld⟩
    exact hquiet m him (Nat.lt_succ_of_lt hm)
  · obtain rfl := Option.some.inj (hva.symm.trans hw)
    exact .inl ⟨hif, hheld⟩

theorem Reached.next (h : Reached fp n objHash t) : Reached fp (n + 1) objHash t := by
  rcases h with hlt | ⟨hfirst, hpending⟩
  · exact .inl (by omega)
  · by_cases hne : n = t
    · exact .inl (by omega)
    · exact .inr ⟨hfirst.next hne, hpending.next fun va hva => not_then_of_firstThen hfirst hne hva⟩

structure Ordered (fp : List VarAccess) (n : Nat) (f : LockProtectionField) : Prop where
  start_le : ∀ e, f.protectionRangeEnd = some e → f.protectionRangeStart ≤ e
  start_reached : Reached fp n f.lockObjHash f.protectionRangeStart
  end_reached : ∀ e, f.protectionRangeEnd = some e → Reached fp n f.lockObjHash e
  last_ended : f.nextProtRange = none → ∀ e, f.protectionRangeEnd = some e → e < n

theorem Ordered.next (h : Ordered fp n f) : Ordered fp (n + 1) f :=
  ⟨h.start_le, h.start_reached.next, fun e he => (h.end_reached e he).next,
    fun hnext e he => Nat.lt_succ_of_lt (h.last_ended hnext e he)⟩

theorem Ordered.opened (fp : List VarAccess) (n : Nat) (pair : LockPrimitivePair) (usr : String) :
    Ordered fp (n + 1) (openedRange pair usr n) :=
  ⟨fun _ he => (by cases he), .inl (Nat.lt_succ_self n), fun _ he => (by cases he), fun _ _ he => (by cases he)⟩

theorem Ordered.closed (h : Ordered fp n f) (hclear : f.lockObjHash = objHash → ¬ SplitPending fp n objHash) :
    Ordered fp (n + 1) (closeField objHash n f) := by
  rw [closeField]
  split
  next hcond =>
    have hstart : f.protectionRangeStart < n := h.start_reached.resolve_right fun hpending =>
      hclear hcond.2 (hcond.2 ▸ hpending.2)
    refine ⟨fun e he => ?_, .inl (Nat.lt_succ_of_lt hstart), fun e he => ?_, fun _ e he => ?_⟩
    all_goals obtain rfl := Option.some.inj he
    · exact Nat.le_of_lt hstart
    · exact .inl (Nat.lt_succ_self n)
    · exact Nat.lt_succ_self n
  next => exact h.next

theorem Ordered.cut (h : Ordered fp (n + 1) f) {start : Nat} (hfound : FirstThen fp (n + 1) start)
    (hpending : SplitPending fp (n + 1) f.lockObjHash) (depth m : Nat) :
    Ordered fp (n + 1) (linkActive start depth m f) ∧ Ordered fp (n + 1) (uncapped start f) := by
  have hstart : f.protectionRangeStart ≤ start := by
    rcases h.start_reached with hlt | ⟨hfirst, -⟩
    · exact Nat.le_trans (Nat.le_of_lt hlt) hfound.le
    · exact Nat.le_of_eq (hfirst.unique hfound)
  refine ⟨⟨fun e he => ?_, h.start_reached, fun e he => ?_, fun hnext => by cases hnext⟩,
    ⟨fun _ he => (by cases he), .inr ⟨hfound, hpending⟩, fun _ he => (by cases he), fun _ _ he => (by cases he)⟩⟩
  · obtain rfl := Option.some.inj he
    exact hstart
  · obtain rfl := Option.some.inj he
    exact .inr ⟨hfound, hpending⟩

theorem Ordered.revived (h : Ordered fp (n + 1) f) (m : Nat) :
    Ordered fp (n + 1) (linkInactive m f) ∧ Ordered fp (n + 1) (uncapped n f) :=
  ⟨⟨h.start_le, h.start_reached, h.end_reached, fun hnext => by cases hnext⟩,
    ⟨fun _ he => (by cases he), .inl (Nat.lt_succ_self n), fun _ he => (by cases he), fun _ _ he => (by cases he)⟩⟩

end Bounds

section Chains

variable {moves : Nat → Bool} {fields fields' : List LockProtectionField} {arr : ProtectionFieldArray}

theorem ChainsOrdered.push (h : ChainsOrdered fields) {f : LockProtectionField} (hnext : f.nextProtRange = none) :
    ChainsOrdered (fields ++ [f]) := by
  intro i g j hg hj
  rcases Nat.lt_trichotomy i fields.length with hlt | rfl | hlt
  · rw [List.getElem?_append_left hlt] at hg
    obtain ⟨g', e, hg', he, hle⟩ := h i g j hg hj
    exact ⟨g', e, by rw [List.getElem?_append_left (List.getElem?_eq_some_iff.mp hg').1, hg'], he, hle⟩
  · obtain rfl := Option.some.inj (List.getElem?_concat_length.symm.trans hg)
    rw [hnext] at hj
    cases hj
  · rw [List.getElem?_eq_none (by rw [List.length_append, List.length_singleton]; omega)] at hg
    cases hg

theorem ChainsOrdered.closed (h : ChainsOrdered fields) (objHash : UInt32) (r : Nat) :
    ChainsOrdered (fields.map (closeField objHash r)) := by
  intro i f' j hf' hj
  rw [List.getElem?_map] at hf'
  obtain ⟨f, hf, rfl⟩ := Option.map_eq_some_iff.mp hf'
  rw [closeField_next] at hj
  obtain ⟨g, e, hg, he, hle⟩ := h i f j hf hj
  refine ⟨closeField objHash r g, e, by rw [List.getElem?_map, hg]; rfl, ?_, by rwa [closeField_start]⟩
  rw [closeField_end, if_neg (by simp [he]), he]

variable {test : LockProtectionField → Bool} {link : Nat → LockProtectionField → LockProtectionField}
  {start i : Nat}

theorem ChainsOrdered.copied (h : ChainsOrdered fields) (hcopied : Copied test link (uncapped start) fields i fields')
    (hstart : ∀ n f, (link n f).protectionRangeStart = f.protectionRangeStart)
    (hnext : ∀ n f, (link n f).nextProtRange = some n)
    (hend : ∀ f ∈ fields, test f = true → ∀ n, ∃ e, (link n f).protectionRangeEnd = some e ∧ e ≤ start) :
    ChainsOrdered fields' := by
  cases hcopied with
  | skipped _ => exact h
  | lost _ _ => exact h.push rfl
  | @linked f hf htest =>
      have hi := (List.getElem?_eq_some_iff.mp hf).1
      -- the successor keeps its start, also when it is itself linked
      have hat : ∀ {j : Nat} {g : LockProtectionField}, fields[j]? = some g → ∃ g', (fields.set i (link fields.length f) ++
          [uncapped start f])[j]? = some g' ∧ g'.protectionRangeStart = g.protectionRangeStart := by
        intro j g hg
        have hj := (List.getElem?_eq_some_iff.mp hg).1
        rw [List.getElem?_append_left (by rwa [List.length_set])]
        by_cases hij : i = j
        · subst hij
          obtain rfl := Option.some.inj (hf.symm.trans hg)
          exact ⟨_, List.getElem?_set_self hi, hstart _ _⟩
        · exact ⟨g, by rw [List.getElem?_set_ne hij, hg], rfl⟩
      intro k g j hg hj
      rcases Nat.lt_trichotomy k fields.length with hlt | rfl | hlt
      · rw [List.getElem?_append_left (by rwa [List.length_set])] at hg
        by_cases hik : i = k
        · subst hik
          obtain rfl := Option.some.inj ((List.getElem?_set_self hi).symm.trans hg)
          obtain rfl := Option.some.inj ((hnext _ _).symm.trans hj)
          obtain ⟨e, he, hle⟩ := hend f (List.mem_of_getElem? hf) htest fields.length
          refine ⟨uncapped start f, e, ?_, he, hle⟩
          rw [List.getElem?_append_right (by simp)]
          simp
        · rw [List.getElem?_set_ne hik] at hg
          obtain ⟨g', e, hg', he, hle⟩ := h k g j hg hj
          obtain ⟨g'', hg'', hsame⟩ := hat hg'
          exact ⟨g'', e, hg'', he, hsame ▸ hle⟩
      · rw [List.getElem?_append_right (by simp)] at hg
        obtain rfl : uncapped start f = g := by simpa using hg
        cases hj
      · rw [List.getElem?_eq_none (by rw [List.length_append, List.length_set, List.length_singleton]; omega)] at hg
        cases hg

theorem ChainsOrdered.split (h : ChainsOrdered arr.lpFields) (start depth : Nat) :
    ChainsOrdered (addProtectionRangeFieldsActive moves arr start depth).lpFields := by
  apply List.foldlRecOn (motive := fun a : ProtectionFieldArray => ChainsOrdered a.lpFields) _ _ h
  intro a ha i _
  exact ha.copied (splitActiveAt_copied _ _ i) (fun _ _ => rfl) (fun _ _ => rfl)
    fun f _ _ n => ⟨start, rfl, Nat.le_refl start⟩

theorem ChainsOrdered.revive (h : ChainsOrdered arr.lpFields) (start depth : Nat)
    (hlast : ∀ f ∈ arr.lpFields, f.nextProtRange = none → ∀ e, f.protectionRangeEnd = some e → e ≤ start) :
    ChainsOrdered (addProtectionRangeFieldsInactive moves arr start depth).lpFields := by
  have hrounds := List.foldlRecOn (motive := fun a : ProtectionFieldArray => ChainsOrdered a.lpFields ∧
    ∀ f ∈ a.lpFields, f.nextProtRange = none → ∀ e, f.protectionRangeEnd = some e → e ≤ start)
    (List.range arr.lpFields.length) (reviveInactiveAt moves start depth) ⟨h, hlast⟩ ?_
  · exact hrounds.1
  rintro a ⟨ha, hlast⟩ i _
  have hround := @reviveInactiveAt_copied moves a start depth i
  refine ⟨ha.copied hround (fun _ _ => rfl) (fun _ _ => rfl) fun f hf htest n => ?_,
    hround.forall (fun _ f _ _ hnone => by cases hnone) (fun f _ _ _ e he => by cases he) hlast⟩
  obtain ⟨hnone, hclosed, -⟩ := isInactive_iff.mp htest
  obtain ⟨e, he⟩ := Option.ne_none_iff_exists'.mp hclosed
  exact ⟨e, he, hlast f hf hnone e he⟩

end Chains

section Run

variable {moves : Nat → Bool} {lockPairArray : List LockPrimitivePair} {fp seen rest : List VarAccess}
  {va : VarAccess} {objHash : UInt32} {st st' : ProtectionFieldArray × Nat}

theorem ReleasedBehindSplits.mono {n m : Nat} (h : ReleasedBehindSplits fp n) (hle : m ≤ n) :
    ReleasedBehindSplits fp m :=
  fun r hr => h r (Nat.lt_of_lt_of_le hr hle)

theorem heldAt_append (seen rest : List VarAccess) (objHash : UInt32) :
    heldAt (seen ++ rest) seen.length objHash = (lockAfter seen objHash).held := by
  rw [heldAt, List.take_left]

/-- As long as no release comes too early, all ranges and chains are in order. -/
theorem stateAfter_ordered (hseen : seen <+: fp) (hst : stateAfter moves lockPairArray fp seen = some st)
    (hreleased : ReleasedBehindSplits fp seen.length) :
    (∀ f ∈ st.1.lpFields, Ordered fp seen.length f) ∧ ChainsOrdered st.1.lpFields := by
  revert hreleased
  refine stateAfter_rule (P := fun seen st => ReleasedBehindSplits fp seen.length →
    (∀ f ∈ st.1.lpFields, Ordered fp seen.length f) ∧ ChainsOrdered st.1.lpFields) ?_ ?_ hseen hst
  · exact fun _ => ⟨fun f hf => (by cases hf), fun i f j hf => (by cases hf)⟩
  intro seen va rest st st' hfp hst h hstep hreleased
  rw [List.length_append, List.length_singleton] at hreleased ⊢
  have hseen : seen <+: fp := ⟨va :: rest, hfp.symm⟩
  have hva : fp[seen.length]? = some va := by simp [hfp]
  obtain ⟨hordered, hchains⟩ := h (hreleased.mono (Nat.le_succ _))
  have hnext : ∀ f ∈ st.1.lpFields, Ordered fp (seen.length + 1) f := fun f hf => (hordered f hf).next
  cases hstep with
  | lockAcquire type named =>
      refine ⟨fun f hf => ?_, hchains.push rfl⟩
      rcases List.mem_append.mp hf with hf | hf
      · exact hnext f hf
      · rw [List.mem_singleton.mp hf]
        exact .opened fp _ _ _
  | @lockRelease usr type named =>
      rw [setProtectionRangeEnd_fields fun f hf => (stateAfter_tidy hseen hst f hf).tail]
      refine ⟨fun f' hf' => ?_, hchains.closed _ _⟩
      obtain ⟨f, hf, rfl⟩ := List.mem_map.mp hf'
      refine (hordered f hf).closed fun _ => hreleased _ (Nat.lt_succ_self _) va hva _ ?_
      simp [releases, type, named]
  | ifStmt type found =>
      refine ⟨?_, hchains.split _ _⟩
      have hfound := firstThen_of_startOfBranch found
      have hpending : ∀ f ∈ st.1.lpFields, f.protectionRangeEnd = none →
          SplitPending fp (seen.length + 1) f.lockObjHash := by
        intro f hf hopen
        refine ⟨seen.length, Nat.lt_succ_self _, ⟨va, hva, type⟩, fun m hlt hle => absurd hle (by omega), ?_⟩
        rw [hfp, heldAt_append, ← (stateAfter_knowsLocks hseen hst).held]
        exact ⟨f, hf, rfl, hopen⟩
      intro f hf
      refine (copies_forall (P := fun f => Ordered fp (seen.length + 1) f ∧
        (f.protectionRangeEnd = none → SplitPending fp (seen.length + 1) f.lockObjHash))
        (fun _ i => splitActiveAt_copied _ _ i) ?_ ?_ _ (fun f hf => ⟨hnext f hf, hpending f hf⟩) f hf).1
      · rintro n f ⟨h, hwait⟩ htest
        exact ⟨(h.cut hfound (hwait (Option.isNone_iff_eq_none.mp htest)) _ _).1, fun hnone => by cases hnone⟩
      · rintro f ⟨h, hwait⟩ htest
        have hwait := hwait (Option.isNone_iff_eq_none.mp htest)
        exact ⟨(h.cut hfound hwait 0 0).2, fun _ => hwait⟩
  | elseStmt type =>
      refine ⟨?_, hchains.revive _ _ fun f hf hnone e he =>
        Nat.le_of_lt ((hordered f hf).last_ended hnone e he)⟩
      exact copies_forall (fun _ i => reviveInactiveAt_copied _ _ i) (fun n f h _ => (h.revived n).1)
        (fun f h _ => (h.revived 0).2) _ hnext
  | other _ _ _ _ => exact ⟨hnext, hchains⟩

def EndsEarly (f : LockProtectionField) : Prop := ∃ e, f.protectionRangeEnd = some e ∧ e < f.protectionRangeStart

/-- No entry changes a range that has ended, apart from its link. -/
theorem endsEarly_step (htidy : ∀ f ∈ st.1.lpFields, Tidy f) (hstep : EntryStep moves fp va seen.length st st')
    (h : ∃ f ∈ st.1.lpFields, EndsEarly f) : ∃ f ∈ st'.1.lpFields, EndsEarly f := by
  cases hstep with
  | lockAcquire type named =>
      obtain ⟨f, hf, hearly⟩ := h
      exact ⟨f, List.mem_append_left _ hf, hearly⟩
  | lockRelease type named =>
      rw [setProtectionRangeEnd_fields fun f hf => (htidy f hf).tail]
      obtain ⟨f, hf, e, he, hlt⟩ := h
      refine ⟨_, List.mem_map_of_mem hf, e, ?_, by rwa [closeField_start]⟩
      rw [closeField_end, if_neg (by simp [he]), he]
  | ifStmt type found =>
      refine copies_exists (fun _ i => splitActiveAt_copied _ _ i) ?_ _ h
      rintro n f ⟨e, he, -⟩ htest
      simp [isActive, he] at htest
  | elseStmt type =>
      exact copies_exists (P := EndsEarly) (fun _ i => reviveInactiveAt_copied _ _ i) (fun n f h _ => .inl h) _ h
  | other _ _ _ _ => exact h

def Awaits (fp : List VarAccess) (n : Nat) (objHash : UInt32) (f : LockProtectionField) : Prop :=
  f.lockObjHash = objHash ∧ f.protectionRangeEnd = none ∧ FirstThen fp n f.protectionRangeStart

theorem Awaits.next {n : Nat} {f : LockProtectionField} (h : Awaits fp n objHash f) (hva : fp[n]? = some va)
    (hthen : va.type ≠ .thenBlock) : Awaits fp (n + 1) objHash f := by
  obtain ⟨hhash, hopen, hfirst⟩ := h
  refine ⟨hhash, hopen, hfirst.next ?_⟩
  rintro rfl
  obtain ⟨w, hw, hty⟩ := hfirst.marked
  obtain rfl := Option.some.inj (hva.symm.trans hw)
  exact hthen hty

/-- A release ends the range in front of its start, and any other entry leaves such a range. -/
theorem awaits_step (htidy : ∀ f ∈ st.1.lpFields, Tidy f) (hstep : EntryStep moves fp va seen.length st st')
    (h : ∃ f ∈ st.1.lpFields, Awaits fp (seen.length + 1) objHash f) :
    (releases objHash va = true → ∃ f ∈ st'.1.lpFields, EndsEarly f) ∧
      (releases objHash va = false → ∃ f ∈ st'.1.lpFields, Awaits fp (seen.length + 1) objHash f) := by
  cases hstep with
  | lockAcquire type named =>
      obtain ⟨f, hf, hawaits⟩ := h
      refine ⟨fun hrel => ?_, fun _ => ⟨f, List.mem_append_left _ hf, hawaits⟩⟩
      rw [releases_eq_false (by simp [type])] at hrel
      cases hrel
  | @lockRelease usr type named =>
      rw [setProtectionRangeEnd_fields fun f hf => (htidy f hf).tail]
      obtain ⟨f, hf, hhash, hopen, hfirst⟩ := h
      have hrel : releases objHash va = true ↔ lockTrackingGenHash usr = objHash := by
        simp [releases, type, named]
      refine ⟨fun h => ⟨_, List.mem_map_of_mem hf, seen.length, ?_, ?_⟩,
        fun h => ⟨_, List.mem_map_of_mem hf, ?_, ?_, ?_⟩⟩
      · rw [closeField_end, if_pos ⟨hopen, hhash.trans (hrel.mp h).symm⟩]
      · rw [closeField_start]
        exact hfirst.le
      · rw [closeField_objHash, hhash]
      · rw [closeField_end, if_neg fun hsame => ?_, hopen]
        rw [hrel.mpr (hsame.2.symm.trans hhash)] at h
        cases h
      · rwa [closeField_start]
  | ifStmt type found =>
      refine ⟨fun hrel => ?_, fun _ => copies_exists (fun _ i => splitActiveAt_copied _ _ i) ?_ _ h⟩
      · rw [releases_eq_false (by simp [type])] at hrel
        cases hrel
      · exact fun n f hawaits _ => .inr ⟨hawaits.1, rfl, firstThen_of_startOfBranch found⟩
  | elseStmt type =>
      refine ⟨fun hrel => ?_, fun _ => copies_exists (fun _ i => reviveInactiveAt_copied _ _ i) ?_ _ h⟩
      · rw [releases_eq_false (by simp [type])] at hrel
        cases hrel
      · exact fun n f hawaits htest => absurd hawaits.2.1 (isInactive_iff.mp htest).2.1
  | other _ hrelease _ _ =>
      refine ⟨fun hrel => ?_, fun _ => h⟩
      rw [releases_eq_false hrelease] at hrel
      cases hrel

theorem stateAfter_endsEarly (hseen : seen <+: fp) (hst : stateAfter moves lockPairArray fp seen = some st) :
    (¬ ReleasedBehindSplits fp seen.length → ∃ f ∈ st.1.lpFields, EndsEarly f) ∧
      ∀ objHash, SplitPending fp seen.length objHash →
        (∃ f ∈ st.1.lpFields, EndsEarly f) ∨ ∃ f ∈ st.1.lpFields, Awaits fp seen.length objHash f := by
  refine stateAfter_rule (P := fun seen st =>
    (¬ ReleasedBehindSplits fp seen.length → ∃ f ∈ st.1.lpFields, EndsEarly f) ∧
      ∀ objHash, SplitPending fp seen.length objHash →
        (∃ f ∈ st.1.lpFields, EndsEarly f) ∨ ∃ f ∈ st.1.lpFields, Awaits fp seen.length objHash f) ?_ ?_ hseen hst
  · refine ⟨fun h => absurd (fun r hr => absurd hr (Nat.not_lt_zero r)) h, ?_⟩
    rintro objHash ⟨i, hi, -⟩
    exact absurd hi (Nat.not_lt_zero i)
  intro seen va rest st st' hfp hst ⟨hbroken, hpending⟩ hstep
  rw [List.length_append, List.length_singleton]
  have hseen : seen <+: fp := ⟨va :: rest, hfp.symm⟩
  have hva : fp[seen.length]? = some va := by simp [hfp]
  have htidy := stateAfter_tidy hseen hst
  constructor
  · intro hnot
    by_cases hbefore : ReleasedBehindSplits fp seen.length
    · obtain ⟨objHash, hrel, hsplit⟩ : ∃ objHash, releases objHash va = true ∧ SplitPending fp seen.length objHash := by
        by_contra hnone
        apply hnot
        intro r hr w hw objHash hrel hsplit
        rcases Nat.lt_or_eq_of_le (Nat.lt_succ_iff.mp hr) with hlt | rfl
        · exact hbefore r hlt w hw objHash hrel hsplit
        · obtain rfl := Option.some.inj (hva.symm.trans hw)
          exact hnone ⟨objHash, hrel, hsplit⟩
      rcases hpending objHash hsplit with hearly | ⟨f, hf, hawaits⟩
      · exact endsEarly_step htidy hstep hearly
      · have hthen : va.type ≠ .thenBlock := by simp [releases_type hrel]
        exact (awaits_step htidy hstep ⟨f, hf, hawaits.next hva hthen⟩).1 hrel
    · exact endsEarly_step htidy hstep (hbroken hbefore)
  · intro objHash hsplit
    rcases hsplit.prev hva with ⟨hif, hheld⟩ | ⟨hthen, hsplit⟩
    · right
      rw [hfp, heldAt_append, ← (stateAfter_knowsLocks hseen hst).held] at hheld
      obtain ⟨f, hf, rfl, hopen⟩ := hheld
      cases hstep with
      | lockAcquire type _ | lockRelease type _ | elseStmt type => simp [hif] at type
      | ifStmt type found =>
          exact ⟨_, copy_mem (fun _ i => splitActiveAt_copied _ _ i) hf (by simp [isActive, hopen]), rfl, rfl,
            firstThen_of_startOfBranch found⟩
      | other _ _ hother _ => exact absurd hif hother
    · rcases hpending objHash hsplit with hearly | ⟨f, hf, hawaits⟩
      · exact .inl (endsEarly_step htidy hstep hearly)
      · have hstepped := awaits_step htidy hstep ⟨f, hf, hawaits.next hva hthen⟩
        cases hrel : releases objHash va with
        | true => exact .inl (hstepped.1 hrel)
        | false => exact .inr (hstepped.2 hrel)

/-- Behind a release in order, the ranges for its lock have ended. -/
theorem released_not_covering (hfp : fp = seen ++ va :: rest) (type : va.type = .lockRelease) {usr : String}
    (named : va.usr = some usr) (hst : stateAfter moves lockPairArray fp (seen ++ [va]) = some st)
    (hreleased : ReleasedBehindSplits fp (seen.length + 1)) {f : LockProtectionField} (hf : f ∈ st.1.lpFields)
    (hhash : f.lockObjHash = lockTrackingGenHash usr) {k : Nat} (hk : seen.length < k) :
    inProtectionRange k f = false := by
  have hseen : seen ++ [va] <+: fp := ⟨rest, by simp [hfp]⟩
  have hlength : (seen ++ [va]).length = seen.length + 1 := by simp
  have hva : fp[seen.length]? = some va := by simp [hfp]
  have hrel : releases f.lockObjHash va = true := by simp [releases, type, named, hhash]
  have hordered := (stateAfter_ordered hseen hst (hlength ▸ hreleased)).1 f hf
  rw [hlength] at hordered
  have hnotHeld : ¬ (lockAfter (seen ++ [va]) f.lockObjHash).held = true := by
    rw [lockAfter_snoc, next_held_iff, acquires_eq_false (by simp [type]), hrel]
    simp
  rw [inProtectionRange_eq (stateAfter_tidy hseen hst f hf).tail]
  cases hend : f.protectionRangeEnd with
  | none => exact absurd ((stateAfter_knowsLocks hseen hst).held f.lockObjHash |>.mp ⟨f, hf, rfl, hend⟩) hnotHeld
  | some e =>
      have he : e < seen.length + 1 := by
        rcases hordered.end_reached e hend with hlt | ⟨-, hsplit⟩
        · exact hlt
        · rcases hsplit.prev hva with ⟨hif, -⟩ | ⟨-, hsplit⟩
          · simp [type] at hif
          · exact absurd hsplit (hreleased _ (Nat.lt_succ_self _) va hva _ hrel)
      have hnot : ¬ k < e := by omega
      simp [LockRanges.segment, Segment.covers, hend, hnot]

/-- The ranges are ordered exactly if no lock that is held at an if is released before the next then-block. -/
theorem ranges_ordered_iff (moves : Nat → Bool) (h : WellFormed lockPairArray fp) :
    ∃ arr, annotateLockProtectionRanges moves lockPairArray fp = some arr ∧
      (RangesOrdered moves lockPairArray fp arr ↔ ReleasedBehindSplits fp fp.length) := by
  obtain ⟨arr, harr⟩ := exists_annotated moves h
  refine ⟨arr, harr, ?_⟩
  rw [annotate_eq_stateAfter] at harr
  obtain ⟨st, hst, rfl⟩ := Option.map_eq_some_iff.mp harr
  constructor
  · intro hordered
    by_contra hnot
    obtain ⟨f, hf, e, he, hlt⟩ := (stateAfter_endsEarly List.prefix_rfl hst).1 hnot
    exact absurd (hordered.start_le f hf e he) (by omega)
  · intro hreleased
    obtain ⟨hordered, hchains⟩ := stateAfter_ordered List.prefix_rfl hst hreleased
    refine ⟨fun f hf => (hordered f hf).start_le, hchains, ?_⟩
    intro seen va rest usr st hfp type named hst f hf hhash k hk
    refine released_not_covering hfp type named hst (hreleased.mono ?_) hf hhash hk
    simp [hfp]

end Run

/-- lock(m); if (c) { x = 1; } unlock(m); -/
def releasedBehindIf : List VarAccess :=
  [lockOf "m", markerOf .ifStmt, readOf "c", markerOf .thenBlock, writeOf "x", markerOf .endIf, unlockOf "m"]

theorem releasedBehindIf_wellFormed : WellFormed defaultLockPairs releasedBehindIf :=
  ⟨(bracketed_iff_run _).mpr rfl, by decide +kernel, by decide +kernel, by decide +kernel⟩

theorem releasedBehindIf_ranges_ordered : ∃ arr,
    annotateLockProtectionRanges inPlace defaultLockPairs releasedBehindIf = some arr ∧
      (RangesOrdered inPlace defaultLockPairs releasedBehindIf arr ↔
        ReleasedBehindSplits releasedBehindIf releasedBehindIf.length) :=
  ranges_ordered_iff inPlace releasedBehindIf_wellFormed

/-- lock(m); if (unlock(m)) { x = 1; } -/
def releasedInCondition : List VarAccess :=
  [lockOf "m", markerOf .ifStmt, unlockOf "m", markerOf .thenBlock, writeOf "x", markerOf .endIf]

/-- The second range of the lock starts at 3 and ends at 2. -/
theorem releasedInCondition_not_ordered : WellFormed defaultLockPairs releasedInCondition ∧
    ∃ arr, annotateLockProtectionRanges inPlace defaultLockPairs releasedInCondition = some arr ∧
      arr.lpFields.map (fun f => (f.protectionRangeStart, f.protectionRangeEnd)) = [(0, some 3), (3, some 2)] ∧
        ¬ RangesOrdered inPlace defaultLockPairs releasedInCondition arr := by
  refine ⟨⟨(bracketed_iff_run _).mpr rfl, by decide +kernel, by decide +kernel, by decide +kernel⟩, _, rfl, by decide +kernel, ?_⟩
  intro hordered
  have hlast := hordered.start_le _ (List.mem_cons_of_mem _ List.mem_cons_self) 2 (by decide +kernel)
  revert hlast
  decide +kernel

end Prongc.RangeOrder
