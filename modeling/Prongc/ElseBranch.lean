import Prongc.LockPaths

namespace Prongc.ElseBranch

open Access LockTracking LockRanges LockReach LockVerdict LockPaths Library.BranchMarkers Library.SizeT

def activeLocks (arr : ProtectionFieldArray) (k : Nat) : List UInt32 :=
  (getLpFieldsInRange arr k).map LockProtectionField.lockObjHash

def acquires (objHash : UInt32) (va : VarAccess) : Bool :=
  va.type == .lockAcquire && va.usr.any (fun usr => lockTrackingGenHash usr == objHash)

def isLockEvent (va : VarAccess) : Bool := va.type == .lockAcquire || va.type == .lockRelease

/-- How one lock object stands: whether it was acquired so far, and whether some range of it is open. -/
structure LockState where
  acquired : Bool
  held : Bool
  deriving DecidableEq

/-- An else marker of an if that stands in no other one opens a range for every lock acquired so far. -/
def LockState.next (objHash : UInt32) (depth : Nat) (va : VarAccess) (s : LockState) : LockState :=
  match va.type with
  | .lockAcquire => if acquires objHash va then ⟨true, true⟩ else s
  | .lockRelease => if releases objHash va then { s with held := false } else s
  | .elseStmt => if depth = 1 then { s with held := s.held || s.acquired } else s
  | _ => s

def lockStep (objHash : UInt32) (st : LockState × Nat) (va : VarAccess) : LockState × Nat :=
  (st.1.next objHash st.2 va, nextDepth st.2 va)

def lockAfter (fp : List VarAccess) (objHash : UInt32) : LockState :=
  (fp.foldl (lockStep objHash) (⟨false, false⟩, 0)).1

def heldAt (fp : List VarAccess) (k : Nat) (objHash : UInt32) : Bool := (lockAfter (fp.take k) objHash).held

def QuietConditions (fp : List VarAccess) : Prop :=
  ∀ seen va rest ps, fp = seen ++ va :: rest → run mark [] seen = some ps → .cond ∈ ps →
    isLockEvent va = false

def quietAt (fp : List VarAccess) (n : Nat) : Bool :=
  match fp[n]?, run mark [] (fp.take n) with
  | some va, some ps => !(ps.contains .cond && isLockEvent va)
  | _, _ => true

theorem quietConditions_iff (fp : List VarAccess) :
    QuietConditions fp ↔ ∀ n < fp.length, quietAt fp n = true := by
  unfold quietAt
  constructor
  · intro h n hn
    rw [List.getElem?_eq_getElem hn]
    cases hrun : run mark [] (fp.take n) with
    | none => rfl
    | some ps =>
        have hsplit : fp = fp.take n ++ fp[n] :: fp.drop (n + 1) := by
          rw [List.getElem_cons_drop, List.take_append_drop]
        by_cases hcond : Phase.cond ∈ ps
        · simp [h _ _ _ ps hsplit hrun hcond]
        · simp [hcond]
  · intro h seen va rest ps hsplit hrun hcond
    have hn := h seen.length (by rw [hsplit, List.length_append, List.length_cons]; omega)
    rw [hsplit, List.take_left, List.getElem?_append_right (Nat.le_refl _), Nat.sub_self,
      List.getElem?_cons_zero, hrun] at hn
    simpa [hcond] using hn

instance (fp : List VarAccess) : Decidable (QuietConditions fp) :=
  decidable_of_iff _ (quietConditions_iff fp).symm

section Held

variable {fp seen rest : List VarAccess} {va : VarAccess} {objHash : UInt32}

theorem foldl_lockStep_depth (objHash : UInt32) (l : List VarAccess) (st : LockState × Nat) :
    (l.foldl (lockStep objHash) st).2 = l.foldl nextDepth st.2 := by
  induction l generalizing st with
  | nil => rfl
  | cons va l ih => exact ih _

theorem lockAfter_snoc (fp : List VarAccess) (va : VarAccess) (objHash : UInt32) :
    lockAfter (fp ++ [va]) objHash = (lockAfter fp objHash).next objHash (fp.foldl nextDepth 0) va := by
  unfold lockAfter
  rw [List.foldl_append, List.foldl_cons, List.foldl_nil, lockStep, foldl_lockStep_depth]

theorem mem_acquisitions_snoc {x : Nat × UInt32} : x ∈ acquisitions (fp ++ [va]) ↔
    x ∈ acquisitions fp ∨ (x.1 = fp.length ∧ acquires x.2 va = true) := by
  rw [acquisitions_snoc, List.mem_append, Option.mem_toList]
  apply or_congr_right
  obtain ⟨c, hash⟩ := x
  rw [acquires]
  by_cases hty : va.type = .lockAcquire
  · rw [if_pos hty]
    cases va.usr with
    | none => simp
    | some usr =>
        simp only [hty, Option.map_some, Option.some.injEq, Prod.mk.injEq, beq_self_eq_true,
          Option.any_some, Bool.true_and, beq_iff_eq]
        exact and_congr_left' eq_comm
  · simp [hty]

theorem acquires_type (h : acquires objHash va = true) : va.type = .lockAcquire := by
  simp only [acquires, Bool.and_eq_true, beq_iff_eq] at h
  exact h.1

theorem releases_type (h : releases objHash va = true) : va.type = .lockRelease := by
  simp only [releases, Bool.and_eq_true, beq_iff_eq] at h
  exact h.1

theorem acquires_eq_false (h : va.type ≠ .lockAcquire) (objHash : UInt32) : acquires objHash va = false :=
  Bool.eq_false_iff.mpr fun hacq => h (acquires_type hacq)

theorem releases_eq_false (h : va.type ≠ .lockRelease) (objHash : UInt32) : releases objHash va = false :=
  Bool.eq_false_iff.mpr fun hrel => h (releases_type hrel)

theorem next_acquired_iff (s : LockState) (depth : Nat) :
    (s.next objHash depth va).acquired = true ↔ acquires objHash va = true ∨ s.acquired = true := by
  have hacq := @acquires_type va objHash
  rw [LockState.next]
  cases hty : va.type <;> grind

theorem next_held_iff (s : LockState) (depth : Nat) :
    (s.next objHash depth va).held = true ↔ acquires objHash va = true ∨ (releases objHash va = false ∧
      (s.held = true ∨ (va.type = .elseStmt ∧ depth = 1 ∧ s.acquired = true))) := by
  have hacq := @acquires_type va objHash
  have hrel := @releases_type va objHash
  rw [LockState.next]
  cases hty : va.type <;> grind

theorem next_open_iff {hold : Hold} (depth : Nat) (hclosing : hold ≠ .closing)
    (hsplit : hold = .split → releases objHash va = false) :
    hold.next objHash depth va ≠ .closing ∧
      (hold.next objHash depth va ≠ .closed ↔ releases objHash va = false ∧
        (hold ≠ .closed ∨ (va.type = .elseStmt ∧ depth = 1))) := by
  have hrel := @releases_type va objHash
  unfold Hold.next
  cases hold with
  | closing => exact absurd rfl hclosing
  | split =>
      rw [hsplit rfl]
      cases hty : va.type <;> simp
  | held => cases hr : releases objHash va <;> cases hty : va.type <;> simp_all
  | closed =>
      by_cases hdepth : depth = 1 <;> cases hr : releases objHash va <;> cases hty : va.type <;> simp_all

/-- What the entries before a place say about a lock object is what the ranges of its acquisitions
say. -/
structure Tracks (seen : List VarAccess) (objHash : UInt32) : Prop where
  acquired : (lockAfter seen objHash).acquired = true ↔ ∃ c, (c, objHash) ∈ acquisitions seen
  held : (lockAfter seen objHash).held = true ↔
    ∃ c, (c, objHash) ∈ acquisitions seen ∧ holdAfter seen c objHash ≠ .closed
  waiting : ∀ ps, run mark [] seen = some ps → ∀ c, (c, objHash) ∈ acquisitions seen →
    (holdAfter seen c objHash).Waiting ps ∧ holdAfter seen c objHash ≠ .closing

theorem tracks_nil (objHash : UInt32) : Tracks [] objHash := by
  refine ⟨?_, ?_, ?_⟩
  · simp [lockAfter, acquisitions]
  · simp [lockAfter, acquisitions]
  · intro _ _ c hc
    simp [acquisitions] at hc

theorem Tracks.step (h : Tracks seen objHash) {ps ps' : List Phase} (hrun : run mark [] seen = some ps)
    (hdepth : seen.foldl nextDepth 0 = ps.length) (hadvance : advance mark ps va = some ps')
    (hquiet : .cond ∈ ps → isLockEvent va = false) : Tracks (seen ++ [va]) objHash := by
  have hrun' : run mark [] (seen ++ [va]) = some ps' := by
    rw [run_append, hrun, Option.bind_some, run_cons, hadvance]
    rfl
  have hsplit : ∀ c, (c, objHash) ∈ acquisitions seen → holdAfter seen c objHash = .split →
      releases objHash va = false := by
    intro c hc hhold
    obtain ⟨st, rfl⟩ := (h.waiting ps hrun c hc).1 (.inl hhold)
    by_contra hrel
    have hlock : isLockEvent va = true := by simp [isLockEvent, releases_type (by simpa using hrel)]
    rw [hquiet List.mem_cons_self] at hlock
    cases hlock
  have hnext : ∀ c, (c, objHash) ∈ acquisitions seen →
      holdAfter (seen ++ [va]) c objHash ≠ .closing ∧
        (holdAfter (seen ++ [va]) c objHash ≠ .closed ↔ releases objHash va = false ∧
          (holdAfter seen c objHash ≠ .closed ∨ (va.type = .elseStmt ∧ ps.length = 1))) := by
    intro c hc
    rw [holdAfter_snoc (acquisitions_lt hc), hdepth]
    exact next_open_iff ps.length (h.waiting ps hrun c hc).2 (hsplit c hc)
  refine ⟨?_, ?_, ?_⟩
  · rw [lockAfter_snoc, next_acquired_iff, h.acquired]
    simp only [mem_acquisitions_snoc]
    constructor
    · rintro (hacq | ⟨c, hc⟩)
      · exact ⟨seen.length, .inr ⟨rfl, hacq⟩⟩
      · exact ⟨c, .inl hc⟩
    · rintro ⟨c, hc | ⟨-, hacq⟩⟩
      · exact .inr ⟨c, hc⟩
      · exact .inl hacq
  · rw [lockAfter_snoc, next_held_iff, h.acquired, h.held, hdepth]
    simp only [mem_acquisitions_snoc]
    constructor
    · rintro (hacq | ⟨hrel, ⟨c, hc, hopen⟩ | ⟨helse, hone, c, hc⟩⟩)
      · refine ⟨seen.length, .inr ⟨rfl, hacq⟩, ?_⟩
        rw [holdAfter_self]
        exact Hold.noConfusion
      · exact ⟨c, .inl hc, (hnext c hc).2.mpr ⟨hrel, .inl hopen⟩⟩
      · exact ⟨c, .inl hc, (hnext c hc).2.mpr ⟨hrel, .inr ⟨helse, hone⟩⟩⟩
    · rintro ⟨c, hc | ⟨-, hacq⟩, hopen⟩
      · obtain ⟨hrel, hbefore | ⟨helse, hone⟩⟩ := (hnext c hc).2.mp hopen
        · exact .inr ⟨hrel, .inl ⟨c, hc, hbefore⟩⟩
        · exact .inr ⟨hrel, .inr ⟨helse, hone, c, hc⟩⟩
      · exact .inl hacq
  · intro qs hqs c hc
    obtain rfl := Option.some.inj (hrun'.symm.trans hqs)
    rcases mem_acquisitions_snoc.mp hc with hc | ⟨rfl, -⟩
    · refine ⟨?_, (hnext c hc).1⟩
      rw [holdAfter_snoc (acquisitions_lt hc), hdepth]
      exact (h.waiting ps hrun c hc).1.next hadvance objHash
    · rw [holdAfter_self]
      exact ⟨fun hw => by simp at hw, Hold.noConfusion⟩

theorem tracks_of_prefix (hrun : run mark [] fp = some []) (hfits : ifEntries fp < 2 ^ 64)
    (hquiet : QuietConditions fp) (hfp : fp = seen ++ rest) (objHash : UInt32) : Tracks seen objHash := by
  induction seen using List.reverseRecOn generalizing rest with
  | nil => exact tracks_nil objHash
  | append_singleton seen va ih =>
      rw [List.append_assoc, List.singleton_append] at hfp
      obtain ⟨ps, hps, hrest⟩ := run_prefix (hfp ▸ hrun)
      rw [run_cons] at hrest
      obtain ⟨ps', hadvance, -⟩ := Option.bind_eq_some_iff.mp hrest
      exact (ih hfp).step hps (depth_of_ifs hfits hfp hps).1 hadvance (hquiet seen va rest ps hfp hps)

theorem mem_acquisitions_take {c k : Nat} : (c, objHash) ∈ acquisitions (fp.take k) ↔
    (c, objHash) ∈ acquisitions fp ∧ c < k := by
  induction fp using List.reverseRecOn with
  | nil => simp [acquisitions]
  | append_singleton fp va ih =>
      by_cases hk : k ≤ fp.length
      · rw [List.take_append_of_le_length hk, ih, mem_acquisitions_snoc, or_and_right]
        refine ⟨.inl, ?_⟩
        rintro (h | ⟨⟨rfl, -⟩, hlt⟩)
        · exact h
        · omega
      · rw [List.take_of_length_le (by simp; omega)]
        refine ⟨fun h => ⟨h, ?_⟩, And.left⟩
        have hlt := acquisitions_lt h
        simp at hlt
        omega

variable {lockPairArray : List LockPrimitivePair} {k : Nat}

/-- The lock objects the code finds active at an access are those with an open range. -/
theorem mem_activeLocks_iff (hfp : WellFormed lockPairArray fp) (hquiet : QuietConditions fp)
    {arr : ProtectionFieldArray} (harr : annotateLockProtectionRanges inPlace lockPairArray fp = some arr)
    (hva : fp[k]? = some va) (hacc : va.type.isAccess = true) :
    objHash ∈ activeLocks arr k ↔ heldAt fp k objHash = true := by
  have hk := length_of_getElem? hva
  have hactive := active_eq_reaching hfp hk (isAccess_of_getElem? hva hacc) harr
  have hlocks : activeLocks arr k = (reaching fp k).map Prod.fst := by
    rw [← hactive, List.map_map]
    rfl
  have htracks : Tracks (fp.take k) objHash :=
    tracks_of_prefix ((bracketed_iff_run fp).mp hfp.bracketed) hfp.fits hquiet (List.take_append_drop k fp).symm objHash
  have htag : ∀ (rest : List VarAccess) (hold : Hold), (tagOf objHash rest hold).isSome = true ↔
      hold ≠ .closed := by
    intro rest hold
    cases hold <;> simp [tagOf]
  rw [hlocks, heldAt, htracks.held, reaching]
  simp only [mem_acquisitions_take, List.mem_map, List.mem_filterMap, Option.map_eq_some_iff]
  constructor
  · rintro ⟨x, ⟨⟨c, hash⟩, hmem, tag, hreach, rfl⟩, rfl⟩
    rw [reach] at hreach
    split at hreach
    next hlt => exact ⟨c, ⟨hmem, hlt⟩, (htag _ _).mp (Option.isSome_iff_exists.mpr ⟨tag, hreach⟩)⟩
    next => cases hreach
  · rintro ⟨c, ⟨hmem, hlt⟩, hopen⟩
    obtain ⟨tag, hsome⟩ := Option.isSome_iff_exists.mp ((htag (fp.drop (k + 1)) _).mpr hopen)
    refine ⟨(objHash, tag), ⟨(c, objHash), hmem, tag, ?_, rfl⟩, rfl⟩
    rw [reach, if_pos hlt, hsome]

end Held

def lockEvent (objHash : UInt32) (va : VarAccess) : Option Bool :=
  if acquires objHash va then some true else if releases objHash va then some false else none

def lastLockEvent (objHash : UInt32) (l : List VarAccess) : Option Bool :=
  (l.filterMap (lockEvent objHash)).getLast?

section Inside

variable {objHash : UInt32} {va : VarAccess} {l : List VarAccess}

theorem lastLockEvent_cons (va : VarAccess) (l : List VarAccess) :
    lastLockEvent objHash (va :: l) = (lastLockEvent objHash l).or (lockEvent objHash va) := by
  unfold lastLockEvent
  cases hva : lockEvent objHash va with
  | none => rw [List.filterMap_cons_none hva, Option.or_none]
  | some b =>
      rw [List.filterMap_cons_some hva, List.getLast?_cons]
      cases (l.filterMap (lockEvent objHash)).getLast? <;> rfl

theorem lockEvent_quiet (h : isLockEvent va = false) : lockEvent objHash va = none := by
  rw [lockEvent]
  have hacq := @acquires_type va objHash
  have hrel := @releases_type va objHash
  rw [isLockEvent] at h
  grind

theorem lastLockEvent_quiet (h : ∀ va ∈ l, isLockEvent va = false) : lastLockEvent objHash l = none := by
  have hnil : l.filterMap (lockEvent objHash) = [] :=
    List.filterMap_eq_nil_iff.mpr fun va hva => lockEvent_quiet (h va hva)
  rw [lastLockEvent, hnil, List.getLast?_nil]

theorem any_acquires_quiet (h : ∀ va ∈ l, isLockEvent va = false) : l.any (acquires objHash) = false := by
  rw [List.any_eq_false]
  intro va hva hacq
  have hquiet := h va hva
  simp [isLockEvent, acquires_type hacq] at hquiet

theorem next_inner (s : LockState) {depth : Nat} (h : va.type = .elseStmt → depth ≠ 1) :
    s.next objHash depth va = ⟨s.acquired || acquires objHash va, (lockEvent objHash va).getD s.held⟩ := by
  have hacq := @acquires_type va objHash
  have hrel := @releases_type va objHash
  rw [LockState.next, lockEvent]
  obtain ⟨acquired, held⟩ := s
  cases hty : va.type <;> grind

theorem advance_frame {ps ps' : List Phase} (h : advance mark ps va = some ps') (st : List Phase) :
    advance mark (ps ++ st) va = some (ps' ++ st) := by
  have hframe := run_frame ((run_singleton ps va).trans h) st
  rwa [run_singleton] at hframe

/-- Inside an if every if is a nested one, so the last lock event decides. -/
theorem foldl_lockStep_inner {qs qs' st : List Phase} (hrun : run mark qs l = some qs') (hst : st ≠ [])
    (hfits : (qs ++ st).length + ifEntries l < 2 ^ 64) (s : LockState) : l.foldl (lockStep objHash) (s, (qs ++ st).length) =
      (⟨s.acquired || l.any (acquires objHash), (lastLockEvent objHash l).getD s.held⟩,
        (qs' ++ st).length) := by
  induction l generalizing qs s with
  | nil =>
      obtain rfl := Option.some.inj hrun
      simp [lastLockEvent]
  | cons va l ih =>
      rw [run_cons] at hrun
      obtain ⟨ps, hadvance, hrest⟩ := Option.bind_eq_some_iff.mp hrun
      have hinner : va.type = .elseStmt → (qs ++ st).length ≠ 1 := by
        intro hty
        have hpos := List.length_pos_of_ne_nil hst
        cases qs with
        | nil => simp [advance, mark, hty, Library.BranchMarkers.step] at hadvance
        | cons q qs =>
            rw [List.length_append, List.length_cons]
            omega
      have hlen := length_of_run ((run_singleton qs va).trans hadvance)
      simp only [ifEntries_cons, ifEntries_nil, List.length_append] at hfits hlen
      rw [List.foldl_cons, lockStep, next_inner s hinner, nextDepth_advance (advance_frame hadvance st)
        (by simp only [ifEntries_cons, ifEntries_nil, List.length_append]; omega),
        ih hrest (by rw [List.length_append]; omega), lastLockEvent_cons]
      congr 2
      · rw [List.any_cons, Bool.or_assoc]
      · cases lastLockEvent objHash l <;> rfl

theorem foldl_lockStep_quiet {qs qs' st : List Phase} (hrun : run mark qs l = some qs') (hst : st ≠ [])
    (hfits : (qs ++ st).length + ifEntries l < 2 ^ 64) (hquiet : ∀ va ∈ l, isLockEvent va = false)
    (s : LockState) :
    l.foldl (lockStep objHash) (s, (qs ++ st).length) = (s, (qs' ++ st).length) := by
  rw [foldl_lockStep_inner hrun hst hfits, lastLockEvent_quiet hquiet, any_acquires_quiet hquiet, Bool.or_false]
  rfl

theorem exists_acquires_of_last {before : List VarAccess} (h : lastLockEvent objHash l = some true) :
    ∃ va ∈ before ++ l, acquires objHash va = true := by
  obtain ⟨va, hva, hevent⟩ := List.mem_filterMap.mp (List.mem_of_getLast? h)
  refine ⟨va, List.mem_append_right _ hva, ?_⟩
  rw [lockEvent] at hevent
  split at hevent
  · assumption
  · split at hevent <;> simp at hevent

theorem lockAfter_acquired_iff (fp : List VarAccess) :
    (lockAfter fp objHash).acquired = true ↔ ∃ va ∈ fp, acquires objHash va = true := by
  induction fp using List.reverseRecOn with
  | nil => simp [lockAfter]
  | append_singleton fp va ih =>
      rw [lockAfter_snoc, next_acquired_iff, ih]
      simp only [List.mem_append, List.mem_singleton, or_and_right, exists_or, exists_eq_left]
      exact or_comm

theorem acquired_of_held (fp : List VarAccess) (h : (lockAfter fp objHash).held = true) :
    (lockAfter fp objHash).acquired = true := by
  induction fp using List.reverseRecOn with
  | nil => simp [lockAfter] at h
  | append_singleton fp va ih =>
      rw [lockAfter_snoc, next_held_iff] at h
      rw [lockAfter_snoc, next_acquired_iff]
      rcases h with hacq | ⟨-, hheld | ⟨-, -, hacq⟩⟩
      · exact .inl hacq
      · exact .inr (ih hheld)
      · exact .inr hacq

end Inside

/-- An if with an else in a footprint: an access is the last entry of its condition, and one in the
else side stands before all lock events of this side. -/
structure ElseSite (fp : List VarAccess) where
  before : List VarAccess
  ifStmt : VarAccess
  cond : List VarAccess
  tested : VarAccess
  thenBlock : VarAccess
  thn : List VarAccess
  elseStmt : VarAccess
  leading : List VarAccess
  first : VarAccess
  rest : List VarAccess
  split : fp = before ++ ifStmt :: (cond ++ tested :: thenBlock :: (thn ++ elseStmt ::
    (leading ++ first :: rest)))
  ifStmt_type : ifStmt.type = .ifStmt
  thenBlock_type : thenBlock.type = .thenBlock
  elseStmt_type : elseStmt.type = .elseStmt
  cond_bracketed : Bracketed mark cond
  thn_bracketed : Bracketed mark thn
  leading_inside : (run mark [] leading).isSome = true
  leading_quiet : ∀ va ∈ leading, isLockEvent va = false
  tested_access : tested.type.isAccess = true
  first_access : first.type.isAccess = true

namespace ElseSite

variable {fp : List VarAccess} (site : ElseSite fp)

def testedAt : Nat := (site.before ++ site.ifStmt :: site.cond).length

def firstAt : Nat := (site.before ++ site.ifStmt :: (site.cond ++ site.tested :: site.thenBlock ::
  (site.thn ++ site.elseStmt :: site.leading))).length

/-- For an if in no other one: every lock object acquired before the else is held at the if. For a
nested if: the last event of each lock object in the then side leaves it as it was at the if. -/
def Restores : Prop :=
  if site.before.foldl nextDepth 0 = 0 then
    ∀ objHash, (∃ va ∈ site.before ++ site.thn, acquires objHash va = true) →
      heldAt fp site.testedAt objHash = true
  else
    ∀ objHash held, lastLockEvent objHash site.thn = some held → heldAt fp site.testedAt objHash = held

theorem take_of_append {l a b : List VarAccess} (h : l = a ++ b) : l.take a.length = a := by
  rw [h, List.take_left]

theorem getElem?_of_append {l a b : List VarAccess} {va : VarAccess} (h : l = a ++ va :: b) :
    l[a.length]? = some va := by
  rw [h, List.getElem?_append_right (Nat.le_refl _), Nat.sub_self, List.getElem?_cons_zero]

theorem split_testedAt : fp = (site.before ++ site.ifStmt :: site.cond) ++ site.tested ::
    (site.thenBlock :: (site.thn ++ site.elseStmt :: (site.leading ++ site.first :: site.rest))) :=
  site.split.trans (by simp)

theorem split_firstAt : fp = (site.before ++ site.ifStmt :: (site.cond ++ site.tested ::
    site.thenBlock :: (site.thn ++ site.elseStmt :: site.leading))) ++ site.first :: site.rest :=
  site.split.trans (by simp)

theorem getElem?_testedAt : fp[site.testedAt]? = some site.tested := getElem?_of_append site.split_testedAt

theorem getElem?_firstAt : fp[site.firstAt]? = some site.first := getElem?_of_append site.split_firstAt

theorem exists_outer (hb : Bracketed mark fp) : ∃ ps, run mark [] site.before = some ps := by
  have hrun := (bracketed_iff_run fp).mp hb
  rw [site.split] at hrun
  obtain ⟨ps, hps, -⟩ := run_prefix hrun
  exact ⟨ps, hps⟩

theorem depth_before (hfits : ifEntries fp < 2 ^ 64) {ps : List Phase} (hps : run mark [] site.before = some ps) :
    site.before.foldl nextDepth 0 = ps.length := (depth_of_ifs hfits site.split hps).1

/-- The ifs around the site, the site itself and those on its sides can be counted. -/
theorem fits (hfits : ifEntries fp < 2 ^ 64) {ps : List Phase} (hps : run mark [] site.before = some ps) :
    ps.length + 1 + ifEntries site.cond + ifEntries site.thn + ifEntries site.leading < 2 ^ 64 := by
  have hcount := congrArg ifEntries site.split
  simp only [ifEntries_append, ifEntries_cons, site.ifStmt_type, if_true] at hcount
  have hlen := length_of_run hps
  rw [List.length_nil] at hlen
  omega

theorem cond_quiet (hb : Bracketed mark fp) (hquiet : QuietConditions fp) :
    ∀ va ∈ site.cond, isLockEvent va = false := by
  obtain ⟨ps, hps⟩ := site.exists_outer hb
  intro va hva
  obtain ⟨u, w, hcond⟩ := List.append_of_mem hva
  have hinside : run mark [] site.cond = some [] := (bracketed_iff_run _).mp site.cond_bracketed
  rw [hcond] at hinside
  obtain ⟨qs, hqs, -⟩ := run_prefix hinside
  have hseen : run mark [] (site.before ++ site.ifStmt :: u) = some (qs ++ .cond :: ps) := by
    rw [run_append, hps, Option.bind_some, run_cons_mark (mark_ifStmt_iff.mpr site.ifStmt_type)]
    exact run_frame hqs (.cond :: ps)
  refine hquiet (site.before ++ site.ifStmt :: u) va
    (w ++ site.tested :: site.thenBlock :: (site.thn ++ site.elseStmt ::
      (site.leading ++ site.first :: site.rest))) (qs ++ .cond :: ps) ?_ hseen ?_
  · exact site.split.trans (by simp [hcond])
  · exact List.mem_append_right _ List.mem_cons_self

theorem foldl_before (hfits : ifEntries fp < 2 ^ 64) (objHash : UInt32) {ps : List Phase} (hps : run mark [] site.before = some ps) :
    site.before.foldl (lockStep objHash) (⟨false, false⟩, 0) =
      (lockAfter site.before objHash, ps.length) := by
  refine Prod.ext rfl ?_
  rw [foldl_lockStep_depth]
  exact site.depth_before hfits hps

theorem foldl_cond (hb : Bracketed mark fp) (hfits : ifEntries fp < 2 ^ 64) (hquiet : QuietConditions fp)
    (objHash : UInt32) {ps : List Phase} (hps : run mark [] site.before = some ps) :
    (site.before ++ site.ifStmt :: site.cond).foldl (lockStep objHash) (⟨false, false⟩, 0) =
      (lockAfter site.before objHash, ps.length + 1) := by
  have hif : lockStep objHash (lockAfter site.before objHash, ps.length) site.ifStmt =
      (lockAfter site.before objHash, ([] ++ Phase.cond :: ps).length) := by
    have hlt := site.fits hfits hps
    simp [lockStep, LockState.next, nextDepth, site.ifStmt_type, sizeSucc_of_lt (n := ps.length) (by omega)]
  have hcond : run mark [] site.cond = some [] := (bracketed_iff_run _).mp site.cond_bracketed
  have hlt := site.fits hfits hps
  rw [List.foldl_append, site.foldl_before hfits objHash hps, List.foldl_cons, hif,
    foldl_lockStep_quiet hcond (List.cons_ne_nil _ _) (by simp; omega) (site.cond_quiet hb hquiet)]
  rfl

def behindThen (objHash : UInt32) : LockState :=
  ⟨(lockAfter site.before objHash).acquired || site.thn.any (acquires objHash),
    (lastLockEvent objHash site.thn).getD (lockAfter site.before objHash).held⟩

theorem next_of_isAccess {va : VarAccess} (h : va.type.isAccess = true) (objHash : UInt32)
    (st : LockState × Nat) : lockStep objHash st va = st := by
  rw [lockStep, LockState.next, nextDepth]
  cases hty : va.type <;> simp [hty, VarAccessType.isAccess] at h ⊢

theorem lockAfter_firstAt (hb : Bracketed mark fp) (hfits : ifEntries fp < 2 ^ 64) (hquiet : QuietConditions fp)
    (objHash : UInt32) {ps : List Phase} (hps : run mark [] site.before = some ps) :
    lockAfter (fp.take site.firstAt) objHash =
      (site.behindThen objHash).next objHash (ps.length + 1) site.elseStmt := by
  have hthenBlock : lockStep objHash (lockAfter site.before objHash, ps.length + 1) site.thenBlock =
      (lockAfter site.before objHash, ([] ++ Phase.thenPart :: ps).length) := by
    simp [lockStep, LockState.next, nextDepth, site.thenBlock_type]
  have helse : lockStep objHash (site.behindThen objHash, ps.length + 1) site.elseStmt =
      ((site.behindThen objHash).next objHash (ps.length + 1) site.elseStmt,
        ([] ++ Phase.elsePart :: ps).length) := by
    simp [lockStep, nextDepth, site.elseStmt_type]
  have hthn : run mark [] site.thn = some [] := (bracketed_iff_run _).mp site.thn_bracketed
  obtain ⟨qs, hleading⟩ := Option.isSome_iff_exists.mp site.leading_inside
  have htake : fp.take site.firstAt = (site.before ++ site.ifStmt :: site.cond) ++ site.tested ::
      site.thenBlock :: (site.thn ++ site.elseStmt :: site.leading) :=
    (take_of_append site.split_firstAt).trans (by simp)
  have hlt := site.fits hfits hps
  rw [htake, lockAfter, List.foldl_append, site.foldl_cond hb hfits hquiet objHash hps, List.foldl_cons,
    next_of_isAccess site.tested_access, List.foldl_cons, hthenBlock, List.foldl_append,
    foldl_lockStep_inner hthn (List.cons_ne_nil _ _) (by simp; omega), List.foldl_cons]
  have hlast := @foldl_lockStep_quiet objHash site.leading [] qs (.elsePart :: ps) hleading
    (List.cons_ne_nil _ _) (by simp; omega) site.leading_quiet
  exact congrArg Prod.fst ((congrArg (List.foldl (lockStep objHash) · site.leading) helse).trans (hlast _))

theorem heldAt_testedAt (hb : Bracketed mark fp) (hfits : ifEntries fp < 2 ^ 64) (hquiet : QuietConditions fp)
    (objHash : UInt32) :
    heldAt fp site.testedAt objHash = (lockAfter site.before objHash).held := by
  obtain ⟨ps, hps⟩ := site.exists_outer hb
  rw [heldAt, testedAt, take_of_append site.split_testedAt, lockAfter,
    site.foldl_cond hb hfits hquiet objHash hps]

theorem held_firstAt_iff (hb : Bracketed mark fp) (hfits : ifEntries fp < 2 ^ 64) (hquiet : QuietConditions fp)
    (objHash : UInt32) :
    heldAt fp site.firstAt objHash = true ↔
      (lastLockEvent objHash site.thn).getD (lockAfter site.before objHash).held = true ∨
        (site.before.foldl nextDepth 0 = 0 ∧ ∃ va ∈ site.before ++ site.thn, acquires objHash va = true) := by
  obtain ⟨ps, hps⟩ := site.exists_outer hb
  have hacq := @acquires_type site.elseStmt objHash
  have hrel := @releases_type site.elseStmt objHash
  have hany : (site.behindThen objHash).acquired = true ↔
      ∃ va ∈ site.before ++ site.thn, acquires objHash va = true := by
    rw [behindThen, Bool.or_eq_true, lockAfter_acquired_iff, List.any_eq_true]
    simp only [List.mem_append, or_and_right, exists_or]
  rw [heldAt, site.lockAfter_firstAt hb hfits hquiet objHash hps, next_held_iff, ← hany,
    site.depth_before hfits hps]
  simp only [site.elseStmt_type] at hacq hrel ⊢
  simp only [behindThen]
  grind

theorem restores_iff (hb : Bracketed mark fp) (hfits : ifEntries fp < 2 ^ 64) (hquiet : QuietConditions fp) :
    (∀ objHash, heldAt fp site.firstAt objHash = true ↔ heldAt fp site.testedAt objHash = true) ↔
      site.Restores := by
  rw [Restores]
  split
  next houter =>
    apply forall_congr'
    intro objHash
    have hacquired := @acquired_of_held objHash site.before
    rw [lockAfter_acquired_iff] at hacquired
    rw [site.held_firstAt_iff hb hfits hquiet, site.heldAt_testedAt hb hfits hquiet]
    constructor
    · exact fun h hacq => h.mp (.inr ⟨houter, hacq⟩)
    · intro h
      refine ⟨?_, fun hheld => .inr ⟨houter, ?_⟩⟩
      · rintro (hlast | ⟨-, hacq⟩)
        · cases hthn : lastLockEvent objHash site.thn with
          | none => simpa [hthn] using hlast
          | some held =>
              obtain rfl : held = true := by simpa [hthn] using hlast
              exact h (exists_acquires_of_last hthn)
        · exact h hacq
      · obtain ⟨va, hva, hacq⟩ := hacquired hheld
        exact ⟨va, List.mem_append_left _ hva, hacq⟩
  next hinner =>
    apply forall_congr'
    intro objHash
    rw [site.held_firstAt_iff hb hfits hquiet, site.heldAt_testedAt hb hfits hquiet]
    cases hthn : lastLockEvent objHash site.thn with
    | none => simp [hinner]
    | some held =>
        simp only [Option.getD_some, hinner, false_and, or_false, Option.some.injEq, forall_eq']
        exact ⟨fun h => Bool.eq_iff_iff.mpr h.symm, fun h => (Bool.eq_iff_iff.mp h).symm⟩

end ElseSite

/-- The else side starts with the lock objects found active in front of the then side exactly if the
then side, and for an outermost if everything before it, leaves the open ranges as they were. -/
theorem else_restores_iff {moves : Nat → Bool} {lockPairArray : List LockPrimitivePair}
    {fp : List VarAccess} (hfp : WellFormed lockPairArray fp) (hquiet : QuietConditions fp)
    (hsteady : Steady moves lockPairArray fp) (site : ElseSite fp) :
    ∃ arr, annotateLockProtectionRanges moves lockPairArray fp = some arr ∧
      ((∀ objHash, objHash ∈ activeLocks arr site.firstAt ↔ objHash ∈ activeLocks arr site.testedAt) ↔
        site.Restores) := by
  obtain ⟨arr, -, harr, -⟩ := annotate_view (k := fp.length) hfp (fun va hva => by simp at hva)
  refine ⟨arr, hsteady.trans harr, ?_⟩
  rw [← site.restores_iff hfp.bracketed hfp.fits hquiet]
  apply forall_congr'
  intro objHash
  rw [mem_activeLocks_iff hfp hquiet harr site.getElem?_firstAt site.first_access,
    mem_activeLocks_iff hfp hquiet harr site.getElem?_testedAt site.tested_access]

def markerOf (type : VarAccessType) : VarAccess := lockEntry type "" none

def readOf (usr : String) : VarAccess := lockEntry .read usr none

/-- lock(m); if (c) { unlock(m); } else { x = 1; } -/
def unlockedThen : List VarAccess :=
  [lockOf "m", markerOf .ifStmt, readOf "c", markerOf .thenBlock, unlockOf "m", markerOf .elseStmt,
    writeOf "x", markerOf .endIf]

/-- if (c) { lock(m); } else { x = 1; } -/
def lockedThen : List VarAccess :=
  [markerOf .ifStmt, readOf "c", markerOf .thenBlock, lockOf "m", markerOf .elseStmt, writeOf "x",
    markerOf .endIf]

def unlockedThenSite : ElseSite unlockedThen where
  before := [lockOf "m"]
  ifStmt := markerOf .ifStmt
  cond := []
  tested := readOf "c"
  thenBlock := markerOf .thenBlock
  thn := [unlockOf "m"]
  elseStmt := markerOf .elseStmt
  leading := []
  first := writeOf "x"
  rest := [markerOf .endIf]
  split := rfl
  ifStmt_type := rfl
  thenBlock_type := rfl
  elseStmt_type := rfl
  cond_bracketed := (bracketed_iff_run _).mpr rfl
  thn_bracketed := (bracketed_iff_run _).mpr rfl
  leading_inside := rfl
  leading_quiet := by decide
  tested_access := rfl
  first_access := rfl

def lockedThenSite : ElseSite lockedThen where
  before := []
  ifStmt := markerOf .ifStmt
  cond := []
  tested := readOf "c"
  thenBlock := markerOf .thenBlock
  thn := [lockOf "m"]
  elseStmt := markerOf .elseStmt
  leading := []
  first := writeOf "x"
  rest := [markerOf .endIf]
  split := rfl
  ifStmt_type := rfl
  thenBlock_type := rfl
  elseStmt_type := rfl
  cond_bracketed := (bracketed_iff_run _).mpr rfl
  thn_bracketed := (bracketed_iff_run _).mpr rfl
  leading_inside := rfl
  leading_quiet := by decide
  tested_access := rfl
  first_access := rfl

theorem unlockedThen_wellFormed : WellFormed defaultLockPairs unlockedThen :=
  ⟨(bracketed_iff_run _).mpr rfl, by decide +kernel, by decide +kernel, by decide +kernel⟩

theorem unlockedThen_restores_iff :
    ∃ arr, annotateLockProtectionRanges (fun _ => true) defaultLockPairs unlockedThen = some arr ∧
      ((∀ objHash, objHash ∈ activeLocks arr unlockedThenSite.firstAt ↔
          objHash ∈ activeLocks arr unlockedThenSite.testedAt) ↔ unlockedThenSite.Restores) :=
  else_restores_iff unlockedThen_wellFormed (by decide +kernel) (by decide +kernel) unlockedThenSite

theorem lockedThen_not_restored :
    WellFormed defaultLockPairs lockedThen ∧ QuietConditions lockedThen ∧
      ∃ arr, annotateLockProtectionRanges (fun _ => true) defaultLockPairs lockedThen = some arr ∧
        ¬ ∀ objHash, objHash ∈ activeLocks arr lockedThenSite.firstAt ↔
          objHash ∈ activeLocks arr lockedThenSite.testedAt := by
  refine ⟨⟨(bracketed_iff_run _).mpr rfl, by decide +kernel, by decide +kernel, by decide +kernel⟩, by decide +kernel, ?_⟩
  have hlocks : (annotateLockProtectionRanges (fun _ => true) defaultLockPairs lockedThen).map
      (fun arr => (activeLocks arr 1, activeLocks arr 5)) = some ([], [lockTrackingGenHash "m"]) := by
    decide +kernel
  obtain ⟨arr, harr, heq⟩ := Option.map_eq_some_iff.mp hlocks
  obtain ⟨htested, hfirst⟩ := Prod.mk.inj heq
  refine ⟨arr, harr, fun h => ?_⟩
  have hmem : lockTrackingGenHash "m" ∈ activeLocks arr lockedThenSite.firstAt :=
    hfirst.symm ▸ List.mem_cons_self
  have hnone : activeLocks arr lockedThenSite.testedAt = [] := htested
  rw [h, hnone] at hmem
  cases hmem

end Prongc.ElseBranch
