import Prongc.RangeFields

namespace Prongc.BranchTags

open Access LockTracking LockRanges LockReach LockVerdict LockPaths AnnotationRun ElseBranch RangeFields Library.SizeT
open Library.BranchMarkers

/-- The number of branches that are open behind the entries. Conditions are not branches. -/
def openBranches (l : List VarAccess) : Nat := ((run mark [] l).getD []).countP fun p => p ≠ .cond

def nestingAt (fp : List VarAccess) (start : Nat) : Nat := openBranches (fp.take (start + 1))

/-- Every range carries the nesting depth of the code it starts in. -/
def TagsRight (fp : List VarAccess) (arr : ProtectionFieldArray) : Prop :=
  ∀ f ∈ arr.lpFields, f.branchDepth = nestingAt fp f.protectionRangeStart

def releasedIn (seen : List VarAccess) (acquisition : Nat × UInt32) : Bool :=
  (seen.drop (acquisition.1 + 1)).any (releases acquisition.2)

/-- A lock is acquired outside of branches, an if meets only locks released since they were acquired, and the
else of an outermost if meets none of these. -/
def KeepsTags (seen : List VarAccess) (va : VarAccess) : Prop :=
  match va.type with
  | .lockAcquire => openBranches seen = 0
  | .ifStmt => ∀ x ∈ acquisitions seen, releasedIn seen x = true
  | .elseStmt => seen.foldl nextDepth 0 = 1 → ∀ x ∈ acquisitions seen, releasedIn seen x = false
  | _ => True

def LocksOutsideIfs (fp : List VarAccess) : Prop :=
  ∀ seen va rest, fp = seen ++ va :: rest → KeepsTags seen va

section Nesting

variable {fp seen rest : List VarAccess} {va : VarAccess}

theorem nestingAt_append : nestingAt (seen ++ va :: rest) seen.length = openBranches (seen ++ [va]) := by
  have htake : (seen ++ va :: rest).take (seen.length + 1) = seen ++ [va] := by
    rw [List.take_append, List.take_of_length_le (by omega)]
    simp
  rw [nestingAt, htake]

theorem openBranches_event (h : mark va = none) : openBranches (seen ++ [va]) = openBranches seen := by
  unfold openBranches
  rw [run_append]
  cases run mark [] seen with
  | none => rfl
  | some ps => rw [Option.bind_some, run_cons_event h, run_nil]

theorem step_branch {m : Mark} (hm : m = .thenBlock ∨ m = .elseStmt) {ps ps' : List Phase}
    (h : step m ps = some ps') : ∃ p rest, ps' = p :: rest ∧ p ≠ .cond := by
  rcases hm with rfl | rfl
  · match ps, h with
    | .cond :: rest, h => exact ⟨.thenPart, rest, (Option.some.inj h).symm, Phase.noConfusion⟩
  · match ps, h with
    | .thenPart :: rest, h => exact ⟨.elsePart, rest, (Option.some.inj h).symm, Phase.noConfusion⟩

theorem openBranches_pos (hb : Bracketed mark fp) (hfp : fp = seen ++ va :: rest) {m : Mark}
    (hmark : mark va = some m) (hm : m = .thenBlock ∨ m = .elseStmt) : openBranches (seen ++ [va]) ≠ 0 := by
  have hrun := (bracketed_iff_run fp).mp hb
  rw [hfp] at hrun
  obtain ⟨ps, hps, hrest⟩ := run_prefix hrun
  rw [run_cons_mark hmark] at hrest
  obtain ⟨ps', hstep, -⟩ := Option.bind_eq_some_iff.mp hrest
  obtain ⟨p, outer, rfl, hp⟩ := step_branch hm hstep
  have hbehind : run mark [] (seen ++ [va]) = some (p :: outer) := by
    rw [run_append, hps, Option.bind_some, run_cons_mark hmark, hstep]
    rfl
  rw [openBranches, hbehind, Option.getD_some, List.countP_cons_of_pos (by simpa using hp)]
  exact Nat.succ_ne_zero _

theorem nestingAt_pos (hb : Bracketed mark fp) {start : Nat} (hva : fp[start]? = some va)
    (hty : va.type = .thenBlock ∨ va.type = .elseStmt) : nestingAt fp start ≠ 0 := by
  obtain ⟨hlt, hget⟩ := List.getElem?_eq_some_iff.mp hva
  have hfp : fp = fp.take start ++ va :: fp.drop (start + 1) := by
    rw [← hget, List.getElem_cons_drop, List.take_append_drop]
  have hbehind : nestingAt fp start = openBranches (fp.take start ++ [va]) := by
    have hnesting := @nestingAt_append (fp.take start) (fp.drop (start + 1)) va
    rwa [← hfp, List.length_take_of_le (Nat.le_of_lt hlt)] at hnesting
  rw [hbehind]
  rcases hty with hty | hty
  · exact openBranches_pos hb hfp (by simp [mark, hty]) (.inl rfl)
  · exact openBranches_pos hb hfp (by simp [mark, hty]) (.inr rfl)

end Nesting

section Fields

variable {moves : Nat → Bool} {lockPairArray : List LockPrimitivePair} {fp seen rest : List VarAccess}
  {va : VarAccess} {fields : List LockProtectionField} {st st' : ProtectionFieldArray × Nat}

structure Flat (fp seen : List VarAccess) (fields : List LockProtectionField) : Prop where
  keys : fields.map (fun f => (f.protectionRangeStart, f.lockObjHash)) = acquisitions seen
  depth : ∀ f ∈ fields, f.branchDepth = 0 ∧ nestingAt fp f.protectionRangeStart = 0
  unlinked : ∀ f ∈ fields, f.nextProtRange = none
  open_iff : ∀ f ∈ fields, f.protectionRangeEnd = none ↔
    releasedIn seen (f.protectionRangeStart, f.lockObjHash) = false

def Mistagged (fp : List VarAccess) (fields : List LockProtectionField) : Prop :=
  ∃ f ∈ fields, f.branchDepth = 0 ∧ nestingAt fp f.protectionRangeStart ≠ 0

theorem releasedIn_snoc {x : Nat × UInt32} (hx : x.1 < seen.length) (va : VarAccess) :
    releasedIn (seen ++ [va]) x = (releasedIn seen x || releases x.2 va) := by
  rw [releasedIn, List.drop_append_of_le_length (by omega), List.any_append]
  simp [releasedIn]

theorem Flat.key_mem (h : Flat fp seen fields) {f : LockProtectionField} (hf : f ∈ fields) :
    (f.protectionRangeStart, f.lockObjHash) ∈ acquisitions seen :=
  h.keys ▸ List.mem_map_of_mem hf

theorem Flat.open_snoc (h : Flat fp seen fields) {f : LockProtectionField} (hf : f ∈ fields) (va : VarAccess) :
    releasedIn (seen ++ [va]) (f.protectionRangeStart, f.lockObjHash) = false ↔
      f.protectionRangeEnd = none ∧ releases f.lockObjHash va = false := by
  rw [releasedIn_snoc (acquisitions_lt (h.key_mem hf)), Bool.or_eq_false_iff, h.open_iff f hf]

theorem Flat.idle (h : Flat fp seen fields) (hacquire : va.type ≠ .lockAcquire) (hrelease : va.type ≠ .lockRelease) :
    Flat fp (seen ++ [va]) fields := by
  refine ⟨?_, h.depth, h.unlinked, fun f hf => ?_⟩
  · rw [h.keys, acquisitions_snoc, if_neg hacquire]
    simp
  · rw [h.open_snoc hf, releases_eq_false hrelease]
    simp

theorem Flat.opened (h : Flat fp seen fields) (hfp : fp = seen ++ va :: rest) (type : va.type = .lockAcquire)
    {usr : String} (named : va.usr = some usr) (houtside : openBranches seen = 0) (pair : LockPrimitivePair) :
    Flat fp (seen ++ [va]) (fields ++ [openedRange pair usr seen.length]) := by
  have hnesting : nestingAt fp seen.length = 0 := by
    rw [hfp, nestingAt_append, openBranches_event (by simp [mark, type]), houtside]
  constructor
  · rw [List.map_append, h.keys, acquisitions_snoc, if_pos type, named]
    rfl
  · intro f hf
    rcases List.mem_append.mp hf with hf | hf
    · exact h.depth f hf
    · rw [List.mem_singleton.mp hf]
      exact ⟨rfl, hnesting⟩
  · intro f hf
    rcases List.mem_append.mp hf with hf | hf
    · exact h.unlinked f hf
    · rw [List.mem_singleton.mp hf]
      rfl
  · intro f hf
    rcases List.mem_append.mp hf with hf | hf
    · rw [h.open_snoc hf, releases_eq_false (by simp [type])]
      simp
    · rw [List.mem_singleton.mp hf]
      have hnothing : (seen ++ [va]).drop (seen.length + 1) = [] := List.drop_of_length_le (by simp)
      refine iff_of_true rfl ?_
      rw [releasedIn, openedRange, hnothing, List.any_nil]

theorem Flat.closed (h : Flat fp seen fields) (type : va.type = .lockRelease) {usr : String}
    (named : va.usr = some usr) (r : Nat) :
    Flat fp (seen ++ [va]) (fields.map (closeField (lockTrackingGenHash usr) r)) := by
  constructor
  · rw [List.map_map, acquisitions_snoc, if_neg (by simp [type]), ← h.keys]
    simp [closeField_start, closeField_objHash]
  · intro f' hf'
    obtain ⟨f, hf, rfl⟩ := List.mem_map.mp hf'
    rw [closeField_depth, closeField_start]
    exact h.depth f hf
  · intro f' hf'
    obtain ⟨f, hf, rfl⟩ := List.mem_map.mp hf'
    rw [closeField_next]
    exact h.unlinked f hf
  · intro f' hf'
    obtain ⟨f, hf, rfl⟩ := List.mem_map.mp hf'
    have hreleases : releases f.lockObjHash va = false ↔ ¬ lockTrackingGenHash usr = f.lockObjHash := by
      simp [releases, type, named]
    rw [closeField_start, closeField_objHash, h.open_snoc hf, hreleases, closeField_end]
    split
    next hopen => simp [hopen]
    next hother => exact ⟨fun hnone => ⟨hnone, fun hsame => hother ⟨hnone, hsame.symm⟩⟩, And.left⟩

theorem Flat.step (h : Flat fp seen st.1.lpFields) (hfp : fp = seen ++ va :: rest)
    (hdepth : st.2 = seen.foldl nextDepth 0) (hkeeps : KeepsTags seen va)
    (hstep : EntryStep moves fp va seen.length st st') : Flat fp (seen ++ [va]) st'.1.lpFields := by
  rw [KeepsTags] at hkeeps
  cases hstep with
  | lockAcquire type named =>
      rw [type] at hkeeps
      exact h.opened hfp type named hkeeps _
  | lockRelease type named =>
      rw [setProtectionRangeEnd_fields fun f hf _ => h.unlinked f hf]
      exact h.closed type named _
  | ifStmt type found =>
      rw [type] at hkeeps
      have hclosed : ∀ f ∈ st.1.lpFields, isActive f = false := by
        intro f hf
        have hopen := h.open_iff f hf
        rw [hkeeps _ (h.key_mem hf)] at hopen
        simpa [isActive, Option.isSome_iff_ne_none] using hopen
      rw [addProtectionRangeFieldsActive, copies_none (fun _ i => splitActiveAt_copied _ _ i) hclosed]
      exact h.idle (by simp [type]) (by simp [type])
  | elseStmt type =>
      rw [type, ← hdepth] at hkeeps
      have hkept : ∀ f ∈ st.1.lpFields, isInactive (sizePred st.2) f = false := by
        intro f hf
        rw [Bool.eq_false_iff]
        intro htest
        obtain ⟨-, hclosed, htag⟩ := isInactive_iff.mp htest
        rw [(h.depth f hf).1] at htag
        exact hclosed ((h.open_iff f hf).mpr (hkeeps (sizePred_eq_zero.mp htag.symm) _ (h.key_mem hf)))
      rw [addProtectionRangeFieldsInactive, copies_none (fun _ i => reviveInactiveAt_copied _ _ i) hkept]
      exact h.idle (by simp [type]) (by simp [type])
  | other hacquire hrelease _ _ => exact h.idle hacquire hrelease

theorem Flat.broken (h : Flat fp seen st.1.lpFields) (hb : Bracketed mark fp) (hfp : fp = seen ++ va :: rest)
    (hdepth : st.2 = seen.foldl nextDepth 0) (hbreaks : ¬ KeepsTags seen va)
    (hstep : EntryStep moves fp va seen.length st st') : Mistagged fp st'.1.lpFields := by
  rw [KeepsTags] at hbreaks
  cases hstep with
  | lockAcquire type named =>
      rw [type] at hbreaks
      refine ⟨_, List.mem_append_right _ List.mem_cons_self, rfl, ?_⟩
      have hnesting : nestingAt fp seen.length = openBranches seen := by
        rw [hfp, nestingAt_append, openBranches_event (by simp [mark, type])]
      exact fun hnone => hbreaks (hnesting ▸ hnone)
  | lockRelease type named =>
      rw [type] at hbreaks
      exact absurd trivial hbreaks
  | ifStmt type found =>
      rw [type] at hbreaks
      push Not at hbreaks
      obtain ⟨x, hx, hheld⟩ := hbreaks
      rw [← h.keys] at hx
      obtain ⟨f, hf, rfl⟩ := List.mem_map.mp hx
      have hopen : f.protectionRangeEnd = none := (h.open_iff f hf).mpr (by simpa using hheld)
      refine ⟨_, copy_mem (fun _ i => splitActiveAt_copied _ _ i) hf (by simp [isActive, hopen]),
        (h.depth f hf).1, ?_⟩
      obtain ⟨then_, hthen, hty⟩ := (firstThen_of_startOfBranch found).marked
      exact nestingAt_pos hb hthen (.inl hty)
  | elseStmt type =>
      rw [type] at hbreaks
      push Not at hbreaks
      obtain ⟨hone, x, hx, hreleased⟩ := hbreaks
      rw [← h.keys] at hx
      obtain ⟨f, hf, rfl⟩ := List.mem_map.mp hx
      have hclosed : f.protectionRangeEnd ≠ none := fun hopen => hreleased ((h.open_iff f hf).mp hopen)
      have hinactive : isInactive (sizePred st.2) f = true := by
        refine isInactive_iff.mpr ⟨h.unlinked f hf, hclosed, ?_⟩
        rw [(h.depth f hf).1, hdepth, hone]
        rfl
      refine ⟨_, copy_mem (fun _ i => reviveInactiveAt_copied _ _ i) hf hinactive, (h.depth f hf).1, ?_⟩
      have hva : fp[seen.length]? = some va := by simp [hfp]
      exact nestingAt_pos hb hva (.inr type)
  | other hacquire hrelease hif helse =>
      exact absurd (by cases hty : va.type <;> simp_all) hbreaks

theorem Mistagged.step (h : Mistagged fp st.1.lpFields) (hb : Bracketed mark fp)
    (htidy : ∀ f ∈ st.1.lpFields, Tidy f) (hstep : EntryStep moves fp va seen.length st st') :
    Mistagged fp st'.1.lpFields := by
  cases hstep with
  | lockAcquire type named =>
      obtain ⟨f, hf, hbad⟩ := h
      exact ⟨f, List.mem_append_left _ hf, hbad⟩
  | lockRelease type named =>
      obtain ⟨f, hf, htag, hnesting⟩ := h
      rw [setProtectionRangeEnd_fields fun f hf => (htidy f hf).tail]
      refine ⟨_, List.mem_map_of_mem hf, ?_, ?_⟩
      · rw [closeField_depth, htag]
      · rwa [closeField_start]
  | ifStmt type found =>
      obtain ⟨then_, hthen, hty⟩ := (firstThen_of_startOfBranch found).marked
      refine copies_exists (P := fun f => f.branchDepth = 0 ∧ nestingAt fp f.protectionRangeStart ≠ 0)
        (fun _ i => splitActiveAt_copied _ _ i) ?_ _ h
      exact fun n f hbad _ => .inr ⟨hbad.1, nestingAt_pos hb hthen (.inl hty)⟩
  | elseStmt type =>
      exact copies_exists (P := fun f => f.branchDepth = 0 ∧ nestingAt fp f.protectionRangeStart ≠ 0)
        (fun _ i => reviveInactiveAt_copied _ _ i) (fun n f hbad _ => .inl hbad) _ h
  | other _ _ _ _ => exact h

theorem locksOutsideIfs_snoc : LocksOutsideIfs (seen ++ [va]) ↔ LocksOutsideIfs seen ∧ KeepsTags seen va := by
  constructor
  · intro h
    refine ⟨fun pre a post hseen => h pre a (post ++ [va]) (by simp [hseen]), h seen va [] rfl⟩
  · rintro ⟨h, hlast⟩ pre a post heq
    rcases List.eq_nil_or_concat' post with rfl | ⟨post, b, rfl⟩
    · obtain ⟨rfl, hsame⟩ := List.append_inj' heq rfl
      obtain rfl := (List.cons.inj hsame).1
      exact hlast
    · apply h pre a post
      rw [← List.cons_append, ← List.append_assoc] at heq
      exact (List.append_inj' heq rfl).1

/-- Behind each entry all ranges are flat if the locks stayed outside of ifs so far, and some range is
mistagged otherwise. -/
theorem stateAfter_tags (hb : Bracketed mark fp) (hseen : seen <+: fp)
    (hst : stateAfter moves lockPairArray fp seen = some st) :
    (LocksOutsideIfs seen ∧ Flat fp seen st.1.lpFields) ∨ (¬ LocksOutsideIfs seen ∧ Mistagged fp st.1.lpFields) := by
  refine stateAfter_rule (P := fun seen st => (LocksOutsideIfs seen ∧ Flat fp seen st.1.lpFields) ∨
    (¬ LocksOutsideIfs seen ∧ Mistagged fp st.1.lpFields)) ?_ ?_ hseen hst
  · refine .inl ⟨fun pre a post h => by simp at h, rfl, ?_, ?_, ?_⟩ <;>
      exact fun f hf => by cases hf
  · intro seen va rest st st' hfp hst h hstep
    have hseen : seen <+: fp := ⟨va :: rest, hfp.symm⟩
    have hdepth := stateAfter_depth hseen hst
    rw [locksOutsideIfs_snoc]
    rcases h with ⟨houtside, hflat⟩ | ⟨hbroken, hbad⟩
    · by_cases hkeeps : KeepsTags seen va
      · exact .inl ⟨⟨houtside, hkeeps⟩, hflat.step hfp hdepth hkeeps hstep⟩
      · exact .inr ⟨fun h => hkeeps h.2, hflat.broken hb hfp hdepth hkeeps hstep⟩
    · exact .inr ⟨fun h => hbroken h.1, hbad.step hb (stateAfter_tidy hseen hst) hstep⟩

/-- The tags are right exactly if no lock is acquired in a branch, none is held at an if, and none was given
up before the else of an outermost if. -/
theorem tags_right_iff (moves : Nat → Bool) (h : WellFormed lockPairArray fp) :
    ∃ arr, annotateLockProtectionRanges moves lockPairArray fp = some arr ∧
      (TagsRight fp arr ↔ LocksOutsideIfs fp) := by
  obtain ⟨arr, harr⟩ := exists_annotated moves h
  refine ⟨arr, harr, ?_⟩
  rw [annotate_eq_stateAfter] at harr
  obtain ⟨st, hst, rfl⟩ := Option.map_eq_some_iff.mp harr
  rcases stateAfter_tags h.bracketed List.prefix_rfl hst with ⟨houtside, hflat⟩ | ⟨hbroken, f, hf, htag, hnesting⟩
  · refine iff_of_true (fun f hf => ?_) houtside
    rw [(hflat.depth f hf).1, (hflat.depth f hf).2]
  · refine iff_of_false (fun hright => hnesting ?_) hbroken
    rw [← hright f hf, htag]

end Fields

/-- lock(m); x = 1; unlock(m); if (c) { x = 1; } -/
def lockBeforeIf : List VarAccess :=
  [lockOf "m", writeOf "x", unlockOf "m", markerOf .ifStmt, readOf "c", markerOf .thenBlock, writeOf "x",
    markerOf .endIf]

theorem lockBeforeIf_wellFormed : WellFormed defaultLockPairs lockBeforeIf :=
  ⟨(bracketed_iff_run _).mpr rfl, by decide +kernel, by decide +kernel, by decide +kernel⟩

theorem lockBeforeIf_tags_right : ∃ arr,
    annotateLockProtectionRanges inPlace defaultLockPairs lockBeforeIf = some arr ∧
      (TagsRight lockBeforeIf arr ↔ LocksOutsideIfs lockBeforeIf) :=
  tags_right_iff inPlace lockBeforeIf_wellFormed

/-- lock(m); if (c) { x = 1; } -/
def lockAroundIf : List VarAccess :=
  [lockOf "m", markerOf .ifStmt, readOf "c", markerOf .thenBlock, writeOf "x", markerOf .endIf]

/-- The range in front of the branch gets the tag of the branch, and the range inside has none. -/
theorem lockAroundIf_tags : WellFormed defaultLockPairs lockAroundIf ∧
    ∃ arr, annotateLockProtectionRanges inPlace defaultLockPairs lockAroundIf = some arr ∧
      arr.lpFields.map (fun f => (f.protectionRangeStart, f.branchDepth, nestingAt lockAroundIf f.protectionRangeStart))
        = [(0, 1, 0), (3, 0, 1)] ∧ ¬ TagsRight lockAroundIf arr := by
  refine ⟨⟨(bracketed_iff_run _).mpr rfl, by decide +kernel, by decide +kernel, by decide +kernel⟩, _, rfl, by decide +kernel, ?_⟩
  intro hright
  have hfirst := hright _ List.mem_cons_self
  revert hfirst
  decide +kernel

end Prongc.BranchTags
