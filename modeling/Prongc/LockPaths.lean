import Mathlib.Data.Finset.Basic
import Prongc.LockVerdict
import Prongc.Library.MeetOverPaths

namespace Prongc.LockPaths

open Access LockTracking LockRanges LockReach LockVerdict Library.BranchMarkers Library.MeetOverPaths

def lockEffect (s : Finset String) (va : VarAccess) : Finset String :=
  match va.type, va.usr with
  | .lockAcquire, some usr => insert usr s
  | .lockRelease, some usr => s.erase usr
  | _, _ => s

def lockState (π : List VarAccess) : Finset String := π.foldl lockEffect ∅

def HeldOnEveryPath (usr : String) (body : Body VarAccess) (k : Nat) : Prop :=
  ∀ π, Path (body.number 0) π → ∀ va, (va, k) ∈ π →
    usr ∈ lockState ((π.takeWhile (fun x => x.2 != k)).map Prod.fst)

/-- The locks held at `k` whichever sides the ifs before it take, in one pass
over the footprint. -/
def mustHeld (fp : List VarAccess) (k : Nat) : Finset String :=
  scan mark lockEffect ∅ (fp.take k)

theorem lockEffect_of_mark {va : VarAccess} {m : Mark} (h : mark va = some m) (s : Finset String) :
    lockEffect s va = s := by
  rw [mark] at h
  rw [lockEffect]
  cases hty : va.type <;> simp [hty] at h ⊢

theorem lockEffect_inter (va : VarAccess) (s t : Finset String) :
    lockEffect (s ⊓ t) va = lockEffect s va ⊓ lockEffect t va := by
  unfold lockEffect
  split
  · exact Finset.insert_inter_distrib _ _ _
  · ext u
    simp only [Finset.inf_eq_inter, Finset.mem_erase, Finset.mem_inter]
    exact ⟨fun ⟨hne, hs, ht⟩ => ⟨⟨hne, hs⟩, hne, ht⟩, fun ⟨⟨hne, hs⟩, _, ht⟩ => ⟨hne, hs, ht⟩⟩
  · rfl

theorem meets_mem (usr : String) : Meets (fun s : Finset String => usr ∈ s) :=
  fun _ _ => Finset.mem_inter

theorem foldl_scanStep_fst (l : List (VarAccess × Nat)) (st : Finset String × List (Frame (Finset String))) :
    l.foldl (scanStep (fun x => mark x.1) (fun s x => lockEffect s x.1)) st =
      (l.map Prod.fst).foldl (scanStep mark lockEffect) st := by
  rw [List.foldl_map]
  rfl

theorem upTo_zipIdx (fp : List VarAccess) (k : Nat) :
    upTo (fun x => x.2 == k) fp.zipIdx = (fp.take k).zipIdx := by
  suffices hs : ∀ (l : List VarAccess) (n m : Nat),
      upTo (fun x => x.2 == n + m) (l.zipIdx n) = (l.take m).zipIdx n by simpa using hs fp 0 k
  intro l
  induction l with
  | nil => intro n m; simp [upTo]
  | cons va l ih =>
      intro n m
      cases m with
      | zero => simp [upTo]
      | succ m =>
          have hnm : n + (m + 1) = n + 1 + m := by omega
          rw [List.zipIdx_cons, upTo_cons_of_not (by simp), hnm, ih (n + 1) m]
          rfl

theorem once_zipIdx (fp : List VarAccess) (k : Nat) : Once (fun x => x.2 == k) fp.zipIdx := by
  have hnodup : (fp.zipIdx.map Prod.snd).Nodup := by
    rw [List.zipIdx_map_snd]
    exact List.nodup_range'
  refine (List.pairwise_map.mp hnodup).imp fun hne => ?_
  rintro ⟨ha, hb⟩
  simp only [beq_iff_eq] at ha hb
  exact hne (ha.trans hb.symm)

theorem upTo_congr {α : Type} {p q : α → Bool} {l : List α} (h : ∀ a ∈ l, p a = q a) :
    upTo p l = upTo q l := by
  induction l with
  | nil => rfl
  | cons a l ih =>
      have ih := ih fun b hb => h b (List.mem_cons_of_mem _ hb)
      simp only [upTo, List.takeWhile_cons, h a List.mem_cons_self] at ih ⊢
      rw [ih]

theorem mem_flatten_of_path {α : Type} {b : Body α} {π : List α} (h : Path b π) {a : α} (ha : a ∈ π) :
    a ∈ flatten b := by
  classical
  obtain ⟨c, hc, he⟩ := Has.of_path (p := fun c => decide (c = a)) h ⟨a, ha, by simp⟩
  exact (of_decide_eq_true he) ▸ hc

/-- The single pass computes the locks held on every path. -/
theorem mustHeld_iff {body : Body VarAccess} (hb : WellMarked mark body) {k : Nat} {va : VarAccess}
    (hk : (flatten body)[k]? = some va) (hva : mark va = none) (usr : String) :
    usr ∈ mustHeld (flatten body) k ↔ HeldOnEveryPath usr body k := by
  have hentry {x : VarAccess × Nat} (hx : x ∈ flatten (body.number 0)) (hxk : x.2 = k) : x.1 = va := by
    rw [flatten_number, List.mem_zipIdx_iff_getElem?, hxk, hk] at hx
    exact (Option.some.inj hx).symm
  have hsame {l : List (VarAccess × Nat)} (hl : ∀ x ∈ l, x ∈ flatten (body.number 0)) :
      ∀ x ∈ l, (x.2 == k && (mark x.1).isNone) = (x.2 == k) := by
    intro x hx
    by_cases hxk : x.2 = k
    · simp [hxk, hentry (hl x hx) hxk, hva]
    · simp [hxk]
  have hmem : (va, k) ∈ flatten (body.number 0) := by
    rw [flatten_number, List.mem_zipIdx_iff_getElem?]
    exact hk
  have hone : Once (fun x => x.2 == k && (mark x.1).isNone) (flatten (body.number 0)) := by
    refine (flatten_number body 0 ▸ once_zipIdx (flatten body) k).imp fun h => ?_
    rintro ⟨ha, hb⟩
    simp only [Bool.and_eq_true] at ha hb
    exact h ⟨ha.1, hb.1⟩
  have hpaths : ScansPaths (fun x : VarAccess × Nat => mark x.1) (fun s x => lockEffect s x.1)
      (fun x => x.2 == k && (mark x.1).isNone) (body.number 0) :=
    scansPaths (fun x m s h => lockEffect_of_mark h s) (fun x s t => lockEffect_inter x.1 s t)
      (hb.number 0) (fun x m h => by simp [h]) hone ⟨(va, k), hmem, by simp [hva]⟩
  have hscan := hpaths _ (meets_mem usr) ∅ []
  rw [upTo_congr (hsame fun x hx => hx), flatten_number, upTo_zipIdx, foldl_scanStep_fst,
    List.zipIdx_map_fst] at hscan
  have hstate {π : List (VarAccess × Nat)} (hπ : Path (body.number 0) π) :
      (upTo (fun x => x.2 == k && (mark x.1).isNone) π).foldl (fun s x => lockEffect s x.1) ∅ =
        lockState ((π.takeWhile (fun x => x.2 != k)).map Prod.fst) := by
    rw [upTo_congr (hsame fun x hx => mem_flatten_of_path hπ hx), lockState, List.foldl_map]
    rfl
  refine hscan.trans ⟨fun h π hπ va' hva' => ?_, fun h π hπ hh => ?_⟩
  · rw [← hstate hπ]
    have hx := hsame (fun x hx => mem_flatten_of_path hπ hx) _ hva'
    exact h π hπ ⟨_, hva', hx.trans (by simp)⟩
  · obtain ⟨x, hx, hxk⟩ := hh
    simp only [Bool.and_eq_true, beq_iff_eq] at hxk
    rw [hstate hπ]
    exact h π hπ x.1 (hxk.1 ▸ hx)

theorem mark_of_isAccess {va : VarAccess} (h : va.type.isAccess = true) : mark va = none := by
  rw [mark]
  cases hty : va.type <;> simp [hty, VarAccessType.isAccess] at h ⊢

structure Comparable (lockPairArray : List LockPrimitivePair) (body : Body VarAccess) : Prop where
  marked : WellMarked mark body
  acquire : ∀ va ∈ flatten body, va.type = .lockAcquire →
    va.usr.isSome ∧ (getPairByLockFunc lockPairArray va.escFuncSpelling).isSome
  release : ∀ va ∈ flatten body, va.type = .lockRelease → va.usr.isSome
  fits : ifEntries (flatten body) < 2 ^ 64

theorem Comparable.wellFormed {lockPairArray : List LockPrimitivePair} {body : Body VarAccess}
    (h : Comparable lockPairArray body) : WellFormed lockPairArray (flatten body) :=
  ⟨⟨body, h.marked, rfl⟩, h.acquire, h.release, h.fits⟩

/-- No store of the annotation is lost in a block that growing the array has moved. -/
def Steady (moves : Nat → Bool) (lockPairArray : List LockPrimitivePair) (fp : List VarAccess) : Prop :=
  annotateLockProtectionRanges moves lockPairArray fp =
    annotateLockProtectionRanges inPlace lockPairArray fp

instance (moves : Nat → Bool) (lockPairArray : List LockPrimitivePair) (fp : List VarAccess) :
    Decidable (Steady moves lockPairArray fp) :=
  inferInstanceAs (Decidable (_ = _))

/-- Both sides acquire some lock somewhere, and the acquisitions that reach the
two accesses match. -/
def Unflagged (fpA fpB : List VarAccess) (i j : Nat) : Prop :=
  Matched (reaching fpA i) (reaching fpB j) ∧ acquisitions fpA ≠ [] ∧ acquisitions fpB ≠ []

instance (fpA fpB : List VarAccess) (i j : Nat) : Decidable (Unflagged fpA fpB i j) :=
  inferInstanceAs (Decidable (_ ∧ _))

def ShareLock (fpA fpB : List VarAccess) (i j : Nat) : Prop := ∃ usr ∈ mustHeld fpA i, usr ∈ mustHeld fpB j

instance (fpA fpB : List VarAccess) (i j : Nat) : Decidable (ShareLock fpA fpB i j) :=
  inferInstanceAs (Decidable (∃ usr ∈ mustHeld fpA i, usr ∈ mustHeld fpB j))

def lockEntry (type : VarAccessType) (usr : String) (func : Option String) : VarAccess where
  usr := some usr
  name := some usr
  parentFuncName := "f"
  escFuncSpelling := func
  escFuncUsr := func
  escParamIdx := 0
  line := 1
  column := 1
  type := type
  isPtrType := false

def lockOf (usr : String) : VarAccess := lockEntry .lockAcquire usr (some "pthread_mutex_lock")

def unlockOf (usr : String) : VarAccess := lockEntry .lockRelease usr (some "pthread_mutex_unlock")

def writeOf (usr : String) : VarAccess := lockEntry .write usr none

def releasedEarly : Body VarAccess :=
  .event (lockOf "m") (.event (unlockOf "m") (.event (writeOf "x") .nil))

def singleLock : Body VarAccess :=
  .event (lockOf "m") (.event (writeOf "x") (.event (unlockOf "m") .nil))

def doubleLock : Body VarAccess :=
  .event (lockOf "m") (.event (lockOf "k") (.event (writeOf "x") (.event (unlockOf "k")
    (.event (unlockOf "m") .nil))))

theorem releasedEarly_comparable : Comparable defaultLockPairs releasedEarly :=
  ⟨⟨rfl, rfl, rfl, trivial⟩, by decide +kernel, by decide +kernel, by decide +kernel⟩

theorem singleLock_comparable : Comparable defaultLockPairs singleLock :=
  ⟨⟨rfl, rfl, rfl, trivial⟩, by decide +kernel, by decide +kernel, by decide +kernel⟩

theorem doubleLock_comparable : Comparable defaultLockPairs doubleLock :=
  ⟨⟨rfl, rfl, rfl, rfl, rfl, trivial⟩, by decide +kernel, by decide +kernel, by decide +kernel⟩

section Contract

variable {lockPairArray : List LockPrimitivePair} {moves : Nat → Bool} {bodyA bodyB : Body VarAccess}
  {i j : Nat} {a b : VarAccess}

theorem Steady.exists_annotated {body : Body VarAccess} (h : Comparable lockPairArray body)
    (hs : Steady moves lockPairArray (flatten body)) :
    ∃ arr, annotateLockProtectionRanges moves lockPairArray (flatten body) = some arr ∧
      annotateLockProtectionRanges inPlace lockPairArray (flatten body) = some arr := by
  obtain ⟨arr, _, harr, _⟩ := annotate_view (k := (flatten body).length) h.wellFormed
    (fun va hva => by simp at hva)
  exact ⟨arr, hs.trans harr, harr⟩

theorem shareLock_iff (hA : WellMarked mark bodyA) (hB : WellMarked mark bodyB)
    (hi : (flatten bodyA)[i]? = some a) (hj : (flatten bodyB)[j]? = some b)
    (ha : a.type.isAccess = true) (hb : b.type.isAccess = true) :
    ShareLock (flatten bodyA) (flatten bodyB) i j ↔
      ∃ usr, HeldOnEveryPath usr bodyA i ∧ HeldOnEveryPath usr bodyB j := by
  rw [ShareLock]
  simp only [mustHeld_iff hA hi (mark_of_isAccess ha), mustHeld_iff hB hj (mark_of_isAccess hb)]

theorem length_of_getElem? {l : List VarAccess} {k : Nat} {va : VarAccess} (h : l[k]? = some va) :
    k < l.length :=
  (List.getElem?_eq_some_iff.mp h).1

theorem isAccess_of_getElem? {l : List VarAccess} {k : Nat} {va : VarAccess} (h : l[k]? = some va)
    (ha : va.type.isAccess = true) : ∀ w, l[k]? = some w → w.type.isAccess = true := by
  intro w hw
  rw [h, Option.some.injEq] at hw
  exact hw ▸ ha

/-- An unflagged pair of accesses has a common lock on all paths exactly where
matching acquisitions come with a shared held lock. -/
theorem unflagged_pair_protected_iff
    (hA : Comparable lockPairArray bodyA) (hB : Comparable lockPairArray bodyB)
    (hsA : Steady moves lockPairArray (flatten bodyA)) (hsB : Steady moves lockPairArray (flatten bodyB))
    (hi : (flatten bodyA)[i]? = some a) (hj : (flatten bodyB)[j]? = some b)
    (ha : a.type.isAccess = true) (hb : b.type.isAccess = true) :
    ∃ arrA arrB, annotateLockProtectionRanges moves lockPairArray (flatten bodyA) = some arrA ∧
      annotateLockProtectionRanges moves lockPairArray (flatten bodyB) = some arrB ∧
      ((badProtection arrA arrB i j = false →
          ∃ usr, HeldOnEveryPath usr bodyA i ∧ HeldOnEveryPath usr bodyB j) ↔
        (Unflagged (flatten bodyA) (flatten bodyB) i j → ShareLock (flatten bodyA) (flatten bodyB) i j)) := by
  obtain ⟨arrA, hmA, harrA⟩ := hsA.exists_annotated hA
  obtain ⟨arrB, hmB, harrB⟩ := hsB.exists_annotated hB
  refine ⟨arrA, arrB, hmA, hmB, ?_⟩
  have hverdict := badProtection_iff hA.wellFormed hB.wellFormed (length_of_getElem? hi)
    (length_of_getElem? hj) (isAccess_of_getElem? hi ha) (isAccess_of_getElem? hj hb) harrA harrB
  rw [← shareLock_iff hA.marked hB.marked hi hj ha hb, hverdict]
  rfl

theorem singleLock_pair_protected_iff :
    ∃ arrA arrB, annotateLockProtectionRanges (fun _ => true) defaultLockPairs (flatten singleLock) = some arrA ∧
      annotateLockProtectionRanges (fun _ => true) defaultLockPairs (flatten doubleLock) = some arrB ∧
      ((badProtection arrA arrB 1 2 = false →
          ∃ usr, HeldOnEveryPath usr singleLock 1 ∧ HeldOnEveryPath usr doubleLock 2) ↔
        (Unflagged (flatten singleLock) (flatten doubleLock) 1 2 →
          ShareLock (flatten singleLock) (flatten doubleLock) 1 2)) :=
  unflagged_pair_protected_iff singleLock_comparable doubleLock_comparable (by decide +kernel)
    (by decide +kernel) (a := writeOf "x") (b := writeOf "x") rfl rfl rfl rfl

/-- Two writes of `x` behind the release of the only lock count as protected. -/
theorem releasedEarly_unflagged :
    Comparable defaultLockPairs releasedEarly ∧ (flatten releasedEarly)[2]? = some (writeOf "x") ∧
      equalVarAccesses (writeOf "x") (writeOf "x") = true ∧
      ∃ arr, annotateLockProtectionRanges inPlace defaultLockPairs (flatten releasedEarly) = some arr ∧
        badProtection arr arr 2 2 = false ∧
        ¬ ∃ usr, HeldOnEveryPath usr releasedEarly 2 ∧ HeldOnEveryPath usr releasedEarly 2 := by
  refine ⟨releasedEarly_comparable, rfl, by decide +kernel, ?_⟩
  have hbad : (annotateLockProtectionRanges inPlace defaultLockPairs (flatten releasedEarly)).any
      (fun arr => !badProtection arr arr 2 2) = true := by decide +kernel
  obtain ⟨arr, harr, hb⟩ := (Option.any_eq_true _ _).mp hbad
  refine ⟨arr, harr, by simpa using hb, ?_⟩
  rw [← shareLock_iff (a := writeOf "x") (b := writeOf "x") releasedEarly_comparable.marked
    releasedEarly_comparable.marked rfl rfl rfl rfl]
  decide +kernel

/-- Accesses with a common lock on all paths are judged protected exactly where
the acquisitions that reach them match as well. -/
theorem protected_pair_unflagged_iff
    (hA : Comparable lockPairArray bodyA) (hB : Comparable lockPairArray bodyB)
    (hsA : Steady moves lockPairArray (flatten bodyA)) (hsB : Steady moves lockPairArray (flatten bodyB))
    (hi : (flatten bodyA)[i]? = some a) (hj : (flatten bodyB)[j]? = some b)
    (ha : a.type.isAccess = true) (hb : b.type.isAccess = true) :
    ∃ arrA arrB, annotateLockProtectionRanges moves lockPairArray (flatten bodyA) = some arrA ∧
      annotateLockProtectionRanges moves lockPairArray (flatten bodyB) = some arrB ∧
      (((∃ usr, HeldOnEveryPath usr bodyA i ∧ HeldOnEveryPath usr bodyB j) →
          matchingProtectionFieldArrays arrA arrB i j = .sharedProtected) ↔
        (ShareLock (flatten bodyA) (flatten bodyB) i j →
          Matched (reaching (flatten bodyA) i) (reaching (flatten bodyB) j))) := by
  obtain ⟨arrA, hmA, harrA⟩ := hsA.exists_annotated hA
  obtain ⟨arrB, hmB, harrB⟩ := hsB.exists_annotated hB
  refine ⟨arrA, arrB, hmA, hmB, ?_⟩
  have hverdict := matching_iff hA.wellFormed hB.wellFormed (length_of_getElem? hi)
    (length_of_getElem? hj) (isAccess_of_getElem? hi ha) (isAccess_of_getElem? hj hb) harrA harrB
  rw [← shareLock_iff hA.marked hB.marked hi hj ha hb, hverdict]

theorem doubleLock_pair_unflagged_iff :
    ∃ arrA arrB, annotateLockProtectionRanges (fun _ => true) defaultLockPairs (flatten doubleLock) = some arrA ∧
      annotateLockProtectionRanges (fun _ => true) defaultLockPairs (flatten singleLock) = some arrB ∧
      (((∃ usr, HeldOnEveryPath usr doubleLock 2 ∧ HeldOnEveryPath usr singleLock 1) →
          matchingProtectionFieldArrays arrA arrB 2 1 = .sharedProtected) ↔
        (ShareLock (flatten doubleLock) (flatten singleLock) 2 1 →
          Matched (reaching (flatten doubleLock) 2) (reaching (flatten singleLock) 1))) :=
  protected_pair_unflagged_iff doubleLock_comparable singleLock_comparable (by decide +kernel)
    (by decide +kernel) (a := writeOf "x") (b := writeOf "x") rfl rfl rfl rfl

/-- One lock more on one side is judged unprotected, whatever both sides hold. -/
theorem doubleLock_flagged :
    Comparable defaultLockPairs doubleLock ∧ Comparable defaultLockPairs singleLock ∧
      (flatten doubleLock)[2]? = some (writeOf "x") ∧ (flatten singleLock)[1]? = some (writeOf "x") ∧
      (∃ usr, HeldOnEveryPath usr doubleLock 2 ∧ HeldOnEveryPath usr singleLock 1) ∧
      ∃ arrA arrB, annotateLockProtectionRanges inPlace defaultLockPairs (flatten doubleLock) = some arrA ∧
        annotateLockProtectionRanges inPlace defaultLockPairs (flatten singleLock) = some arrB ∧
        matchingProtectionFieldArrays arrA arrB 2 1 = .sharedUnprotected := by
  refine ⟨doubleLock_comparable, singleLock_comparable, rfl, rfl, ?_, ?_⟩
  · rw [← shareLock_iff (a := writeOf "x") (b := writeOf "x") doubleLock_comparable.marked
      singleLock_comparable.marked rfl rfl rfl rfl]
    decide +kernel
  · have hflag : (annotateLockProtectionRanges inPlace defaultLockPairs (flatten doubleLock)).any (fun arrA =>
        (annotateLockProtectionRanges inPlace defaultLockPairs (flatten singleLock)).any (fun arrB =>
          matchingProtectionFieldArrays arrA arrB 2 1 == .sharedUnprotected)) = true := by decide +kernel
    obtain ⟨arrA, harrA, h⟩ := (Option.any_eq_true _ _).mp hflag
    obtain ⟨arrB, harrB, h⟩ := (Option.any_eq_true _ _).mp h
    exact ⟨arrA, arrB, harrA, harrB, by simpa using h⟩

end Contract

end Prongc.LockPaths
