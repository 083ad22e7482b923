import Prongc.Library.Mutex
import Prongc.ThreadPool

namespace Prongc.PoolLocking

open ParseCall ParseFile ThreadPool Library Library.Interleaving Library.Mutex Library.SizeT

inductive SectionState
  | readIdx
  | loadNext (tuIdx : Nat)
  | storeNext (tuIdx next : Nat)
  | checkIdx (tuIdx : Nat)
  | loadActive
  | storeActive (numActive : Nat)
  | unlockExit
  | unlockParse (tuIdx : Nat)

section Client

variable (input : ParseInput)

def sectionTick : SectionState → ThreadInfo → (SectionState ⊕ ThreadState) × ThreadInfo
  | .readIdx, info => (.inl (.loadNext info.nextFileIdx), info)
  | .loadNext tuIdx, info => (.inl (.storeNext tuIdx (sizeSucc info.nextFileIdx)), info)
  | .storeNext tuIdx next, info => (.inl (.checkIdx tuIdx), { info with nextFileIdx := next })
  | .checkIdx tuIdx, info =>
      (.inl (if tuIdx ≥ input.fileNames.length then .loadActive else .unlockParse tuIdx), info)
  | .loadActive, info => (.inl (.storeActive (sizePred info.numActive)), info)
  | .storeActive numActive, info => (.inl .unlockExit, { info with numActive := numActive })
  | .unlockExit, info => (.inr .exited, info)
  | .unlockParse tuIdx, info => (.inr (.parsing tuIdx), info)

def finishExit (info : ThreadInfo) : ThreadState × ThreadInfo :=
  (.exited, { info with numActive := sizePred info.numActive })

def finishCheck (tuIdx : Nat) (info : ThreadInfo) : ThreadState × ThreadInfo :=
  if tuIdx ≥ input.fileNames.length then finishExit info else (.parsing tuIdx, info)

def sectionFinish : SectionState → ThreadInfo → ThreadState × ThreadInfo
  | .readIdx, info =>
      finishCheck input info.nextFileIdx { info with nextFileIdx := sizeSucc info.nextFileIdx }
  | .loadNext tuIdx, info => finishCheck input tuIdx { info with nextFileIdx := sizeSucc info.nextFileIdx }
  | .storeNext tuIdx next, info => finishCheck input tuIdx { info with nextFileIdx := next }
  | .checkIdx tuIdx, info => finishCheck input tuIdx info
  | .loadActive, info => finishExit info
  | .storeActive numActive, info => (.exited, { info with numActive := numActive })
  | .unlockExit, info => (.exited, info)
  | .unlockParse tuIdx, info => (.parsing tuIdx, info)

def sectionTicksLeft : SectionState → Nat
  | .readIdx => 6
  | .loadNext _ => 5
  | .storeNext _ _ => 4
  | .checkIdx _ => 3
  | .loadActive => 2
  | .storeActive _ => 1
  | .unlockExit | .unlockParse _ => 0

def parseWork (thread : Nat) : ThreadState → List (Nat × Nat) → Option (ThreadState × List (Nat × Nat))
  | .parsing tuIdx, parsed =>
      some (if failing input tuIdx then .exited else .claiming, parsed ++ [(tuIdx, thread)])
  | _, _ => none

def enterSection : ThreadState → Option SectionState
  | .claiming => some .readIdx
  | _ => none

theorem sectionFinish_tick {r r' : SectionState} {info : ThreadInfo} (h : (sectionTick input r info).1 = .inl r') :
    sectionFinish input r info = sectionFinish input r' (sectionTick input r info).2 ∧
      sectionTicksLeft r' < sectionTicksLeft r := by
  cases r with
  | readIdx | loadNext | storeNext | loadActive | storeActive =>
      obtain rfl := Sum.inl.inj h
      exact ⟨rfl, by simp [sectionTicksLeft]⟩
  | checkIdx tuIdx =>
      obtain rfl := Sum.inl.inj h
      rw [sectionFinish, finishCheck]
      split
      next => exact ⟨rfl, by simp [sectionTicksLeft]⟩
      next => exact ⟨rfl, by simp [sectionTicksLeft]⟩
  | unlockExit | unlockParse => cases h

theorem sectionFinish_unlock {r : SectionState} {info : ThreadInfo} {state : ThreadState}
    (h : (sectionTick input r info).1 = .inr state) :
    sectionFinish input r info = (state, (sectionTick input r info).2) := by
  cases r with
  | readIdx | loadNext | storeNext | checkIdx | loadActive | storeActive => cases h
  | unlockExit | unlockParse =>
      obtain rfl := Sum.inr.inj h
      rfl

def poolClient (numThreads : Nat) : Client ThreadState SectionState ThreadInfo (List (Nat × Nat)) where
  maxThreads := numThreads
  initial := .claiming
  work := parseWork input
  enter := enterSection
  tick := sectionTick input
  finish := sectionFinish input
  ticksLeft := sectionTicksLeft
  finish_inside _ _ _ h := (sectionFinish_tick input h).1
  finish_released _ _ _ h := sectionFinish_unlock input h
  ticks_lt _ _ _ h := (sectionFinish_tick input h).2

end Client

abbrev LockedPool := Locked ThreadState SectionState ThreadInfo (List (Nat × Nat))

abbrev AtomicPool := Atomic ThreadState ThreadInfo (List (Nat × Nat))

def atomicPool (s : PoolState) : AtomicPool := ⟨s.threads, s.threadInfo, s.parsed⟩

def poolState (u : AtomicPool) : PoolState := ⟨u.shared, u.threads, u.data⟩

def lockFree (s : PoolState) : LockedPool := quiet (atomicPool s)

def lockedStep (input : ParseInput) (threadInfo : ThreadInfo) : Mutex.Action → LockedPool → Option LockedPool :=
  Mutex.step (poolClient input threadInfo.numThreads)

def LockedJoined (s : LockedPool) : Prop :=
  s.threads.length = s.shared.numThreads ∧ ∀ place ∈ s.threads, place = .outside .exited

def sectionAction : ThreadPool.Action → AtomicAction
  | .deploy => .spawn
  | .claim thread => .enter thread
  | .parse thread => .work thread

section Refinement

variable {input : ParseInput} {threadInfo : ThreadInfo}

theorem sectionAction_surjective (b : AtomicAction) : ∃ a, sectionAction a = b := by
  cases b with
  | spawn => exact ⟨.deploy, rfl⟩
  | enter thread => exact ⟨.claim thread, rfl⟩
  | work thread => exact ⟨.parse thread, rfl⟩

theorem sectionFinish_claims (thread : Nat) (s : PoolState) :
    (⟨s.threads.set thread (sectionFinish input .readIdx s.threadInfo).1,
      (sectionFinish input .readIdx s.threadInfo).2, s.parsed⟩ : AtomicPool) =
      atomicPool (claimIndex input thread s) := by
  rw [claimIndex, sectionFinish, finishCheck]
  dsimp only
  split
  next => rfl
  next => rfl

theorem step_numThreads {a : ThreadPool.Action} {s t : PoolState} (h : ThreadPool.step input a s = some t) :
    t.threadInfo.numThreads = s.threadInfo.numThreads := by
  rcases ThreadPool.step_cases h with ⟨_, rfl⟩ | ⟨thread, _, rfl⟩ | ⟨thread, tuIdx, _, rfl⟩
  · rfl
  · rw [claimIndex]
    dsimp only
    split
    next => rfl
    next => rfl
  · rfl

variable (input) in
theorem atomicStep_pool {s : PoolState} (hnum : s.threadInfo.numThreads = threadInfo.numThreads)
    (a : ThreadPool.Action) :
    atomicStep (poolClient input threadInfo.numThreads) (sectionAction a) (atomicPool s) =
      (ThreadPool.step input a s).map atomicPool := by
  cases a with
  | deploy =>
      rw [sectionAction, atomicStep, ThreadPool.step, hnum, atomicPool, poolClient]
      split
      next => rfl
      next => rfl
  | claim thread =>
      rw [sectionAction, atomicStep, ThreadPool.step]
      cases hthread : s.threads[thread]? with
      | none => simp [atomicPool, hthread]
      | some state =>
          cases state with
          | claiming =>
              rw [if_pos rfl, Option.map_some, ← sectionFinish_claims]
              simp [atomicPool, hthread, poolClient, enterSection]
          | parsing | exited => simp [atomicPool, hthread, poolClient, enterSection]
  | parse thread =>
      rw [sectionAction, atomicStep, ThreadPool.step]
      cases hthread : s.threads[thread]? with
      | none => simp [atomicPool, hthread]
      | some state =>
          cases state with
          | parsing => simp [atomicPool, hthread, poolClient, parseWork, parseSlot]
          | claiming | exited => simp [atomicPool, hthread, poolClient, parseWork]

theorem reaches_poolState {u : AtomicPool}
    (h : Reaches (atomicStep (poolClient input threadInfo.numThreads)) (atomicPool (deployed threadInfo)) u) :
    Reaches (ThreadPool.step input) (deployed threadInfo) (poolState u) := by
  induction h with
  | refl => exact .refl
  | @tail u v _ hlast ih =>
      obtain ⟨b, hb⟩ := hlast
      obtain ⟨a, rfl⟩ := sectionAction_surjective b
      rw [show u = atomicPool (poolState u) from rfl, atomicStep_pool input (numThreads_kept ih)] at hb
      obtain ⟨t, ht, rfl⟩ := Option.map_eq_some_iff.mp hb
      exact .tail ih ⟨a, ht⟩

theorem reaches_atomicPool {s : PoolState} (h : Reaches (ThreadPool.step input) (deployed threadInfo) s) :
    Reaches (atomicStep (poolClient input threadInfo.numThreads)) (atomicPool (deployed threadInfo))
      (atomicPool s) := by
  induction h with
  | refl => exact .refl
  | tail hreach hlast ih =>
      obtain ⟨a, ha⟩ := hlast
      refine .tail ih ⟨sectionAction a, ?_⟩
      rw [atomicStep_pool input (numThreads_kept hreach), ha]
      rfl

/-- What a thread in the section has begun is settled in the pool of atomic claims. -/
theorem reaches_settled {s : LockedPool}
    (h : Reaches (lockedStep input threadInfo) (lockFree (deployed threadInfo)) s) :
    Exclusive s ∧ Reaches (ThreadPool.step input) (deployed threadInfo)
      (poolState (settled (poolClient input threadInfo.numThreads) s)) := by
  obtain ⟨hexclusive, hatomic⟩ := reaches_simulated h (exclusive_quiet (atomicPool (deployed threadInfo)))
  rw [lockFree, settled_quiet] at hatomic
  exact ⟨hexclusive, reaches_poolState hatomic⟩

theorem owner_joined {s : LockedPool} (hs : Exclusive s) (h : LockedJoined s) : s.owner = none := by
  rcases Option.eq_none_or_eq_some s.owner with howner | ⟨thread, howner⟩
  · exact howner
  · obtain ⟨r, hthread⟩ := hs.inside thread howner
    cases h.2 _ (List.mem_of_getElem? hthread)

variable (input threadInfo) in
theorem eq_lockFree {s : LockedPool} (hs : Exclusive s) (howner : s.owner = none) :
    s = lockFree (poolState (settled (poolClient input threadInfo.numThreads) s)) :=
  hs.eq_quiet howner

theorem lockedJoined_lockFree (s : PoolState) : LockedJoined (lockFree s) ↔ ThreadPool.Joined s := by
  rw [LockedJoined, ThreadPool.Joined, lockFree, quiet]
  dsimp only [atomicPool]
  rw [List.length_map, List.forall_mem_map]
  simp only [Place.outside.injEq]

/-- A state that all threads have left is one of the pool of atomic claims. -/
theorem reaches_joined {s : LockedPool}
    (h : Reaches (lockedStep input threadInfo) (lockFree (deployed threadInfo)) s)
    (hjoined : LockedJoined s) :
    ∃ t, s = lockFree t ∧ Reaches (ThreadPool.step input) (deployed threadInfo) t ∧ ThreadPool.Joined t := by
  obtain ⟨hexclusive, hreach⟩ := reaches_settled h
  have heq := eq_lockFree input threadInfo hexclusive (owner_joined hexclusive hjoined)
  refine ⟨_, heq, hreach, ?_⟩
  apply (lockedJoined_lockFree _).mp
  rw [heq] at hjoined
  exact hjoined

theorem joined_of_locked_stuck {s : LockedPool} (hfew : threadInfo.numThreads < 2 ^ 31)
    (hnext : threadInfo.nextFileIdx = 0)
    (h : Reaches (lockedStep input threadInfo) (lockFree (deployed threadInfo)) s)
    (hstuck : Stuck (lockedStep input threadInfo) s) : LockedJoined s := by
  obtain ⟨hexclusive, hreach⟩ := reaches_settled h
  have howner := free_of_stuck hexclusive hstuck
  have heq := eq_lockFree input threadInfo hexclusive howner
  rw [heq]
  apply (lockedJoined_lockFree _).mpr
  apply joined_of_stuck (valid_reachable hfew hnext hreach)
  intro a
  cases hstep : ThreadPool.step input a _ with
  | none => rfl
  | some t =>
      have hatomic := atomicStep_pool input (numThreads_kept hreach) a
      rw [hstep] at hatomic
      obtain ⟨b, u, hb, -⟩ := atomicStep_realized hatomic
      have hnone := hstuck b
      rw [heq] at hnone
      cases hnone.symm.trans hb

end Refinement

/-- With the mutex, the statements of the threads interleave to the same pools as whole claims do. -/
theorem locked_pool_refines (input : ParseInput) (threadInfo : ThreadInfo) (s : PoolState) :
    Reaches (lockedStep input threadInfo) (lockFree (deployed threadInfo)) (lockFree s) ↔
      Reaches (ThreadPool.step input) (deployed threadInfo) s := by
  have hquiet : Reaches (lockedStep input threadInfo) (lockFree (deployed threadInfo)) (lockFree s) ↔
      Reaches (atomicStep (poolClient input threadInfo.numThreads)) (atomicPool (deployed threadInfo))
        (atomicPool s) := reaches_quiet_iff
  rw [hquiet]
  exact ⟨reaches_poolState, reaches_atomicPool⟩

theorem countP_joined {input : ParseInput} {threadInfo : ThreadInfo} {s : LockedPool}
    (hfew : threadInfo.numThreads < 2 ^ 31) (hnext : threadInfo.nextFileIdx = 0)
    (hreach : Reaches (lockedStep input threadInfo) (lockFree (deployed threadInfo)) s) (hjoined : LockedJoined s)
    (tuIdx : Nat) : s.data.countP (·.1 == tuIdx) =
      if tuIdx < input.fileNames.length ∧ failingBelow input tuIdx < threadInfo.numThreads then 1 else 0 := by
  obtain ⟨t, rfl, hpoolReach, hpoolJoined⟩ := reaches_joined hreach hjoined
  have hvalid := valid_reachable hfew hnext hpoolReach
  have hcount := countP_parsed_joined hvalid hpoolJoined tuIdx
  rw [lockFree, quiet, atomicPool]
  rw [hcount]
  apply if_congr _ rfl rfl
  constructor
  · intro hclaimed
    have hlt : tuIdx < input.fileNames.length := lt_of_lt_of_le hclaimed (Nat.min_le_right _ _)
    have hbelow := (claimed_joined hvalid hpoolJoined hlt).mp hclaimed
    rw [numThreads_kept hpoolReach] at hbelow
    exact ⟨hlt, hbelow⟩
  · rintro ⟨hlt, hbelow⟩
    apply (claimed_joined hvalid hpoolJoined hlt).mpr
    rw [numThreads_kept hpoolReach]
    exact hbelow

theorem exists_locked_joined (input : ParseInput) {threadInfo : ThreadInfo} (hfew : threadInfo.numThreads < 2 ^ 31)
    (hnext : threadInfo.nextFileIdx = 0) :
    ∃ s, Reaches (lockedStep input threadInfo) (lockFree (deployed threadInfo)) s ∧ LockedJoined s := by
  obtain ⟨t, hreach, hjoined⟩ := @exists_joined input threadInfo hfew hnext
  exact ⟨lockFree t, reaches_realized (reaches_atomicPool hreach), (lockedJoined_lockFree t).mpr hjoined⟩

/-- Which files are parsed does not depend on the schedule: those before which fewer files fail than
there are threads, each of them once. -/
theorem parsed_files (input : ParseInput) (args : List String) {threadInfo : ThreadInfo} {s : LockedPool}
    (hpool : initThreadPool (maxThreads args) = some threadInfo)
    (hreach : Reaches (lockedStep input threadInfo) (lockFree (deployed threadInfo)) s) (hjoined : LockedJoined s)
    (tuIdx : Nat) : s.data.countP (·.1 == tuIdx) =
      if tuIdx < input.fileNames.length ∧ failingBelow input tuIdx < maxThreads args then 1 else 0 := by
  obtain ⟨rfl, hfew⟩ := initThreadPool_spec hpool
  exact countP_joined hfew rfl hreach hjoined tuIdx

/-- The second of three files cannot be parsed. -/
def brokenInput : ParseInput where
  fileNames := ["a.c", "broken.c", "b.c"]
  db := none
  extraArgs := ["-Iinclude"]
  clangParseTranslationUnit2 := fun fileName _ => if fileName = "broken.c" then 1 else 0
  storesOnError := fun _ => false
  fits := by decide

/-- One thread ends at the broken file. -/
theorem oneThread_parses : ∃ s, Reaches (lockedStep brokenInput ⟨1, 0, 0⟩) (lockFree (deployed ⟨1, 0, 0⟩)) s ∧
    [0, 1, 2].map (fun tuIdx => s.data.countP (·.1 == tuIdx)) = [1, 1, 0] := by
  obtain ⟨s, hreach, hjoined⟩ := @exists_locked_joined brokenInput ⟨1, 0, 0⟩ (by decide) rfl
  have hparsed := parsed_files brokenInput ["-j1"] (by decide +kernel) hreach hjoined
  refine ⟨s, hreach, ?_⟩
  simp only [hparsed]
  decide +kernel

/-- At most one thread is between lock and unlock, a pool in which nothing can go on has been joined,
and no schedule goes on for ever. -/
theorem locked_threads_end (input : ParseInput) (args : List String) {threadInfo : ThreadInfo}
    (hpool : initThreadPool (maxThreads args) = some threadInfo) :
    (∀ s, Reaches (lockedStep input threadInfo) (lockFree (deployed threadInfo)) s →
      Exclusive s ∧ (Stuck (lockedStep input threadInfo) s → LockedJoined s)) ∧
    ¬ ∃ run : Nat → LockedPool, run 0 = lockFree (deployed threadInfo) ∧
      ∀ n, ∃ a, lockedStep input threadInfo a (run n) = some (run (n + 1)) := by
  obtain ⟨rfl, hfew⟩ := initThreadPool_spec hpool
  constructor
  · intro s hreach
    exact ⟨(reaches_settled hreach).1, joined_of_locked_stuck hfew rfl hreach⟩
  · apply not_endless (I := fun u => Valid input (poolState u) ∧ u.shared.numThreads = maxThreads args)
      (fun u => workLeft input (poolState u)) _ (exclusive_quiet _)
    · rw [settled_quiet]
      exact ⟨valid_deployed input hfew rfl, rfl⟩
    · rintro u b v ⟨hvalid, hnum⟩ hstep
      obtain ⟨a, rfl⟩ := sectionAction_surjective b
      have hatomic := @atomicStep_pool input ⟨maxThreads args, 0, 0⟩ (poolState u) hnum a
      obtain ⟨t, ht, rfl⟩ := Option.map_eq_some_iff.mp (hatomic.symm.trans hstep)
      refine ⟨⟨hvalid.step ht, ?_⟩, step_workLeft hvalid ht⟩
      exact (step_numThreads ht).trans hnum

/-- Two threads end, and until then they exclude each other. -/
theorem twoThreads_end :
    (∀ s, Reaches (lockedStep brokenInput ⟨2, 0, 0⟩) (lockFree (deployed ⟨2, 0, 0⟩)) s →
      Exclusive s ∧ (Stuck (lockedStep brokenInput ⟨2, 0, 0⟩) s → LockedJoined s)) ∧
    ¬ ∃ run : Nat → LockedPool, run 0 = lockFree (deployed ⟨2, 0, 0⟩) ∧
      ∀ n, ∃ a, lockedStep brokenInput ⟨2, 0, 0⟩ a (run n) = some (run (n + 1)) :=
  locked_threads_end brokenInput ["-j2"] (by decide +kernel)

end Prongc.PoolLocking
