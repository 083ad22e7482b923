import Mathlib.Data.Nat.Count
import Prongc.Library.Interleaving
import Prongc.Library.SizeT
import Prongc.ParseFile

namespace Prongc.ThreadPool

open ParseCall ParseFile Library.Interleaving Library.SizeT

/-- The value of strtol, which stays within the range of long, cut to an int. -/
def atoi (text : List Char) : Int :=
  let (sign, digits) : Int × List Char := match text.dropWhile isspace with
    | '-' :: digits => (-1, digits)
    | '+' :: digits => (1, digits)
    | digits => (1, digits)
  let value := (digits.takeWhile Char.isDigit).foldl (fun value c => 10 * value + (c.toNat - '0'.toNat)) 0
  Int.bmod (max (-2 ^ 63) (min (2 ^ 63 - 1) (sign * value))) (2 ^ 32)

def sizeOfInt (value : Int) : Nat := (value % 2 ^ 64).toNat

def defaultMaxThreads : Nat := 2

def maxThreads (args : List String) : Nat :=
  args.foldl (fun maxThreads arg =>
    match arg.toList with
    | '-' :: 'j' :: jobs => sizeOfInt (atoi jobs)
    | _ => maxThreads) defaultMaxThreads

example : maxThreads ["-j8", "-I", "-j x"] = 0 := by decide +kernel

structure ThreadInfo where
  numThreads : Nat
  numActive : Nat
  nextFileIdx : Nat
  deriving DecidableEq

/-- Threads take 8 bytes each, and no block is larger than half the address space. Where there is
none, main stores the first thread through a null pointer. -/
def initThreadPool (numThreads : Nat) : Option ThreadInfo :=
  if 8 * numThreads % 2 ^ 64 < 2 ^ 63 then some ⟨numThreads, 0, 0⟩ else none

inductive ThreadState
  | claiming
  | parsing (tuIdx : Nat)
  | exited
  deriving DecidableEq

structure PoolState where
  threadInfo : ThreadInfo
  threads : List ThreadState
  parsed : List (Nat × Nat)

inductive Action
  | deploy
  | claim (thread : Nat)
  | parse (thread : Nat)

section Steps

variable (input : ParseInput)

def slotError (tuIdx : Nat) : Nat := parseError input (input.fileNames.getD tuIdx "")

def failing (tuIdx : Nat) : Bool := slotError input tuIdx != 0

def stores (tuIdx : Nat) : Bool := !failing input tuIdx || input.storesOnError (input.fileNames.getD tuIdx "")

def claimIndex (thread : Nat) (s : PoolState) : PoolState :=
  let tuIdx := s.threadInfo.nextFileIdx
  let threadInfo := { s.threadInfo with nextFileIdx := sizeSucc tuIdx }
  if tuIdx ≥ input.fileNames.length then
    { s with
      threadInfo := { threadInfo with numActive := sizePred threadInfo.numActive }
      threads := s.threads.set thread .exited }
  else { s with threadInfo := threadInfo, threads := s.threads.set thread (.parsing tuIdx) }

/-- The rest of a round. A thread that meets an error leaves the loop. -/
def parseSlot (thread tuIdx : Nat) (s : PoolState) : PoolState :=
  { s with
    threads := s.threads.set thread (if failing input tuIdx then .exited else .claiming)
    parsed := s.parsed ++ [(tuIdx, thread)] }

def step : Action → PoolState → Option PoolState
  | .deploy, s =>
      if s.threads.length < s.threadInfo.numThreads then some { s with threads := s.threads ++ [.claiming] }
      else none
  | .claim thread, s =>
      if s.threads[thread]? = some .claiming then some (claimIndex input thread s) else none
  | .parse thread, s =>
      match s.threads[thread]? with
      | some (.parsing tuIdx) => some (parseSlot input thread tuIdx s)
      | _ => none

def deployed (threadInfo : ThreadInfo) : PoolState := ⟨threadInfo, [], []⟩

def Joined (s : PoolState) : Prop :=
  s.threads.length = s.threadInfo.numThreads ∧ ∀ thread ∈ s.threads, thread = .exited

def writers (s : PoolState) (slot : Nat) : List Nat :=
  (s.parsed.filter fun call => call.1 == slot && stores input call.1).map Prod.snd

def SlotsWrittenOnce (s : PoolState) : Prop :=
  (∀ slot < input.fileNames.length, ∃ thread, writers input s slot = [thread]) ∧
    ∀ slot, input.fileNames.length ≤ slot → writers input s slot = []

end Steps

def FromInt (size : Nat) : Prop := size < 2 ^ 31 ∨ 2 ^ 64 - 2 ^ 31 ≤ size ∧ size < 2 ^ 64

theorem sizeOfInt_bmod (value : Int) : FromInt (sizeOfInt (Int.bmod value (2 ^ 32))) := by
  have hlow : -2 ^ 31 ≤ Int.bmod value (2 ^ 32) := Int.le_bmod (by decide)
  have hhigh : Int.bmod value (2 ^ 32) < 2 ^ 31 := Int.bmod_lt (by decide)
  rw [FromInt, sizeOfInt]
  omega

theorem maxThreads_fromInt (args : List String) : FromInt (maxThreads args) := by
  apply List.foldlRecOn (motive := FromInt) args _ (.inl (by decide))
  intro threads ih arg _
  split
  · exact sizeOfInt_bmod _
  · exact ih

theorem initThreadPool_spec {args : List String} {threadInfo : ThreadInfo}
    (h : initThreadPool (maxThreads args) = some threadInfo) :
    threadInfo = ⟨maxThreads args, 0, 0⟩ ∧ maxThreads args < 2 ^ 31 := by
  rw [initThreadPool] at h
  split at h
  next hsize =>
    refine ⟨(Option.some.inj h).symm, ?_⟩
    have := maxThreads_fromInt args
    rw [FromInt] at this
    omega
  next => cases h

theorem countP_set_add {p : ThreadState → Bool} {threads : List ThreadState} {thread : Nat}
    {old : ThreadState} (new : ThreadState) (h : threads[thread]? = some old) :
    (threads.set thread new).countP p + (if p old then 1 else 0) =
      threads.countP p + (if p new then 1 else 0) := by
  induction threads generalizing thread with
  | nil => cases h
  | cons first threads ih =>
      cases thread with
      | zero =>
          obtain rfl : first = old := by simpa using h
          simp only [List.set_cons_zero, List.countP_cons]
          omega
      | succ thread =>
          have := ih (by simpa using h : threads[thread]? = some old)
          simp only [List.set_cons_succ, List.countP_cons]
          omega

section Invariant

variable {input : ParseInput} {s t : PoolState}

theorem step_cases {a : Action} (h : step input a s = some t) :
    (s.threads.length < s.threadInfo.numThreads ∧ t = { s with threads := s.threads ++ [.claiming] }) ∨
    (∃ thread, s.threads[thread]? = some .claiming ∧ t = claimIndex input thread s) ∨
    (∃ thread tuIdx, s.threads[thread]? = some (.parsing tuIdx) ∧ t = parseSlot input thread tuIdx s) := by
  cases a with
  | deploy =>
      simp only [step] at h
      split at h
      next hlt => exact .inl ⟨hlt, (Option.some.inj h).symm⟩
      next => cases h
  | claim thread =>
      simp only [step] at h
      split at h
      next hclaiming => exact .inr (.inl ⟨thread, hclaiming, (Option.some.inj h).symm⟩)
      next => cases h
  | parse thread =>
      simp only [step] at h
      split at h
      next tuIdx hparsing => exact .inr (.inr ⟨thread, tuIdx, hparsing, (Option.some.inj h).symm⟩)
      next => cases h

variable (input) in
def parsesFailing : ThreadState → Bool
  | .parsing tuIdx => failing input tuIdx
  | _ => false

variable (input) in
def failingBelow (slot : Nat) : Nat := Nat.count (fun i => failing input i = true) slot

variable (input) in
def claimedSlots (s : PoolState) : Nat := min s.threadInfo.nextFileIdx input.fileNames.length

variable (input) in
/-- Each claimed slot is being parsed or done, once. Threads have exited for a file that failed or
for an index behind the last file. -/
structure Valid (s : PoolState) : Prop where
  few : s.threadInfo.numThreads < 2 ^ 31
  created : s.threads.length ≤ s.threadInfo.numThreads
  claimed : ∀ slot, s.threads.countP (· == .parsing slot) + s.parsed.countP (·.1 == slot) =
    if slot < claimedSlots input s then 1 else 0
  failures : s.threads.countP (parsesFailing input) + s.parsed.countP (failing input ·.1) =
    failingBelow input (claimedSlots input s)
  exits : s.threads.countP (· == .exited) =
    s.parsed.countP (failing input ·.1) + (s.threadInfo.nextFileIdx - input.fileNames.length)
  claimable : ∀ slot < claimedSlots input s, failingBelow input slot < s.threadInfo.numThreads

variable (input) in
theorem countP_states_le (threads : List ThreadState) :
    threads.countP (parsesFailing input) + threads.countP (· == .exited) + threads.countP (· == .claiming) ≤
      threads.length := by
  induction threads with
  | nil => simp
  | cons thread threads ih =>
      simp only [List.countP_cons, List.length_cons]
      cases thread with
      | claiming => simp [parsesFailing]; omega
      | exited => simp [parsesFailing]; omega
      | parsing tuIdx => cases hfail : failing input tuIdx <;> simp [parsesFailing, hfail] <;> omega

theorem Valid.noWrap (h : Valid input s) :
    sizeSucc s.threadInfo.nextFileIdx = s.threadInfo.nextFileIdx + 1 := by
  have hfits := input.fits
  have hexits := h.exits
  have hcreated := h.created
  have hfew := h.few
  have hle : s.threads.countP (· == .exited) ≤ s.threads.length := List.countP_le_length
  exact sizeSucc_of_lt (by omega)

variable (input) in
theorem valid_deployed {threadInfo : ThreadInfo} (hfew : threadInfo.numThreads < 2 ^ 31)
    (hnext : threadInfo.nextFileIdx = 0) : Valid input (deployed threadInfo) where
  few := hfew
  created := Nat.zero_le _
  claimed slot := by simp [deployed, claimedSlots, hnext]
  failures := by simp [deployed, claimedSlots, hnext, failingBelow]
  exits := by simp [deployed, hnext]
  claimable slot hslot := by simp [deployed, claimedSlots, hnext] at hslot

theorem valid_deploy (h : Valid input s) (hlt : s.threads.length < s.threadInfo.numThreads) :
    Valid input { s with threads := s.threads ++ [.claiming] } where
  few := h.few
  created := by simpa using Nat.succ_le_of_lt hlt
  claimed slot := by simpa [claimedSlots] using h.claimed slot
  failures := by simpa [claimedSlots, parsesFailing] using h.failures
  exits := by simpa using h.exits
  claimable := h.claimable

theorem claimIndex_over (h : Valid input s) (thread : Nat)
    (hover : input.fileNames.length ≤ s.threadInfo.nextFileIdx) :
    claimIndex input thread s =
      ⟨⟨s.threadInfo.numThreads, sizePred s.threadInfo.numActive, s.threadInfo.nextFileIdx + 1⟩,
        s.threads.set thread .exited, s.parsed⟩ := by
  rw [claimIndex]
  rw [if_pos hover, h.noWrap]

theorem claimIndex_file (h : Valid input s) (thread : Nat)
    (hfile : s.threadInfo.nextFileIdx < input.fileNames.length) :
    claimIndex input thread s =
      ⟨⟨s.threadInfo.numThreads, s.threadInfo.numActive, s.threadInfo.nextFileIdx + 1⟩,
        s.threads.set thread (.parsing s.threadInfo.nextFileIdx), s.parsed⟩ := by
  rw [claimIndex]
  rw [if_neg (Nat.not_le.mpr hfile), h.noWrap]

theorem valid_claim_over {thread : Nat} (h : Valid input s) (hthread : s.threads[thread]? = some .claiming)
    (hover : input.fileNames.length ≤ s.threadInfo.nextFileIdx) :
    Valid input (claimIndex input thread s) := by
  rw [claimIndex_over h thread hover]
  have hold : claimedSlots input s = input.fileNames.length := by
    rw [claimedSlots]
    omega
  have hslots : min (s.threadInfo.nextFileIdx + 1) input.fileNames.length = input.fileNames.length := by
    omega
  constructor
  · exact h.few
  · simpa using h.created
  · intro slot
    have hcount := countP_set_add (p := (· == .parsing slot)) .exited hthread
    have := h.claimed slot
    rw [hold] at this
    simp only [claimedSlots, hslots]
    simp at hcount
    omega
  · have hcount := countP_set_add (p := parsesFailing input) .exited hthread
    have := h.failures
    rw [hold] at this
    simp only [claimedSlots, hslots]
    simp [parsesFailing] at hcount
    omega
  · have hcount := countP_set_add (p := (· == .exited)) .exited hthread
    have := h.exits
    simp at hcount ⊢
    omega
  · intro slot hslot
    simp only [claimedSlots, hslots] at hslot
    exact h.claimable slot (hold ▸ hslot)

/-- While a thread claims a file, the claimed files that fail keep other threads busy or have sent
them home. -/
theorem failingBelow_claimed_lt {thread : Nat} (h : Valid input s)
    (hthread : s.threads[thread]? = some .claiming)
    (hfile : s.threadInfo.nextFileIdx < input.fileNames.length) :
    failingBelow input s.threadInfo.nextFileIdx < s.threadInfo.numThreads := by
  have hstates := countP_states_le input s.threads
  have hclaiming : 0 < s.threads.countP (· == .claiming) :=
    List.countP_pos_iff.mpr ⟨_, List.mem_of_getElem? hthread, by simp⟩
  have hslots : claimedSlots input s = s.threadInfo.nextFileIdx := by
    rw [claimedSlots]
    omega
  have hfailures := h.failures
  have hexits := h.exits
  have hcreated := h.created
  rw [hslots] at hfailures
  omega

theorem valid_claim_file {thread : Nat} (h : Valid input s) (hthread : s.threads[thread]? = some .claiming)
    (hfile : s.threadInfo.nextFileIdx < input.fileNames.length) :
    Valid input (claimIndex input thread s) := by
  have hbelow := failingBelow_claimed_lt h hthread hfile
  rw [claimIndex_file h thread hfile]
  have hold : claimedSlots input s = s.threadInfo.nextFileIdx := by
    rw [claimedSlots]
    omega
  have hslots : min (s.threadInfo.nextFileIdx + 1) input.fileNames.length = s.threadInfo.nextFileIdx + 1 := by
    omega
  constructor
  · exact h.few
  · simpa using h.created
  · intro slot
    have hcount := countP_set_add (p := (· == .parsing slot)) (.parsing s.threadInfo.nextFileIdx) hthread
    have := h.claimed slot
    rw [hold] at this
    simp only [claimedSlots, hslots]
    simp at hcount
    split at this <;> split at hcount <;> split <;> omega
  · have hcount := countP_set_add (p := parsesFailing input) (.parsing s.threadInfo.nextFileIdx) hthread
    have := h.failures
    rw [hold] at this
    simp only [claimedSlots, hslots, failingBelow, Nat.count_succ]
    rw [failingBelow] at this
    by_cases hfail : failing input s.threadInfo.nextFileIdx = true
    · simp [parsesFailing, hfail] at hcount ⊢
      omega
    · simp [parsesFailing, hfail] at hcount ⊢
      omega
  · have hcount := countP_set_add (p := (· == .exited)) (.parsing s.threadInfo.nextFileIdx) hthread
    have := h.exits
    simp at hcount ⊢
    omega
  · intro slot hslot
    simp only [claimedSlots, hslots] at hslot
    rcases Nat.lt_succ_iff_lt_or_eq.mp hslot with hlt | rfl
    · exact h.claimable slot (hold ▸ hlt)
    · exact hbelow

theorem valid_parse {thread tuIdx : Nat} (h : Valid input s)
    (hthread : s.threads[thread]? = some (.parsing tuIdx)) : Valid input (parseSlot input thread tuIdx s) := by
  obtain ⟨new, hnew⟩ : ∃ new, new = (if failing input tuIdx then ThreadState.exited else .claiming) := ⟨_, rfl⟩
  have hparsed : parseSlot input thread tuIdx s =
      ⟨s.threadInfo, s.threads.set thread new, s.parsed ++ [(tuIdx, thread)]⟩ := by
    rw [hnew, parseSlot]
  have hslots : claimedSlots input ⟨s.threadInfo, s.threads.set thread new, s.parsed ++ [(tuIdx, thread)]⟩ =
      claimedSlots input s := rfl
  rw [hparsed]
  constructor
  · exact h.few
  · simpa using h.created
  · intro slot
    have hcount := countP_set_add (p := (· == .parsing slot)) new hthread
    have hother : (new == .parsing slot) = false := by
      rw [hnew]
      split <;> rfl
    rw [hother] at hcount
    rw [List.countP_append, List.countP_singleton, hslots, ← h.claimed slot]
    by_cases hslot : tuIdx = slot
    · simp [hslot] at hcount ⊢
      omega
    · simp [hslot] at hcount ⊢
      omega
  · have hcount := countP_set_add (p := parsesFailing input) new hthread
    have hother : parsesFailing input new = false := by
      rw [hnew]
      split <;> rfl
    rw [hother] at hcount
    rw [List.countP_append, List.countP_singleton, hslots, ← h.failures]
    cases hfail : failing input tuIdx with
    | true =>
        simp [parsesFailing, hfail] at hcount ⊢
        omega
    | false =>
        simp [parsesFailing, hfail] at hcount ⊢
        omega
  · have hcount := countP_set_add (p := (· == .exited)) new hthread
    have := h.exits
    rw [List.countP_append, List.countP_singleton]
    simp only [hnew] at hcount ⊢
    cases hfail : failing input tuIdx with
    | true =>
        simp [hfail] at hcount ⊢
        omega
    | false =>
        simp [hfail] at hcount ⊢
        omega
  · exact h.claimable

theorem Valid.step {a : Action} (h : Valid input s) (hstep : step input a s = some t) : Valid input t := by
  rcases step_cases hstep with ⟨hlt, rfl⟩ | ⟨thread, hthread, rfl⟩ | ⟨thread, tuIdx, hthread, rfl⟩
  · exact valid_deploy h hlt
  · rcases Nat.lt_or_ge s.threadInfo.nextFileIdx input.fileNames.length with hfile | hover
    · exact valid_claim_file h hthread hfile
    · exact valid_claim_over h hthread hover
  · exact valid_parse h hthread

theorem valid_reachable {threadInfo : ThreadInfo} (hfew : threadInfo.numThreads < 2 ^ 31)
    (hnext : threadInfo.nextFileIdx = 0) (h : Reaches (ThreadPool.step input) (deployed threadInfo) s) :
    Valid input s :=
  h.keeps (fun _ _ _ hs hstep => hs.step hstep) (valid_deployed input hfew hnext)

def isParsing : ThreadState → Bool
  | .parsing _ => true
  | _ => false

variable (input) in
def workLeft (s : PoolState) : Nat :=
  2 * (input.fileNames.length - s.threadInfo.nextFileIdx) +
    2 * (s.threadInfo.numThreads - s.threads.length) +
      s.threads.countP (· == .claiming) + 2 * s.threads.countP isParsing

theorem step_workLeft {a : Action} (h : Valid input s) (hstep : ThreadPool.step input a s = some t) :
    workLeft input t < workLeft input s := by
  unfold workLeft
  rcases step_cases hstep with ⟨hlt, rfl⟩ | ⟨thread, hthread, rfl⟩ | ⟨thread, tuIdx, hthread, rfl⟩
  · simp [isParsing]
    omega
  · rcases Nat.lt_or_ge s.threadInfo.nextFileIdx input.fileNames.length with hfile | hover
    · have hclaiming := countP_set_add (p := (· == .claiming)) (.parsing s.threadInfo.nextFileIdx) hthread
      have hparsing := countP_set_add (p := isParsing) (.parsing s.threadInfo.nextFileIdx) hthread
      rw [claimIndex_file h thread hfile]
      simp [isParsing] at hclaiming hparsing ⊢
      omega
    · have hclaiming := countP_set_add (p := (· == .claiming)) .exited hthread
      have hparsing := countP_set_add (p := isParsing) .exited hthread
      rw [claimIndex_over h thread hover]
      simp [isParsing] at hclaiming hparsing ⊢
      omega
  · cases hfail : failing input tuIdx with
    | true =>
        have hclaiming := countP_set_add (p := (· == .claiming)) .exited hthread
        have hparsing := countP_set_add (p := isParsing) .exited hthread
        simp [isParsing, parseSlot, hfail] at hclaiming hparsing ⊢
        omega
    | false =>
        have hclaiming := countP_set_add (p := (· == .claiming)) .claiming hthread
        have hparsing := countP_set_add (p := isParsing) .claiming hthread
        simp [isParsing, parseSlot, hfail] at hclaiming hparsing ⊢
        omega

/-- Only when all threads have been deployed and have exited nothing is left to do. -/
theorem joined_of_stuck (h : Valid input s) (hstuck : Stuck (ThreadPool.step input) s) : Joined s := by
  constructor
  · have hdeploy := hstuck .deploy
    simp only [ThreadPool.step] at hdeploy
    split at hdeploy
    next => cases hdeploy
    next hall => exact Nat.le_antisymm h.created (Nat.not_lt.mp hall)
  · intro state hmem
    obtain ⟨thread, hthread⟩ := List.mem_iff_getElem?.mp hmem
    cases state with
    | claiming =>
        have hclaim := hstuck (.claim thread)
        simp [ThreadPool.step, hthread] at hclaim
    | parsing tuIdx =>
        have hparse := hstuck (.parse thread)
        simp [ThreadPool.step, hthread] at hparse
    | exited => rfl

theorem exists_joined {threadInfo : ThreadInfo} (hfew : threadInfo.numThreads < 2 ^ 31)
    (hnext : threadInfo.nextFileIdx = 0) :
    ∃ s, Reaches (ThreadPool.step input) (deployed threadInfo) s ∧ Joined s := by
  obtain ⟨s, hreach, hstuck⟩ := exists_stuck (fun _ _ _ hs hstep => Valid.step hs hstep) (workLeft input)
    (fun _ _ _ hs hstep => step_workLeft hs hstep) (valid_deployed input hfew hnext)
  exact ⟨s, hreach, joined_of_stuck (valid_reachable hfew hnext hreach) hstuck⟩

theorem numThreads_kept {threadInfo : ThreadInfo} (h : Reaches (ThreadPool.step input) (deployed threadInfo) s) :
    s.threadInfo.numThreads = threadInfo.numThreads := by
  refine Reaches.keeps (I := fun s => s.threadInfo.numThreads = threadInfo.numThreads) ?_ h rfl
  intro s a t hs hstep
  rw [← hs]
  rcases step_cases hstep with ⟨_, rfl⟩ | ⟨thread, _, rfl⟩ | ⟨thread, tuIdx, _, rfl⟩
  · rfl
  · dsimp only [claimIndex]
    split <;> rfl
  · rfl

theorem countP_parsed_joined (h : Valid input s) (hjoined : Joined s) (slot : Nat) :
    s.parsed.countP (·.1 == slot) = if slot < claimedSlots input s then 1 else 0 := by
  have hnone : s.threads.countP (· == .parsing slot) = 0 := by
    rw [List.countP_eq_zero]
    intro state hmem
    rw [hjoined.2 state hmem]
    simp
  rw [← h.claimed slot, hnone, Nat.zero_add]

theorem writers_eq (slot : Nat) : writers input s slot =
    if stores input slot then (s.parsed.filter (·.1 == slot)).map Prod.snd else [] := by
  rw [writers]
  have hcongr : ∀ call ∈ s.parsed, (call.1 == slot && stores input call.1) =
      (call.1 == slot && stores input slot) := by
    intro call _
    cases heq : call.1 == slot with
    | true => rw [beq_iff_eq.mp heq]
    | false => rfl
  rw [List.filter_congr hcongr]
  split
  next hstores => simp [hstores]
  next hstores => simp [hstores]

/-- When all threads have been joined, a slot has been stored into by one thread exactly if its
index was claimed and libclang stores for its file. -/
theorem writers_joined (h : Valid input s) (hjoined : Joined s) (slot : Nat) :
    (writers input s slot).length =
      if slot < claimedSlots input s ∧ stores input slot = true then 1 else 0 := by
  rw [writers_eq]
  split
  next hstores => simp [← List.countP_eq_length_filter, countP_parsed_joined h hjoined, hstores]
  next hstores => simp [hstores]

theorem claimed_joined (h : Valid input s) (hjoined : Joined s) {slot : Nat}
    (hslot : slot < input.fileNames.length) :
    slot < claimedSlots input s ↔ failingBelow input slot < s.threadInfo.numThreads := by
  constructor
  · exact h.claimable slot
  · intro hbelow
    by_contra hunclaimed
    have hnext : claimedSlots input s = s.threadInfo.nextFileIdx ∧ s.threadInfo.nextFileIdx ≤ slot := by
      rw [claimedSlots] at hunclaimed ⊢
      omega
    have hparsing : s.threads.countP (parsesFailing input) = 0 := by
      rw [List.countP_eq_zero]
      intro state hmem
      rw [hjoined.2 state hmem]
      simp [parsesFailing]
    have hexited : s.threads.countP (· == .exited) = s.threads.length := by
      rw [List.countP_eq_length]
      intro state hmem
      rw [hjoined.2 state hmem]
      simp
    have hmono : failingBelow input s.threadInfo.nextFileIdx ≤ failingBelow input slot :=
      Nat.count_monotone _ hnext.2
    have hfailures := h.failures
    have hexits := h.exits
    have hall := hjoined.1
    rw [hnext.1] at hfailures
    omega

theorem slotsWrittenOnce_joined (h : Valid input s) (hjoined : Joined s) :
    SlotsWrittenOnce input s ↔ ∀ slot < input.fileNames.length,
      stores input slot = true ∧ failingBelow input slot < s.threadInfo.numThreads := by
  constructor
  · intro honce slot hslot
    obtain ⟨thread, hthread⟩ := honce.1 slot hslot
    have hlength := writers_joined h hjoined slot
    rw [hthread, List.length_singleton] at hlength
    split at hlength
    next hboth => exact ⟨hboth.2, (claimed_joined h hjoined hslot).mp hboth.1⟩
    next => cases hlength
  · intro hall
    constructor
    · intro slot hslot
      have hlength := writers_joined h hjoined slot
      rw [if_pos ⟨(claimed_joined h hjoined hslot).mpr (hall slot hslot).2, (hall slot hslot).1⟩] at hlength
      exact List.length_eq_one_iff.mp hlength
    · intro slot hslot
      have hlength := writers_joined h hjoined slot
      rw [if_neg (by rw [claimedSlots]; omega)] at hlength
      exact List.length_eq_zero_iff.mp hlength

end Invariant

/-- Whatever the schedule, every slot has been stored into once when the threads have been joined,
exactly if libclang stores for every file and before each file fewer files fail than there are
threads, or main gets no threads at all. -/
theorem slots_written_once_iff (input : ParseInput) (args : List String) :
    (∀ threadInfo s, initThreadPool (maxThreads args) = some threadInfo →
      Reaches (step input) (deployed threadInfo) s → Joined s → SlotsWrittenOnce input s) ↔
    initThreadPool (maxThreads args) = none ∨ ∀ slot < input.fileNames.length,
      stores input slot = true ∧ failingBelow input slot < maxThreads args := by
  cases hpool : initThreadPool (maxThreads args) with
  | none => simp
  | some threadInfo =>
      obtain ⟨rfl, hfew⟩ := initThreadPool_spec hpool
      constructor
      · intro h
        obtain ⟨s, hreach, hjoined⟩ := @exists_joined input ⟨maxThreads args, 0, 0⟩ hfew rfl
        have honce := h _ s rfl hreach hjoined
        rw [slotsWrittenOnce_joined (valid_reachable hfew rfl hreach) hjoined,
          numThreads_kept hreach] at honce
        exact .inr honce
      · rintro (h | h) _ s heq hreach hjoined
        · cases h
        · obtain rfl := Option.some.inj heq
          rw [slotsWrittenOnce_joined (valid_reachable hfew rfl hreach) hjoined, numThreads_kept hreach]
          exact h

/-- With -j0 no thread is deployed, and the only slot is never stored into. -/
theorem noThreads_unparsed : ¬ ∀ threadInfo s, initThreadPool (maxThreads ["-j0"]) = some threadInfo →
    Reaches (step includeInput) (deployed threadInfo) s → Joined s → SlotsWrittenOnce includeInput s := by
  intro h
  have hpool : initThreadPool (maxThreads ["-j0"]) = some ⟨0, 0, 0⟩ := by decide +kernel
  obtain ⟨thread, hthread⟩ := (h _ _ hpool .refl ⟨rfl, by simp [deployed]⟩).1 0 (by decide)
  cases hthread

end Prongc.ThreadPool
