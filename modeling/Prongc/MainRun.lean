import Prongc.CommandLine
import Prongc.Comparison
import Prongc.LockPairs
import Prongc.NameBuffers
import Prongc.PoolLocking
import Prongc.TraceNames

namespace Prongc.MainRun

open Access Ast ParseCall Library.CStrings DynAos SplitLists GlobPatterns LockTracking LockPairs WalkAst Unwind NameBuffers
  Comparison ParseFile ThreadPool PoolLocking TraceNames CommandLine Library.Interleaving

inductive DiagnosticSeverity
  | ignored | note | warning | error | fatal
  deriving DecidableEq

structure TranslationUnit where
  cursor : Cursor
  diagnostics : List DiagnosticSeverity

/-- What the run depends on besides its command line. Allocations and pthread_create are taken to succeed. -/
structure Platform where
  glob : GlobCall → GlobResult
  uninitialised : Nat → Option String
  fromDirectory : String → Option (String → List (List String))
  clangParseTranslationUnit2 : String → List String → Nat
  storesOnError : String → Bool
  translationUnit : String → List String → TranslationUnit
  decls : List TranslationUnit → List Cursor
  zeroCursorIsNull : Bool
  moves : Nat → Bool

structure Outcome where
  ret : ProngError
  usage : Bool
  reports : List Report
  traces : List VarTrace

def stopped (ret : ProngError) (usage : Bool) : Outcome := ⟨ret, usage, [], []⟩

structure Job where
  settings : Settings
  lockPairArray : List LockPrimitivePair

section Main

variable (platform : Platform)

def beforeThreads (argv : List CString) : Option (Outcome ⊕ Job) :=
  if argv.length < 2 then some (.inl (stopped .invalidArg true))
  else do
    let (ret, prongPriv) ← processArgs platform.glob argv
    if ret ≠ .ok then some (.inl (stopped ret true))
    else match lockPairArray platform.uninitialised (prongPriv.settings.lockPairs.map text) with
      | .error ret => some (.inl (stopped ret false))
      | .ok pairs =>
          if prongPriv.help then some (.inl (stopped .ok true)) else some (.inr ⟨prongPriv.settings, pairs⟩)

/-- What the threads read; `none` where the file names do not fit into memory. -/
def parseInput (settings : Settings) : Option ParseInput :=
  if h : 8 * (settings.fileNames.map text).length < 2 ^ 63 then
    some {
      fileNames := settings.fileNames.map text
      db := settings.compdbDir.bind fun dir => platform.fromDirectory (text dir)
      extraArgs := settings.extraArgs.map text
      clangParseTranslationUnit2 := platform.clangParseTranslationUnit2
      storesOnError := platform.storesOnError
      fits := h }
  else none

def parsedUnit (input : ParseInput) (tuIdx : Nat) : TranslationUnit :=
  let fileName := input.fileNames.getD tuIdx ""
  platform.translationUnit fileName (passedArgs input fileName)

/-- The array when the threads have been joined. A slot that nothing was stored into holds anything. -/
def tuArray (input : ParseInput) (parsed : List (Nat × Nat)) : List (Option TranslationUnit) :=
  (List.range input.fileNames.length).map fun tuIdx =>
    if parsed.any (·.1 == tuIdx) && stores input tuIdx then some (parsedUnit platform input tuIdx) else none

def hasError (tu : TranslationUnit) : Bool :=
  tu.diagnostics.any fun severity => severity == .error || severity == .fatal

/-- The loop over the translation units stops at the first with an error; `none` where it comes to a slot
that nothing was stored into. -/
def errorsDetected : List (Option TranslationUnit) → Option Bool
  | [] => some false
  | none :: _ => none
  | some tu :: tus => if hasError tu then some true else errorsDetected tus

def programOf (settings : Settings) (tus : List TranslationUnit) : Program where
  tuArray := tus.map TranslationUnit.cursor
  fileNames := settings.fileNames.map text
  decls := platform.decls tus
  zeroCursorIsNull := platform.zeroCursorIsNull

def traceFuncs (globalUsrs traceVarNames : List String) (footprints : List (List VarAccess)) : Option (List VarTrace) :=
  (footprints.mapM (findExclusiveVaNames globalUsrs traceVarNames)).map fun traced => traced.flatMap Prod.snd

/-- The part of main behind the diagnostics; `none` where it leaves its memory. -/
def analyse (job : Job) (tus : List TranslationUnit) : Option Outcome :=
  let program := programOf platform job.settings tus
  let funcNames := job.settings.funcNames.map text
  match requestedFuncs program funcNames with
  | none => some (stopped .notFound false)
  | some funcs =>
      if staysInMemory program job.settings.trackLocking funcs funcNames then
        let footprints := footprints program job.settings.trackLocking funcs funcNames
        if job.settings.traceVarNames ≠ [] then
          (traceFuncs (processTuArray program funcNames).globalUsrs (job.settings.traceVarNames.map text)
            footprints).map fun traces => ⟨.ok, false, [], traces⟩
        else
          (compareAllFuncs platform.moves job.lockPairArray job.settings.trackLocking footprints).map
            fun result => ⟨.ok, false, result.2, []⟩
      else none

def afterThreads (job : Job) (slots : List (Option TranslationUnit)) : Option Outcome := do
  let erroneous ← errorsDetected slots
  if erroneous then some (stopped .syntaxError false) else analyse platform job slots.reduceOption

/-- A run that the threads take part in by any schedule comes to this outcome; `none` is undefined. -/
def Ends (argv : List CString) (outcome : Option Outcome) : Prop :=
  match beforeThreads platform argv with
  | none => outcome = none
  | some (.inl early) => outcome = some early
  | some (.inr job) =>
      match parseInput platform job.settings, initThreadPool job.settings.maxThreads with
      | some input, some threadInfo =>
          ∃ s, Reaches (lockedStep input threadInfo) (lockFree (deployed threadInfo)) s ∧ LockedJoined s ∧
            outcome = afterThreads platform job (tuArray platform input s.data)
      | _, _ => outcome = none

/-- The files one after the other. A file that cannot be parsed takes a thread away, and without threads
nothing is parsed. -/
def readInOrder (input : ParseInput) : Nat → List Nat → List (Option TranslationUnit)
  | _, [] => []
  | threads, tuIdx :: rest =>
      (if 0 < threads ∧ stores input tuIdx = true then some (parsedUnit platform input tuIdx) else none) ::
        readInOrder input (if failing input tuIdx then threads - 1 else threads) rest

def mainInOrder (argv : List CString) : Option Outcome := do
  match ← beforeThreads platform argv with
  | .inl early => some early
  | .inr job =>
      let input ← parseInput platform job.settings
      let threadInfo ← initThreadPool job.settings.maxThreads
      afterThreads platform job (readInOrder platform input threadInfo.numThreads (List.range input.fileNames.length))

end Main

section Schedules

variable {platform : Platform} {argv : List CString} {job : Job} {input : ParseInput} {threadInfo : ThreadInfo}

theorem beforeThreads_job (h : beforeThreads platform argv = some (.inr job)) :
    job.settings = settingsOf platform.glob (argv.drop 1) := by
  obtain ⟨prongPriv, hargs, hsettings⟩ := processArgs_result platform.glob argv
  rw [beforeThreads, hargs] at h
  split at h
  next => cases h
  next =>
    rw [Option.bind_eq_bind, Option.bind_some] at h
    dsimp only at h
    split at h
    next => cases h
    next =>
      split at h
      next => cases h
      next =>
        split at h
        next => cases h
        next =>
          obtain rfl := Sum.inr.inj (Option.some.inj h)
          exact hsettings

theorem threads_few (h : beforeThreads platform argv = some (.inr job))
    (hpool : initThreadPool job.settings.maxThreads = some threadInfo) :
    threadInfo = ⟨job.settings.maxThreads, 0, 0⟩ ∧ threadInfo.numThreads < 2 ^ 31 := by
  have hthreads := maxThreads_settingsOf platform.glob (argv.drop 1)
  rw [← beforeThreads_job h] at hthreads
  rw [hthreads] at hpool ⊢
  obtain ⟨rfl, hfew⟩ := initThreadPool_spec hpool
  exact ⟨rfl, hfew⟩

theorem failingBelow_succ (start : Nat) :
    failingBelow input (start + 1) = failingBelow input start + if failing input start then 1 else 0 :=
  Nat.count_succ _ start

theorem readInOrder_range (numThreads len : Nat) : ∀ start,
    readInOrder platform input (numThreads - failingBelow input start) (List.range' start len) =
      (List.range' start len).map fun tuIdx =>
        if failingBelow input tuIdx < numThreads ∧ stores input tuIdx = true then some (parsedUnit platform input tuIdx)
        else none := by
  induction len with
  | zero => intro start; rfl
  | succ len ih =>
      intro start
      have hleft : (if failing input start then numThreads - failingBelow input start - 1
          else numThreads - failingBelow input start) = numThreads - failingBelow input (start + 1) := by
        rw [failingBelow_succ]
        split <;> omega
      rw [List.range'_succ, readInOrder, hleft, ih, List.map_cons]
      simp only [Nat.sub_pos_iff_lt]

/-- When the threads have been joined the array is as if the files had been read in their order. -/
theorem tuArray_joined {s : LockedPool} (hfew : threadInfo.numThreads < 2 ^ 31) (hnext : threadInfo.nextFileIdx = 0)
    (hreach : Reaches (lockedStep input threadInfo) (lockFree (deployed threadInfo)) s) (hjoined : LockedJoined s) :
    tuArray platform input s.data =
      readInOrder platform input threadInfo.numThreads (List.range input.fileNames.length) := by
  have hparsed : ∀ tuIdx < input.fileNames.length,
      s.data.any (·.1 == tuIdx) = decide (failingBelow input tuIdx < threadInfo.numThreads) := by
    intro tuIdx hlt
    rw [Bool.eq_iff_iff, List.any_eq_true, ← List.countP_pos_iff, countP_joined hfew hnext hreach hjoined tuIdx,
      decide_eq_true_eq]
    split
    next hbelow => exact iff_of_true Nat.one_pos hbelow.2
    next hbelow => exact iff_of_false (Nat.lt_irrefl 0) fun h => hbelow ⟨hlt, h⟩
  have hnone : failingBelow input 0 = 0 := Nat.count_zero _
  have horder := @readInOrder_range platform input threadInfo.numThreads input.fileNames.length 0
  rw [hnone, Nat.sub_zero] at horder
  rw [tuArray, List.range_eq_range', horder]
  apply List.map_congr_left
  intro tuIdx htuIdx
  rw [hparsed tuIdx (by simpa using htuIdx)]
  simp

theorem ends_deployed (hfew : threadInfo.numThreads < 2 ^ 31) (hnext : threadInfo.nextFileIdx = 0)
    (outcome : Option Outcome) :
    (∃ s, Reaches (lockedStep input threadInfo) (lockFree (deployed threadInfo)) s ∧ LockedJoined s ∧
      outcome = afterThreads platform job (tuArray platform input s.data)) ↔
    outcome = afterThreads platform job
      (readInOrder platform input threadInfo.numThreads (List.range input.fileNames.length)) := by
  constructor
  · rintro ⟨s, hreach, hjoined, rfl⟩
    rw [tuArray_joined hfew hnext hreach hjoined]
  · rintro rfl
    obtain ⟨s, hreach, hjoined⟩ := @exists_locked_joined input threadInfo hfew hnext
    refine ⟨s, hreach, hjoined, ?_⟩
    rw [tuArray_joined hfew hnext hreach hjoined]

theorem ends_iff (outcome : Option Outcome) : Ends platform argv outcome ↔ outcome = mainInOrder platform argv := by
  rw [Ends, mainInOrder]
  cases hbefore : beforeThreads platform argv with
  | none => rfl
  | some next =>
      cases next with
      | inl early => rfl
      | inr job =>
          rw [Option.bind_eq_bind, Option.bind_some]
          dsimp only
          cases hinput : parseInput platform job.settings with
          | none => rfl
          | some input =>
              cases hpool : initThreadPool job.settings.maxThreads with
              | none => rfl
              | some threadInfo =>
                  obtain ⟨rfl, hfew⟩ := threads_few hbefore hpool
                  exact ends_deployed hfew rfl outcome

end Schedules

/-- Whatever the threads do when, main comes to the outcome of reading the files in their order, and to no other. -/
theorem main_refines_order (platform : Platform) (argv : List CString) :
    Ends platform argv (mainInOrder platform argv) ∧
      ∀ outcome, Ends platform argv outcome → outcome = mainInOrder platform argv :=
  ⟨(ends_iff _).mpr rfl, fun outcome hends => (ends_iff outcome).mp hends⟩

section Analysis

variable {platform : Platform} {argv : List CString} {s : Settings} {pairs : List LockPrimitivePair}
  {input : ParseInput}

theorem beforeThreads_settings {prongPriv : ProngPriv} (hargc : ¬ argv.length < 2)
    (hargs : processArgs platform.glob argv = some (.ok, prongPriv))
    (hpairs : lockPairArray platform.uninitialised (prongPriv.settings.lockPairs.map text) = .ok pairs)
    (hhelp : prongPriv.settings.help = false) :
    beforeThreads platform argv = some (.inr ⟨prongPriv.settings, pairs⟩) := by
  have hflag : ¬ prongPriv.help = true := fun h => Bool.noConfusion (h.symm.trans hhelp)
  rw [beforeThreads, if_neg hargc, hargs, Option.bind_eq_bind, Option.bind_some]
  dsimp only
  rw [if_neg (not_not_intro rfl), hpairs]
  exact if_neg hflag

theorem argc_rendered (hargv : ∀ kind, (((argv.drop 1).map CString.bytes).filter fun arg => argKind arg = kind) =
      (render s).filter fun arg => argKind arg = kind) : ¬ argv.length < 2 := by
  intro hfew
  have hfiles : ascii "--files=" ++ [comma].intercalate s.fileNames ∈
      (render s).filter fun arg => argKind arg = .files := by
    refine List.mem_filter.mpr ⟨?_, decide_eq_true (argKind_files _)⟩
    exact List.mem_flatMap.mpr ⟨.files, by decide, List.mem_singleton_self _⟩
  rw [← hargv .files, List.drop_eq_nil_of_le (by omega)] at hfiles
  cases hfiles

theorem beforeThreads_render (h : Expressible platform.glob s)
    (hargv : ∀ kind, (((argv.drop 1).map CString.bytes).filter fun arg => argKind arg = kind) =
      (render s).filter fun arg => argKind arg = kind)
    (hfuncs : s.funcNames ≠ []) (hfiles : s.fileNames ≠ []) (hhelp : s.help = false)
    (hpairs : lockPairArray platform.uninitialised (s.lockPairs.map text) = .ok pairs) :
    beforeThreads platform argv = some (.inr ⟨s, pairs⟩) := by
  obtain ⟨prongPriv, hargs, hsettings⟩ := processArgs_result platform.glob argv
  rw [settingsOf_render h hargv] at hsettings
  subst hsettings
  rw [(requiredArgs_ok_iff prongPriv).mpr ⟨hfuncs, hfiles⟩] at hargs
  exact beforeThreads_settings (argc_rendered hargv) hargs hpairs hhelp

/-- Where no file is missing, reading in order gives the units of all files. -/
theorem readInOrder_all {numThreads : Nat} (hread : ∀ tuIdx < input.fileNames.length,
      stores input tuIdx = true ∧ failingBelow input tuIdx < numThreads) :
    readInOrder platform input numThreads (List.range input.fileNames.length) =
      ((List.range input.fileNames.length).map (parsedUnit platform input)).map some := by
  have hnone : failingBelow input 0 = 0 := Nat.count_zero _
  have horder := @readInOrder_range platform input numThreads input.fileNames.length 0
  rw [hnone, Nat.sub_zero, ← List.range_eq_range'] at horder
  rw [horder, List.map_map]
  apply List.map_congr_left
  intro tuIdx htuIdx
  have hthere := hread tuIdx (List.mem_range.mp htuIdx)
  exact if_pos ⟨hthere.2, hthere.1⟩

theorem reduceOption_some {α : Type} (l : List α) : (l.map some).reduceOption = l := by
  change (l.map some).filterMap id = l
  rw [List.filterMap_map]
  exact List.filterMap_some

theorem errorsDetected_some (tus : List TranslationUnit) : errorsDetected (tus.map some) = some (tus.any hasError) := by
  induction tus with
  | nil => rfl
  | cons tu tus ih =>
      rw [List.map_cons, errorsDetected, List.any_cons]
      split
      next herror => rw [herror, Bool.true_or]
      next hclean => rw [ih, Bool.eq_false_iff.mpr hclean, Bool.false_or]

theorem initThreadPool_few {numThreads : Nat} (h : numThreads < 2 ^ 31) :
    initThreadPool numThreads = some ⟨numThreads, 0, 0⟩ := by
  rw [initThreadPool, if_pos (by omega)]

/-- Neither the order of the options nor the number of threads has a part in the outcome, as long as a thread is
left for each file: it is what the analysis makes of the units of the files in their order, or an error if one of
them has one. -/
theorem mainInOrder_render (h : Expressible platform.glob s)
    (hargv : ∀ kind, (((argv.drop 1).map CString.bytes).filter fun arg => argKind arg = kind) =
      (render s).filter fun arg => argKind arg = kind)
    (hfuncs : s.funcNames ≠ []) (hfiles : s.fileNames ≠ []) (hhelp : s.help = false)
    (hpairs : lockPairArray platform.uninitialised (s.lockPairs.map text) = .ok pairs)
    (hinput : parseInput platform s = some input)
    (hread : ∀ tuIdx < input.fileNames.length,
      stores input tuIdx = true ∧ failingBelow input tuIdx < s.maxThreads) :
    mainInOrder platform argv =
      let tus := (List.range input.fileNames.length).map (parsedUnit platform input)
      if tus.any hasError then some (stopped .syntaxError false) else analyse platform ⟨s, pairs⟩ tus := by
  have hbefore := beforeThreads_render h hargv hfuncs hfiles hhelp hpairs
  rw [mainInOrder, hbefore, Option.bind_eq_bind, Option.bind_some]
  dsimp only
  rw [hinput, initThreadPool_few h.threads]
  simp only [Option.bind_eq_bind, Option.bind_some]
  rw [readInOrder_all hread, afterThreads, errorsDetected_some, Option.bind_eq_bind, Option.bind_some,
    reduceOption_some]

end Analysis

end Prongc.MainRun
