import Mathlib.Data.Set.List
import Prongc.LoopVerdicts
import Prongc.MainRun
import Prongc.SharedReferences
import Prongc.TraceMode

namespace Prongc.MainReports

open Access Ast ParseCall Library.CStrings DynAos SplitLists GlobPatterns LockTracking LockPairs WalkFunc WalkAst Unwind
  NameBuffers Comparison ParseFile ThreadPool SharedReferences LockPaths LoopVerdicts TraceNames TraceMode CommandLine MainRun

/-- main comes as far as the analysis: the command line asks for the settings, every file is read and none has an
error, and the functions are found. -/
structure Analysed (platform : Platform) (argv : List CString) (s : Settings) (pairs : List LockPrimitivePair)
    (tus : List TranslationUnit) (funcs : List FuncInfo) : Prop where
  expressible : Expressible platform.glob s
  rendered : ∀ kind, (((argv.drop 1).map CString.bytes).filter fun arg => argKind arg = kind) =
    (render s).filter fun arg => argKind arg = kind
  needed : s.funcNames ≠ [] ∧ s.fileNames ≠ [] ∧ s.help = false
  lockPairs : lockPairArray platform.uninitialised (s.lockPairs.map text) = .ok pairs
  read : ∃ input, parseInput platform s = some input ∧
    (∀ tuIdx < input.fileNames.length, stores input tuIdx = true ∧ failingBelow input tuIdx < s.maxThreads) ∧
    tus = (List.range input.fileNames.length).map (parsedUnit platform input)
  clean : ∀ tu ∈ tus, hasError tu = false
  found : requestedFuncs (programOf platform s tus) (s.funcNames.map text) = some funcs

variable {platform : Platform} {argv : List CString} {s : Settings} {pairs : List LockPrimitivePair}
  {tus : List TranslationUnit} {funcs : List FuncInfo}

theorem Analysed.mainInOrder_eq (h : Analysed platform argv s pairs tus funcs) :
    mainInOrder platform argv = analyse platform ⟨s, pairs⟩ tus := by
  obtain ⟨input, hinput, hread, htus⟩ := h.read
  have hnone : tus.any hasError = false := by
    rw [List.any_eq_false]
    intro tu htu
    rw [h.clean tu htu]
    exact Bool.false_ne_true
  rw [mainInOrder_render h.expressible h.rendered h.needed.1 h.needed.2.1 h.needed.2.2 h.lockPairs hinput hread]
  dsimp only
  rw [← htus, if_neg (Bool.eq_false_iff.mp hnone)]

theorem Analysed.compares (h : Analysed platform argv s pairs tus funcs)
    (hmemory : staysInMemory (programOf platform s tus) s.trackLocking funcs (s.funcNames.map text) = true)
    (hplain : s.traceVarNames = []) :
    mainInOrder platform argv = (compareAllFuncs platform.moves pairs s.trackLocking
      (footprints (programOf platform s tus) s.trackLocking funcs (s.funcNames.map text))).map
        fun result => ⟨.ok, false, result.2, []⟩ := by
  rw [h.mainInOrder_eq, analyse]
  dsimp only
  rw [h.found]
  dsimp only
  rw [if_pos hmemory]
  exact if_neg (not_not_intro hplain)

theorem Analysed.traces (h : Analysed platform argv s pairs tus funcs)
    (hmemory : staysInMemory (programOf platform s tus) s.trackLocking funcs (s.funcNames.map text) = true)
    (htraced : s.traceVarNames ≠ []) :
    mainInOrder platform argv = (traceFuncs
      (processTuArray (programOf platform s tus) (s.funcNames.map text)).globalUsrs (s.traceVarNames.map text)
      (footprints (programOf platform s tus) s.trackLocking funcs (s.funcNames.map text))).map
        fun traces => ⟨.ok, false, [], traces⟩ := by
  rw [h.mainInOrder_eq, analyse]
  dsimp only
  rw [h.found]
  dsimp only
  rw [if_pos hmemory]
  exact if_pos htraced

theorem Analysed.undefined (h : Analysed platform argv s pairs tus funcs)
    (hmemory : ¬ staysInMemory (programOf platform s tus) s.trackLocking funcs (s.funcNames.map text) = true) :
    mainInOrder platform argv = none := by
  rw [h.mainInOrder_eq, analyse]
  dsimp only
  rw [h.found]
  exact if_neg hmemory

section Traces

variable {globalUsrs traceVarNames : List String} {va : VarAccess} {built : List (List VarAccess)}

/-- The trace names are for other functions than those that the branch markers are in. -/
def ForOtherFuncs (traceVarNames : List String) (built : List (List VarAccess)) : Prop :=
  ∀ fp ∈ built, ∀ va ∈ fp, isBranchMarker va = true → ∀ varName ∈ traceVarNames, ForOtherFunc va varName

theorem pointers_iff (h : wellNamed va = true) :
    (∀ varName ∈ traceVarNames, ∀ c ∈ stringCalls va varName, c.pointer.isSome = true) ↔
      (isBranchMarker va = true → ∀ varName ∈ traceVarNames, ForOtherFunc va varName) := by
  cases hmarker : isBranchMarker va with
  | true =>
      have hname := (unnamed_of_wellNamed h hmarker).1
      simp only [pointers_of_unnamed hname, true_imp_iff]
  | false =>
      have hnamed := isNamed_of_wellNamed h hmarker
      exact iff_of_true (fun _ _ c hc => pointer_of_named hnamed hc) fun hfalse => Bool.noConfusion hfalse

theorem traceFuncs_traces (h : ∀ fp ∈ built, (findExclusiveVaNames globalUsrs traceVarNames fp).isSome = true) :
    traceFuncs globalUsrs traceVarNames built =
      some (built.flatMap fun fp => fp.flatMap (tracesOf globalUsrs traceVarNames)) := by
  induction built with
  | nil => rfl
  | cons fp built ih =>
      obtain ⟨hfp, hrest⟩ := List.forall_mem_cons.mp h
      obtain ⟨traced, hrun⟩ := Option.isSome_iff_exists.mp hfp
      obtain ⟨rest, hmap, heq⟩ := Option.map_eq_some_iff.mp (ih hrest)
      rw [traceFuncs, List.mapM_cons, hrun, hmap, List.flatMap_cons, ← heq, ← findExclusiveVaNames_traces hrun]
      rfl

theorem traceFuncs_isSome (h : (traceFuncs globalUsrs traceVarNames built).isSome = true) :
    ∀ fp ∈ built, (findExclusiveVaNames globalUsrs traceVarNames fp).isSome = true := by
  rw [traceFuncs, Option.isSome_map] at h
  obtain ⟨traced, hmap⟩ := Option.isSome_iff_exists.mp h
  intro fp hfp
  obtain ⟨k, hk⟩ := List.mem_iff_getElem?.mp hfp
  obtain ⟨result, -, hrun⟩ := mapM_getElem? hmap hk
  exact Option.isSome_of_eq_some hrun

theorem forOtherFuncs_iff (h : ∀ fp ∈ built, ∀ va ∈ fp, wellNamed va = true) : ForOtherFuncs traceVarNames built ↔
    ∀ fp ∈ built, (findExclusiveVaNames globalUsrs traceVarNames fp).isSome = true := by
  simp only [findExclusiveVaNames_isSome_iff]
  exact forall₂_congr fun fp hfp => forall₂_congr fun va hva => (pointers_iff (h fp hfp va hva)).symm

end Traces

/-- The footprints of a run have names where they have no branch markers, which only lock tracking adds. -/
theorem Analysed.footprint (h : Analysed platform argv s pairs tus funcs) {fp : List VarAccess}
    (hfp : fp ∈ footprints (programOf platform s tus) s.trackLocking funcs (s.funcNames.map text)) :
    ∀ va ∈ fp, wellNamed va = true ∧ (s.trackLocking = false → isBranchMarker va = false) := by
  have hroots : funcs ∈ Set.range (List.map requestedFunc) := by
    rw [Set.range_list_map]
    intro func hfunc
    obtain ⟨root, rfl⟩ := requested_root h.found func hfunc
    exact ⟨root, rfl⟩
  obtain ⟨roots, rfl⟩ := hroots
  obtain ⟨root, -, globals, funcCall, rfl⟩ := footprints_built hfp
  intro va hva
  refine ⟨wellNamed_footprint _ _ root globals funcCall va hva, ?_⟩
  intro huntracked
  rw [huntracked] at hva
  exact untracked_unmarked _ root globals funcCall va hva

section Writers

/-- The ids of the variables x and y, of the mutex m and of its functions in one file. -/
structure FileIds where
  x : Nat
  y : Nat
  m : Nat
  lock : Nat
  unlock : Nat

variable (ids : FileIds)

def globals : List Cursor :=
  [.node { id := ids.x, kind := .varDecl, usr := "c:@x", displayName := "x", linkage := .external } [],
   .node { id := ids.y, kind := .varDecl, usr := "c:@y", displayName := "y", linkage := .external } [],
   .node { id := ids.m, kind := .varDecl, usr := "c:@m", displayName := "m", linkage := .external } []]

def mutexFuncs : List Cursor :=
  [.node { id := ids.lock, kind := .functionDecl, usr := "c:@F@pthread_mutex_lock",
           spelling := "pthread_mutex_lock", inSystemHeader := true } [],
   .node { id := ids.unlock, kind := .functionDecl, usr := "c:@F@pthread_mutex_unlock",
           spelling := "pthread_mutex_unlock", inSystemHeader := true } []]

def assigned (id target : Nat) : Cursor :=
  .node { id, kind := .binaryOperator, binaryOperatorKind := .assign }
    [.node { id := id + 1, kind := .declRefExpr, referenced := some target } [],
     .node { id := id + 2, kind := .other 106 } []]

def mutexCall (id func : Nat) : Cursor :=
  .node { id, kind := .callExpr, referenced := some func }
    [.node { id := id + 1, kind := .declRefExpr, referenced := some func } [],
     .node { id := id + 2, kind := .unaryOperator, unaryOperatorKind := .addrOf }
       [.node { id := id + 3, kind := .declRefExpr, referenced := some ids.m } []]]

/-- A function with a parameter that assigns to x under m, and to y without. -/
def writer (id : Nat) (name paramUsr : String) : Cursor :=
  definitionOf id name [.node { id := id + 2, kind := .parmDecl, usr := paramUsr, linkage := .noLinkage } []]
    [mutexCall ids (id + 3) ids.lock, assigned (id + 7) ids.x, mutexCall ids (id + 10) ids.unlock,
     assigned (id + 14) ids.y]

end Writers

def idsA : FileIds := ⟨20, 21, 22, 23, 24⟩

def idsB : FileIds := ⟨50, 51, 52, 53, 54⟩

def writerF : Cursor := writer idsA 1 "f" "c:a.c@8@F@f@p"

def writerG : Cursor := writer idsB 31 "g" "c:b.c@8@F@g@p"

def writersPlatform : Platform where
  glob := literalGlob
  uninitialised := fun _ => none
  fromDirectory := fun _ => none
  clangParseTranslationUnit2 := fun _ _ => 0
  storesOnError := fun _ => false
  translationUnit := fun fileName _ =>
    let declared := if fileName = "a.c" then globals idsA ++ [writerF] else globals idsB ++ [writerG]
    ⟨.node { id := 0, kind := .translationUnit } declared, [.warning]⟩
  decls := fun _ => globals idsA ++ mutexFuncs idsA ++ (globals idsB ++ mutexFuncs idsB)
  zeroCursorIsNull := false
  moves := fun _ => false

def writersInput : ParseInput where
  fileNames := lockedSettings.fileNames.map text
  db := none
  extraArgs := lockedSettings.extraArgs.map text
  clangParseTranslationUnit2 := fun _ _ => 0
  storesOnError := fun _ => false
  fits := by decide

def writersUnits : List TranslationUnit :=
  (List.range writersInput.fileNames.length).map (parsedUnit writersPlatform writersInput)

def writersFuncs : List FuncInfo := [writerF, writerG].map requestedFunc

theorem writersInput_read : ∀ tuIdx < writersInput.fileNames.length,
    stores writersInput tuIdx = true ∧ failingBelow writersInput tuIdx < lockedSettings.maxThreads := by decide

theorem writersUnits_clean : ∀ tu ∈ writersUnits, hasError tu = false := by
  intro tu htu
  obtain ⟨_, -, rfl⟩ := List.mem_map.mp htu
  rfl

theorem writersFuncs_found : requestedFuncs (programOf writersPlatform lockedSettings writersUnits)
    (lockedSettings.funcNames.map text) = some writersFuncs :=
  rfl

def writersSettings (lockPairs traceVarNames : List (List UInt8)) (trackLocking : Bool) : Settings :=
  { lockedSettings with lockPairs, traceVarNames, trackLocking }

theorem writers_analysed {argv : List CString} {lockPairs traceVarNames : List (List UInt8)} {trackLocking : Bool}
    {pairs : List LockPrimitivePair}
    (hexpressible : Expressible literalGlob (writersSettings lockPairs traceVarNames trackLocking))
    (hrendered : ∀ kind, (((argv.drop 1).map CString.bytes).filter fun arg => argKind arg = kind) =
      (render (writersSettings lockPairs traceVarNames trackLocking)).filter fun arg => argKind arg = kind)
    (hpairs : lockPairArray writersPlatform.uninitialised (lockPairs.map text) = .ok pairs) :
    Analysed writersPlatform argv (writersSettings lockPairs traceVarNames trackLocking) pairs writersUnits
      writersFuncs where
  expressible := hexpressible
  rendered := hrendered
  needed := ⟨(by decide : lockedSettings.funcNames ≠ []), (by decide : lockedSettings.fileNames ≠ []), rfl⟩
  lockPairs := hpairs
  read := ⟨writersInput, dif_pos writersInput.fits, writersInput_read, rfl⟩
  clean := writersUnits_clean
  found := writersFuncs_found

def plainSettings : Settings := writersSettings [] [] false

def argvOf (args : List String) : List CString :=
  args.filterMap fun arg =>
    if h : 0 ∉ ascii arg ∧ (ascii arg).length < 2 ^ 64 then some ⟨ascii arg, h.1, h.2⟩ else none

def plainArgv : List CString :=
  argvOf ["prongc", "--trace=", "--functions=f(x);g(x)", "-O2", "--files=a.c,b.c", "-DN=1", "--verbose", "-j4"]

theorem plainArgv_analysed : Analysed writersPlatform plainArgv plainSettings defaultLockPairs writersUnits
    writersFuncs := by
  refine writers_analysed (by constructor <;> decide +kernel) ?_ (by decide +kernel)
  intro kind
  cases kind <;> decide

theorem lockedArgv_analysed : Analysed writersPlatform lockedArgv lockedSettings
    (⟨"enter", "leave"⟩ :: defaultLockPairs) writersUnits writersFuncs := by
  refine writers_analysed (by constructor <;> decide +kernel) ?_ (by decide +kernel)
  intro kind
  cases kind <;> decide

def writersFootprints : List (List VarAccess) :=
  footprints (programOf writersPlatform lockedSettings writersUnits) true writersFuncs
    (lockedSettings.funcNames.map text)

theorem writersFootprints_readable : ∀ fp ∈ writersFootprints,
    Readable writersPlatform.moves (⟨"enter", "leave"⟩ :: defaultLockPairs) fp := by
  intro fp hfp
  apply readable_of_noBranches
  · revert fp
    decide +kernel
  · constructor
    · revert fp
      decide +kernel
    · revert fp
      decide +kernel

theorem writersFootprints_agree :
    LocksAgree writersPlatform.moves (⟨"enter", "leave"⟩ :: defaultLockPairs) writersFootprints :=
  locksAgree_of_mem (by decide +kernel)

def tracedSettings : Settings := writersSettings [] [ascii "x", ascii "g@x"] false

def tracedArgv : List CString :=
  argvOf ["prongc", "--trace=x;g@x", "--functions=f(x);g(x)", "-O2", "--files=a.c,b.c", "-DN=1", "--verbose", "-j4"]

theorem tracedArgv_analysed : Analysed writersPlatform tracedArgv tracedSettings defaultLockPairs writersUnits
    writersFuncs := by
  refine writers_analysed (by constructor <;> decide +kernel) ?_ (by decide +kernel)
  intro kind
  cases kind <;> decide

end Prongc.MainReports
