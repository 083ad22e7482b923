import Prongc.GlobPatterns
import Prongc.ThreadPool

namespace Prongc.CommandLine

open ParseCall Library.CStrings DynAos SplitLists GlobPatterns ThreadPool ParseFile

structure ProngPriv where
  fileNames : DynamicAOS
  funcNames : DynamicAOS
  traceVarNames : DynamicAOS
  lockPairs : DynamicAOS
  extraArgs : DynamicAOS
  compdbDir : Option CString
  maxThreads : Nat
  trackLocking : Bool
  silenceWarnings : Bool
  verbose : Bool
  help : Bool
  errors : List String

def prongInitPriv : ProngPriv where
  fileNames := initAos
  funcNames := initAos
  traceVarNames := initAos
  lockPairs := initAos
  extraArgs := initAos
  compdbDir := none
  maxThreads := defaultMaxThreads
  trackLocking := false
  silenceWarnings := false
  verbose := false
  help := false
  errors := []

def strncmpEqual (bytes : List UInt8) (literal : String) (n : Nat) : Bool := bytes.take n == (ascii literal).take n

def behind (arg : CString) (n : Nat) : CString where
  bytes := arg.bytes.drop n
  terminated := fun h => arg.terminated (List.mem_of_mem_drop h)
  addressable := by
    have := arg.addressable
    rw [List.length_drop]
    omega

def filesArgStrlen : Nat := 8

def funcsArgStrlen : Nat := 12

def traceVarsStrlen : Nat := 8

def compDbStrlen : Nat := 13

def jobCountStrlen : Nat := 2

def lockPairStrlen : Nat := 13

inductive ArgKind
  | files | functions | trace | compdbDir | lockPairs | jobs
  | trackLocking | silenceWarnings | verbose | help | extra
  deriving DecidableEq

def argKind (arg : List UInt8) : ArgKind :=
  if strncmpEqual arg "--files=" filesArgStrlen then .files
  else if strncmpEqual arg "--functions=" funcsArgStrlen then .functions
  else if strncmpEqual arg "--trace=" traceVarsStrlen then .trace
  else if strncmpEqual arg "--compdb-dir=" compDbStrlen then .compdbDir
  else if strncmpEqual arg "--lock-pairs=" lockPairStrlen then .lockPairs
  else if strncmpEqual arg "-j" jobCountStrlen then .jobs
  else if arg = ascii "--track-locking" then .trackLocking
  else if arg = ascii "--silence-warnings" then .silenceWarnings
  else if arg = ascii "--verbose" then .verbose
  else if arg = ascii "--help" then .help
  else .extra

def jobCount (arg : CString) : Nat := sizeOfInt (atoi (chars (behind arg jobCountStrlen).bytes))

section Loop

variable (glob : GlobCall → GlobResult)

def processArg (prongPriv : ProngPriv) (cmdArg : CString) : Option ProngPriv :=
  match argKind cmdArg.bytes with
  | .files => (splitCommaList glob (behind cmdArg filesArgStrlen) prongPriv.fileNames).map fun st =>
      { prongPriv with fileNames := st.dynAos, errors := prongPriv.errors ++ st.errors }
  | .functions => (splitSemicolonList (behind cmdArg funcsArgStrlen) prongPriv.funcNames).map fun array =>
      { prongPriv with funcNames := array }
  | .trace => (splitSemicolonList (behind cmdArg traceVarsStrlen) prongPriv.traceVarNames).map fun array =>
      { prongPriv with traceVarNames := array }
  | .compdbDir => some { prongPriv with compdbDir := some (behind cmdArg compDbStrlen) }
  | .lockPairs => (splitSemicolonList (behind cmdArg lockPairStrlen) prongPriv.lockPairs).map fun array =>
      { prongPriv with lockPairs := array, trackLocking := true }
  | .jobs => some { prongPriv with maxThreads := jobCount cmdArg }
  | .trackLocking => some { prongPriv with trackLocking := true }
  | .silenceWarnings => some { prongPriv with silenceWarnings := true }
  | .verbose => some { prongPriv with verbose := true }
  | .help => some { prongPriv with help := true }
  | .extra => some { prongPriv with extraArgs := (aosPushString prongPriv.extraArgs cmdArg).2 }

/-- The end of process_args, behind its loop. -/
def requiredArgs (prongPriv : ProngPriv) : ProngError :=
  if prongPriv.funcNames.count = 0 ∨ prongPriv.fileNames.count = 0 then .invalidArg else .ok

/-- `none` when a list is read behind its end. The first argument is the name of the program. -/
def processArgs (argv : List CString) : Option (ProngError × ProngPriv) :=
  ((argv.drop 1).foldlM (processArg glob) prongInitPriv).map fun prongPriv => (requiredArgs prongPriv, prongPriv)

end Loop

structure Settings where
  fileNames : List (List UInt8)
  funcNames : List (List UInt8)
  traceVarNames : List (List UInt8)
  lockPairs : List (List UInt8)
  extraArgs : List (List UInt8)
  compdbDir : Option (List UInt8)
  maxThreads : Nat
  trackLocking : Bool
  silenceWarnings : Bool
  verbose : Bool
  help : Bool

def ProngPriv.settings (prongPriv : ProngPriv) : Settings where
  fileNames := aosStrings prongPriv.fileNames
  funcNames := aosStrings prongPriv.funcNames
  traceVarNames := aosStrings prongPriv.traceVarNames
  lockPairs := aosStrings prongPriv.lockPairs
  extraArgs := aosStrings prongPriv.extraArgs
  compdbDir := prongPriv.compdbDir.map CString.bytes
  maxThreads := prongPriv.maxThreads
  trackLocking := prongPriv.trackLocking
  silenceWarnings := prongPriv.silenceWarnings
  verbose := prongPriv.verbose
  help := prongPriv.help

section Spec

variable (glob : GlobCall → GlobResult)

def argsOf (kind : ArgKind) (args : List CString) : List CString := args.filter fun arg => argKind arg.bytes = kind

def globbed (pattern : List UInt8) : List (List UInt8) :=
  match glob ⟨pattern, flags⟩ with
  | .found paths => paths.map CString.bytes
  | _ => []

def addArg (s : Settings) (arg : CString) : Settings :=
  match argKind arg.bytes with
  | .files => { s with
      fileNames := s.fileNames ++ (segmentsOf comma (behind arg filesArgStrlen)).flatMap (globbed glob) }
  | .functions => { s with funcNames := s.funcNames ++ segmentsOf semicolon (behind arg funcsArgStrlen) }
  | .trace => { s with traceVarNames := s.traceVarNames ++ segmentsOf semicolon (behind arg traceVarsStrlen) }
  | .compdbDir => { s with compdbDir := some (behind arg compDbStrlen).bytes }
  | .lockPairs => { s with
      lockPairs := s.lockPairs ++ segmentsOf semicolon (behind arg lockPairStrlen)
      trackLocking := true }
  | .jobs => { s with maxThreads := jobCount arg }
  | .trackLocking => { s with trackLocking := true }
  | .silenceWarnings => { s with silenceWarnings := true }
  | .verbose => { s with verbose := true }
  | .help => { s with help := true }
  | .extra => { s with extraArgs := s.extraArgs ++ [arg.bytes] }

/-- Each setting depends on the arguments of its own option alone, and of a directory or a number of jobs
on the last of them. -/
def settingsOf (args : List CString) : Settings where
  fileNames := (argsOf .files args).flatMap fun arg =>
    (segmentsOf comma (behind arg filesArgStrlen)).flatMap (globbed glob)
  funcNames := (argsOf .functions args).flatMap fun arg => segmentsOf semicolon (behind arg funcsArgStrlen)
  traceVarNames := (argsOf .trace args).flatMap fun arg => segmentsOf semicolon (behind arg traceVarsStrlen)
  lockPairs := (argsOf .lockPairs args).flatMap fun arg => segmentsOf semicolon (behind arg lockPairStrlen)
  extraArgs := (argsOf .extra args).map CString.bytes
  compdbDir := (argsOf .compdbDir args).getLast?.map fun arg => (behind arg compDbStrlen).bytes
  maxThreads := ((argsOf .jobs args).getLast?.map jobCount).getD defaultMaxThreads
  trackLocking := !(argsOf .lockPairs args).isEmpty || !(argsOf .trackLocking args).isEmpty
  silenceWarnings := !(argsOf .silenceWarnings args).isEmpty
  verbose := !(argsOf .verbose args).isEmpty
  help := !(argsOf .help args).isEmpty

end Spec

section Fold

variable {glob : GlobCall → GlobResult} {args : List CString} {arg : CString} {prongPriv : ProngPriv}

theorem aosStrings_globPattern (pattern : CString) (st : GlobState) :
    aosStrings (globPattern glob pattern st).dynAos = aosStrings st.dynAos ++ globbed glob pattern.bytes := by
  rw [globPattern, globbed]
  cases hglob : glob ⟨pattern.bytes, flags⟩ with
  | found paths => exact aosStrings_foldl paths st.dynAos
  | nospace | aborted | «nomatch» => exact (List.append_nil _).symm

/-- The paths of all patterns are pushed, in the order of the patterns. -/
theorem splitCommaList_spec (strIn : CString) (dynAos : DynamicAOS) :
    ∃ st, splitCommaList glob strIn dynAos = some st ∧
      aosStrings st.dynAos = aosStrings dynAos ++ (segmentsOf comma strIn).flatMap (globbed glob) := by
  have hfold : ∀ (strs : List CString) (st : GlobState),
      aosStrings (strs.foldl (fun st str => globPattern glob str st) st).dynAos =
        aosStrings st.dynAos ++ (strs.map CString.bytes).flatMap (globbed glob) := by
    intro strs
    induction strs with
    | nil => intro st; exact (List.append_nil _).symm
    | cons str strs ih =>
        intro st
        rw [List.foldl_cons, ih, aosStrings_globPattern, List.append_assoc, List.map_cons, List.flatMap_cons]
  obtain ⟨strs, hstrs, hsplit⟩ := @splitList_segments comma _ (globPattern glob) (by decide) strIn
  refine ⟨_, hsplit ⟨dynAos, [], []⟩, ?_⟩
  rw [hfold, hstrs]

theorem argsOf_snoc (kind : ArgKind) : argsOf kind (args ++ [arg]) =
    argsOf kind args ++ if argKind arg.bytes = kind then [arg] else [] := by
  rw [argsOf, List.filter_append, ← argsOf, List.filter_singleton]
  simp

theorem processArg_settings (glob : GlobCall → GlobResult) (prongPriv : ProngPriv) (arg : CString) :
    ∃ prongPriv', processArg glob prongPriv arg = some prongPriv' ∧
      prongPriv'.settings = addArg glob prongPriv.settings arg := by
  rw [processArg, addArg]
  cases argKind arg.bytes with
  | files =>
      obtain ⟨st, hsplit, hstrings⟩ := @splitCommaList_spec glob (behind arg filesArgStrlen) prongPriv.fileNames
      exact ⟨_, congrArg (Option.map _) hsplit,
        congrArg (fun strings => { prongPriv.settings with fileNames := strings }) hstrings⟩
  | functions =>
      obtain ⟨array, hsplit, hstrings, -⟩ := splitSemicolonList_spec (behind arg funcsArgStrlen) prongPriv.funcNames
      exact ⟨_, congrArg (Option.map _) hsplit,
        congrArg (fun strings => { prongPriv.settings with funcNames := strings }) hstrings⟩
  | trace =>
      obtain ⟨array, hsplit, hstrings, -⟩ :=
        splitSemicolonList_spec (behind arg traceVarsStrlen) prongPriv.traceVarNames
      exact ⟨_, congrArg (Option.map _) hsplit,
        congrArg (fun strings => { prongPriv.settings with traceVarNames := strings }) hstrings⟩
  | lockPairs =>
      obtain ⟨array, hsplit, hstrings, -⟩ := splitSemicolonList_spec (behind arg lockPairStrlen) prongPriv.lockPairs
      exact ⟨_, congrArg (Option.map _) hsplit,
        congrArg (fun strings => { prongPriv.settings with lockPairs := strings, trackLocking := true }) hstrings⟩
  | extra =>
      exact ⟨_, rfl, congrArg (fun strings => { prongPriv.settings with extraArgs := strings })
        (aosStrings_push prongPriv.extraArgs arg)⟩
  | compdbDir | jobs | trackLocking | silenceWarnings | verbose | help => exact ⟨_, rfl, rfl⟩

theorem addArg_settingsOf (glob : GlobCall → GlobResult) (args : List CString) (arg : CString) :
    addArg glob (settingsOf glob args) arg = settingsOf glob (args ++ [arg]) := by
  rw [addArg]
  cases hkind : argKind arg.bytes <;> simp [settingsOf, argsOf_snoc, hkind]

theorem processArgs_fold (glob : GlobCall → GlobResult) (args : List CString) :
    ∃ prongPriv, args.foldlM (processArg glob) prongInitPriv = some prongPriv ∧
      prongPriv.settings = settingsOf glob args := by
  induction args using List.reverseRecOn with
  | nil => exact ⟨prongInitPriv, rfl, rfl⟩
  | append_singleton args arg ih =>
      obtain ⟨mid, hfold, hmid⟩ := ih
      obtain ⟨prongPriv, hstep, hsettings⟩ := processArg_settings glob mid arg
      refine ⟨prongPriv, ?_, ?_⟩
      · rw [List.foldlM_append, hfold]
        simpa using hstep
      · rw [hsettings, hmid, addArg_settingsOf]

end Fold

theorem count_eq_zero (array : DynamicAOS) : array.count = 0 ↔ aosStrings array = [] := by
  rw [DynamicAOS.count, aosStrings, List.map_eq_nil_iff, List.length_eq_zero_iff]

theorem requiredArgs_ok_iff (prongPriv : ProngPriv) : requiredArgs prongPriv = .ok ↔
    prongPriv.settings.funcNames ≠ [] ∧ prongPriv.settings.fileNames ≠ [] := by
  rw [requiredArgs]
  split
  next hmissing =>
    rw [count_eq_zero, count_eq_zero] at hmissing
    refine iff_of_false (by decide) ?_
    rintro ⟨hfuncs, hfiles⟩
    exact hmissing.elim hfuncs hfiles
  next hthere =>
    rw [count_eq_zero, count_eq_zero] at hthere
    exact iff_of_true rfl (not_or.mp hthere)

theorem processArgs_result (glob : GlobCall → GlobResult) (argv : List CString) :
    ∃ prongPriv, processArgs glob argv = some (requiredArgs prongPriv, prongPriv) ∧
      prongPriv.settings = settingsOf glob (argv.drop 1) := by
  obtain ⟨prongPriv, hfold, hsettings⟩ := processArgs_fold glob (argv.drop 1)
  exact ⟨prongPriv, congrArg (Option.map _) hfold, hsettings⟩

/-- Whatever the arguments and their order are, none of their lists is read behind its end, each setting
comes from the arguments of its own option, and an error says that functions or files are missing. -/
theorem processArgs_spec (glob : GlobCall → GlobResult) (argv : List CString) :
    ∃ ret prongPriv, processArgs glob argv = some (ret, prongPriv) ∧
      prongPriv.settings = settingsOf glob (argv.drop 1) ∧ (ret = .ok ∨ ret = .invalidArg) ∧
      (ret = .ok ↔ prongPriv.settings.funcNames ≠ [] ∧ prongPriv.settings.fileNames ≠ []) := by
  obtain ⟨prongPriv, hrun, hsettings⟩ := processArgs_result glob argv
  refine ⟨_, prongPriv, hrun, hsettings, ?_, requiredArgs_ok_iff prongPriv⟩
  rw [requiredArgs]
  split
  next => exact .inr rfl
  next => exact .inl rfl

section RoundTrip

variable (glob : GlobCall → GlobResult)

def rendered (s : Settings) : ArgKind → List (List UInt8)
  | .files => [ascii "--files=" ++ [comma].intercalate s.fileNames]
  | .functions => [ascii "--functions=" ++ [semicolon].intercalate s.funcNames]
  | .trace => [ascii "--trace=" ++ [semicolon].intercalate s.traceVarNames]
  | .compdbDir => s.compdbDir.toList.map fun dir => ascii "--compdb-dir=" ++ dir
  | .lockPairs => if s.lockPairs = [] then [] else [ascii "--lock-pairs=" ++ [semicolon].intercalate s.lockPairs]
  | .jobs => [ascii "-j" ++ decimal s.maxThreads]
  | .trackLocking => if s.trackLocking then [ascii "--track-locking"] else []
  | .silenceWarnings => if s.silenceWarnings then [ascii "--silence-warnings"] else []
  | .verbose => if s.verbose then [ascii "--verbose"] else []
  | .help => if s.help then [ascii "--help"] else []
  | .extra => s.extraArgs

def allKinds : List ArgKind :=
  [.files, .functions, .trace, .compdbDir, .lockPairs, .jobs, .trackLocking, .silenceWarnings, .verbose, .help, .extra]

def render (s : Settings) : List (List UInt8) := allKinds.flatMap (rendered s)

/-- An item of a list neither has a separator nor starts with a blank. -/
def ListItem (separator : UInt8) (item : List UInt8) : Prop :=
  item ≠ [] ∧ separator ∉ item ∧ ∀ b ∈ item.head?, isBlank b = false

instance (separator : UInt8) (item : List UInt8) : Decidable (ListItem separator item) :=
  inferInstanceAs (Decidable (_ ∧ _ ∧ _))

/-- Settings that a command line can ask for, with files that glob finds under their own names. -/
structure Expressible (s : Settings) : Prop where
  files : ∀ file ∈ s.fileNames, ListItem comma file ∧ globbed glob file = [file]
  funcs : ∀ func ∈ s.funcNames, ListItem semicolon func
  traceVars : ∀ varName ∈ s.traceVarNames, ListItem semicolon varName
  pairs : ∀ pair ∈ s.lockPairs, ListItem semicolon pair
  locking : s.lockPairs ≠ [] → s.trackLocking = true
  threads : s.maxThreads < 2 ^ 31
  extras : ∀ arg ∈ s.extraArgs, argKind arg = .extra

variable {glob} {s : Settings} {args : List CString} {kind : ArgKind}

theorem strncmp_front (front literal : String) (rest : List UInt8) (k n : Nat) (hk : k ≤ n)
    (hfront : k ≤ (ascii front).length) (h : (ascii front).take k ≠ (ascii literal).take k) :
    ¬ strncmpEqual (ascii front ++ rest) literal n = true := by
  rw [strncmpEqual, beq_iff_eq]
  intro heq
  apply h
  have htake := congrArg (List.take k) heq
  rwa [List.take_take, List.take_take, Nat.min_eq_left hk, List.take_append_of_le_length hfront] at htake

theorem strncmp_self (literal : String) (rest : List UInt8) :
    strncmpEqual (ascii literal ++ rest) literal (ascii literal).length = true := by
  rw [strncmpEqual, List.take_left, List.take_length, beq_self_eq_true]

theorem argKind_files (list : List UInt8) : argKind (ascii "--files=" ++ list) = .files :=
  if_pos (strncmp_self "--files=" list)

theorem argKind_functions (list : List UInt8) : argKind (ascii "--functions=" ++ list) = .functions := by
  have hfiles := strncmp_front "--functions=" "--files=" list 4 filesArgStrlen (by decide) (by decide) (by decide)
  rw [argKind, if_neg hfiles]
  exact if_pos (strncmp_self "--functions=" list)

theorem argKind_trace (list : List UInt8) : argKind (ascii "--trace=" ++ list) = .trace := by
  have hfiles := strncmp_front "--trace=" "--files=" list 4 filesArgStrlen (by decide) (by decide) (by decide)
  have hfunctions := strncmp_front "--trace=" "--functions=" list 4 funcsArgStrlen (by decide) (by decide) (by decide)
  rw [argKind, if_neg hfiles, if_neg hfunctions]
  exact if_pos (strncmp_self "--trace=" list)

theorem argKind_compdbDir (dir : List UInt8) : argKind (ascii "--compdb-dir=" ++ dir) = .compdbDir := by
  have hfiles := strncmp_front "--compdb-dir=" "--files=" dir 4 filesArgStrlen (by decide) (by decide) (by decide)
  have hfunctions := strncmp_front "--compdb-dir=" "--functions=" dir 4 funcsArgStrlen
    (by decide) (by decide) (by decide)
  have htrace := strncmp_front "--compdb-dir=" "--trace=" dir 4 traceVarsStrlen (by decide) (by decide) (by decide)
  rw [argKind, if_neg hfiles, if_neg hfunctions, if_neg htrace]
  exact if_pos (strncmp_self "--compdb-dir=" dir)

theorem argKind_lockPairs (list : List UInt8) : argKind (ascii "--lock-pairs=" ++ list) = .lockPairs := by
  have hfiles := strncmp_front "--lock-pairs=" "--files=" list 4 filesArgStrlen (by decide) (by decide) (by decide)
  have hfunctions := strncmp_front "--lock-pairs=" "--functions=" list 4 funcsArgStrlen
    (by decide) (by decide) (by decide)
  have htrace := strncmp_front "--lock-pairs=" "--trace=" list 4 traceVarsStrlen (by decide) (by decide) (by decide)
  have hcompdbDir := strncmp_front "--lock-pairs=" "--compdb-dir=" list 4 compDbStrlen
    (by decide) (by decide) (by decide)
  rw [argKind, if_neg hfiles, if_neg hfunctions, if_neg htrace, if_neg hcompdbDir]
  exact if_pos (strncmp_self "--lock-pairs=" list)

theorem argKind_jobs (jobs : List UInt8) : argKind (ascii "-j" ++ jobs) = .jobs := by
  have hfiles := strncmp_front "-j" "--files=" jobs 2 filesArgStrlen (by decide) (by decide) (by decide)
  have hfunctions := strncmp_front "-j" "--functions=" jobs 2 funcsArgStrlen (by decide) (by decide) (by decide)
  have htrace := strncmp_front "-j" "--trace=" jobs 2 traceVarsStrlen (by decide) (by decide) (by decide)
  have hcompdbDir := strncmp_front "-j" "--compdb-dir=" jobs 2 compDbStrlen (by decide) (by decide) (by decide)
  have hlockPairs := strncmp_front "-j" "--lock-pairs=" jobs 2 lockPairStrlen (by decide) (by decide) (by decide)
  rw [argKind, if_neg hfiles, if_neg hfunctions, if_neg htrace, if_neg hcompdbDir, if_neg hlockPairs]
  exact if_pos (strncmp_self "-j" jobs)

theorem argKind_flags : argKind (ascii "--track-locking") = .trackLocking ∧
    argKind (ascii "--silence-warnings") = .silenceWarnings ∧ argKind (ascii "--verbose") = .verbose ∧
    argKind (ascii "--help") = .help := by decide

theorem argKind_rendered (h : Expressible glob s) (kind : ArgKind) : ∀ arg ∈ rendered s kind, argKind arg = kind := by
  intro arg harg
  obtain ⟨htrack, hsilence, hverbose, hhelp⟩ := argKind_flags
  cases kind with
  | files =>
      obtain rfl := List.mem_singleton.mp harg
      exact argKind_files _
  | functions =>
      obtain rfl := List.mem_singleton.mp harg
      exact argKind_functions _
  | trace =>
      obtain rfl := List.mem_singleton.mp harg
      exact argKind_trace _
  | compdbDir =>
      obtain ⟨dir, -, rfl⟩ := List.mem_map.mp harg
      exact argKind_compdbDir dir
  | lockPairs =>
      rw [rendered] at harg
      split at harg
      next => cases harg
      next =>
        obtain rfl := List.mem_singleton.mp harg
        exact argKind_lockPairs _
  | jobs =>
      obtain rfl := List.mem_singleton.mp harg
      exact argKind_jobs _
  | trackLocking => exact (List.mem_ite_nil_right.mp harg).2 |> List.mem_singleton.mp |> (· ▸ htrack)
  | silenceWarnings => exact (List.mem_ite_nil_right.mp harg).2 |> List.mem_singleton.mp |> (· ▸ hsilence)
  | verbose => exact (List.mem_ite_nil_right.mp harg).2 |> List.mem_singleton.mp |> (· ▸ hverbose)
  | help => exact (List.mem_ite_nil_right.mp harg).2 |> List.mem_singleton.mp |> (· ▸ hhelp)
  | extra => exact h.extras arg harg

theorem filter_render (h : Expressible glob s) (kind : ArgKind) :
    ((render s).filter fun arg => argKind arg = kind) = rendered s kind := by
  have hother : ∀ other, ((rendered s other).filter fun arg => argKind arg = kind) =
      if other = kind then rendered s kind else [] := by
    intro other
    split
    next hsame =>
      subst hsame
      rw [List.filter_eq_self]
      intro arg harg
      exact decide_eq_true (argKind_rendered h other arg harg)
    next hdiff =>
      rw [List.filter_eq_nil_iff]
      intro arg harg heq
      exact hdiff ((argKind_rendered h other arg harg).symm.trans (of_decide_eq_true heq))
  rw [render, List.filter_flatMap]
  simp only [hother]
  cases kind <;> simp [allKinds]

theorem isspace_digit {c : Char} (hc : c.isDigit = true) : isspace c = false := by
  have hlow : 48 ≤ c.toNat := (Char.isDigit_iff_toNat.mp hc).1
  have hreturn : ¬ c ≤ '\r' := by
    intro hle
    have hval : c.toNat ≤ 13 := hle
    omega
  have hblank : c ≠ ' ' := by
    rintro rfl
    exact absurd hlow (by decide)
  rw [isspace, decide_eq_false hreturn, Bool.and_false, Bool.or_false, beq_eq_false_iff_ne]
  exact hblank

theorem atoi_digits {n : Nat} (hn : n < 2 ^ 31) : atoi (Nat.toDigits 10 n) = n := by
  have hdigits : ∀ c ∈ Nat.toDigits 10 n, c.isDigit = true := fun c hc =>
    Nat.isDigit_of_mem_toDigits (by decide) (by decide) hc
  have hvalue := @Nat.ofDigitChars_ten_toDigits n
  rw [Nat.ofDigitChars_eq_foldl] at hvalue
  cases htext : Nat.toDigits 10 n with
  | nil => exact absurd htext (by simp)
  | cons c cs =>
      rw [htext] at hdigits hvalue
      have hc := hdigits c List.mem_cons_self
      have hall : (c :: cs).takeWhile Char.isDigit = c :: cs := List.takeWhile_eq_self_iff.mpr hdigits
      rw [atoi, List.dropWhile_cons_of_neg (by simp [isspace_digit hc])]
      split
      next sign digits hmatch =>
        split at hmatch
        next heq => cases heq; exact absurd hc (by decide)
        next heq => cases heq; exact absurd hc (by decide)
        next =>
          obtain ⟨rfl, rfl⟩ := Prod.mk.inj hmatch
          have hclamp : max (-2 ^ 63) (min (2 ^ 63 - 1) (1 * (n : Int))) = n := by omega
          rw [hall, hvalue]
          dsimp only
          rw [hclamp]
          exact intOfSize_of_lt hn

theorem jobCount_decimal {arg : CString} {n : Nat} (hn : n < 2 ^ 31) (harg : arg.bytes = ascii "-j" ++ decimal n) :
    jobCount arg = n := by
  have hbehind : (behind arg jobCountStrlen).bytes = decimal n := by
    rw [behind]
    dsimp only
    rw [harg]
    exact @List.drop_left _ (ascii "-j") _
  rw [jobCount, hbehind, decimal, ascii, toList_toString, chars_ascii fun c hc => digit_lt hc, atoi_digits hn]
  rw [sizeOfInt]
  omega

theorem argsOf_bytes (kind : ArgKind) (args : List CString) :
    (argsOf kind args).map CString.bytes = (args.map CString.bytes).filter fun arg => argKind arg = kind := by
  rw [argsOf, List.filter_map]
  rfl

theorem argsOf_singleton {literal : String} {list : List UInt8}
    (h : (argsOf kind args).map CString.bytes = [ascii literal ++ list]) :
    ∃ arg, argsOf kind args = [arg] ∧ (behind arg (ascii literal).length).bytes = list := by
  obtain ⟨arg, harg, hbytes⟩ := List.map_eq_singleton_iff.mp h
  refine ⟨arg, harg, ?_⟩
  rw [behind]
  dsimp only
  rw [hbytes, List.drop_left]

theorem segmentsOf_items {separator : UInt8} {items : List (List UInt8)} {strIn : CString}
    (hitems : ∀ item ∈ items, ListItem separator item) (hstrIn : strIn.bytes = [separator].intercalate items) :
    segmentsOf separator strIn = items := by
  have hkept : ∀ item ∈ items, dropBlanks item = item := fun item h => dropBlanks_of_head (hitems item h).2.2
  rw [segmentsOf_intercalate _ hstrIn, List.map_congr_left hkept, List.map_id']
  intro item hitem
  rw [hkept item hitem]
  exact ⟨(hitems item hitem).1, (hitems item hitem).2.1⟩

theorem isEmpty_argsOf {literal : String} {flag : Bool}
    (h : (argsOf kind args).map CString.bytes = if flag then [ascii literal] else []) :
    (!(argsOf kind args).isEmpty) = flag := by
  cases flag with
  | true =>
      obtain ⟨arg, harg, -⟩ := List.map_eq_singleton_iff.mp h
      rw [harg]
      rfl
  | false =>
      rw [List.map_eq_nil_iff.mp h]
      rfl

theorem byte_of_char {b : UInt8} {c : Char} (h : Char.ofNat b.toNat = c) : b = c.toUInt8 := by
  rw [← h, toUInt8_ofNat]

theorem argKind_ne_jobs {arg : List UInt8} (h : arg.take 2 ≠ ascii "-j") : argKind arg ≠ .jobs := by
  have hjobs : ¬ strncmpEqual arg "-j" jobCountStrlen = true := by
    rw [strncmpEqual, beq_iff_eq]
    exact h
  rw [argKind]
  split_ifs <;> exact ArgKind.noConfusion

theorem maxThreads_settingsOf (glob : GlobCall → GlobResult) (args : List CString) :
    (settingsOf glob args).maxThreads = ThreadPool.maxThreads (args.map fun arg => text arg.bytes) := by
  induction args using List.reverseRecOn with
  | nil => rfl
  | append_singleton args arg ih =>
      rw [ThreadPool.maxThreads] at ih
      rw [ThreadPool.maxThreads, List.map_append, List.foldl_append, ← ih, ← addArg_settingsOf, List.map_singleton,
        List.foldl_cons, List.foldl_nil, text, String.toList_ofList]
      by_cases hjobs : arg.bytes.take 2 = ascii "-j"
      · have hbytes : arg.bytes = ascii "-j" ++ (behind arg jobCountStrlen).bytes := by
          rw [← hjobs]
          exact (List.take_append_drop 2 arg.bytes).symm
        have hkind := argKind_jobs (behind arg jobCountStrlen).bytes
        rw [← hbytes] at hkind
        rw [addArg, hkind, hbytes]
        rfl
      · split
        next jobs hchars =>
          exfalso
          apply hjobs
          rw [chars] at hchars
          obtain ⟨dash, rest, hbytes, hdash, hrest⟩ := List.map_eq_cons_iff.mp hchars
          obtain ⟨j, rest', rfl, hj, -⟩ := List.map_eq_cons_iff.mp hrest
          rw [hbytes, byte_of_char hdash, byte_of_char hj]
          rfl
        next =>
          have hne := argKind_ne_jobs hjobs
          rw [addArg]
          cases hkind : argKind arg.bytes with
          | jobs => exact absurd hkind hne
          | files | functions | trace | compdbDir | lockPairs | trackLocking | silenceWarnings | verbose | help
          | extra =>
              rfl

/-- A command line that has the arguments of the settings, in any order of the options, is read back as
these settings. -/
theorem settingsOf_rendered (h : Expressible glob s)
    (hargs : ∀ kind, (argsOf kind args).map CString.bytes = rendered s kind) : settingsOf glob args = s := by
  have hdir : (argsOf .compdbDir args).getLast?.map (fun arg => (behind arg compDbStrlen).bytes) = s.compdbDir := by
    have hbytes := hargs .compdbDir
    rw [rendered] at hbytes
    cases hnone : s.compdbDir with
    | none =>
        rw [hnone] at hbytes
        rw [List.map_eq_nil_iff.mp hbytes]
        rfl
    | some dir =>
        rw [hnone] at hbytes
        obtain ⟨arg, harg, hbehind⟩ := argsOf_singleton hbytes
        rw [harg]
        exact congrArg some hbehind
  have hjobs : ((argsOf .jobs args).getLast?.map jobCount).getD defaultMaxThreads = s.maxThreads := by
    obtain ⟨arg, harg, hbytes⟩ := List.map_eq_singleton_iff.mp (hargs .jobs)
    rw [harg]
    exact jobCount_decimal h.threads hbytes
  have hpairs : ((argsOf .lockPairs args).flatMap fun arg => segmentsOf semicolon (behind arg lockPairStrlen)) =
      s.lockPairs ∧ (!(argsOf .lockPairs args).isEmpty) = decide (s.lockPairs ≠ []) := by
    have hbytes := hargs .lockPairs
    rw [rendered] at hbytes
    split at hbytes
    next hnone =>
      rw [List.map_eq_nil_iff.mp hbytes, hnone]
      exact ⟨rfl, rfl⟩
    next hsome =>
      obtain ⟨arg, harg, hbehind⟩ := argsOf_singleton hbytes
      rw [harg]
      exact ⟨(List.flatMap_singleton _ _).trans (segmentsOf_items h.pairs hbehind), (decide_eq_true hsome).symm⟩
  have hlocking : (!(argsOf .lockPairs args).isEmpty || !(argsOf .trackLocking args).isEmpty) = s.trackLocking := by
    rw [hpairs.2, isEmpty_argsOf (hargs .trackLocking)]
    by_cases hnone : s.lockPairs = []
    · rw [decide_eq_false (not_not_intro hnone), Bool.false_or]
    · rw [h.locking hnone, Bool.or_true]
  have hfiles : ((argsOf .files args).flatMap fun arg =>
      (segmentsOf comma (behind arg filesArgStrlen)).flatMap (globbed glob)) = s.fileNames := by
    obtain ⟨arg, harg, hbehind⟩ := argsOf_singleton (hargs .files)
    have hitems := segmentsOf_items (fun file hfile => (h.files file hfile).1) hbehind
    rw [harg, List.flatMap_singleton]
    rw [show segmentsOf comma (behind arg filesArgStrlen) = s.fileNames from hitems]
    rw [List.flatMap_congr fun file hfile => (h.files file hfile).2, List.flatMap_singleton']
  have hfuncs : ((argsOf .functions args).flatMap fun arg => segmentsOf semicolon (behind arg funcsArgStrlen)) =
      s.funcNames := by
    obtain ⟨arg, harg, hbehind⟩ := argsOf_singleton (hargs .functions)
    rw [harg]
    exact (List.flatMap_singleton _ _).trans (segmentsOf_items h.funcs hbehind)
  have htrace : ((argsOf .trace args).flatMap fun arg => segmentsOf semicolon (behind arg traceVarsStrlen)) =
      s.traceVarNames := by
    obtain ⟨arg, harg, hbehind⟩ := argsOf_singleton (hargs .trace)
    rw [harg]
    exact (List.flatMap_singleton _ _).trans (segmentsOf_items h.traceVars hbehind)
  rw [settingsOf, hfiles, hfuncs, htrace, hdir, hpairs.1, hjobs, hlocking, isEmpty_argsOf (hargs .silenceWarnings),
    isEmpty_argsOf (hargs .verbose), isEmpty_argsOf (hargs .help), hargs .extra]
  rfl

theorem settingsOf_render (h : Expressible glob s)
    (hargs : ∀ kind, ((args.map CString.bytes).filter fun arg => argKind arg = kind) =
      (render s).filter fun arg => argKind arg = kind) : settingsOf glob args = s := by
  apply settingsOf_rendered h
  intro kind
  rw [argsOf_bytes, hargs kind, filter_render h]

/-- A command line for some settings is read back as these settings, however its options are ordered. -/
theorem processArgs_render (glob : GlobCall → GlobResult) {s : Settings} (h : Expressible glob s) {argv : List CString}
    (hargv : ∀ kind, (((argv.drop 1).map CString.bytes).filter fun arg => argKind arg = kind) =
      (render s).filter fun arg => argKind arg = kind) :
    ∃ ret prongPriv, processArgs glob argv = some (ret, prongPriv) ∧ prongPriv.settings = s ∧
      (ret = .ok ↔ s.funcNames ≠ [] ∧ s.fileNames ≠ []) := by
  obtain ⟨prongPriv, hrun, hsettings⟩ := processArgs_result glob argv
  rw [settingsOf_render h hargv] at hsettings
  have hret := requiredArgs_ok_iff prongPriv
  rw [hsettings] at hret
  exact ⟨_, prongPriv, hrun, hsettings, hret⟩

def lockedSettings : Settings where
  fileNames := [ascii "a.c", ascii "b.c"]
  funcNames := [ascii "f(x)", ascii "g(x)"]
  traceVarNames := []
  lockPairs := [ascii "enter:leave"]
  extraArgs := [ascii "-O2", ascii "-DN=1"]
  compdbDir := none
  maxThreads := 4
  trackLocking := true
  silenceWarnings := false
  verbose := true
  help := false

def lockedArgv : List CString :=
  [⟨ascii "prongc", by decide, by decide⟩, ⟨ascii "-O2", by decide, by decide⟩, ⟨ascii "-j4", by decide, by decide⟩,
    ⟨ascii "--trace=", by decide, by decide⟩, ⟨ascii "--lock-pairs=enter:leave", by decide, by decide⟩,
    ⟨ascii "--functions=f(x);g(x)", by decide, by decide⟩, ⟨ascii "-DN=1", by decide, by decide⟩,
    ⟨ascii "--verbose", by decide, by decide⟩, ⟨ascii "--files=a.c,b.c", by decide, by decide⟩,
    ⟨ascii "--track-locking", by decide, by decide⟩]

def literalGlob (call : GlobCall) : GlobResult :=
  if h : 0 ∉ call.pattern ∧ call.pattern.length < 2 ^ 64 then .found [⟨call.pattern, h.1, h.2⟩] else .nomatch

theorem lockedArgv_read : ∃ ret prongPriv, processArgs literalGlob lockedArgv = some (ret, prongPriv) ∧
    prongPriv.settings = lockedSettings ∧
      (ret = .ok ↔ lockedSettings.funcNames ≠ [] ∧ lockedSettings.fileNames ≠ []) := by
  apply processArgs_render literalGlob
  · constructor <;> decide +kernel
  · intro kind
    cases kind <;> decide

end RoundTrip

end Prongc.CommandLine
