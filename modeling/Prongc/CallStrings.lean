import Prongc.Library.Separator
import Prongc.WalkAst

namespace Prongc.CallStrings

open ParseCall WalkAst Library.Separator

def isBlank (text : List Char) : Bool := text.all isspace

def depthAfter : Int → List Char → Int
  | depth, [] => depth
  | depth, c :: text => depthAfter (if c = '(' then depth + 1 else if c = ')' then depth - 1 else depth) text

/-- No comma stands where the depth of parentheses is 0. -/
def commasNested : Int → List Char → Bool
  | _, [] => true
  | depth, c :: text =>
      !(c == ',' && depth == 0) &&
        commasNested (if c = '(' then depth + 1 else if c = ')' then depth - 1 else depth) text

def endsTrimmed (text : List Char) : Bool := text.getLast?.any fun c => !isspace c

def startsTrimmed (text : List Char) : Bool := text.head?.any fun c => !isspace c

/-- An argument of a call string with the white space around it. An argument is not empty, since it has
a first character. -/
structure Argument where
  text : List Char
  before : List Char
  after : List Char
  starts : startsTrimmed text = true
  ends : endsTrimmed text = true
  balanced : depthAfter 0 text = 0
  nested : commasNested 0 text = true
  blankBefore : isBlank before = true
  blankAfter : isBlank after = true

structure FuncName where
  text : List Char
  ends : endsTrimmed text = true
  noParen : '(' ∉ text

def Argument.print (arg : Argument) : List Char := arg.before ++ arg.text ++ arg.after

def printFurther (args : List Argument) : List Char := args.flatMap fun arg => ',' :: arg.print

def printArguments : List Argument → List Char
  | [] => []
  | arg :: args => arg.print ++ printFurther args

/-- name(arg1, ..., argn) with white space in front of the parenthesis and behind it, and with some text
behind the call. -/
def printCall (name : FuncName) (beforeParen behindParen : List Char) (args : List Argument)
    (trailing : List Char) : String :=
  String.ofList (name.text ++ beforeParen ++ '(' :: (behindParen ++ printArguments args) ++ ')' :: trailing)

section Scanning

theorem scanArgument_append {depth : Int} {text : List Char} (h : commasNested depth text = true)
    (rest : List Char) : scanArgument depth (text ++ rest) =
      (text ++ (scanArgument (depthAfter depth text) rest).1, (scanArgument (depthAfter depth text) rest).2) := by
  induction text generalizing depth with
  | nil => rfl
  | cons c text ih =>
      rw [commasNested, Bool.and_eq_true, Bool.not_eq_true'] at h
      have hcomma : ¬ (c = ',' ∧ depth = 0) := by simpa using h.1
      rw [List.cons_append, scanArgument, if_neg hcomma]
      simp only [ih h.2, depthAfter, List.cons_append]

theorem not_isspace {c d : Char} (hc : isspace c = true) (hd : isspace d = false) : c ≠ d := by
  rintro rfl
  rw [hc] at hd
  cases hd

theorem blank_scanned {text : List Char} (h : isBlank text = true) (depth : Int) :
    depthAfter depth text = depth ∧ commasNested depth text = true := by
  induction text with
  | nil => exact ⟨rfl, rfl⟩
  | cons c text ih =>
      rw [isBlank, List.all_cons, Bool.and_eq_true] at h
      obtain ⟨hc, htext⟩ := h
      have hopen : c ≠ '(' := not_isspace hc (by decide)
      have hclose : c ≠ ')' := not_isspace hc (by decide)
      have hcomma : c ≠ ',' := not_isspace hc (by decide)
      rw [depthAfter, commasNested, if_neg hopen, if_neg hclose]
      exact ⟨(ih htext).1, by simp [hcomma, (ih htext).2]⟩

theorem commasNested_append {depth : Int} {text text' : List Char} (h : commasNested depth text = true)
    (h' : commasNested (depthAfter depth text) text' = true) : commasNested depth (text ++ text') = true := by
  induction text generalizing depth with
  | nil => exact h'
  | cons c text ih =>
      rw [commasNested, Bool.and_eq_true] at h
      rw [List.cons_append, commasNested, Bool.and_eq_true]
      exact ⟨h.1, ih h.2 h'⟩

theorem depthAfter_append (depth : Int) (text text' : List Char) :
    depthAfter depth (text ++ text') = depthAfter (depthAfter depth text) text' := by
  induction text generalizing depth with
  | nil => rfl
  | cons c text ih => exact ih _

theorem dropWhile_blank {blank text : List Char} (hblank : isBlank blank = true)
    (htext : startsTrimmed text = true) (rest : List Char) :
    (blank ++ (text ++ rest)).dropWhile isspace = text ++ rest := by
  rw [List.dropWhile_append_of_pos (List.all_eq_true.mp hblank)]
  cases text with
  | nil => cases htext
  | cons c text => exact List.dropWhile_cons_of_neg (by simpa [startsTrimmed] using htext)

theorem trimTrailing_blank {text blank : List Char} (hblank : isBlank blank = true)
    (htext : endsTrimmed text = true) : trimTrailing (text ++ blank) = text := by
  obtain ⟨c, hc, htrimmed⟩ := (Option.any_eq_true _ _).mp htext
  obtain ⟨front, rfl⟩ := List.getLast?_eq_some_iff.mp hc
  rw [trimTrailing, List.rdropWhile, List.reverse_append, List.dropWhile_append_of_pos, List.reverse_append,
    List.reverse_singleton, List.singleton_append, List.dropWhile_cons_of_neg (by simpa using htrimmed),
    List.reverse_cons, List.reverse_reverse]
  intro d hd
  exact List.all_eq_true.mp hblank d (List.mem_reverse.mp hd)

theorem Argument.scanned (arg : Argument) (rest : List Char) (hrest : (rest.head?.all fun c => c == ',') = true) :
    scanArgument 0 (arg.text ++ (arg.after ++ rest)) = (arg.text ++ arg.after, rest) := by
  obtain ⟨hdepth, hnested⟩ := blank_scanned arg.blankAfter 0
  have hcommas : commasNested 0 (arg.text ++ arg.after) = true :=
    commasNested_append arg.nested (by rw [arg.balanced, hnested])
  have hstop : scanArgument 0 rest = ([], rest) := by
    cases rest with
    | nil => rfl
    | cons c rest =>
        obtain rfl : c = ',' := by simpa using hrest
        rfl
  rw [← List.append_assoc, scanArgument_append hcommas, depthAfter_append, arg.balanced, hdepth, hstop,
    List.append_nil]

/-- One round of the loop takes one argument with the white space around it, and the comma behind it. -/
theorem parseArguments_argument {blank : List Char} (hblank : isBlank blank = true) (arg : Argument)
    (rounds : Nat) (rest : List Char) (hrest : (rest.head?.all fun c => c == ',') = true) :
    parseArguments (rounds + 1) (blank ++ (arg.print ++ rest)) =
      String.ofList arg.text :: parseArguments rounds (rest.drop 1) := by
  have hfront : isBlank (blank ++ arg.before) = true := by
    rw [isBlank, List.all_append, Bool.and_eq_true]
    exact ⟨hblank, arg.blankBefore⟩
  have hskipped : (blank ++ (arg.print ++ rest)).dropWhile isspace = arg.text ++ (arg.after ++ rest) := by
    rw [← dropWhile_blank hfront arg.starts]
    simp only [Argument.print, List.append_assoc]
  have hscanned := arg.scanned rest hrest
  have htrimmed := trimTrailing_blank arg.blankAfter arg.ends
  have hnonempty : arg.text ≠ [] := by
    intro h
    have hstarts := arg.starts
    rw [h] at hstarts
    cases hstarts
  cases htext : arg.text with
  | nil => exact absurd htext hnonempty
  | cons c cs =>
      rw [htext] at hskipped hscanned htrimmed
      rw [parseArguments, hskipped, List.cons_append]
      rw [List.cons_append] at hscanned
      simp only [hscanned, htrimmed, reduceCtorEq, if_false, List.singleton_append]

theorem parseArguments_blank {blank : List Char} (hblank : isBlank blank = true) (rounds : Nat) :
    parseArguments rounds blank = [] := by
  cases rounds with
  | zero => rfl
  | succ rounds =>
      rw [parseArguments, List.dropWhile_eq_nil_iff.mpr fun c hc => List.all_eq_true.mp hblank c hc]

theorem Argument.print_pos (arg : Argument) : 0 < arg.print.length := by
  have hstarts := arg.starts
  rw [Argument.print, List.length_append, List.length_append]
  cases htext : arg.text with
  | nil =>
      rw [htext] at hstarts
      cases hstarts
  | cons c cs =>
      rw [List.length_cons]
      omega

theorem printFurther_comma (args : List Argument) :
    ((printFurther args).head?.all fun c => c == ',') = true ∧ (printFurther args).drop 1 = printArguments args := by
  cases args with
  | nil => exact ⟨rfl, rfl⟩
  | cons arg args => exact ⟨rfl, rfl⟩

/-- The loop finds the printed arguments, as long as it has a round for each character. -/
theorem parseArguments_print (args : List Argument) {blank : List Char} (hblank : isBlank blank = true)
    {rounds : Nat} (hrounds : (blank ++ printArguments args).length ≤ rounds) :
    parseArguments rounds (blank ++ printArguments args) = args.map fun arg => String.ofList arg.text := by
  induction args generalizing blank rounds with
  | nil =>
      rw [printArguments, List.append_nil]
      exact parseArguments_blank hblank rounds
  | cons arg args ih =>
      obtain ⟨hcomma, hfurther⟩ := printFurther_comma args
      have hpos := arg.print_pos
      rw [printArguments, List.length_append, List.length_append] at hrounds
      obtain ⟨k, rfl⟩ := Nat.exists_eq_add_of_le' (show 1 ≤ rounds by omega)
      have hlength : (printArguments args).length ≤ k := by
        rw [← hfurther, List.length_drop]
        omega
      have hrest := @ih [] rfl k hlength
      rw [List.nil_append] at hrest
      rw [printArguments, parseArguments_argument hblank arg k _ hcomma, hfurther, hrest, List.map_cons]

end Scanning

section Calls

theorem not_mem_blank {blank : List Char} (h : isBlank blank = true) {c : Char} (hc : isspace c = false) :
    c ∉ blank := by
  intro hmem
  rw [List.all_eq_true.mp h c hmem] at hc
  cases hc

/-- Parsing undoes printing. -/
theorem parseFuncCall_print (name : FuncName) {beforeParen behindParen trailing : List Char}
    (hbefore : isBlank beforeParen = true) (hbehind : isBlank behindParen = true) (args : List Argument)
    (htrailing : ')' ∉ trailing) :
    parseFuncCall (printCall name beforeParen behindParen args trailing) =
      (.ok, String.ofList name.text :: args.map fun arg => String.ofList arg.text) := by
  have hopen : '(' ∉ name.text ++ beforeParen := by
    rw [List.mem_append, not_or]
    exact ⟨name.noParen, not_mem_blank hbefore (by decide)⟩
  have hname : name.text ≠ [] := by
    intro h
    have hends := name.ends
    rw [h] at hends
    cases hends
  have hsplit : (printCall name beforeParen behindParen args trailing).toList =
      (name.text ++ beforeParen) ++ '(' :: ((behindParen ++ printArguments args) ++ ')' :: trailing) := by
    rw [printCall, String.toList_ofList, List.append_assoc _ ('(' :: _), List.cons_append]
  obtain ⟨hfront, hback⟩ := takeWhile_of_not_mem hopen ((behindParen ++ printArguments args) ++ ')' :: trailing)
  rw [parseFuncCall, hsplit]
  simp only [hback, hfront, trimTrailing_blank hbefore name.ends, hname, if_false,
    rdropWhile_of_not_mem htrailing, List.dropLast_concat]
  rw [if_pos (List.mem_append_right _ List.mem_cons_self), parseArguments_print args hbehind (Nat.le_refl _)]

def spacedArgument : Argument :=
  ⟨"f(x, y)".toList, " ".toList, "  ".toList, rfl, rfl, rfl, rfl, rfl, rfl⟩

/-- run (  f(x, y)  ); -/
theorem spaced_parsed : parseFuncCall (printCall ⟨"run".toList, rfl, by decide⟩ " ".toList " ".toList
    [spacedArgument] ";".toList) = (.ok, ["run", "f(x, y)"]) :=
  parseFuncCall_print ⟨"run".toList, rfl, by decide⟩ (by decide) (by decide) [spacedArgument] (by decide)

end Calls

section Rejected

/-- A call string that is turned down pushes nothing, so no function accepts it. -/
def LeavesNoTrace (input : String) : Prop :=
  (parseFuncCall input).1 ≠ .ok →
    (parseFuncCall input).2 = [] ∧ ∀ funcDecl, acceptsCall funcDecl input = false

def frontOf (input : String) : List Char := input.toList.takeWhile (· ≠ '(')

def behindOf (input : String) : List Char := (input.toList.dropWhile (· ≠ '(')).tail

def ClosedIfNamed (input : String) : Prop :=
  '(' ∈ input.toList → isBlank (frontOf input) = false → ')' ∈ behindOf input

theorem trimTrailing_eq_nil_iff (text : List Char) : trimTrailing text = [] ↔ isBlank text = true := by
  rw [trimTrailing, List.rdropWhile_eq_nil_iff, isBlank, List.all_eq_true]

/-- What the parser does with a call string: it is no call, has no name, is not closed or is accepted. -/
theorem parseFuncCall_cases (input : String) :
    ('(' ∉ input.toList ∧ parseFuncCall input = (.syntaxError, [])) ∨
    (isBlank (frontOf input) = true ∧ parseFuncCall input = (.syntaxError, [])) ∨
    ('(' ∈ input.toList ∧ isBlank (frontOf input) = false ∧ ')' ∉ behindOf input ∧
      parseFuncCall input = (.syntaxError, [String.ofList (trimTrailing (frontOf input))])) ∨
    (')' ∈ behindOf input ∧ (parseFuncCall input).1 = .ok) := by
  rw [parseFuncCall]
  dsimp only
  split
  next hnone => exact .inl ⟨(dropWhile_eq_nil_iff _ _).mp hnone, rfl⟩
  next c fromParen hopen =>
    have hbehind : behindOf input = fromParen := by rw [behindOf, hopen, List.tail_cons]
    have hcall : '(' ∈ input.toList := by
      by_contra hno
      rw [(dropWhile_eq_nil_iff _ _).mpr hno] at hopen
      cases hopen
    rw [← hbehind]
    split
    next hblank => exact .inr (.inl ⟨(trimTrailing_eq_nil_iff _).mp hblank, rfl⟩)
    next hname =>
      split
      next hclosed => exact .inr (.inr (.inr ⟨hclosed, rfl⟩))
      next hopen' =>
        refine .inr (.inr (.inl ⟨hcall, ?_, hopen', rfl⟩))
        rw [← Bool.not_eq_true, ← trimTrailing_eq_nil_iff]
        exact hname

/-- The only trace is that of a name with a parenthesis that is never closed. -/
theorem leavesNoTrace_iff (input : String) : LeavesNoTrace input ↔ ClosedIfNamed input := by
  simp only [LeavesNoTrace, ClosedIfNamed, acceptsCall]
  rcases parseFuncCall_cases input with ⟨hcall, h⟩ | ⟨hblank, h⟩ | ⟨hcall, hname, hopen, h⟩ | ⟨hclosed, h⟩
  · simp [h, hcall]
  · simp [h, hblank]
  · simp [h, hcall, hname, hopen]
  · simp [h, hclosed]

/-- f( is turned down, but the function f without parameters accepts it. -/
theorem unclosed_leaves_trace : (parseFuncCall "f(").1 ≠ .ok ∧ (parseFuncCall "f(").2 = ["f"] ∧
    acceptsCall (.node { id := 1, kind := .functionDecl, spelling := "f" } []) "f(" = true := by
  decide +kernel

end Rejected

end Prongc.CallStrings
