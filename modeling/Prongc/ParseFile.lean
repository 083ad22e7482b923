import Mathlib.Data.List.TakeDrop
import Mathlib.Tactic.NormNum
import Prongc.ParseCall

namespace Prongc.ParseFile

open ParseCall

/-- What the threads read: the command line, the compile commands of the database for a file, and
the error code libclang returns for a file and its arguments. Whether libclang also stores into the
slot of a file when it returns an error is left open. The pointers to the file names stand in one
block of memory. -/
structure ParseInput where
  fileNames : List String
  db : Option (String → List (List String))
  extraArgs : List String
  clangParseTranslationUnit2 : String → List String → Nat
  storesOnError : String → Bool
  fits : 8 * fileNames.length < 2 ^ 63

def isSkippedArg (fileName arg : String) : Bool :=
  arg == fileName || arg == "clang" || arg == "-c" || arg == "--"

def pushCommand (fileName : String) (clangArgs command : List String) : List String :=
  (command.drop 1).foldl
    (fun clangArgs arg => if isSkippedArg fileName arg then clangArgs else clangArgs ++ [arg]) clangArgs

def commandArgs (fileName : String) : Option (String → List (List String)) → List String
  | none => []
  | some getCompileCommands => (getCompileCommands fileName).foldl (pushCommand fileName) []

def aosAppendStrings (array1 array2 : List String) : ProngError × List String :=
  if array1.length = 0 ∨ array2.length = 0 then (.invalidArg, array1)
  else (.ok, array2.foldl (fun array arg => array ++ [arg]) array1)

def clangArgs (input : ParseInput) (fileName : String) : List String :=
  (aosAppendStrings (commandArgs fileName input.db) input.extraArgs).2

def intOfSize (size : Nat) : Int := Int.bmod size (2 ^ 32)

/-- The arguments that libclang sees, as many as the count passed to it says. -/
def passedArgs (input : ParseInput) (fileName : String) : List String :=
  let clangArgs := clangArgs input fileName
  clangArgs.take (intOfSize clangArgs.length).toNat

def parseError (input : ParseInput) (fileName : String) : Nat :=
  input.clangParseTranslationUnit2 fileName (passedArgs input fileName)

def keptArgs (input : ParseInput) (fileName : String) : List String :=
  match input.db with
  | none => []
  | some getCompileCommands =>
      (getCompileCommands fileName).flatMap fun command =>
        (command.drop 1).filter fun arg => !isSkippedArg fileName arg

theorem pushCommand_eq (fileName : String) (clangArgs command : List String) :
    pushCommand fileName clangArgs command =
      clangArgs ++ (command.drop 1).filter fun arg => !isSkippedArg fileName arg := by
  rw [pushCommand]
  induction command.drop 1 generalizing clangArgs with
  | nil => simp
  | cons arg args ih =>
      rw [List.foldl_cons, ih]
      cases hskip : isSkippedArg fileName arg with
      | true => simp [hskip]
      | false => simp [hskip]

theorem foldl_pushCommand (fileName : String) (commands : List (List String)) (clangArgs : List String) :
    commands.foldl (pushCommand fileName) clangArgs =
      clangArgs ++ commands.flatMap fun command =>
        (command.drop 1).filter fun arg => !isSkippedArg fileName arg := by
  induction commands generalizing clangArgs with
  | nil => simp
  | cons command commands ih =>
      rw [List.foldl_cons, ih, pushCommand_eq, List.flatMap_cons, List.append_assoc]

theorem commandArgs_eq (input : ParseInput) (fileName : String) :
    commandArgs fileName input.db = keptArgs input fileName := by
  unfold commandArgs keptArgs
  cases input.db with
  | none => rfl
  | some getCompileCommands => exact (foldl_pushCommand fileName _ []).trans (List.nil_append _)

theorem foldl_push (array1 array2 : List String) :
    array2.foldl (fun array arg => array ++ [arg]) array1 = array1 ++ array2 := by
  induction array2 generalizing array1 with
  | nil => simp
  | cons arg array2 ih => rw [List.foldl_cons, ih, List.append_assoc, List.singleton_append]

theorem aosAppendStrings_snd (array1 array2 : List String) :
    (aosAppendStrings array1 array2).2 = if array1 = [] then [] else array1 ++ array2 := by
  rw [aosAppendStrings]
  rw [foldl_push]
  cases array1 with
  | nil => simp
  | cons arg array1 =>
      cases array2 with
      | nil => simp
      | cons arg2 array2 => simp

theorem clangArgs_eq (input : ParseInput) (fileName : String) :
    clangArgs input fileName =
      if keptArgs input fileName = [] then [] else keptArgs input fileName ++ input.extraArgs := by
  rw [clangArgs, aosAppendStrings_snd, commandArgs_eq]

theorem intOfSize_of_lt {size : Nat} (h : size < 2 ^ 31) : intOfSize size = size := by
  apply Int.bmod_eq_of_le
  · norm_num
  · norm_num
    omega

theorem intOfSize_lt (size : Nat) : intOfSize size < 2 ^ 31 :=
  Int.bmod_lt (by norm_num)

theorem take_intOfSize (args : List String) :
    args.take (intOfSize args.length).toNat = args ↔ args.length < 2 ^ 31 := by
  rw [List.take_eq_self_iff]
  constructor
  · intro h
    have := intOfSize_lt args.length
    omega
  · intro h
    rw [intOfSize_of_lt h, Int.toNat_natCast]

/-- The arguments of the compile commands and of the command line reach libclang exactly if there
are no extra ones or some argument of a compile command is kept, and the count fits an int. -/
theorem arguments_passed_iff (input : ParseInput) (fileName : String) :
    passedArgs input fileName = keptArgs input fileName ++ input.extraArgs ↔
      (input.extraArgs = [] ∨ keptArgs input fileName ≠ []) ∧
        (keptArgs input fileName ++ input.extraArgs).length < 2 ^ 31 := by
  rw [passedArgs]
  simp only [clangArgs_eq]
  by_cases hkept : keptArgs input fileName = []
  · rw [if_pos hkept, hkept, List.take_nil, List.nil_append]
    constructor
    · intro h
      rw [← h]
      exact ⟨.inl rfl, Nat.two_pow_pos 31⟩
    · rintro ⟨h | h, _⟩
      · exact h.symm
      · exact absurd rfl h
  · rw [if_neg hkept, take_intOfSize]
    exact ⟨fun h => ⟨.inr hkept, h⟩, fun h => h.2⟩

def includeInput : ParseInput where
  fileNames := ["a.c"]
  db := none
  extraArgs := ["-Iinclude"]
  clangParseTranslationUnit2 := fun _ _ => 0
  storesOnError := fun _ => true
  fits := by decide

theorem includeInput_dropped :
    passedArgs includeInput "a.c" ≠ keptArgs includeInput "a.c" ++ includeInput.extraArgs := by
  decide

end Prongc.ParseFile
