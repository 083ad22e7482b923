import Mathlib.Data.List.DropRight

namespace Prongc.ParseCall

inductive ProngError
  | ok | notFound | tu | syntaxError | invalidArg | outOfMemory | aosEmpty | io
  deriving DecidableEq, Repr

def isspace (c : Char) : Bool := c == ' ' || (decide ('\t' ≤ c) && decide (c ≤ '\r'))

def trimTrailing (text : List Char) : List Char := text.rdropWhile isspace

/-- An argument up to the first comma outside parentheses, and what follows it. The depth may
become negative. -/
def scanArgument : Int → List Char → List Char × List Char
  | _, [] => ([], [])
  | depth, c :: text =>
      if c = ',' ∧ depth = 0 then ([], c :: text)
      else
        let depth := if c = '(' then depth + 1 else if c = ')' then depth - 1 else depth
        let (arg, rest) := scanArgument depth text
        (c :: arg, rest)

def parseArguments : Nat → List Char → List String
  | 0, _ => []
  | rounds + 1, text =>
      match text.dropWhile isspace with
      | [] => []
      | c :: cs =>
          let (arg, rest) := scanArgument 0 (c :: cs)
          let arg := trimTrailing arg
          (if arg = [] then [] else [String.ofList arg]) ++ parseArguments rounds (rest.drop 1)

/-- The result and the strings pushed onto the array, the function name first. -/
def parseFuncCall (input : String) : ProngError × List String :=
  let text := input.toList
  match text.dropWhile (· ≠ '(') with
  | [] => (.syntaxError, [])
  | _ :: fromParen =>
      let name := trimTrailing (text.takeWhile (· ≠ '('))
      if name = [] then (.syntaxError, [])
      else if ')' ∈ fromParen then
        let arguments := (fromParen.rdropWhile (· ≠ ')')).dropLast
        (.ok, String.ofList name :: parseArguments arguments.length arguments)
      else (.syntaxError, [String.ofList name])

example : (parseFuncCall "run (a, f(x, y) ,)").2 = ["run", "a", "f(x, y)"] := by decide +kernel

end Prongc.ParseCall
