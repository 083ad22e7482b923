import Prongc.SplitLists

namespace Prongc.GlobPatterns

open ParseCall Library.CStrings DynAos SplitLists Library.Separator

inductive GlobFlag
  | nosort
  | period
  | brace
  | tildeCheck
  deriving DecidableEq

inductive GlobResult
  | found (paths : List CString)
  | nospace
  | aborted
  | nomatch

structure GlobCall where
  pattern : List UInt8
  flags : List GlobFlag
  deriving DecidableEq

structure GlobState where
  dynAos : DynamicAOS
  calls : List GlobCall
  errors : List String

def flags : List GlobFlag := [.nosort, .period, .brace, .tildeCheck]

section Splitting

variable (glob : GlobCall → GlobResult)

def globPattern (pattern : CString) (st : GlobState) : GlobState :=
  let call : GlobCall := ⟨pattern.bytes, flags⟩
  let st := { st with calls := st.calls ++ [call] }
  match glob call with
  | .found paths => { st with dynAos := paths.foldl (fun array str => (aosPushString array str).2) st.dynAos }
  | .nospace => { st with errors := st.errors ++ ["pattern match error: glob: out of memory\n"] }
  | .aborted => { st with errors := st.errors ++ ["pattern match error: glob: aborted\n"] }
  | .nomatch => st

def splitCommaList (strIn : CString) (dynAos : DynamicAOS) : Option GlobState :=
  splitList (globPattern glob) comma strIn ⟨dynAos, [], []⟩

/-- The calls of glob that a file list leads to; `none` when the walk leaves its copy. -/
def globCalls (strIn : CString) (dynAos : DynamicAOS) : Option (List GlobCall) :=
  (splitCommaList glob strIn dynAos).map GlobState.calls

/-- Glob gets exactly these patterns, behind their blanks, with brace expansion. -/
def PatternsSurvive (strIn : CString) (dynAos : DynamicAOS) (patterns : List (List UInt8)) : Prop :=
  globCalls glob strIn dynAos = some (patterns.map fun pattern => ⟨dropBlanks pattern, flags⟩) ∧ .brace ∈ flags

theorem calls_globPattern (pattern : CString) (st : GlobState) :
    (globPattern glob pattern st).calls = st.calls ++ [⟨pattern.bytes, flags⟩] := by
  rw [globPattern]
  split <;> rfl

theorem calls_foldl (strs : List CString) (st : GlobState) :
    (strs.foldl (fun st str => globPattern glob str st) st).calls =
      st.calls ++ (strs.map CString.bytes).map (⟨·, flags⟩) := by
  induction strs generalizing st with
  | nil => rw [List.foldl_nil, List.map_nil, List.map_nil, List.append_nil]
  | cons str strs ih =>
      rw [List.foldl_cons, ih, calls_globPattern, List.append_assoc, List.map_cons, List.map_cons,
        List.singleton_append]

/-- Glob gets the segments between the commas, inside braces or not. -/
theorem globCalls_segments (strIn : CString) (dynAos : DynamicAOS) :
    globCalls glob strIn dynAos = some ((segmentsOf comma strIn).map (⟨·, flags⟩)) := by
  obtain ⟨strs, hstrs, hsplit⟩ := @splitList_segments comma _ (globPattern glob) (by decide) strIn
  rw [globCalls, splitCommaList, hsplit, Option.map_some, calls_foldl, hstrs, List.nil_append]

end Splitting

/-- Every brace is matched, and every comma stands inside braces. -/
def commasInBraces : Nat → List UInt8 → Bool
  | depth, [] => depth == 0
  | depth, b :: pattern =>
      if b = Char.toUInt8 '\x7b' then commasInBraces (depth + 1) pattern
      else if b = Char.toUInt8 '\x7d' then depth != 0 && commasInBraces (depth - 1) pattern
      else (b != comma || depth != 0) && commasInBraces depth pattern

theorem comma_mem_dropBlanks {pattern : List UInt8} (h : comma ∈ pattern) : comma ∈ dropBlanks pattern := by
  rw [← List.takeWhile_append_dropWhile (p := isBlank) (l := pattern), List.mem_append] at h
  rcases h with hblank | hkept
  · exact absurd (List.mem_takeWhile_imp hblank) (by decide)
  · exact hkept

/-- The patterns of a list survive exactly when none of them has a comma, for glob never gets one. -/
theorem patternsSurvive_iff (glob : GlobCall → GlobResult) {strIn : CString} {patterns : List (List UInt8)}
    (hpatterns : ∀ pattern ∈ patterns, dropBlanks pattern ≠ [])
    (hstrIn : strIn.bytes = [comma].intercalate patterns) (dynAos : DynamicAOS) :
    PatternsSurvive glob strIn dynAos patterns ↔ ∀ pattern ∈ patterns, comma ∉ pattern := by
  rw [PatternsSurvive, globCalls_segments, Option.some_inj]
  constructor
  · rintro ⟨hcalls, -⟩ pattern hpattern hcomma
    have hsegment : dropBlanks pattern ∈ segmentsOf comma strIn := by
      have hcall := List.mem_map_of_mem (f := fun pattern => GlobCall.mk (dropBlanks pattern) flags) hpattern
      rw [← hcalls] at hcall
      obtain ⟨segment, hsegment, heq⟩ := List.mem_map.mp hcall
      rwa [← (GlobCall.mk.inj heq).1]
    have hkept := comma_mem_dropBlanks hcomma
    obtain ⟨piece, hpiece, heq⟩ := List.mem_map.mp (List.mem_of_mem_filter hsegment)
    rw [← heq] at hkept
    exact (splitOn_pieces strIn.bytes piece hpiece).1 ((List.dropWhile_suffix isBlank).subset hkept)
  · intro hcommas
    refine ⟨?_, by decide⟩
    rw [segmentsOf_intercalate (fun pattern h => ⟨hpatterns pattern h, hcommas pattern h⟩) hstrIn, List.map_map]
    rfl

def twoFiles : CString := ⟨ascii "a.c, b.c", by decide, by decide⟩

theorem patternsSurvive_twoFiles :
    PatternsSurvive (fun _ => .nomatch) twoFiles initAos [ascii "a.c", ascii " b.c"] :=
  (patternsSurvive_iff _ (by decide) (by decide) _).mpr (by decide)

def braceList : CString := ⟨ascii "\x7ba,b\x7d.c", by decide, by decide⟩

/-- A list of the one pattern for a.c and b.c makes glob look for the halves on both sides of the comma. -/
theorem braceList_split : commasInBraces 0 braceList.bytes = true ∧ dropBlanks braceList.bytes ≠ [] ∧
    braceList.bytes = [comma].intercalate [braceList.bytes] ∧
      ∀ glob, globCalls glob braceList initAos = some [⟨ascii "\x7ba", flags⟩, ⟨ascii "b\x7d.c", flags⟩] ∧
        ¬ PatternsSurvive glob braceList initAos [braceList.bytes] := by
  refine ⟨by decide, by decide, rfl, ?_⟩
  intro glob
  have hcalls : globCalls glob braceList initAos = some [⟨ascii "\x7ba", flags⟩, ⟨ascii "b\x7d.c", flags⟩] := by
    rw [globCalls_segments]
    decide
  refine ⟨hcalls, ?_⟩
  rw [PatternsSurvive, hcalls]
  decide

end Prongc.GlobPatterns
