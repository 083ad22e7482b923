import Prongc.DynAos

namespace Prongc.SplitLists

open ParseCall Library.CStrings DynAos Library.Separator

/-- A pointer into a block is the bytes from it to the end of the block, and reading at the end is
`none`. The string there ends at its terminator. -/
def readCString (temp : List UInt8) : Option CString :=
  if h : 0 ∈ temp ∧ (temp.takeWhile (· ≠ 0)).length < 2 ^ 64 then
    some ⟨temp.takeWhile (· ≠ 0), fun hzero => by simpa using List.mem_takeWhile_imp hzero, h.2⟩
  else none

/-- The first loop: each separator becomes a terminator and counts one more file. -/
def terminateSeparators (separator : UInt8) : List UInt8 → Option (List UInt8 × Nat)
  | [] => none
  | b :: temp =>
      if b = 0 then some (b :: temp, 1)
      else (terminateSeparators separator temp).map fun (rest, numFiles) =>
        if b = separator then (0 :: rest, numFiles + 1) else (b :: rest, numFiles)

def isBlank (b : UInt8) : Bool := b == Char.toUInt8 ' ' || b == Char.toUInt8 '\t'

def skipBlanks : List UInt8 → Option (List UInt8)
  | [] => none
  | b :: temp => if isBlank b then skipBlanks temp else some (b :: temp)

section Walk

variable {σ : Type} (visit : CString → σ → σ)

/-- The second loop: one segment a round, visited unless it is empty behind its blanks. -/
def walkSegments : Nat → List UInt8 → σ → Option σ
  | 0, _, st => some st
  | rounds + 1, temp, st => do
      let temp ← skipBlanks temp
      let str ← readCString temp
      walkSegments rounds (temp.drop (str.bytes.length + 1)) (if temp.head? ≠ some 0 then visit str st else st)

def splitList (separator : UInt8) (strIn : CString) (st : σ) : Option σ := do
  let (temp, numFiles) ← terminateSeparators separator (strIn.bytes ++ [0])
  walkSegments visit numFiles temp st

end Walk

def semicolon : UInt8 := Char.toUInt8 ';'

def comma : UInt8 := Char.toUInt8 ','

def splitSemicolonList (strIn : CString) (dynAos : DynamicAOS) : Option DynamicAOS :=
  splitList (fun str array => (aosPushString array str).2) semicolon strIn dynAos

def dropBlanks (segment : List UInt8) : List UInt8 := segment.dropWhile isBlank

def segmentsOf (separator : UInt8) (strIn : CString) : List (List UInt8) :=
  ((strIn.bytes.splitOn separator).map dropBlanks).filter (· ≠ [])

section Segments

variable {separator : UInt8} {segment : List UInt8} {segments : List (List UInt8)}

def terminated (segments : List (List UInt8)) : List UInt8 := segments.flatMap (· ++ [0])

theorem terminateSeparators_append (hseparator : separator ∉ segment) (hzero : 0 ∉ segment) (rest : List UInt8) :
    terminateSeparators separator (segment ++ rest) =
      (terminateSeparators separator rest).map fun found => (segment ++ found.1, found.2) := by
  induction segment with
  | nil => simp
  | cons b segment ih =>
      rw [List.mem_cons, not_or] at hseparator hzero
      rw [List.cons_append, terminateSeparators, if_neg (Ne.symm hzero.1), ih hseparator.2 hzero.2, Option.map_map]
      simp only [Function.comp_def, if_neg (Ne.symm hseparator.1), List.cons_append]

/-- The first loop leaves the segments terminated and counts them. -/
theorem terminateSeparators_intercalate (hseparator : separator ≠ 0) (hne : segments ≠ [])
    (hsegments : ∀ segment ∈ segments, separator ∉ segment ∧ 0 ∉ segment) :
    terminateSeparators separator ([separator].intercalate segments ++ [0]) =
      some (terminated segments, segments.length) := by
  induction segments with
  | nil => exact absurd rfl hne
  | cons segment segments ih =>
      obtain ⟨⟨hnone, hzero⟩, hrest⟩ := List.forall_mem_cons.mp hsegments
      cases segments with
      | nil =>
          rw [List.intercalate_singleton, terminateSeparators_append hnone hzero]
          simp [terminateSeparators, terminated]
      | cons segment' segments =>
          rw [List.intercalate_cons_cons, List.append_assoc, List.append_assoc, terminateSeparators_append hnone hzero,
            List.singleton_append, terminateSeparators, if_neg hseparator, ih (List.cons_ne_nil _ _) hrest]
          simp [terminated]

theorem skipBlanks_append_zero (segment rest : List UInt8) :
    skipBlanks (segment ++ 0 :: rest) = some (dropBlanks segment ++ 0 :: rest) := by
  induction segment with
  | nil => rfl
  | cons b segment ih =>
      rw [List.cons_append, skipBlanks, dropBlanks]
      by_cases hb : isBlank b = true
      · rw [if_pos hb, ih, dropBlanks, List.dropWhile_cons_of_pos hb]
      · rw [if_neg hb, List.dropWhile_cons_of_neg hb, List.cons_append]

theorem readCString_append_zero (str : CString) (rest : List UInt8) :
    readCString (str.bytes ++ 0 :: rest) = some str := by
  have htake := (takeWhile_of_not_mem str.terminated rest).1
  have hread : 0 ∈ str.bytes ++ 0 :: rest ∧ ((str.bytes ++ 0 :: rest).takeWhile (· ≠ 0)).length < 2 ^ 64 := by
    rw [htake]
    exact ⟨by simp, str.addressable⟩
  rw [readCString, dif_pos hread]
  simp only [htake]

theorem head_dropBlanks (hzero : 0 ∉ segment) (rest : List UInt8) :
    (dropBlanks segment ++ 0 :: rest).head? = some 0 ↔ dropBlanks segment = [] := by
  cases hsegment : dropBlanks segment with
  | nil => simp
  | cons b kept =>
      have hb : b ∈ dropBlanks segment := by
        rw [hsegment]
        exact List.mem_cons_self
      have hne : b ≠ 0 := fun h => hzero (h ▸ (List.dropWhile_suffix isBlank).subset hb)
      simp [hne]

def segmentString (segment : List UInt8) (hzero : 0 ∉ segment) (hlength : segment.length < 2 ^ 64) : CString where
  bytes := dropBlanks segment
  terminated := fun h => hzero ((List.dropWhile_suffix isBlank).subset h)
  addressable := Nat.lt_of_le_of_lt (List.dropWhile_suffix isBlank).length_le hlength

theorem walkSegments_round {σ : Type} (visit : CString → σ → σ) (hzero : 0 ∉ segment)
    (hlength : segment.length < 2 ^ 64) (st : σ) :
    walkSegments visit (segment :: segments).length (terminated (segment :: segments)) st =
      walkSegments visit segments.length (terminated segments)
        (if dropBlanks segment ≠ [] then visit (segmentString segment hzero hlength) st else st) := by
  have hblock : terminated (segment :: segments) = segment ++ 0 :: terminated segments := by
    rw [terminated, List.flatMap_cons, ← terminated, List.append_assoc, List.singleton_append]
  have hread : readCString (dropBlanks segment ++ 0 :: terminated segments) =
      some (segmentString segment hzero hlength) :=
    readCString_append_zero (segmentString segment hzero hlength) (terminated segments)
  have hdrop : (dropBlanks segment ++ 0 :: terminated segments).drop ((dropBlanks segment).length + 1) =
      terminated segments := by
    rw [List.drop_append]
    simp
  rw [List.length_cons, hblock, walkSegments, skipBlanks_append_zero]
  simp only [Option.bind_eq_bind, Option.bind_some, hread, head_dropBlanks hzero, ne_eq]
  rw [segmentString, hdrop]

/-- The walk stays in the block and visits what is left of the segments, in order. -/
theorem walkSegments_terminated {σ : Type} (visit : CString → σ → σ)
    (hsegments : ∀ segment ∈ segments, 0 ∉ segment ∧ segment.length < 2 ^ 64) :
    ∃ strs : List CString, strs.map CString.bytes = (segments.map dropBlanks).filter (· ≠ []) ∧
      ∀ st, walkSegments visit segments.length (terminated segments) st =
        some (strs.foldl (fun st str => visit str st) st) := by
  induction segments with
  | nil => exact ⟨[], rfl, fun _ => rfl⟩
  | cons segment segments ih =>
      obtain ⟨⟨hzero, hlength⟩, hrest⟩ := List.forall_mem_cons.mp hsegments
      obtain ⟨strs, hstrs, hwalk⟩ := ih hrest
      by_cases hempty : dropBlanks segment = []
      · refine ⟨strs, ?_, ?_⟩
        · rw [hstrs, List.map_cons, List.filter_cons_of_neg (by simp [hempty])]
        · intro st
          rw [walkSegments_round visit hzero hlength, if_neg (not_not_intro hempty), hwalk]
      · refine ⟨segmentString segment hzero hlength :: strs, ?_, ?_⟩
        · rw [List.map_cons, hstrs, List.map_cons, List.filter_cons_of_pos (by simp [hempty])]
          rfl
        · intro st
          rw [walkSegments_round visit hzero hlength, if_pos hempty, hwalk, List.foldl_cons]

/-- The walk over a list visits its segments, in order, and nothing else. -/
theorem splitList_segments {σ : Type} (visit : CString → σ → σ) (hseparator : separator ≠ 0) (strIn : CString) :
    ∃ strs : List CString, strs.map CString.bytes = segmentsOf separator strIn ∧
      ∀ st, splitList visit separator strIn st = some (strs.foldl (fun st str => visit str st) st) := by
  have hpieces := @splitOn_pieces _ _ separator strIn.bytes
  have hzero : ∀ segment ∈ strIn.bytes.splitOn separator, 0 ∉ segment ∧ segment.length < 2 ^ 64 := by
    intro segment hsegment
    have hsub := (hpieces segment hsegment).2
    exact ⟨fun h => strIn.terminated (hsub.subset h), Nat.lt_of_le_of_lt hsub.length_le strIn.addressable⟩
  obtain ⟨strs, hstrs, hwalk⟩ := walkSegments_terminated visit hzero
  refine ⟨strs, hstrs, ?_⟩
  intro st
  have hblock := terminateSeparators_intercalate hseparator (List.splitOn_ne_nil separator strIn.bytes)
    (fun segment h => ⟨(hpieces segment h).1, (hzero segment h).1⟩)
  rw [List.intercalate_splitOn] at hblock
  rw [splitList, hblock]
  exact hwalk st

end Segments

theorem dropBlanks_of_head {item : List UInt8} (h : ∀ b ∈ item.head?, isBlank b = false) :
    dropBlanks item = item := by
  rw [dropBlanks, List.dropWhile_eq_self_iff]
  intro hlt
  have hhead := h item[0] (by rw [List.head?_eq_getElem?, List.getElem?_eq_getElem hlt]; exact rfl)
  rw [hhead]
  exact Bool.false_ne_true

theorem segmentsOf_intercalate {items : List (List UInt8)} {separator : UInt8} {strIn : CString}
    (hitems : ∀ item ∈ items, dropBlanks item ≠ [] ∧ separator ∉ item)
    (hstrIn : strIn.bytes = [separator].intercalate items) :
    segmentsOf separator strIn = items.map dropBlanks := by
  rw [segmentsOf, hstrIn]
  cases items with
  | nil =>
      rw [List.intercalate_nil, List.splitOn_nil]
      rfl
  | cons item items =>
      rw [List.splitOn_intercalate separator (fun item h => (hitems item h).2) (List.cons_ne_nil _ _),
        List.filter_eq_self]
      intro segment hsegment
      obtain ⟨item', hitem', rfl⟩ := List.mem_map.mp hsegment
      exact decide_eq_true (hitems item' hitem').1

theorem aosStrings_foldl (strs : List CString) (array : DynamicAOS) :
    aosStrings (strs.foldl (fun array str => (aosPushString array str).2) array) =
      aosStrings array ++ strs.map CString.bytes := by
  induction strs generalizing array with
  | nil => rw [List.foldl_nil, List.map_nil, List.append_nil]
  | cons str strs ih =>
      rw [List.foldl_cons, ih, aosStrings_push, List.map_cons, List.append_assoc, List.singleton_append]

/-- The walk over a semicolon list never leaves its copy and appends exactly the segments; a list of items
without semicolons and leading blanks comes back as it was. -/
theorem splitSemicolonList_spec (strIn : CString) (dynAos : DynamicAOS) :
    ∃ dynAos', splitSemicolonList strIn dynAos = some dynAos' ∧
      aosStrings dynAos' = aosStrings dynAos ++ segmentsOf semicolon strIn ∧
        ∀ items : List (List UInt8),
          (∀ item ∈ items, item ≠ [] ∧ semicolon ∉ item ∧ ∀ b ∈ item.head?, isBlank b = false) →
            strIn.bytes = [semicolon].intercalate items → aosStrings dynAos' = aosStrings dynAos ++ items := by
  obtain ⟨strs, hstrs, hsplit⟩ :=
    @splitList_segments semicolon _ (fun str array => (aosPushString array str).2) (by decide) strIn
  have happended := aosStrings_foldl strs dynAos
  rw [hstrs] at happended
  refine ⟨_, hsplit dynAos, happended, ?_⟩
  intro items hitems hstrIn
  have hkept : ∀ item ∈ items, dropBlanks item = item := fun item h => dropBlanks_of_head (hitems item h).2.2
  have hsegments : ∀ item ∈ items, dropBlanks item ≠ [] ∧ semicolon ∉ item := by
    intro item hitem
    rw [hkept item hitem]
    exact ⟨(hitems item hitem).1, (hitems item hitem).2.1⟩
  rw [happended, segmentsOf_intercalate hsegments hstrIn, List.map_congr_left hkept, List.map_id']

end Prongc.SplitLists
