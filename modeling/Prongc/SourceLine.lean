import Prongc.Library.CStrings
import Prongc.Library.LineReader

namespace Prongc.SourceLine

open Library.CStrings Library.Separator Library.LineReader

def newline : UInt8 := Char.toUInt8 '\n'

def carriageReturn : UInt8 := Char.toUInt8 '\r'

def tab : UInt8 := Char.toUInt8 '\t'

def blank : UInt8 := Char.toUInt8 ' '

def clrVar : List UInt8 := 0x1b :: ascii "[1;37m"

def clrArrow : List UInt8 := 0x1b :: ascii "[1;33m"

def clrReset : List UInt8 := 0x1b :: ascii "[0m"

/-- The conversion with a width: blanks before the text, or behind it when the width is negative. -/
def padded (width : Int) (text : List UInt8) : List UInt8 :=
  let padding := List.replicate (width.natAbs - text.length) blank
  if width < 0 then text ++ padding else padding ++ text

/-- Two lines of output: the indentation and the text, and the indentation, the padding and the caret. The text
was read from the given place of the file on. -/
structure Quote where
  start : Nat
  indentation : List UInt8
  text : List UInt8
  padding : List UInt8

def Quote.output (quote : Quote) : List UInt8 :=
  quote.indentation ++ clrVar ++ quote.text ++ clrReset ++ [newline] ++
    (quote.indentation ++ quote.padding ++ clrArrow ++ ascii "^" ++ clrReset ++ [newline])

def isLineEnd (b : UInt8) : Bool := b == 0 || b == newline || b == carriageReturn

/-- A buffer of 1024 bytes has room for 1023 and the terminator. -/
def bufferRoom : Nat := 1023

/-- `none` stands for a buffer that was never filled. -/
def readLine (content : List UInt8) (line : Nat) : Option (Nat × List UInt8) :=
  readRounds newline bufferRoom content line 0 none

def numTabs (buf : List UInt8) : Nat := buf.count tab

/-- The unsigned difference as the int that the conversion takes. -/
def caretWidth (column numTabs : Nat) : Int := ((column : Int) - numTabs - 1).bmod (2 ^ 32)

def quoteOf (start : Nat) (buf : List UInt8) (column : Nat) : Quote where
  start := start
  indentation := padded (numTabs buf) [tab]
  text := buf.drop (numTabs buf)
  padding := padded (caretWidth column (numTabs buf)) []

/-- `none` when there is nothing to print: the file does not open, or the buffer starts with a zero. -/
def sourceQuote (file : Option (List UInt8)) (line column : Nat) : Option Quote := do
  let content ← file
  let (start, stored) ← readLine content line
  if stored.head? = some 0 then none
  else some (quoteOf start (stored.takeWhile (!isLineEnd ·)) column)

def printSourceLine (file : Option (List UInt8)) (line column : Nat) : Option (List UInt8) :=
  (sourceQuote file line column).map Quote.output

section Property

def rawLines (content : List UInt8) : List (List UInt8) := content.splitOn newline

def stripReturn (raw : List UInt8) : List UInt8 := if raw.getLast? = some carriageReturn then raw.dropLast else raw

def lineText (content : List UInt8) : Nat → Option (List UInt8)
  | 0 => none
  | n + 1 => (rawLines content)[n]?.map stripReturn

def lineStart (content : List UInt8) (line : Nat) : Nat :=
  (withNewlines newline ((rawLines content).take (line - 1))).length

def leadingTabs (text : List UInt8) : Nat := (text.takeWhile (· == tab)).length

/-- The cells of a terminal that a text takes: each byte one, and a tab up to the next multiple of eight. -/
def cells (text : List UInt8) : Nat := text.foldl (fun cell b => if b = tab then (cell / 8 + 1) * 8 else cell + 1) 0

/-- The caret stands under the byte at a column of the line, or within the indentation for a leading tab. -/
def CaretUnder (quote : Quote) (text : List UInt8) (column : Nat) : Prop :=
  if leadingTabs text < column then
    cells (quote.indentation ++ quote.padding) =
      cells (quote.indentation ++ quote.text.take (column - 1 - leadingTabs text))
  else cells (quote.indentation ++ quote.padding) < cells quote.indentation

/-- What is printed quotes exactly this line, with only the leading tabs replaced, and marks the column. -/
def QuotesLine (content : List UInt8) (line column : Nat) (text : List UInt8) : Prop :=
  ∃ quote, sourceQuote (some content) line column = some quote ∧
    printSourceLine (some content) line column = some quote.output ∧ quote.start = lineStart content line ∧
      quote.text = text.drop (leadingTabs text) ∧ CaretUnder quote text column

/-- The line and those before it fit the buffer, the line ends nowhere within, and its only tabs stand before the
column, at its front. -/
structure Quotable (content : List UInt8) (line column : Nat) (text : List UInt8) : Prop where
  short_before : ∀ raw ∈ (rawLines content).take (line - 1), raw.length < bufferRoom
  short : text.length ≤ bufferRoom
  whole : ∀ b ∈ text, isLineEnd b = false
  tabs_leading : tab ∉ text.drop (leadingTabs text)
  column_behind : leadingTabs text < column

end Property

section Cells

variable {text text' : List UInt8}

theorem cells_le_foldl (text : List UInt8) (cell : Nat) :
    cell ≤ text.foldl (fun cell b => if b = tab then (cell / 8 + 1) * 8 else cell + 1) cell := by
  induction text generalizing cell with
  | nil => exact Nat.le_refl _
  | cons b text ih =>
      rw [List.foldl_cons]
      refine Nat.le_trans ?_ (ih _)
      split <;> omega

theorem cells_le_append (text text' : List UInt8) : cells text ≤ cells (text ++ text') := by
  rw [cells, cells, List.foldl_append]
  exact cells_le_foldl text' _

theorem cells_append (h : tab ∉ text') : cells (text ++ text') = cells text + text'.length := by
  rw [cells, cells, List.foldl_append]
  generalize text.foldl _ 0 = cell
  induction text' generalizing cell with
  | nil => rfl
  | cons b text' ih =>
      rw [List.mem_cons, not_or] at h
      rw [List.foldl_cons, if_neg (Ne.symm h.1), ih h.2, List.length_cons]
      omega

theorem tab_not_mem_padding (n : Nat) : tab ∉ List.replicate n blank := by
  intro h
  exact absurd (List.eq_of_mem_replicate h) (by decide)

end Cells

section Buffer

variable {text buf : List UInt8}

def keptText (text : List UInt8) : List UInt8 := (text.take bufferRoom).takeWhile (!isLineEnd ·)

theorem keptText_front (text : List UInt8) : keptText text <+: text :=
  (List.takeWhile_prefix _).trans (List.take_prefix _ _)

theorem keptText_eq_self :
    keptText text = text ↔ text.length ≤ bufferRoom ∧ ∀ b ∈ text, isLineEnd b = false := by
  constructor
  · intro h
    have hlength : text.length ≤ bufferRoom := by
      have hle := (List.takeWhile_prefix (!isLineEnd ·) (l := text.take bufferRoom)).length_le
      rw [← keptText, h, List.length_take] at hle
      omega
    refine ⟨hlength, ?_⟩
    rw [keptText, List.take_of_length_le hlength, List.takeWhile_eq_self_iff] at h
    intro b hb
    simpa using h b hb
  · rintro ⟨hlength, hwhole⟩
    rw [keptText, List.take_of_length_le hlength, List.takeWhile_eq_self_iff]
    intro b hb
    rw [hwhole b hb]
    rfl

theorem keptText_append {rest : List UInt8} (hrest : ∀ b ∈ rest.head?, isLineEnd b = true) :
    ((text ++ rest).take bufferRoom).takeWhile (!isLineEnd ·) = keptText text := by
  rw [keptText]
  generalize bufferRoom = n
  induction text generalizing n with
  | nil =>
      cases rest with
      | nil => rfl
      | cons b rest =>
          cases n with
          | zero => rfl
          | succ n => simp [hrest b rfl]
  | cons b text ih =>
      cases n with
      | zero => rfl
      | succ n =>
          rw [List.cons_append, List.take_succ_cons, List.take_succ_cons, List.takeWhile_cons, List.takeWhile_cons, ih]

theorem numTabs_le (buf : List UInt8) : numTabs buf ≤ buf.length := List.count_le_length

theorem leadingTabs_le (text : List UInt8) (n : Nat) : min (leadingTabs text) n ≤ numTabs (text.take n) := by
  induction text generalizing n with
  | nil => simp [leadingTabs]
  | cons b text ih =>
      cases n with
      | zero => simp
      | succ n =>
          by_cases hb : b = tab
          · have hrest := ih n
            rw [leadingTabs, List.takeWhile_cons, if_pos (beq_iff_eq.mpr hb), List.length_cons, ← leadingTabs,
              List.take_succ_cons, numTabs, hb, List.count_cons_self, ← numTabs]
            omega
          · rw [leadingTabs, List.takeWhile_cons, if_neg (mt beq_iff_eq.mp hb)]
            exact Nat.le_trans (Nat.min_le_left _ _) (Nat.zero_le _)

theorem numTabs_eq_leadingTabs : numTabs text = leadingTabs text ↔ tab ∉ text.drop (leadingTabs text) := by
  have hsplit := List.takeWhile_append_dropWhile (p := (· == tab)) (l := text)
  have htabs : numTabs (text.takeWhile (· == tab)) = leadingTabs text :=
    List.count_eq_length.mpr fun b hb => (beq_iff_eq.mp (List.mem_takeWhile_imp (p := (· == tab)) hb)).symm
  have hdrop := @List.drop_left _ (text.takeWhile (· == tab)) (text.dropWhile (· == tab))
  rw [hsplit, ← leadingTabs] at hdrop
  have hcount : numTabs text = leadingTabs text + numTabs (text.dropWhile (· == tab)) := by
    rw [← htabs, numTabs, numTabs, numTabs, ← List.count_append, hsplit]
  rw [hcount, hdrop, ← List.count_eq_zero, numTabs]
  omega

/-- Dropping the tabs of the buffer leaves the line behind its leading tabs only if the buffer holds the line and
there are no other tabs. -/
theorem drop_numTabs (hbuf : buf <+: text) (htext : leadingTabs text < text.length)
    (h : buf.drop (numTabs buf) = text.drop (leadingTabs text)) : buf = text ∧ numTabs text = leadingTabs text := by
  have hlength := congrArg List.length h
  rw [List.length_drop, List.length_drop] at hlength
  have htabs := leadingTabs_le text buf.length
  rw [← List.prefix_iff_eq_take.mp hbuf] at htabs
  have hle := hbuf.length_le
  have hcount := numTabs_le buf
  have heq : buf = text := hbuf.eq_of_length (by omega)
  rw [heq] at hlength hcount
  exact ⟨heq, by omega⟩

end Buffer

section Lines

variable {content text : List UInt8} {line column : Nat}

theorem intercalate_lines (front : List (List UInt8)) (raw : List UInt8) (back : List (List UInt8)) :
    [newline].intercalate (front ++ raw :: back) =
      withNewlines newline front ++ [newline].intercalate (raw :: back) := by
  induction front with
  | nil => rfl
  | cons l front ih =>
      rw [List.cons_append, List.intercalate_cons_of_ne_nil (by simp), ih, withNewlines_cons, List.append_assoc,
        List.append_assoc]
      rfl

theorem stripReturn_append (raw : List UInt8) :
    ∃ ending, raw = stripReturn raw ++ ending ∧ ∀ b ∈ ending.head?, isLineEnd b = true := by
  rw [stripReturn]
  split
  next hlast =>
    refine ⟨[carriageReturn], ?_, ?_⟩
    · rw [List.dropLast_append_getLast? carriageReturn hlast]
    · intro b hb
      rw [← Option.some.inj hb]
      decide
  next => exact ⟨[], (List.append_nil raw).symm, by simp⟩

/-- The file around a line: the lines before it, and its text before an end of line or of the file. -/
theorem lineText_split (h : lineText content line = some text) : ∃ rest,
    content = withNewlines newline ((rawLines content).take (line - 1)) ++ (text ++ rest) ∧
      (∀ b ∈ rest.head?, isLineEnd b = true) ∧ ((rawLines content).take (line - 1)).length + 1 = line := by
  cases line with
  | zero => cases h
  | succ n =>
      obtain ⟨raw, hraw, rfl⟩ := Option.map_eq_some_iff.mp h
      obtain ⟨hlt, hget⟩ := List.getElem?_eq_some_iff.mp hraw
      obtain ⟨ending, hending, hends⟩ := stripReturn_append raw
      have hlines : rawLines content = (rawLines content).take n ++ raw :: (rawLines content).drop (n + 1) := by
        rw [← hget, ← List.drop_eq_getElem_cons hlt, List.take_append_drop]
      have hcontent : content = withNewlines newline ((rawLines content).take n) ++
          [newline].intercalate (raw :: (rawLines content).drop (n + 1)) := by
        rw [← intercalate_lines, ← hlines, rawLines, List.intercalate_splitOn]
      have htaken : ((rawLines content).take n).length = n := by
        rw [List.length_take, Nat.min_eq_left (Nat.le_of_lt hlt)]
      rw [Nat.add_sub_cancel, htaken]
      cases hback : (rawLines content).drop (n + 1) with
      | nil =>
          rw [hback, List.intercalate_singleton] at hcontent
          exact ⟨ending, by rw [← hending]; exact hcontent, hends, rfl⟩
      | cons l back =>
          rw [hback, List.intercalate_cons_cons, List.append_assoc] at hcontent
          refine ⟨ending ++ ([newline] ++ [newline].intercalate (l :: back)), ?_, ?_, rfl⟩
          · rw [← List.append_assoc (stripReturn raw), ← hending]
            exact hcontent
          · cases ending with
            | nil =>
                intro b hb
                rw [← Option.some.inj hb]
                decide
            | cons b ending => exact hends

theorem newline_not_mem_lines (content : List UInt8) (n : Nat) :
    ∀ raw ∈ (rawLines content).take n, newline ∉ raw := by
  intro raw hraw
  exact (splitOn_pieces content raw (List.mem_of_mem_take hraw)).1

/-- Behind lines that fit the buffer the reading stops in the line asked for. -/
theorem readLine_short (h : lineText content line = some text) (htext : text ≠ [])
    (hshort : ∀ raw ∈ (rawLines content).take (line - 1), raw.length < bufferRoom) :
    ∃ stored, readLine content line = some (lineStart content line, stored) ∧
      stored.takeWhile (!isLineEnd ·) = keptText text := by
  obtain ⟨rest, hcontent, hrest, hline⟩ := lineText_split h
  have hread := @readRounds_short _ _ newline bufferRoom content (text ++ rest) _ 0 none (by decide)
    (List.append_ne_nil_of_left_ne_nil htext rest)
    (fun raw hraw => ⟨newline_not_mem_lines content _ raw hraw, hshort raw hraw⟩) hcontent
  rw [hline, Nat.zero_add, ← lineStart] at hread
  refine ⟨_, hread, ?_⟩
  rw [takeWhile_chunk (by decide), keptText_append hrest]

/-- A line before that needs more than one read makes it stop earlier. -/
theorem readLine_long (h : lineText content line = some text)
    (hlong : ¬ ∀ raw ∈ (rawLines content).take (line - 1), raw.length < bufferRoom) :
    ∃ start stored, readLine content line = some (start, stored) ∧ start < lineStart content line := by
  obtain ⟨rest, hcontent, -, hline⟩ := lineText_split h
  obtain ⟨raw, hlong⟩ := not_forall.mp hlong
  obtain ⟨hraw, hroom⟩ := Classical.not_imp.mp hlong
  obtain ⟨start, stored, hread, hlt⟩ := @readRounds_long _ _ newline bufferRoom content (text ++ rest) _ 0
    ((rawLines content).take (line - 1)).length none (by decide) (newline_not_mem_lines content _) hcontent
    (Nat.le_refl _) (.inr ⟨raw, hraw, Nat.le_of_not_lt hroom⟩)
  rw [hline] at hread
  rw [Nat.zero_add] at hlt
  exact ⟨start, stored, hread, hlt⟩

end Lines

section Quotes

variable {content text : List UInt8} {line column : Nat}

theorem caretUnder_behind {quote : Quote} (h : CaretUnder quote text column) : leadingTabs text < column := by
  rw [CaretUnder] at h
  split at h
  next hlt => exact hlt
  next => exact absurd (cells_le_append quote.indentation quote.padding) (Nat.not_le_of_gt h)

theorem caretWidth_eq {tabs : Nat} (htabs : tabs < column) (hcolumn : column ≤ bufferRoom) :
    caretWidth column tabs = ((column - 1 - tabs : Nat) : Int) := by
  rw [caretWidth, Int.bmod_eq_of_le] <;> rw [bufferRoom] at hcolumn <;> omega

theorem caretUnder_quoteOf (start : Nat) (hcolumn : column ≤ text.length) (hshort : text.length ≤ bufferRoom)
    (htabs : tab ∉ text.drop (leadingTabs text)) (hbehind : leadingTabs text < column) :
    CaretUnder (quoteOf start text column) text column := by
  have hcount := numTabs_eq_leadingTabs.mpr htabs
  have hpadding : (quoteOf start text column).padding = List.replicate (column - 1 - leadingTabs text) blank := by
    rw [quoteOf]
    dsimp only
    rw [hcount, caretWidth_eq hbehind (Nat.le_trans hcolumn hshort), padded, if_neg (by omega)]
    simp
  have htext : (quoteOf start text column).text = text.drop (leadingTabs text) := by
    rw [quoteOf, hcount]
  have hfront : tab ∉ (text.drop (leadingTabs text)).take (column - 1 - leadingTabs text) :=
    fun h => htabs (List.mem_of_mem_take h)
  rw [CaretUnder, if_pos hbehind, hpadding, htext, cells_append (tab_not_mem_padding _), cells_append hfront,
    List.length_replicate, List.length_take, List.length_drop]
  omega

theorem sourceQuote_of_read {start : Nat} {stored : List UInt8} (hread : readLine content line = some (start, stored)) :
    sourceQuote (some content) line column =
      if stored.head? = some 0 then none else some (quoteOf start (stored.takeWhile (!isLineEnd ·)) column) := by
  rw [sourceQuote, Option.bind_eq_bind, Option.bind_some, hread]
  rfl

/-- The quote is right exactly for lines that fit the buffer like all before them and have no tabs but leading
ones, and for columns behind these. -/
theorem quotesLine_iff (hline : lineText content line = some text) (hcolumn : 0 < column ∧ column ≤ text.length) :
    QuotesLine content line column text ↔ Quotable content line column text := by
  have htext : text ≠ [] := List.length_pos_iff.mp (by omega)
  constructor
  · rintro ⟨quote, hprint, -, hstart, hquote, hcaret⟩
    have hbehind := caretUnder_behind hcaret
    have hshort : ∀ raw ∈ (rawLines content).take (line - 1), raw.length < bufferRoom := by
      apply Classical.byContradiction
      intro hlong
      obtain ⟨start, stored, hread, hlt⟩ := readLine_long hline hlong
      rw [sourceQuote_of_read hread] at hprint
      split at hprint
      · cases hprint
      · rw [← Option.some.inj hprint, quoteOf] at hstart
        dsimp only at hstart
        omega
    obtain ⟨stored, hread, hkept⟩ := readLine_short hline htext hshort
    rw [sourceQuote_of_read hread, hkept] at hprint
    split at hprint
    · cases hprint
    · rw [← Option.some.inj hprint, quoteOf] at hquote
      obtain ⟨hwhole, htabs⟩ := drop_numTabs (keptText_front text) (by omega) hquote
      obtain ⟨hlength, hends⟩ := keptText_eq_self.mp hwhole
      exact ⟨hshort, hlength, hends, numTabs_eq_leadingTabs.mp htabs, hbehind⟩
  · intro h
    obtain ⟨stored, hread, hkept⟩ := readLine_short hline htext h.short_before
    rw [keptText_eq_self.mpr ⟨h.short, h.whole⟩] at hkept
    have hfirst : stored.head? ≠ some 0 := by
      intro hzero
      cases stored with
      | nil => cases hzero
      | cons b stored =>
          rw [Option.some.inj hzero] at hkept
          exact htext hkept.symm
    have hquote : sourceQuote (some content) line column = some (quoteOf (lineStart content line) text column) := by
      rw [sourceQuote_of_read hread, if_neg hfirst, hkept]
    refine ⟨_, hquote, congrArg (Option.map Quote.output) hquote, rfl, ?_, ?_⟩
    · rw [quoteOf, numTabs_eq_leadingTabs.mpr h.tabs_leading]
    · exact caretUnder_quoteOf _ hcolumn.2 h.short h.tabs_leading h.column_behind

def tabbedFile : List UInt8 := ascii "\tx = 1;\nint a;\tb = 1;\n"

theorem quotesLine_leading : QuotesLine tabbedFile 1 2 (ascii "\tx = 1;") :=
  (quotesLine_iff (by decide) (by decide)).mpr
    ⟨by decide, by decide, (keptText_eq_self.mp (by decide)).2, by decide, by decide⟩

/-- Of the line with the other tab the first letter is missing. -/
theorem quotesLine_inner : lineText tabbedFile 2 = some (ascii "int a;\tb = 1;") ∧
    (∃ quote, sourceQuote (some tabbedFile) 2 8 = some quote ∧ quote.text = ascii "nt a;\tb = 1;") ∧
      ¬ QuotesLine tabbedFile 2 8 (ascii "int a;\tb = 1;") := by
  refine ⟨by decide, ⟨_, rfl, by decide⟩, ?_⟩
  rintro ⟨quote, hprint, -, -, htext, -⟩
  rw [← Option.some.inj hprint] at htext
  exact absurd htext (by decide)

end Quotes

end Prongc.SourceLine
