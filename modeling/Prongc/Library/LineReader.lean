import Mathlib.Data.List.Basic

namespace Prongc.Library.LineReader

variable {α : Type}

def withNewlines (newline : α) (lines : List (List α)) : List α := lines.flatMap (· ++ [newline])

theorem withNewlines_cons (newline : α) (line : List α) (lines : List (List α)) :
    withNewlines newline (line :: lines) = line ++ newline :: withNewlines newline lines := by
  rw [withNewlines, List.flatMap_cons, List.append_assoc]
  rfl

theorem drop_cons {newline : α} {content line tail : List α} {lines : List (List α)} {pos : Nat}
    (hcontent : content.drop pos = withNewlines newline (line :: lines) ++ tail) :
    content.drop pos = line ++ newline :: (withNewlines newline lines ++ tail) ∧ content.drop pos ≠ [] ∧
      content.drop (pos + (line.length + 1)) = withNewlines newline lines ++ tail := by
  rw [withNewlines_cons, List.append_assoc, List.cons_append] at hcontent
  refine ⟨hcontent, by rw [hcontent]; simp, ?_⟩
  have hline : line.length + 1 = (line ++ [newline]).length := by rw [List.length_append, List.length_singleton]
  rw [hline, ← List.drop_drop, hcontent.trans (List.append_cons line newline _), List.drop_left]

variable [DecidableEq α] (newline : α) (room : Nat)

/-- What one read stores: elements up to and including a newline, at most so many. -/
def chunk : Nat → List α → List α
  | 0, _ => []
  | _ + 1, [] => []
  | n + 1, c :: rest => if c = newline then [c] else c :: chunk n rest

/-- A number of reads from a place on, that stop at the end: where the last one that stored anything started,
and what it stored. -/
def readRounds (content : List α) : Nat → Nat → Option (Nat × List α) → Option (Nat × List α)
  | 0, _, stored => stored
  | rounds + 1, pos, stored =>
      match chunk newline room (content.drop pos) with
      | [] => stored
      | c :: rest => readRounds content rounds (pos + (c :: rest).length) (some (pos, c :: rest))

variable {newline room} {content line tail : List α} {lines : List (List α)} {pos n rounds : Nat}
  {stored : Option (Nat × List α)}

theorem chunk_line (h : newline ∉ line) (rest : List α) :
    chunk newline n (line ++ newline :: rest) = (line ++ [newline]).take n := by
  induction line generalizing n with
  | nil => cases n <;> simp [chunk]
  | cons c line ih =>
      rw [List.mem_cons, not_or] at h
      cases n with
      | zero => rfl
      | succ n => rw [List.cons_append, chunk, if_neg (Ne.symm h.1), ih h.2, List.cons_append, List.take_succ_cons]

theorem takeWhile_chunk {test : α → Bool} (htest : test newline = false) (l : List α) :
    (chunk newline n l).takeWhile test = (l.take n).takeWhile test := by
  induction l generalizing n with
  | nil => cases n <;> rfl
  | cons c l ih =>
      cases n with
      | zero => rfl
      | succ n =>
          rw [chunk, List.take_succ_cons]
          split
          next hc => rw [hc, List.takeWhile_cons_of_neg (by simp [htest]), List.takeWhile_cons_of_neg (by simp [htest])]
          next => rw [List.takeWhile_cons, List.takeWhile_cons, ih]

theorem chunk_ne_nil (hn : 0 < n) {l : List α} (hl : l ≠ []) : chunk newline n l ≠ [] := by
  obtain ⟨n, rfl⟩ := Nat.exists_eq_succ_of_ne_zero (Nat.ne_of_gt hn)
  obtain ⟨c, l, rfl⟩ := List.exists_cons_of_ne_nil hl
  rw [chunk]
  split <;> exact List.cons_ne_nil _ _

theorem readRounds_step (hroom : 0 < room) (hmore : content.drop pos ≠ []) :
    readRounds newline room content (rounds + 1) pos stored =
      readRounds newline room content rounds (pos + (chunk newline room (content.drop pos)).length)
        (some (pos, chunk newline room (content.drop pos))) := by
  have hchunk := @chunk_ne_nil α _ newline room hroom _ hmore
  rw [readRounds]
  split
  next hnil => exact absurd hnil hchunk
  next c rest hcons => rw [hcons]

/-- When each line before fits one read, the read after them starts where they end. -/
theorem readRounds_short (hroom : 0 < room) (htail : tail ≠ [])
    (hlines : ∀ line ∈ lines, newline ∉ line ∧ line.length < room)
    (hcontent : content.drop pos = withNewlines newline lines ++ tail) :
    readRounds newline room content (lines.length + 1) pos stored =
      some (pos + (withNewlines newline lines).length, chunk newline room tail) := by
  induction lines generalizing pos stored with
  | nil =>
      rw [withNewlines, List.flatMap_nil, List.nil_append] at hcontent
      rw [List.length_nil, readRounds_step hroom (hcontent ▸ htail), hcontent, readRounds, withNewlines,
        List.flatMap_nil]
      rfl
  | cons line lines ih =>
      obtain ⟨⟨hnone, hshort⟩, hrest⟩ := List.forall_mem_cons.mp hlines
      obtain ⟨hline, hmore, hnext⟩ := drop_cons hcontent
      have hchunk : chunk newline room (content.drop pos) = line ++ [newline] := by
        rw [hline, chunk_line hnone, List.take_of_length_le]
        rw [List.length_append, List.length_singleton]
        exact hshort
      have hlength : (line ++ [newline]).length = line.length + 1 := List.length_append
      rw [List.length_cons, readRounds_step hroom hmore, hchunk, hlength, ih hrest hnext, withNewlines_cons,
        List.length_append, List.length_cons, Nat.add_assoc, Nat.add_assoc line.length, Nat.add_comm 1]

/-- When a line before needs more than one read, or there are fewer reads than lines, the last read starts inside
of these lines. -/
theorem readRounds_long (hroom : 0 < room) (hlines : ∀ line ∈ lines, newline ∉ line)
    (hcontent : content.drop pos = withNewlines newline lines ++ tail) (hrounds : rounds ≤ lines.length)
    (hlong : rounds < lines.length ∨ ∃ line ∈ lines, room ≤ line.length) :
    ∃ start text, readRounds newline room content (rounds + 1) pos stored = some (start, text) ∧
      start < pos + (withNewlines newline lines).length := by
  induction rounds generalizing pos lines stored with
  | zero =>
      cases lines with
      | nil => simp at hlong
      | cons line lines =>
          obtain ⟨-, hmore, -⟩ := drop_cons hcontent
          refine ⟨_, _, readRounds_step hroom hmore, ?_⟩
          rw [withNewlines_cons, List.length_append, List.length_cons]
          omega
  | succ rounds ih =>
      cases lines with
      | nil => simp at hlong
      | cons line lines =>
          obtain ⟨hnone, hrest⟩ := List.forall_mem_cons.mp hlines
          obtain ⟨hline, hmore, hnext⟩ := drop_cons hcontent
          have hall : (withNewlines newline (line :: lines)).length =
              line.length + 1 + (withNewlines newline lines).length := by
            rw [withNewlines_cons, List.length_append, List.length_cons]
            omega
          rw [List.length_cons] at hrounds hlong
          rw [readRounds_step hroom hmore, hline, chunk_line hnone]
          by_cases hfits : line.length < room
          · have hlength : ((line ++ [newline]).take room).length = line.length + 1 := by
              rw [List.length_take, List.length_append, List.length_singleton]
              omega
            have hlong' : rounds < lines.length ∨ ∃ line ∈ lines, room ≤ line.length := by
              rcases hlong with hfew | ⟨line', hline', hroom'⟩
              · exact .inl (by omega)
              · rcases List.mem_cons.mp hline' with rfl | hline'
                · omega
                · exact .inr ⟨line', hline', hroom'⟩
            obtain ⟨start, text, hread, hlt⟩ := ih hrest hnext (by omega) hlong'
            refine ⟨start, text, ?_, by omega⟩
            rw [hlength]
            exact hread
          · -- the read stops in the line, and the reads left are too few for the lines from there on
            have hle : room ≤ line.length := Nat.le_of_not_lt hfits
            have hlength : ((line ++ [newline]).take room).length = room := by
              rw [List.length_take, List.length_append, List.length_singleton]
              omega
            have hcut : content.drop (pos + room) = withNewlines newline (line.drop room :: lines) ++ tail := by
              rw [← List.drop_drop, hline, List.drop_append_of_le_length hle, withNewlines_cons, List.append_assoc,
                List.cons_append]
            have hlines' : ∀ line' ∈ line.drop room :: lines, newline ∉ line' :=
              List.forall_mem_cons.mpr ⟨fun h => hnone (List.mem_of_mem_drop h), hrest⟩
            obtain ⟨start, text, hread, hlt⟩ := ih hlines' hcut (by rw [List.length_cons]; omega)
              (.inl (by rw [List.length_cons]; omega))
            rw [withNewlines_cons, List.length_append, List.length_cons, List.length_drop] at hlt
            refine ⟨start, text, ?_, by omega⟩
            rw [hlength]
            exact hread

end Prongc.Library.LineReader
