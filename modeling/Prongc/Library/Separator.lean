import Mathlib.Data.List.DropRight

namespace Prongc.Library.Separator

variable {α : Type} [DecidableEq α] {c : α} {front back : List α}

theorem takeWhile_of_not_mem (h : c ∉ front) (rest : List α) :
    (front ++ c :: rest).takeWhile (· ≠ c) = front ∧ (front ++ c :: rest).dropWhile (· ≠ c) = c :: rest := by
  have hfront : ∀ d ∈ front, decide (d ≠ c) = true := by
    intro d hd
    exact decide_eq_true fun hdc => h (hdc ▸ hd)
  rw [List.takeWhile_append_of_pos hfront, List.dropWhile_append_of_pos hfront]
  simp

theorem takeWhile_eq_self (h : c ∉ front) : front.takeWhile (· ≠ c) = front := by
  rw [List.takeWhile_eq_self_iff]
  intro d hd
  exact decide_eq_true fun hdc => h (hdc ▸ hd)

theorem dropWhile_eq_nil_iff (l : List α) (c : α) : l.dropWhile (· ≠ c) = [] ↔ c ∉ l := by
  rw [List.dropWhile_eq_nil_iff]
  constructor
  · intro h hc
    simpa using h c hc
  · intro h d hd
    exact decide_eq_true fun hdc => h (hdc ▸ hd)

theorem append_cons_inj {front' rest rest' : List α} (h : c ∉ front) (h' : c ∉ front')
    (heq : front ++ c :: rest = front' ++ c :: rest') : front = front' ∧ rest = rest' := by
  obtain ⟨htake, hdrop⟩ := takeWhile_of_not_mem h rest
  obtain ⟨htake', hdrop'⟩ := takeWhile_of_not_mem h' rest'
  rw [heq] at htake hdrop
  exact ⟨htake.symm.trans htake', (List.cons.inj (hdrop.symm.trans hdrop')).2⟩

theorem rdropWhile_of_not_mem (h : c ∉ back) (front : List α) :
    (front ++ c :: back).rdropWhile (· ≠ c) = front ++ [c] := by
  have hback : c ∉ back.reverse := by simpa using h
  rw [List.rdropWhile, List.reverse_append, List.reverse_cons, List.append_assoc, List.singleton_append,
    (takeWhile_of_not_mem hback _).2, List.reverse_cons, List.reverse_reverse]

section Pieces

theorem splitOn_pieces (l : List α) : ∀ piece ∈ l.splitOn c, c ∉ piece ∧ piece.Sublist l := by
  induction l with
  | nil => simp
  | cons d l ih =>
      rw [List.splitOn_cons_eq_if_modifyHead]
      split
      · rintro piece hpiece
        rcases List.mem_cons.mp hpiece with rfl | hpiece
        · exact ⟨List.not_mem_nil, List.nil_sublist _⟩
        · exact ⟨(ih piece hpiece).1, (ih piece hpiece).2.cons d⟩
      · next hd =>
        obtain ⟨piece', pieces, hpieces⟩ := List.exists_cons_of_ne_nil (List.splitOn_ne_nil c l)
        rw [hpieces] at ih ⊢
        obtain ⟨⟨hhead, hsub⟩, hrest⟩ := List.forall_mem_cons.mp ih
        rintro piece hpiece
        rcases List.mem_cons.mp hpiece with rfl | hpiece
        · refine ⟨?_, hsub.cons_cons d⟩
          rw [List.mem_cons, not_or]
          exact ⟨fun h => hd (beq_iff_eq.mpr h.symm), hhead⟩
        · exact ⟨(hrest piece hpiece).1, (hrest piece hpiece).2.cons d⟩

end Pieces

section Numbers

theorem toDigits_injective {m n : Nat} (h : Nat.toDigits 10 m = Nat.toDigits 10 n) : m = n := by
  rw [← @Nat.ofDigitChars_ten_toDigits m, h, Nat.ofDigitChars_ten_toDigits]

theorem not_mem_toDigits {sep : Char} (hsep : sep.isDigit = false) (n : Nat) : sep ∉ Nat.toDigits 10 n := by
  intro hmem
  have hdigit := Nat.isDigit_of_mem_toDigits (by decide) (by decide) hmem
  rw [hsep] at hdigit
  cases hdigit

end Numbers

end Prongc.Library.Separator
