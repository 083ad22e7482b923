import Mathlib.Logic.Function.Defs
import Prongc.Library.FirstFit

namespace Prongc.Library.Pairing

open FirstFit

variable {α : Type}

def elements (taken : List (α × α)) : List α := taken.flatMap fun p => [p.1, p.2]

theorem mem_elements {taken : List (α × α)} {x : α} : x ∈ elements taken ↔ ∃ p ∈ taken, p.1 = x ∨ p.2 = x := by
  simp only [elements, List.mem_flatMap, List.mem_cons, List.not_mem_nil, or_false, eq_comm]

theorem mem_elements_append {taken more : List (α × α)} {x : α} :
    x ∈ elements (taken ++ more) ↔ x ∈ elements taken ∨ x ∈ elements more := by
  simp only [elements, List.flatMap_append, List.mem_append]

/-- Takes each pair unless one of its elements is in a pair taken before. -/
def pairUp [DecidableEq α] : List (α × α) → List (α × α) → List (α × α)
  | taken, [] => taken
  | taken, p :: ps => pairUp (if p.1 ∈ elements taken ∨ p.2 ∈ elements taken then taken else taken ++ [p]) ps

theorem pairUp_append [DecidableEq α] (taken ps qs : List (α × α)) :
    pairUp taken (ps ++ qs) = pairUp (pairUp taken ps) qs := by
  induction ps generalizing taken with
  | nil => rfl
  | cons p ps ih => exact ih _

section Arrays

/-- Where the entries of two arrays stand among the elements. -/
structure Places (α : Type) where
  left : Nat → α
  right : Nat → α
  left_inj : Function.Injective left
  right_inj : Function.Injective right
  apart : ∀ k l, left k ≠ right l

variable {e : Places α} {ps : List (Nat × Nat)} {taken : List (α × α)}

def Places.pair (e : Places α) (p : Nat × Nat) : α × α := (e.left p.1, e.right p.2)

theorem Places.left_mem {k : Nat} : e.left k ∈ elements (ps.map e.pair) ↔ k ∈ ps.map Prod.fst := by
  rw [mem_elements, List.mem_map]
  constructor
  · rintro ⟨_, hpair, hk⟩
    obtain ⟨p, hp, rfl⟩ := List.mem_map.mp hpair
    exact ⟨p, hp, e.left_inj (hk.resolve_right fun h => e.apart k p.2 h.symm)⟩
  · rintro ⟨p, hp, rfl⟩
    exact ⟨_, List.mem_map_of_mem hp, .inl rfl⟩

theorem Places.right_mem {l : Nat} : e.right l ∈ elements (ps.map e.pair) ↔ l ∈ ps.map Prod.snd := by
  rw [mem_elements, List.mem_map]
  constructor
  · rintro ⟨_, hpair, hl⟩
    obtain ⟨p, hp, rfl⟩ := List.mem_map.mp hpair
    exact ⟨p, hp, e.right_inj (hl.resolve_left (e.apart p.1 l))⟩
  · rintro ⟨p, hp, rfl⟩
    exact ⟨_, List.mem_map_of_mem hp, .inr rfl⟩

/-- What a first fit takes of one kind is the pairing of the pairs of this kind that were left, where pairs with an
index in common are of one kind. -/
theorem pairUp_firstFit [DecidableEq α] {ok want mine : Nat × Nat → Bool} (hmine : ∀ p, mine p = true ↔
      want p = true ∧ e.left p.1 ∉ elements taken ∧ e.right p.2 ∉ elements taken)
    (hok : ∀ p, mine p = true → ok p = true)
    (hkind : ∀ p q, mine p = true → ok q = true → q.1 = p.1 ∨ q.2 = p.2 → mine q = true)
    (found : List (Nat × Nat)) (hfound : ∀ q ∈ found, ok q = true) :
    pairUp (taken ++ (found.filter mine).map e.pair) ((ps.filter want).map e.pair) =
      taken ++ ((firstFit ok found ps).filter mine).map e.pair := by
  induction ps generalizing found with
  | nil => rfl
  | cons p ps ih =>
      cases hp : mine p with
      | true =>
          obtain ⟨hwant, hl, hr⟩ := (hmine p).mp hp
          have hused : (e.left p.1 ∈ elements (taken ++ (found.filter mine).map e.pair) ∨
              e.right p.2 ∈ elements (taken ++ (found.filter mine).map e.pair)) ↔
                ∃ q ∈ found, q.1 = p.1 ∨ q.2 = p.2 := by
            simp only [mem_elements_append, hl, hr, false_or, Places.left_mem, Places.right_mem, List.mem_map,
              List.mem_filter, ← exists_or, ← and_or_left]
            exact exists_congr fun q => ⟨fun ⟨⟨hq, _⟩, hs⟩ => ⟨hq, hs⟩,
              fun ⟨hq, hs⟩ => ⟨⟨hq, hkind p q hp (hfound q hq) hs⟩, hs⟩⟩
          have hfresh : (ok p && found.all fun q => q.1 != p.1 && q.2 != p.2) = true ↔
              ¬ ∃ q ∈ found, q.1 = p.1 ∨ q.2 = p.2 := by
            simp [hok p hp, List.all_eq_true]
          rw [List.filter_cons_of_pos hwant, List.map_cons, pairUp, firstFit]
          by_cases hmet : ∃ q ∈ found, q.1 = p.1 ∨ q.2 = p.2
          · rw [if_neg (hfresh.not.mpr (not_not.mpr hmet))]
            simp only [Places.pair, hused.mpr hmet, if_true]
            exact ih found hfound
          · have hlater := ih (found ++ [p]) fun q hq => (List.mem_append.mp hq).elim (hfound q)
              fun hq => List.mem_singleton.mp hq ▸ hok p hp
            rw [if_pos (hfresh.mpr hmet), ← hlater]
            simp only [Places.pair, hused.not.mpr hmet, if_false, List.filter_append, List.filter_cons, hp, if_true,
              List.filter_nil, List.map_append, List.map_cons, List.map_nil, List.append_assoc]
      | false =>
          -- passed over by the pairing, and of another kind for the first fit
          have hpass : pairUp (taken ++ (found.filter mine).map e.pair) (((p :: ps).filter want).map e.pair) =
              pairUp (taken ++ (found.filter mine).map e.pair) ((ps.filter want).map e.pair) := by
            cases hwant : want p with
            | true =>
                have hmet : e.left p.1 ∈ elements taken ∨ e.right p.2 ∈ elements taken := by
                  by_contra hfree
                  obtain ⟨hl, hr⟩ := not_or.mp hfree
                  rw [(hmine p).mpr ⟨hwant, hl, hr⟩] at hp
                  cases hp
                rw [List.filter_cons_of_pos hwant, List.map_cons, pairUp, if_pos]
                exact hmet.imp (fun h => mem_elements_append.mpr (.inl h)) fun h => mem_elements_append.mpr (.inl h)
            | false => rw [List.filter_cons_of_neg (by simp [hwant])]
          rw [hpass, firstFit]
          split
          next htake =>
            have hlater := ih (found ++ [p]) fun q hq => (List.mem_append.mp hq).elim (hfound q)
              fun hq => List.mem_singleton.mp hq ▸ ((Bool.and_eq_true _ _).mp htake).1
            simpa [List.filter_append, hp] using hlater
          next => exact ih found hfound

end Arrays

end Prongc.Library.Pairing
