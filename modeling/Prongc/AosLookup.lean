import Prongc.AosRefinement

namespace Prongc.AosLookup

open Library.CStrings Library.Blocks AosMemory AosRefinement
open Library.SizeT

def FindsAt (array : DynamicAOS) (strs : List CString) (idx : Nat) : Prop :=
  match strs[idx]? with
  | some str => ∃ p, aosStringAt array idx = .ok p ∧ p ≠ null ∧ stringAt array.data p = .ok str
  | none => aosStringAt array idx = .ok null

variable {heap : Heap} {array : DynamicAOS} {strs : List CString} {idx : Nat}

/-- On an empty array every index is in range. -/
theorem aosStringAt_empty (hcount : array.count = 0) (hidx : idx < 2 ^ 64) :
    aosStringAt array idx = slotAt array idx := by
  rw [aosStringAt, hcount, sizePred, if_pos rfl, if_neg (by omega)]

theorem aosStringAt_live (hidx : idx < array.count) : aosStringAt array idx = slotAt array idx := by
  have hcount : array.count ≠ 0 := by omega
  rw [aosStringAt, sizePred, if_neg hcount, if_neg (by omega)]

theorem aosStringAt_behind (hcount : array.count ≠ 0) (hidx : array.count ≤ idx) :
    aosStringAt array idx = .ok null := by
  rw [aosStringAt, sizePred, if_neg hcount, if_pos (by omega)]

theorem findsAt_nonempty (h : Represents array strs) (hcount : array.count ≠ 0) (idx : Nat) :
    FindsAt array strs idx := by
  rw [FindsAt]
  cases hstr : strs[idx]? with
  | none =>
      have hidx := List.getElem?_eq_none_iff.mp hstr
      exact aosStringAt_behind hcount (h.count_eq ▸ hidx)
  | some str =>
      obtain ⟨hslot, hnull, hstring, -⟩ := slots_refine h hstr
      obtain ⟨hidx, -⟩ := List.getElem?_eq_some_iff.mp hstr
      refine ⟨startOf array strs idx, ?_, hnull, hstring⟩
      rw [aosStringAt_live (h.count_eq ▸ hidx), slotAt, hslot]

/-- The first index behind the slots is read outside of their block. -/
theorem not_findsAt_empty (h : Represents array strs) (hcount : array.count = 0) :
    ¬ FindsAt array strs array.stringsCap := by
  have hstrs : strs = [] := List.length_eq_zero_iff.mp (h.count_eq.symm.trans hcount)
  have hslots := h.stringsCap_lt
  have hnone : array.strings[array.stringsCap]? = none := by
    rw [List.getElem?_eq_none_iff, h.strings_length]
  rw [hstrs, FindsAt, List.getElem?_nil]
  intro hnull
  rw [aosStringAt_empty hcount (by omega), slotAt, hnone] at hnull
  cases hnull

/-- Lookups are right at every index exactly on the arrays that hold a string. -/
theorem aosStringAt_total_iff {ops : List Op} {r : List ParseCall.ProngError × AosState} (h : build heap ops = .ok r) :
    (∀ idx < 2 ^ 64, FindsAt r.2.array (listRun ops []).2 idx) ↔ r.2.array.count ≠ 0 := by
  have hrun := (built_represents h).2
  constructor
  · intro hfinds hcount
    have hslots := hrun.stringsCap_lt
    exact not_findsAt_empty hrun hcount (hfinds _ (by omega))
  · intro hcount idx _
    exact findsAt_nonempty hrun hcount idx

theorem lookup_ab : ∃ r, build pages [.pop, .push ab] = .ok r ∧ r.2.array.count = 1 ∧
    ((∀ idx < 2 ^ 64, FindsAt r.2.array (listRun [.pop, .push ab] []).2 idx) ↔ r.2.array.count ≠ 0) := by
  refine ⟨_, rfl, rfl, ?_⟩
  exact @aosStringAt_total_iff pages _ _ rfl

/-- init_aos leaves an array whose first slot is no string and not NULL. -/
theorem lookup_fresh : ∃ r, build pages [] = .ok r ∧ r.2.array.count = 0 ∧ aosStringAt r.2.array 0 = .ok 0xdead ∧
    ¬ FindsAt r.2.array (listRun [] []).2 0 := by
  refine ⟨_, rfl, rfl, rfl, ?_⟩
  intro hnull
  exact absurd (Except.ok.inj hnull) (by decide)

end Prongc.AosLookup
