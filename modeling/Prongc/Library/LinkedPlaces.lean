import Mathlib.Data.List.Induction
import Mathlib.Data.List.Nodup
import Prongc.Library.LinkedArray

namespace Prongc.Library.LinkedPlaces

open LinkedArray

variable {φ : Type} {next : φ → Option Nat} {isStart : φ → Bool} {z : List (φ × Nat)}

def places (next : φ → Option Nat) (nodes : List φ) : Nat → Nat → List Nat
  | 0, _ => []
  | fuel + 1, i =>
      match nodes[i]? with
      | none => []
      | some f => i :: match next f with
          | none => []
          | some j => places next nodes fuel j

theorem follow_zipIdx (next : φ → Option Nat) (nodes : List φ) (fuel i : Nat) :
    follow (fun x : φ × Nat => next x.1) nodes.zipIdx fuel i =
      (places next nodes fuel i).filterMap fun k => nodes[k]?.map fun f => (f, k) := by
  induction fuel generalizing i with
  | zero => rfl
  | succ fuel ih =>
      rw [follow, places, List.getElem?_zipIdx, Nat.zero_add]
      cases hf : nodes[i]? with
      | none => rfl
      | some f =>
          simp only [Option.map_some, List.filterMap_cons, hf]
          cases hn : next f with
          | none => rfl
          | some j => exact congrArg ((f, i) :: ·) (ih j)

theorem places_lt {nodes : List φ} {fuel i k : Nat} (h : k ∈ places next nodes fuel i) : k < nodes.length := by
  induction fuel generalizing i with
  | zero => cases h
  | succ fuel ih =>
      rw [places] at h
      cases hf : nodes[i]? with
      | none => simp [hf] at h
      | some f =>
          simp only [hf, List.mem_cons] at h
          rcases h with rfl | h
          · exact (List.getElem?_eq_some_iff.mp hf).1
          · cases hn : next f with
            | none => simp [hn] at h
            | some j =>
                simp only [hn] at h
                exact ih h

theorem places_eq_follow (next : φ → Option Nat) (nodes : List φ) (fuel i : Nat) :
    places next nodes fuel i = (follow (fun x : φ × Nat => next x.1) nodes.zipIdx fuel i).map Prod.snd := by
  rw [follow_zipIdx, List.map_filterMap]
  conv_lhs => rw [← List.filterMap_some (l := places next nodes fuel i)]
  apply List.filterMap_congr
  intro k hk
  rw [List.getElem?_eq_getElem (places_lt hk)]
  rfl

theorem length_follow (next : φ → Option Nat) (nodes : List φ) (fuel i : Nat) :
    (follow next nodes fuel i).length = (places next nodes fuel i).length := by
  induction fuel generalizing i with
  | zero => rfl
  | succ fuel ih =>
      rw [follow, places]
      cases nodes[i]? with
      | none => rfl
      | some f =>
          simp only [List.length_cons]
          cases next f with
          | none => rfl
          | some j => exact congrArg (· + 1) (ih j)

def placed (z : List (φ × Nat)) : List ((φ × Nat) × Nat) := z.zipIdx.map fun y => ((y.1.1, y.2), y.1.2)

theorem placed_fst (z : List (φ × Nat)) : (placed z).map Prod.fst = (z.map Prod.fst).zipIdx := by
  rw [placed, List.map_map, List.zipIdx_map]
  rfl

theorem labels_placed (z : List (φ × Nat)) : labels (placed z) = labels z := by
  rw [labels, placed, List.map_map, labels]
  conv_rhs => rw [← List.zipIdx_map_fst 0 z, List.map_map]
  rfl

theorem threaded_placed (h : Threaded next isStart z) :
    Threaded (fun x : φ × Nat => next x.1) (fun x => isStart x.1) (placed z) := by
  have hold : ∀ (i : Nat) (x : (φ × Nat) × Nat), (placed z)[i]? = some x → z[i]? = some (x.1.1, x.2) := by
    intro i x hx
    rw [placed, List.getElem?_map, List.getElem?_zipIdx, Option.map_map] at hx
    obtain ⟨y, hy, rfl⟩ := Option.map_eq_some_iff.mp hx
    exact hy
  constructor
  · intro i x hx
    rw [labels_placed]
    exact h.next_eq i _ (hold i x hx)
  · intro i x hx
    rw [labels_placed]
    exact h.start_eq i _ (hold i x hx)

/-- Sorting the elements of a list by a key that takes each of its values once. -/
theorem flatMap_filter_perm {α κ : Type} [BEq κ] [LawfulBEq κ] {key : α → κ} {keys : List κ} {l : List α}
    (hkeys : keys.Nodup) (hl : ∀ a ∈ l, key a ∈ keys) :
    (keys.flatMap fun c => l.filter fun a => key a == c).Perm l := by
  induction keys generalizing l with
  | nil =>
      cases l with
      | nil => exact .refl _
      | cons a l => cases hl a List.mem_cons_self
  | cons c keys ih =>
      obtain ⟨hc, hkeys⟩ := List.nodup_cons.mp hkeys
      have hrest : (keys.flatMap fun d => l.filter fun a => key a == d) =
          keys.flatMap fun d => (l.filter fun a => !(key a == c)).filter fun a => key a == d := by
        apply List.flatMap_congr
        intro d hd
        rw [List.filter_filter]
        apply List.filter_congr
        intro a _
        by_cases hd' : key a = d
        · have hne : key a ≠ c := fun he => hc (he ▸ hd' ▸ hd)
          simp [hd', hd' ▸ hne]
        · simp [hd']
      rw [List.flatMap_cons, hrest]
      refine List.Perm.trans (.append_left _ (@ih (l.filter fun a => !(key a == c)) hkeys ?_))
        (List.filter_append_perm _ _)
      intro a ha
      obtain ⟨ha, hne⟩ := List.mem_filter.mp ha
      exact (List.mem_cons.mp (hl a ha)).resolve_left (by simpa using hne)

theorem startLabels_nodup (h : Threaded next isStart z) : (startLabels isStart z).Nodup := by
  suffices hs : ∀ pre post, z = pre ++ post → (startLabels isStart pre).Nodup from
    hs z [] (List.append_nil z).symm
  intro pre
  induction pre using List.reverseRecOn with
  | nil => exact fun _ _ => .nil
  | append_singleton pre x ih =>
      intro post hz
      rw [List.append_assoc] at hz
      have hpre := ih _ hz
      have hx := h.start_eq pre.length x (by simp [hz])
      have htake : (labels z).take pre.length = labels pre := by simp [hz, labels]
      rw [htake] at hx
      rw [startLabels, List.filter_append, List.map_append]
      by_cases hs : isStart x.1 = true
      · have hfresh : x.2 ∉ labels pre := by simpa [hs] using hx
        rw [List.filter_singleton, hs, cond_true, List.map_singleton, List.nodup_append]
        refine ⟨hpre, List.nodup_singleton _, ?_⟩
        intro c hc d hd heq
        obtain ⟨y, hy, rfl⟩ := List.mem_map.mp hc
        rw [List.mem_singleton.mp hd] at heq
        exact hfresh (heq ▸ List.mem_map_of_mem (List.mem_filter.mp hy).1)
      · simpa [hs, startLabels] using hpre

theorem label_started (h : Threaded next isStart z) {x : φ × Nat} (hx : x ∈ z) :
    x.2 ∈ startLabels isStart z := by
  suffices hs : ∀ pre post, z = pre ++ post → ∀ y ∈ pre, y.2 ∈ startLabels isStart pre from
    hs z [] (List.append_nil z).symm x hx
  intro pre
  induction pre using List.reverseRecOn with
  | nil => exact fun _ _ _ hy => by cases hy
  | append_singleton pre w ih =>
      intro post hz y hy
      rw [List.append_assoc] at hz
      rw [startLabels, List.filter_append, List.map_append, List.mem_append]
      rcases List.mem_append.mp hy with hy | hy
      · exact .inl (ih _ hz y hy)
      · obtain rfl := List.mem_singleton.mp hy
        have hw := h.start_eq pre.length y (by simp [hz])
        have htake : (labels z).take pre.length = labels pre := by simp [hz, labels]
        rw [htake] at hw
        by_cases hs : isStart y.1 = true
        · exact .inr (by simp [hs])
        · have hold : y.2 ∈ labels pre := by simpa [hs] using hw
          obtain ⟨v, hv, hlabel⟩ := List.mem_map.mp hold
          exact .inl (hlabel ▸ ih _ hz v hv)

/-- The walks from the start nodes go through every place once. -/
theorem places_perm (h : Threaded next isStart z) :
    ((List.range z.length).flatMap fun i =>
      if ((z.map Prod.fst)[i]?.map isStart).getD false = true then places next (z.map Prod.fst) z.length i
      else []).Perm (List.range z.length) := by
  have hlen : (placed z).length = z.length := by simp [placed]
  have hfollow := flatMap_follow_eq (threaded_placed h) fun _ => true
  simp only [List.filter_true, placed_fst, hlen] at hfollow
  have hwalk : ((List.range z.length).flatMap fun i =>
      if ((z.map Prod.fst)[i]?.map isStart).getD false = true then places next (z.map Prod.fst) z.length i
      else []) =
      ((startLabels (fun x : φ × Nat => isStart x.1) (placed z)).flatMap fun c => members (placed z) c).map
        Prod.snd := by
    rw [← hfollow, List.map_flatMap]
    apply List.flatMap_congr
    intro i _
    have hstart : ((z.map Prod.fst).zipIdx[i]?.map fun x => isStart x.1) =
        (z.map Prod.fst)[i]?.map isStart := by
      rw [List.getElem?_zipIdx, Option.map_map]
      rfl
    rw [hstart]
    split
    · exact places_eq_follow next _ _ i
    · rfl
  have hperm := @flatMap_filter_perm _ _ _ _ Prod.snd _ _ (startLabels_nodup (threaded_placed h))
    (fun x hx => label_started (threaded_placed h) hx)
  have hplaces : (placed z).map (fun x => x.1.2) = List.range z.length := by
    rw [List.range_eq_range', ← List.zipIdx_map_snd 0 z, placed, List.map_map]
    rfl
  rw [hwalk, ← hplaces, List.map_flatMap]
  refine List.Perm.trans (.of_eq ?_) (hperm.map fun x => x.1.2)
  rw [List.map_flatMap]
  apply List.flatMap_congr
  intro c _
  rw [members, List.map_map]
  rfl

theorem next_later (h : Threaded next isStart z) {i j : Nat} {x : φ × Nat} (hx : z[i]? = some x)
    (hn : next x.1 = some j) : i < j ∧ (labels z)[j]? = some x.2 ∧
      ∀ k, i < k → k < j → (labels z)[k]? ≠ some x.2 := by
  rw [h.next_eq i x hx, successor] at hn
  obtain ⟨m, hm, rfl⟩ := Option.map_eq_some_iff.mp hn
  obtain ⟨hlt, hc, hfirst⟩ := List.findIdx?_eq_some_iff_getElem.mp hm
  rw [List.length_drop] at hlt
  rw [List.getElem_drop] at hc
  refine ⟨by omega, ?_, ?_⟩
  · rw [List.getElem?_eq_getElem (by omega), ← eq_of_beq hc]
    simp [Nat.add_comm, Nat.add_left_comm]
  · intro k hik hkm hk
    have hne := hfirst (k - (i + 1)) (by omega)
    rw [List.getElem_drop] at hne
    obtain ⟨hklt, hk⟩ := List.getElem?_eq_some_iff.mp hk
    have heq : i + 1 + (k - (i + 1)) = k := by omega
    simp only [heq, hk, beq_self_eq_true, not_true_eq_false] at hne

theorem next_injective (h : Threaded next isStart z) {i i' j : Nat} {x x' : φ × Nat} (hx : z[i]? = some x)
    (hx' : z[i']? = some x') (hn : next x.1 = some j) (hn' : next x'.1 = some j) : i = i' := by
  obtain ⟨hlt, hlabel, hbetween⟩ := next_later h hx hn
  obtain ⟨hlt', hlabel', hbetween'⟩ := next_later h hx' hn'
  have hsame : x.2 = x'.2 := Option.some.inj (hlabel.symm.trans hlabel')
  have hat : (labels z)[i]? = some x.2 := by simp [labels, hx]
  have hat' : (labels z)[i']? = some x'.2 := by simp [labels, hx']
  rcases Nat.lt_trichotomy i i' with hii | hii | hii
  · exact absurd (hsame ▸ hat') (hbetween i' hii hlt')
  · exact hii
  · exact absurd (hsame ▸ hat) (hbetween' i hii hlt)

theorem places_fuel (h : Threaded next isStart z) {fuel fuel' i : Nat} (hfuel : z.length ≤ i + fuel)
    (hfuel' : z.length ≤ i + fuel') :
    places next (z.map Prod.fst) fuel i = places next (z.map Prod.fst) fuel' i := by
  rw [places_eq_follow, places_eq_follow, ← placed_fst]
  have hlen : (placed z).length = z.length := by simp [placed]
  cases hx : (placed z)[i]? with
  | none =>
      have hend : ∀ fuel, follow (fun x : φ × Nat => next x.1) ((placed z).map Prod.fst) fuel i = [] := by
        intro fuel
        cases fuel with
        | zero => rfl
        | succ fuel => rw [follow, List.getElem?_map, hx, Option.map_none]
      rw [hend, hend]
  | some x =>
      rw [follow_eq (threaded_placed h) fuel i x hx (by omega), follow_eq (threaded_placed h) fuel' i x hx (by omega)]

end Prongc.Library.LinkedPlaces
