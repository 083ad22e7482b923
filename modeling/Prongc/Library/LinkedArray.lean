import Mathlib.Data.List.Basic

namespace Prongc.Library.LinkedArray

variable {φ : Type}

def follow (next : φ → Option Nat) (nodes : List φ) : Nat → Nat → List φ
  | 0, _ => []
  | fuel + 1, i =>
      match nodes[i]? with
      | none => []
      | some f => f :: match next f with
          | none => []
          | some j => follow next nodes fuel j

def labels (z : List (φ × Nat)) : List Nat := z.map Prod.snd

/-- The next index after `i` that carries the label `c`. -/
def successor (own : List Nat) (i c : Nat) : Option Nat :=
  ((own.drop (i + 1)).findIdx? (· == c)).map (· + (i + 1))

/-- Several lists threaded through one array. Each node is labelled with its
list; links lead to the next node of the same list and start nodes are first. -/
structure Threaded (next : φ → Option Nat) (isStart : φ → Bool) (z : List (φ × Nat)) : Prop where
  next_eq : ∀ i x, z[i]? = some x → next x.1 = successor (labels z) i x.2
  start_eq : ∀ i x, z[i]? = some x → isStart x.1 = !((labels z).take i).contains x.2

def members (z : List (φ × Nat)) (c : Nat) : List φ :=
  (z.filter (fun y => y.2 == c)).map Prod.fst

def startLabels (isStart : φ → Bool) (z : List (φ × Nat)) : List Nat :=
  (z.filter (fun y => isStart y.1)).map Prod.snd

variable {next : φ → Option Nat} {isStart : φ → Bool} {z : List (φ × Nat)}

theorem members_append (z z' : List (φ × Nat)) (c : Nat) :
    members (z ++ z') c = members z c ++ members z' c := by
  simp [members]

theorem members_cons_self {x : φ × Nat} {c : Nat} (h : x.2 = c) (z : List (φ × Nat)) :
    members (x :: z) c = x.1 :: members z c := by
  simp [members, h]

theorem members_cons_of_ne {x : φ × Nat} {c : Nat} (h : x.2 ≠ c) (z : List (φ × Nat)) :
    members (x :: z) c = members z c := by
  simp [members, h]

theorem filter_eq_nil_of_findIdx? {α : Type} {p : α → Bool} {l : List α} (h : l.findIdx? p = none) :
    l.filter p = [] := by
  rw [List.findIdx?_eq_none_iff] at h
  rw [List.filter_eq_nil_iff]
  intro a ha
  simp [h a ha]

theorem filter_eq_filter_drop {α : Type} {p : α → Bool} {l : List α} {m : Nat}
    (h : l.findIdx? p = some m) : l.filter p = (l.drop m).filter p := by
  induction l generalizing m with
  | nil => simp at h
  | cons a l ih =>
      rw [List.findIdx?_cons] at h
      by_cases ha : p a = true
      · simp only [ha, if_true, Option.some.injEq] at h
        subst h
        rfl
      · simp only [ha, Bool.false_eq_true, if_false, Option.map_eq_some_iff] at h
        obtain ⟨k, hk, rfl⟩ := h
        rw [List.filter_cons_of_neg ha, ih hk, List.drop_succ_cons]

theorem follow_eq (h : Threaded next isStart z) (fuel i : Nat) (x : φ × Nat)
    (hx : z[i]? = some x) (hfuel : z.length ≤ i + fuel) :
    follow next (z.map Prod.fst) fuel i = members (z.drop i) x.2 := by
  induction fuel generalizing i x with
  | zero =>
      have hi := (List.getElem?_eq_some_iff.mp hx).1
      omega
  | succ fuel ih =>
      obtain ⟨hi, hget⟩ := List.getElem?_eq_some_iff.mp hx
      have hn := h.next_eq i x hx
      have hm : (z.map Prod.fst)[i]? = some x.1 := by simp [hx]
      have hd : members (z.drop i) x.2 = x.1 :: members (z.drop (i + 1)) x.2 := by
        rw [List.drop_eq_getElem_cons hi, hget, members_cons_self rfl]
      rw [follow, hm, hd]
      simp only [hn, successor, labels, ← List.map_drop, List.findIdx?_map, Function.comp_def]
      cases hs : (z.drop (i + 1)).findIdx? (fun y => y.2 == x.2) with
      | none => simp [members, filter_eq_nil_of_findIdx? hs]
      | some m =>
          obtain ⟨y, hy, hyc⟩ : ∃ y, z[m + (i + 1)]? = some y ∧ y.2 = x.2 := by
            obtain ⟨hl, hp, _⟩ := List.findIdx?_eq_some_iff_getElem.mp hs
            refine ⟨(z.drop (i + 1))[m], ?_, by simpa using hp⟩
            rw [List.getElem_drop, List.getElem?_eq_getElem (by simp at hl; omega)]
            simp [Nat.add_comm, Nat.add_left_comm]
          have hrec := ih (m + (i + 1)) y hy (by omega)
          simp only [Option.map_some, List.cons.injEq, true_and]
          rw [hrec, hyc]
          unfold members
          rw [filter_eq_filter_drop hs, List.drop_drop, Nat.add_comm m]

theorem range_flatMap_getElem? {α β : Type} (l : List α) (g : α → List β) :
    (List.range l.length).flatMap (fun i => (l[i]?.map g).getD []) = l.flatMap g := by
  induction l with
  | nil => rfl
  | cons a l ih =>
      rw [List.length_cons, List.range_succ_eq_map, List.flatMap_cons, List.flatMap_map]
      simp [ih]

theorem flatMap_ite_nil {α β : Type} (p : α → Bool) (g : α → List β) (l : List α) :
    l.flatMap (fun a => if p a = true then g a else []) = (l.filter p).flatMap g := by
  induction l with
  | nil => rfl
  | cons a l ih =>
      by_cases h : p a = true <;> simp [h, ih]

theorem flatMap_follow_eq (h : Threaded next isStart z) (p : φ → Bool) :
    (List.range z.length).flatMap (fun i =>
      if ((z.map Prod.fst)[i]?.map isStart).getD false = true then
        (follow next (z.map Prod.fst) z.length i).filter p else []) =
      (startLabels isStart z).flatMap (fun c => (members z c).filter p) := by
  have hstep : ∀ i ∈ List.range z.length,
      (if ((z.map Prod.fst)[i]?.map isStart).getD false = true then
        (follow next (z.map Prod.fst) z.length i).filter p else []) =
      (z[i]?.map (fun x => if isStart x.1 = true then (members z x.2).filter p else [])).getD [] := by
    intro i hi
    obtain ⟨x, hx⟩ : ∃ x, z[i]? = some x :=
      ⟨z.get ⟨i, List.mem_range.mp hi⟩, List.getElem?_eq_getElem _⟩
    simp only [List.getElem?_map, hx, Option.map_some, Option.getD_some]
    split_ifs with hstart
    · have hnone : members (z.take i) x.2 = [] := by
        have ha := h.start_eq i x hx
        rw [hstart] at ha
        simp only [Bool.true_eq, Bool.not_eq_true', labels, ← List.map_take,
          List.contains_eq_mem, decide_eq_false_iff_not, List.mem_map, not_exists, not_and] at ha
        simp only [members, List.map_eq_nil_iff, List.filter_eq_nil_iff, beq_iff_eq]
        exact ha
      have hsplit : members z x.2 = members (z.drop i) x.2 := by
        conv_lhs => rw [← List.take_append_drop i z]
        rw [members_append, hnone, List.nil_append]
      rw [follow_eq h z.length i x hx (by omega), hsplit]
    · rfl
  rw [List.flatMap_congr hstep, range_flatMap_getElem? z
    (fun x => if isStart x.1 = true then (members z x.2).filter p else []),
    flatMap_ite_nil (fun x : φ × Nat => isStart x.1), startLabels, List.flatMap_map]

theorem threaded_nil : Threaded next isStart [] :=
  ⟨fun i x h => by simp at h, fun i x h => by simp at h⟩

theorem successor_append (own : List Nat) (d : Nat) {i c : Nat} (hi : i < own.length) :
    successor (own ++ [d]) i c = (successor own i c).or (if d = c then some own.length else none) := by
  unfold successor
  rw [List.drop_append_of_le_length (by omega), List.findIdx?_append]
  cases hs : (own.drop (i + 1)).findIdx? (· == c) with
  | some m => simp
  | none =>
      by_cases hc : d = c
      · simp [List.findIdx?_cons, hc]
        omega
      · simp [List.findIdx?_cons, hc]

theorem successor_last (own : List Nat) (d c : Nat) : successor (own ++ [d]) own.length c = none := by
  simp [successor]

theorem successor_ne_none {own : List Nat} {i j c : Nat} (hj : own[j]? = some c) (hij : i < j) :
    successor own i c ≠ none := by
  simp only [successor, ne_eq, Option.map_eq_none_iff, List.findIdx?_eq_none_iff, not_forall]
  refine ⟨c, List.mem_of_getElem? (i := j - (i + 1)) ?_, by simp⟩
  rw [List.getElem?_drop, ← hj]
  congr 1
  omega

theorem getElem?_snoc_cases {α : Type} {l : List α} {a x : α} {i : Nat}
    (h : (l ++ [a])[i]? = some x) : (i < l.length ∧ l[i]? = some x) ∨ (i = l.length ∧ x = a) := by
  rcases Nat.lt_or_ge i l.length with hi | hi
  · rw [List.getElem?_append_left hi] at h
    exact .inl ⟨hi, h⟩
  · rw [List.getElem?_append_right hi, List.getElem?_singleton] at h
    split_ifs at h with h0
    exact .inr ⟨by omega, by simpa using h.symm⟩

theorem Threaded.congr (h : Threaded next isStart z) {z' : List (φ × Nat)}
    (hl : labels z' = labels z) (hn : z'.map (fun x => next x.1) = z.map (fun x => next x.1))
    (hs : z'.map (fun x => isStart x.1) = z.map (fun x => isStart x.1)) :
    Threaded next isStart z' := by
  have hold : ∀ (i : Nat) (x : φ × Nat), z'[i]? = some x →
      ∃ y : φ × Nat, z[i]? = some y ∧ y.2 = x.2 ∧ next y.1 = next x.1 ∧ isStart y.1 = isStart x.1 := by
    intro i x hx
    have h₁ := congrArg (fun l => l[i]?) hl
    have h₂ := congrArg (fun l => l[i]?) hn
    have h₃ := congrArg (fun l => l[i]?) hs
    simp only [labels, List.getElem?_map, hx, Option.map_some] at h₁ h₂ h₃
    obtain ⟨y, hy, he⟩ := Option.map_eq_some_iff.mp h₁.symm
    simp only [hy, Option.map_some, Option.some.injEq] at h₂ h₃
    exact ⟨y, hy, he, h₂.symm, h₃.symm⟩
  constructor
  · intro i x hx
    obtain ⟨y, hy, hc, hny, _⟩ := hold i x hx
    rw [hl, ← hc, ← hny]
    exact h.next_eq i y hy
  · intro i x hx
    obtain ⟨y, hy, hc, _, hsy⟩ := hold i x hx
    rw [hl, ← hc, ← hsy]
    exact h.start_eq i y hy

/-- A new list is opened by a start node with a fresh label at the end. -/
theorem Threaded.push (h : Threaded next isStart z) {f : φ} {c : Nat} (hn : next f = none)
    (hs : isStart f = true) (hc : c ∉ labels z) : Threaded next isStart (z ++ [(f, c)]) := by
  have hlabels : labels (z ++ [(f, c)]) = labels z ++ [c] := by simp [labels]
  have hlen : (labels z).length = z.length := by simp [labels]
  constructor
  · intro i x hx
    rw [hlabels]
    rcases getElem?_snoc_cases hx with ⟨hi, hz⟩ | ⟨rfl, rfl⟩
    · have hne : c ≠ x.2 := by
        rintro rfl
        exact hc (List.mem_map_of_mem (List.mem_of_getElem? hz))
      rw [successor_append _ _ (by omega), if_neg hne, Option.or_none]
      exact h.next_eq i x hz
    · rw [← hlen, successor_last]
      exact hn
  · intro i x hx
    rw [hlabels]
    rcases getElem?_snoc_cases hx with ⟨hi, hx⟩ | ⟨rfl, rfl⟩
    · rw [List.take_append_of_le_length (by omega)]
      exact h.start_eq i x hx
    · rw [← hlen, List.take_left']
      · simpa [hs] using hc
      · rfl

theorem labels_set {i : Nat} {f g : φ} {c : Nat} (hi : z[i]? = some (f, c)) :
    labels (z.set i (g, c)) = labels z := by
  obtain ⟨hlt, hget⟩ := List.getElem?_eq_some_iff.mp hi
  have hi' : i < (labels z).length := by simpa [labels] using hlt
  have hc : (labels z)[i] = c := by simp [labels, hget]
  rw [labels, List.map_set]
  conv_lhs => rw [← hc]
  exact List.set_getElem_self _

/-- The list that ends at `i` grows by a node at the end of the array. -/
theorem Threaded.extend (h : Threaded next isStart z) {i : Nat} {f f' g : φ} {c : Nat}
    (hi : z[i]? = some (f, c)) (hf : next f = none) (hn : next f' = some z.length)
    (hs : isStart f' = isStart f) (hg : next g = none) (hgs : isStart g = false) :
    Threaded next isStart (z.set i (f', c) ++ [(g, c)]) := by
  obtain ⟨hlt, hget⟩ := List.getElem?_eq_some_iff.mp hi
  have hlabels : labels (z.set i (f', c) ++ [(g, c)]) = labels z ++ [c] := by
    rw [labels, List.map_append]
    exact congrArg (· ++ [c]) (labels_set hi)
  have hlen : (labels z).length = z.length := by simp [labels]
  have hlast : successor (labels z) i c = none := by rw [← h.next_eq i (f, c) hi]; exact hf
  constructor
  · intro k x hx
    rw [hlabels]
    rcases getElem?_snoc_cases hx with ⟨hk, hx⟩ | ⟨rfl, rfl⟩
    · rw [List.length_set] at hk
      rw [successor_append _ _ (by omega), hlen]
      rcases eq_or_ne i k with rfl | hik
      · rw [List.getElem?_set_self hlt, Option.some.injEq] at hx
        subst hx
        simp [hlast, hn]
      · rw [List.getElem?_set_ne hik] at hx
        rw [h.next_eq k x hx]
        have hc : (labels z)[i]? = some c := by simp [labels, hi]
        have hk' : (labels z)[k]? = some x.2 := by simp [labels, hx]
        rcases Nat.lt_or_gt_of_ne hik with hlt' | hgt
        · have hne : c ≠ x.2 := by
            rintro rfl
            exact absurd hlast (successor_ne_none hk' hlt')
          rw [if_neg hne, Option.or_none]
        · by_cases hcx : c = x.2
          · obtain ⟨j, hj⟩ := Option.ne_none_iff_exists'.mp (successor_ne_none hc hgt)
            rw [← hcx, hj]
            rfl
          · rw [if_neg hcx, Option.or_none]
    · rw [List.length_set, ← hlen, successor_last]
      exact hg
  · intro k x hx
    rw [hlabels]
    rcases getElem?_snoc_cases hx with ⟨hk, hx⟩ | ⟨rfl, rfl⟩
    · rw [List.length_set] at hk
      rw [List.take_append_of_le_length (by omega)]
      rcases eq_or_ne i k with rfl | hik
      · rw [List.getElem?_set_self hlt, Option.some.injEq] at hx
        subst hx
        rw [hs]
        exact h.start_eq i (f, c) hi
      · rw [List.getElem?_set_ne hik] at hx
        exact h.start_eq k x hx
    · rw [List.length_set, ← hlen, List.take_left' rfl]
      have hmem : c ∈ labels z := List.mem_map_of_mem (List.mem_of_getElem? hi)
      simp [hgs, hmem]

/-- One round of a loop that gives some lists a new last node: the node at `i`
is linked to a copy that is appended to the array. -/
def extendAt (test : φ → Bool) (link : Nat → φ → φ) (copy : φ → φ) (nodes : List φ) (i : Nat) : List φ :=
  match nodes[i]? with
  | none => nodes
  | some f => if test f = true then nodes.set i (link nodes.length f) ++ [copy f] else nodes

def extendLoop (test : φ → Bool) (link : Nat → φ → φ) (copy : φ → φ) (nodes : List φ) : List φ :=
  (List.range nodes.length).foldl (extendAt test link copy) nodes

section Extend

variable {σ : Type} {test : φ → Bool} {link : Nat → φ → φ} {copy : φ → φ} {seg : φ → σ} {upd : φ → σ}
  {good : φ → Prop}

/-- What the loop has done once it has passed the nodes `pre` of an array
`pre ++ post`. The nodes `post` are untouched, and only the projection `seg` of
the others is told. -/
structure Extended (next : φ → Option Nat) (isStart : φ → Bool) (good : φ → Prop) (test : φ → Bool)
    (copy : φ → φ) (seg upd : φ → σ) (pre post z : List (φ × Nat)) : Prop where
  threaded : Threaded next isStart z
  good : ∀ x ∈ z, good x.1
  rest : ∀ i, i < post.length → z[pre.length + i]? = post[i]?
  starts : startLabels isStart z = startLabels isStart (pre ++ post)
  labels : ∀ c, c ∈ LinkedArray.labels z ↔ c ∈ LinkedArray.labels (pre ++ post)
  content : z.map (fun x => (seg x.1, x.2)) =
    pre.map (fun x => (if test x.1 = true then upd x.1 else seg x.1, x.2)) ++
      (post.map (fun x => (seg x.1, x.2)) ++
        (pre.filter (fun x => test x.1)).map (fun x => (seg (copy x.1), x.2)))

theorem Extended.start (h : Threaded next isStart z) (hg : ∀ x ∈ z, good x.1) :
    Extended next isStart good test copy seg upd [] z z :=
  ⟨h, hg, fun i _ => by simp, rfl, fun _ => Iff.rfl, by simp⟩

theorem startLabels_set {i : Nat} {f g : φ} {c : Nat} (hi : z[i]? = some (f, c))
    (hs : isStart g = isStart f) : startLabels isStart (z.set i (g, c)) = startLabels isStart z := by
  obtain ⟨hlt, hget⟩ := List.getElem?_eq_some_iff.mp hi
  rw [List.set_eq_take_append_cons_drop, if_pos hlt]
  conv_rhs => rw [← List.take_append_drop i z, List.drop_eq_getElem_cons hlt, hget]
  simp only [startLabels, List.filter_append, List.filter_cons, hs]
  split_ifs <;> simp

variable (hnext : ∀ n f, next (link n f) = some n) (hstart : ∀ n f, isStart (link n f) = isStart f)
  (hcopy : ∀ f, next (copy f) = none) (hcopyStart : ∀ f, isStart (copy f) = false)
  (htest : ∀ f, good f → test f = true → next f = none)
  (hlink : ∀ n f, good f → test f = true → good (link n f)) (hgoodCopy : ∀ f, good f → good (copy f))
  (hseg : ∀ n f, seg (link n f) = upd f)

include hnext hstart hcopy hcopyStart htest hlink hgoodCopy hseg

theorem Extended.step {pre post : List (φ × Nat)} {x : φ × Nat}
    (h : Extended next isStart good test copy seg upd pre (x :: post) z) :
    ∃ z', z'.map Prod.fst = extendAt test link copy (z.map Prod.fst) pre.length ∧
      Extended next isStart good test copy seg upd (pre ++ [x]) post z' := by
  have hget : z[pre.length]? = some x := by simpa using h.rest 0 (by simp)
  have hlt : pre.length < z.length := (List.getElem?_eq_some_iff.mp hget).1
  have hat : (z.map Prod.fst)[pre.length]? = some x.1 := by simp [hget]
  have hlen : pre.length + (post.length + 1) ≤ z.length := by
    have := congrArg List.length h.content
    simp only [List.length_map, List.length_append, List.length_cons] at this
    omega
  have hrest : ∀ i, i < post.length → z[pre.length + (i + 1)]? = post[i]? := fun i hi => by
    simpa using h.rest (i + 1) (by simpa using hi)
  by_cases ht : test x.1 = true
  · have hgx : good x.1 := h.good x (List.mem_of_getElem? hget)
    refine ⟨z.set pre.length (link z.length x.1, x.2) ++ [(copy x.1, x.2)], ?_, ?_⟩
    · simp [extendAt, hat, ht, List.map_set]
    · constructor
      · exact h.threaded.extend hget (htest _ hgx ht) (hnext _ _) (hstart _ _) (hcopy _) (hcopyStart _)
      · intro y hy
        rcases List.mem_append.mp hy with hy | hy
        · rcases List.mem_or_eq_of_mem_set hy with hy | rfl
          · exact h.good y hy
          · exact hlink _ _ hgx ht
        · rw [List.mem_singleton.mp hy]
          exact hgoodCopy _ hgx
      · intro i hi
        rw [List.length_append, List.length_singleton, Nat.add_assoc, Nat.add_comm 1 i,
          List.getElem?_append_left (by rw [List.length_set]; omega),
          List.getElem?_set_ne (by omega)]
        exact hrest i hi
      · have hs : startLabels isStart [(copy x.1, x.2)] = [] := by simp [startLabels, hcopyStart]
        rw [startLabels, List.filter_append, List.map_append]
        change startLabels isStart _ ++ startLabels isStart [(copy x.1, x.2)] = _
        rw [hs, List.append_nil, startLabels_set hget (hstart _ _), h.starts, List.append_assoc]
        rfl
      · intro c
        have hmem : x.2 ∈ LinkedArray.labels z := List.mem_map_of_mem (List.mem_of_getElem? hget)
        have hl := h.labels c
        rw [LinkedArray.labels, List.map_append, List.mem_append]
        change c ∈ LinkedArray.labels _ ∨ _ ↔ _
        rw [labels_set (g := link z.length x.1) hget]
        simp only [List.map_cons, List.map_nil, List.mem_singleton, List.append_assoc,
          List.singleton_append]
        rw [← hl]
        constructor
        · rintro (hc | rfl)
          · exact hc
          · exact hmem
        · exact .inl
      · have hset := congrArg (fun l => l.set pre.length (upd x.1, x.2)) h.content
        rw [List.map_append, List.map_set, hseg, hset, List.set_append_right _ _ (by simp)]
        simp [ht]
  · refine ⟨z, by simp [extendAt, hat, ht], h.threaded, h.good, ?_, ?_, ?_, ?_⟩
    · intro i hi
      rw [List.length_append, List.length_singleton, Nat.add_assoc, Nat.add_comm 1 i]
      exact hrest i hi
    · simpa using h.starts
    · simpa using h.labels
    · rw [h.content]
      simp [ht]

theorem Extended.loop {pre post : List (φ × Nat)}
    (h : Extended next isStart good test copy seg upd pre post z) :
    ∃ z', z'.map Prod.fst =
        (List.range' pre.length post.length).foldl (extendAt test link copy) (z.map Prod.fst) ∧
      Extended next isStart good test copy seg upd (pre ++ post) [] z' := by
  induction post generalizing pre z with
  | nil => exact ⟨z, rfl, by simpa using h⟩
  | cons x post ih =>
      obtain ⟨z₁, hz₁, h₁⟩ := h.step hnext hstart hcopy hcopyStart htest hlink hgoodCopy hseg
      obtain ⟨z₂, hz₂, h₂⟩ := ih h₁
      refine ⟨z₂, ?_, by simpa using h₂⟩
      rw [hz₂, List.length_cons, List.range'_succ, List.foldl_cons, hz₁]
      simp

/-- The whole loop appends to each list the copies of its tested nodes. -/
theorem extendLoop_spec (h : Threaded next isStart z) (hg : ∀ x ∈ z, good x.1) :
    ∃ z', z'.map Prod.fst = extendLoop test link copy (z.map Prod.fst) ∧
      Threaded next isStart z' ∧ (∀ x ∈ z', good x.1) ∧
      startLabels isStart z' = startLabels isStart z ∧ (∀ c, c ∈ labels z' ↔ c ∈ labels z) ∧
      ∀ c, (members z' c).map seg =
        (members z c).map (fun f => if test f = true then upd f else seg f) ++
          ((members z c).filter test).map (fun f => seg (copy f)) := by
  obtain ⟨z', hz', he⟩ := (Extended.start h hg : Extended next isStart good test copy seg upd [] z z).loop
    hnext hstart hcopy hcopyStart htest hlink hgoodCopy hseg
  rw [List.nil_append] at he
  refine ⟨z', ?_, he.threaded, he.good, by simpa using he.starts, by simpa using he.labels, ?_⟩
  · rw [hz', extendLoop, List.range_eq_range']
    simp
  · intro c
    have hmap (l : List (φ × Nat)) (p : φ → σ) : (members l c).map p =
        ((l.map (fun x => (p x.1, x.2))).filter (fun y => y.2 == c)).map Prod.fst := by
      simp [members, List.filter_map, Function.comp_def]
    have hfilter : ((members z c).filter test).map (fun f => seg (copy f)) =
        (members (z.filter (fun x => test x.1)) c).map (fun f => seg (copy f)) := by
      simp only [members, List.filter_map, List.filter_filter, Function.comp_def, Bool.and_comm]
    rw [hmap z' seg, hmap z (fun f => if test f = true then upd f else seg f), hfilter,
      hmap _ (fun f => seg (copy f)), he.content]
    simp

end Extend

theorem filter_next_none (h : Threaded next isStart z) (c : Nat) :
    (members z c).filter (fun f => (next f).isNone) = (members z c).getLast?.toList := by
  suffices hs : ∀ n i, z.length = i + n →
      (members (z.drop i) c).filter (fun f => (next f).isNone) = (members (z.drop i) c).getLast?.toList by
    simpa using hs z.length 0 (by omega)
  intro n
  induction n with
  | zero =>
      intro i hi
      rw [List.drop_eq_nil_of_le (by omega)]
      rfl
  | succ n ih =>
      intro i hi
      have hlt : i < z.length := by omega
      have hrec := ih (i + 1) (by omega)
      have hn := h.next_eq i z[i] (List.getElem?_eq_getElem hlt)
      rw [List.drop_eq_getElem_cons hlt]
      by_cases hc : z[i].2 = c
      · rw [members_cons_self hc]
        rw [hc] at hn
        cases hs : members (z.drop (i + 1)) c with
        | nil =>
            have hnone : (next z[i].1).isNone = true := by
              rw [hn]
              simp only [members, List.map_eq_nil_iff, List.filter_eq_nil_iff, beq_iff_eq] at hs
              simp only [successor, labels, ← List.map_drop, Option.isNone_map,
                Option.isNone_iff_eq_none, List.findIdx?_eq_none_iff, List.mem_map, beq_eq_false_iff_ne]
              rintro d ⟨y, hy, rfl⟩
              exact hs y hy
            simp [hnone]
        | cons f fs =>
            have hsome : (next z[i].1).isNone = false := by
              rw [hn]
              obtain ⟨y, hy, _⟩ : ∃ y ∈ z.drop (i + 1), y.2 = c := by
                have hf : f ∈ members (z.drop (i + 1)) c := by simp [hs]
                simp only [members, List.mem_map, List.mem_filter, beq_iff_eq] at hf
                obtain ⟨y, ⟨hy, hyc⟩, _⟩ := hf
                exact ⟨y, hy, hyc⟩
              obtain ⟨k, hk⟩ := List.mem_iff_getElem?.mp hy
              rw [List.getElem?_drop] at hk
              have := successor_ne_none (i := i)
                (by simp [labels, *] : (labels z)[i + 1 + k]? = some c) (by omega)
              simpa [Option.isSome_iff_ne_none] using this
            rw [List.filter_cons_of_neg (by simp [hsome]), ← hs, hrec, hs]
            simp
      · rw [members_cons_of_ne hc]
        exact hrec

end Prongc.Library.LinkedArray
