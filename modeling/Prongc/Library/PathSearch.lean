import Prongc.Library.Traversal

namespace Prongc.Library.PathSearch

open Traversal RoseTree

variable {α : Type}

def labelsTo : List Nat → RoseTree α → List α
  | [], t => [t.label]
  | i :: path, t => t.label :: (t.children[i]?.map (labelsTo path)).getD []

section Search

variable (blocked hit : α → Bool)

mutual

/-- The ways to the labels that a search from the root finds, each with its label. The search turns
back at blocked labels and goes no deeper below a hit. -/
def search : RoseTree α → List (List α × α)
  | .node a cs =>
      if blocked a then []
      else if hit a then [([a], a)]
      else (searchAll cs).map fun found => (a :: found.1, found.2)

def searchAll : List (RoseTree α) → List (List α × α)
  | [] => []
  | c :: cs => search c ++ searchAll cs

end

structure Reaches (t : RoseTree α) (path : List Nat) (sub : RoseTree α) : Prop where
  at_path : t.subtreeAt path = some sub
  free : ∀ a ∈ labelsTo path t, blocked a = false

variable {blocked hit}

theorem reaches_self {t : RoseTree α} (h : blocked t.label = false) : Reaches blocked t [] t := by
  refine ⟨rfl, fun a ha => ?_⟩
  rw [List.mem_singleton.mp ha]
  exact h

theorem Reaches.cons {t c sub : RoseTree α} {i : Nat} {path : List Nat} (hroot : blocked t.label = false)
    (hc : t.children[i]? = some c) (h : Reaches blocked c path sub) : Reaches blocked t (i :: path) sub := by
  constructor
  · rw [subtreeAt, hc, Option.bind_some, h.at_path]
  · rw [labelsTo, hc, Option.map_some, Option.getD_some]
    intro a ha
    rcases List.mem_cons.mp ha with rfl | ha
    · exact hroot
    · exact h.free a ha

theorem Reaches.child {t sub : RoseTree α} {i : Nat} {path : List Nat} (h : Reaches blocked t (i :: path) sub) :
    ∃ c, t.children[i]? = some c ∧ Reaches blocked c path sub := by
  obtain ⟨c, hc, hsub⟩ := Option.bind_eq_some_iff.mp h.at_path
  refine ⟨c, hc, hsub, fun a ha => h.free a ?_⟩
  rw [labelsTo, hc, Option.map_some, Option.getD_some]
  exact List.mem_cons_of_mem _ ha

theorem Reaches.root {t sub : RoseTree α} {path : List Nat} (h : Reaches blocked t path sub) :
    blocked t.label = false := by
  apply h.free _
  cases path with
  | nil => exact List.mem_cons_self
  | cons i path => exact List.mem_cons_self

theorem searchAll_eq (cs : List (RoseTree α)) : searchAll blocked hit cs = cs.flatMap (search blocked hit) := by
  induction cs with
  | nil => rfl
  | cons c cs ih => rw [searchAll, ih, List.flatMap_cons]

theorem search_eq_nil (t : RoseTree α) (h : ∀ a ∈ labels t, hit a = false) : search blocked hit t = [] := by
  induction t using childInduction with
  | hnode a cs ih =>
      rw [labels, labelsAll_eq] at h
      have hbelow : searchAll blocked hit cs = [] := by
        rw [searchAll_eq, List.flatMap_eq_nil_iff]
        intro c hc
        exact ih c hc fun b hb => h b (List.mem_cons_of_mem _ (List.mem_flatMap.mpr ⟨c, hc, hb⟩))
      rw [search, h a List.mem_cons_self, hbelow]
      cases blocked a <;> rfl

theorem countP_labels (q : α → Bool) (a : α) {cs : List (RoseTree α)} {i : Nat} {c : RoseTree α}
    (hc : cs[i]? = some c) : (labels (.node a cs)).countP q = (if q a then 1 else 0) +
      ((labelsAll (cs.take i)).countP q + ((labels c).countP q + (labelsAll (cs.drop (i + 1))).countP q)) := by
  obtain ⟨hi, hget⟩ := List.getElem?_eq_some_iff.mp hc
  have hsplit : cs = cs.take i ++ c :: cs.drop (i + 1) := by
    rw [← hget, ← List.drop_eq_getElem_cons hi, List.take_append_drop]
  have hlabels : labelsAll cs =
      labelsAll (cs.take i) ++ (labels c ++ labelsAll (cs.drop (i + 1))) := by
    conv_lhs => rw [hsplit, labelsAll_append, labelsAll]
  rw [labels, List.countP_cons, hlabels, List.countP_append, List.countP_append, Nat.add_comm]

theorem searchAll_eq_nil {cs : List (RoseTree α)} (h : (labelsAll cs).countP hit = 0) :
    searchAll blocked hit cs = [] := by
  rw [searchAll_eq, List.flatMap_eq_nil_iff]
  intro c hc
  apply search_eq_nil c
  intro a ha
  have hzero := List.countP_eq_zero.mp h a (labelsAll_eq cs ▸ List.mem_flatMap.mpr ⟨c, hc, ha⟩)
  exact Bool.eq_false_iff.mpr hzero

theorem countP_pos_of_subtreeAt {t sub : RoseTree α} {path : List Nat} (hat : t.subtreeAt path = some sub)
    (hsub : hit sub.label = true) : 0 < (labels t).countP hit :=
  List.countP_pos_iff.mpr ⟨_, mem_labels_of_subtreeAt hat, hsub⟩

/-- If there is only one hit, and it is in one child, there is none at the root or in other children. -/
structure OnlyChild (hit : α → Bool) (a : α) (cs : List (RoseTree α)) (i : Nat) (c : RoseTree α) : Prop where
  root : hit a = false
  child : (labels c).countP hit = 1
  before : (labelsAll (cs.take i)).countP hit = 0
  behind : (labelsAll (cs.drop (i + 1))).countP hit = 0

theorem onlyChild_of_once {a : α} {cs : List (RoseTree α)} {i : Nat} {c : RoseTree α} (hc : cs[i]? = some c)
    (hpos : 0 < (labels c).countP hit) (honce : (labels (.node a cs)).countP hit = 1) : OnlyChild hit a cs i c := by
  rw [countP_labels hit a hc] at honce
  have hroot : hit a = false := by
    by_contra hhit
    rw [if_pos ((Bool.not_eq_false _).mp hhit)] at honce
    omega
  rw [hroot] at honce
  simp only [Bool.false_eq_true, if_false] at honce
  exact ⟨hroot, by omega, by omega, by omega⟩

theorem OnlyChild.searchAll_eq {a : α} {cs : List (RoseTree α)} {i : Nat} {c : RoseTree α} (hc : cs[i]? = some c)
    (h : OnlyChild hit a cs i c) : searchAll blocked hit cs = search blocked hit c := by
  obtain ⟨hi, hget⟩ := List.getElem?_eq_some_iff.mp hc
  have hbefore := @searchAll_eq_nil α blocked hit (cs.take i) h.before
  have hbehind := @searchAll_eq_nil α blocked hit (cs.drop (i + 1)) h.behind
  rw [PathSearch.searchAll_eq] at hbefore hbehind
  conv_lhs => rw [PathSearch.searchAll_eq, ← List.take_append_drop i cs, List.drop_eq_getElem_cons hi, hget,
    List.flatMap_append, List.flatMap_cons, hbefore, hbehind, List.append_nil, List.nil_append]

theorem OnlyChild.index {a : α} {cs : List (RoseTree α)} {i j : Nat} {c d : RoseTree α} (h : OnlyChild hit a cs i c)
    (hd : cs[j]? = some d) (hpos : 0 < (labels d).countP hit) : i = j := by
  have hnone : ∀ ds : List (RoseTree α), (labelsAll ds).countP hit = 0 → d ∉ ds := by
    intro ds hzero hmem
    obtain ⟨a, ha, hhit⟩ := List.countP_pos_iff.mp hpos
    exact List.countP_eq_zero.mp hzero a (labelsAll_eq ds ▸ List.mem_flatMap.mpr ⟨d, hmem, ha⟩) hhit
  rcases Nat.lt_trichotomy i j with hlt | heq | hlt
  · refine absurd (List.mem_of_getElem? (i := j - (i + 1)) ?_) (hnone _ h.behind)
    rw [List.getElem?_drop, Nat.add_sub_cancel' hlt, hd]
  · exact heq
  · refine absurd (List.mem_of_getElem? (i := j) ?_) (hnone _ h.before)
    rw [List.getElem?_take_of_lt hlt, hd]

theorem search_eq_singleton {t sub : RoseTree α} {path : List Nat} (hreach : Reaches blocked t path sub)
    (hsub : hit sub.label = true) (honce : (labels t).countP hit = 1) :
    search blocked hit t = [(labelsTo path t, sub.label)] := by
  induction path generalizing t with
  | nil =>
      obtain rfl := Option.some.inj hreach.at_path
      have hroot := hreach.root
      cases t with
      | node a cs =>
          rw [label_node] at hroot hsub
          rw [search, hroot, hsub]
          rfl
  | cons i path ih =>
      obtain ⟨c, hc, hbelow⟩ := hreach.child
      have hroot := hreach.root
      cases t with
      | node a cs =>
          rw [label_node] at hroot
          rw [children_node] at hc
          have honly := onlyChild_of_once hc (countP_pos_of_subtreeAt hbelow.at_path hsub) honce
          rw [search, hroot, honly.root, honly.searchAll_eq hc, ih hbelow honly.child, labelsTo, children_node, hc]
          rfl

theorem hit_path_unique {t sub sub' : RoseTree α} {path path' : List Nat} (honce : (labels t).countP hit = 1)
    (hat : t.subtreeAt path = some sub) (hat' : t.subtreeAt path' = some sub') (hsub : hit sub.label = true)
    (hsub' : hit sub'.label = true) : path = path' := by
  induction path generalizing t path' with
  | nil =>
      obtain rfl := Option.some.inj hat
      cases path' with
      | nil => rfl
      | cons j path' =>
          obtain ⟨d, hd, hbelow'⟩ := Option.bind_eq_some_iff.mp hat'
          cases t with
          | node a cs =>
              have honly := onlyChild_of_once hd (countP_pos_of_subtreeAt hbelow' hsub') honce
              exact absurd hsub (Bool.eq_false_iff.mp honly.root)
  | cons i path ih =>
      obtain ⟨c, hc, hbelow⟩ := Option.bind_eq_some_iff.mp hat
      cases t with
      | node a cs =>
          have honly := onlyChild_of_once hc (countP_pos_of_subtreeAt hbelow hsub) honce
          cases path' with
          | nil =>
              obtain rfl := Option.some.inj hat'
              exact absurd hsub' (Bool.eq_false_iff.mp honly.root)
          | cons j path' =>
              obtain ⟨d, hd, hbelow'⟩ := Option.bind_eq_some_iff.mp hat'
              obtain rfl := honly.index hd (countP_pos_of_subtreeAt hbelow' hsub')
              obtain rfl := Option.some.inj (hc.symm.trans hd)
              rw [ih honly.child hbelow hbelow']

end Search

end Prongc.Library.PathSearch
