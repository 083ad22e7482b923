import Mathlib.Data.List.Nodup

namespace Prongc.Library.Traversal

inductive RoseTree (α : Type)
  | node (label : α) (children : List (RoseTree α))

variable {α σ τ : Type}

namespace RoseTree

def label : RoseTree α → α
  | .node a _ => a

def children : RoseTree α → List (RoseTree α)
  | .node _ cs => cs

@[simp] theorem label_node (a : α) (cs : List (RoseTree α)) : (node a cs).label = a := rfl

@[simp] theorem children_node (a : α) (cs : List (RoseTree α)) : (node a cs).children = cs := rfl

theorem node_label_children (t : RoseTree α) : node t.label t.children = t := by
  cases t with
  | node a cs => rfl

/-- A property of a tree may be proved from the same property of its children. -/
theorem childInduction {P : RoseTree α → Prop} (hnode : ∀ a cs, (∀ c ∈ cs, P c) → P (node a cs))
    (t : RoseTree α) : P t := by
  refine @RoseTree.rec α P (fun cs => ∀ c ∈ cs, P c) hnode ?_ ?_ t
  · simp
  · intro c cs hc hcs x hx
    rcases List.mem_cons.mp hx with rfl | hx
    · exact hc
    · exact hcs x hx

def subtreeAt : List Nat → RoseTree α → Option (RoseTree α)
  | [], t => some t
  | i :: path, t => t.children[i]?.bind (subtreeAt path)

theorem subtreeAt_append (path path' : List Nat) (t : RoseTree α) :
    subtreeAt (path ++ path') t = (subtreeAt path t).bind (subtreeAt path') := by
  induction path generalizing t with
  | nil => rfl
  | cons i path ih =>
      rw [List.cons_append, subtreeAt, subtreeAt]
      cases t.children[i]? with
      | none => rfl
      | some c => exact ih c

theorem subtreeAt_singleton (i : Nat) (t : RoseTree α) : subtreeAt [i] t = t.children[i]? := by
  rw [subtreeAt]
  cases t.children[i]? <;> rfl

mutual

def all (p : α → Bool) : RoseTree α → Bool
  | .node a cs => p a && allList p cs

def allList (p : α → Bool) : List (RoseTree α) → Bool
  | [] => true
  | c :: cs => all p c && allList p cs

end

theorem allList_eq (p : α → Bool) (cs : List (RoseTree α)) : allList p cs = cs.all (all p) := by
  induction cs with
  | nil => rfl
  | cons c cs ih => rw [allList, ih, List.all_cons]

theorem all_iff (p : α → Bool) (t : RoseTree α) :
    t.all p = true ↔ p t.label = true ∧ ∀ c ∈ t.children, c.all p = true := by
  cases t with
  | node a cs => simp [all, allList_eq, List.all_eq_true]

theorem all_subtreeAt {p : α → Bool} {t sub : RoseTree α} {path : List Nat} (h : t.all p = true)
    (hat : t.subtreeAt path = some sub) : p sub.label = true := by
  induction path generalizing t with
  | nil =>
      obtain rfl := Option.some.inj hat
      exact ((all_iff p t).mp h).1
  | cons i path ih =>
      obtain ⟨c, hc, hsub⟩ := Option.bind_eq_some_iff.mp hat
      exact ih (((all_iff p t).mp h).2 c (List.mem_of_getElem? hc)) hsub

mutual

def map {β : Type} (f : α → β) : RoseTree α → RoseTree β
  | .node a cs => .node (f a) (mapAll f cs)

def mapAll {β : Type} (f : α → β) : List (RoseTree α) → List (RoseTree β)
  | [] => []
  | c :: cs => map f c :: mapAll f cs

end

@[simp] theorem map_node {β : Type} (f : α → β) (a : α) (cs : List (RoseTree α)) :
    map f (node a cs) = node (f a) (cs.map (map f)) := by
  have hall : ∀ cs : List (RoseTree α), mapAll f cs = cs.map (map f) := by
    intro cs
    induction cs with
    | nil => rfl
    | cons c cs ih => rw [mapAll, ih, List.map_cons]
  rw [map, hall]

@[simp] theorem label_map {β : Type} (f : α → β) (t : RoseTree α) : (map f t).label = f t.label := by
  cases t with
  | node a cs => rfl

@[simp] theorem children_map {β : Type} (f : α → β) (t : RoseTree α) :
    (map f t).children = t.children.map (map f) := by
  cases t with
  | node a cs => rw [map_node, children_node, children_node]

mutual

def labels : RoseTree α → List α
  | .node a cs => a :: labelsAll cs

def labelsAll : List (RoseTree α) → List α
  | [] => []
  | c :: cs => labels c ++ labelsAll cs

end

theorem labelsAll_eq (cs : List (RoseTree α)) : labelsAll cs = cs.flatMap labels := by
  induction cs with
  | nil => rfl
  | cons c cs ih => rw [labelsAll, ih, List.flatMap_cons]

theorem labelsAll_append (cs cs' : List (RoseTree α)) :
    labelsAll (cs ++ cs') = labelsAll cs ++ labelsAll cs' := by
  rw [labelsAll_eq, labelsAll_eq, labelsAll_eq, List.flatMap_append]

theorem labels_eq (t : RoseTree α) : labels t = t.label :: labelsAll t.children := by
  cases t with
  | node a cs => rw [labels, label_node, children_node]

theorem mem_labels_of_subtreeAt {t sub : RoseTree α} {path : List Nat} (h : t.subtreeAt path = some sub) :
    sub.label ∈ labels t := by
  induction path generalizing t with
  | nil =>
      obtain rfl := Option.some.inj h
      rw [labels_eq]
      exact List.mem_cons_self
  | cons i path ih =>
      obtain ⟨c, hc, hsub⟩ := Option.bind_eq_some_iff.mp h
      rw [labels_eq, labelsAll_eq]
      exact List.mem_cons_of_mem _ (List.mem_flatMap.mpr ⟨c, List.mem_of_getElem? hc, ih hsub⟩)

section Keys

variable {β : Type} {key : α → β} {cs : List (RoseTree α)} {a b c c' : RoseTree α} {i j : Nat}

theorem labels_nodup_of_child (h : ((labelsAll cs).map key).Nodup) (hc : cs[i]? = some c) :
    ((labels c).map key).Nodup := by
  rw [labelsAll_eq, List.map_flatMap, List.nodup_flatMap] at h
  exact h.1 c (List.mem_of_getElem? hc)

theorem key_ne_below (h : ((labels c).map key).Nodup) {path : List Nat}
    (ha : c.subtreeAt (i :: path) = some a) : key c.label ≠ key a.label := by
  intro heq
  obtain ⟨d, hd, hsub⟩ := Option.bind_eq_some_iff.mp ha
  rw [labels_eq, List.map_cons, List.nodup_cons, heq, labelsAll_eq] at h
  exact h.1 (List.mem_map_of_mem
    (List.mem_flatMap.mpr ⟨d, List.mem_of_getElem? hd, mem_labels_of_subtreeAt hsub⟩))

/-- Among children whose labels a key tells apart, the key tells which child a label is below. -/
theorem child_unique (h : ((labelsAll cs).map key).Nodup) (hc : cs[i]? = some c) (hc' : cs[j]? = some c')
    (ha : a.label ∈ labels c) (hb : b.label ∈ labels c') (hkey : key a.label = key b.label) : i = j := by
  rw [labelsAll_eq, List.map_flatMap, List.nodup_flatMap] at h
  obtain ⟨hi, rfl⟩ := List.getElem?_eq_some_iff.mp hc
  obtain ⟨hj, rfl⟩ := List.getElem?_eq_some_iff.mp hc'
  have hdisjoint := List.pairwise_iff_getElem.mp h.2
  rcases Nat.lt_trichotomy i j with hlt | heq | hlt
  · exact absurd (hkey ▸ List.mem_map_of_mem hb) (hdisjoint i j hi hj hlt (List.mem_map_of_mem ha))
  · exact heq
  · exact absurd (hkey ▸ List.mem_map_of_mem ha) (hdisjoint j i hj hi hlt (List.mem_map_of_mem hb))

/-- Below children whose labels a key tells apart, the key determines the path to a label. -/
theorem path_unique {path path' : List Nat} (h : ((labelsAll cs).map key).Nodup)
    (hc : cs[i]? = some c) (hc' : cs[j]? = some c') (ha : c.subtreeAt path = some a)
    (hb : c'.subtreeAt path' = some b) (hkey : key a.label = key b.label) : i :: path = j :: path' := by
  induction path generalizing cs c c' i j path' with
  | nil =>
      obtain rfl := child_unique h hc hc' (mem_labels_of_subtreeAt ha) (mem_labels_of_subtreeAt hb) hkey
      obtain rfl := Option.some.inj (hc.symm.trans hc')
      obtain rfl := Option.some.inj ha
      cases path' with
      | nil => rfl
      | cons k path' => exact absurd hkey (key_ne_below (labels_nodup_of_child h hc) hb)
  | cons k path ih =>
      obtain rfl := child_unique h hc hc' (mem_labels_of_subtreeAt ha) (mem_labels_of_subtreeAt hb) hkey
      obtain rfl := Option.some.inj (hc.symm.trans hc')
      have hbelow := labels_nodup_of_child h hc
      cases path' with
      | nil =>
          obtain rfl := Option.some.inj hb
          exact absurd hkey.symm (key_ne_below hbelow ha)
      | cons k' path' =>
          obtain ⟨d, hd, hsub⟩ := Option.bind_eq_some_iff.mp ha
          obtain ⟨d', hd', hsub'⟩ := Option.bind_eq_some_iff.mp hb
          rw [labels_eq, List.map_cons, List.nodup_cons] at hbelow
          rw [ih hbelow.2 hd hd' hsub hsub']

end Keys

end RoseTree

inductive ChildVisitResult
  | childVisitContinue | childVisitRecurse
  deriving DecidableEq, Repr

/-- A node as a traversal meets it, below its parent and the parent's ancestors, nearest first. -/
structure Visit (α : Type) where
  node : RoseTree α
  parent : RoseTree α
  above : List (RoseTree α)

def Visit.path (v : Visit α) : List (RoseTree α) := v.parent :: v.above

section Visitor

variable (visitor : RoseTree α → RoseTree α → σ → σ × ChildVisitResult)

mutual

def visitNode (parent : RoseTree α) : RoseTree α → σ → σ
  | .node a cs, s =>
      match visitor (.node a cs) parent s with
      | (s', .childVisitContinue) => s'
      | (s', .childVisitRecurse) => visitAll (.node a cs) cs s'

def visitAll (parent : RoseTree α) : List (RoseTree α) → σ → σ
  | [], s => s
  | c :: cs, s => visitAll parent cs (visitNode parent c s)

end

/-- The visitor sees every node below the root, never the root itself. -/
def visitChildren (root : RoseTree α) (s : σ) : σ := visitAll visitor root root.children s

end Visitor

section Simulation

def Simulates (visitorA : RoseTree α → RoseTree α → σ → σ × ChildVisitResult)
    (visitorB : RoseTree α → RoseTree α → τ → τ × ChildVisitResult) (R : σ → τ → Prop) : Prop :=
  ∀ c p s u, R s u →
    R (visitorA c p s).1 (visitorB c p u).1 ∧ (visitorA c p s).2 = (visitorB c p u).2

variable {visitorA : RoseTree α → RoseTree α → σ → σ × ChildVisitResult}
  {visitorB : RoseTree α → RoseTree α → τ → τ × ChildVisitResult} {R : σ → τ → Prop}

mutual

theorem visitNode_simulates (hstep : Simulates visitorA visitorB R) (parent t : RoseTree α) {s : σ}
    {u : τ} (h : R s u) : R (visitNode visitorA parent t s) (visitNode visitorB parent t u) := by
  cases t with
  | node a cs =>
      obtain ⟨hR, hresult⟩ := hstep (.node a cs) parent s u h
      unfold visitNode
      generalize visitorA (.node a cs) parent s = x at hR hresult
      generalize visitorB (.node a cs) parent u = y at hR hresult
      obtain ⟨s', answer⟩ := x
      obtain ⟨u', answer'⟩ := y
      obtain rfl : answer = answer' := hresult
      cases answer with
      | childVisitContinue => exact hR
      | childVisitRecurse => exact visitAll_simulates hstep (.node a cs) cs hR

theorem visitAll_simulates (hstep : Simulates visitorA visitorB R) (parent : RoseTree α)
    (cs : List (RoseTree α)) {s : σ} {u : τ} (h : R s u) :
    R (visitAll visitorA parent cs s) (visitAll visitorB parent cs u) := by
  cases cs with
  | nil => exact h
  | cons c cs => exact visitAll_simulates hstep parent cs (visitNode_simulates hstep parent c h)

end

theorem visitChildren_simulates (hstep : Simulates visitorA visitorB R) (root : RoseTree α) {s : σ}
    {u : τ} (h : R s u) : R (visitChildren visitorA root s) (visitChildren visitorB root u) :=
  visitAll_simulates hstep root root.children h

end Simulation

mutual

def preorder (parent : RoseTree α) (above : List (RoseTree α)) : RoseTree α → List (Visit α)
  | .node a cs => ⟨.node a cs, parent, above⟩ :: preorderAll (.node a cs) (parent :: above) cs

def preorderAll (parent : RoseTree α) (above : List (RoseTree α)) : List (RoseTree α) → List (Visit α)
  | [] => []
  | c :: cs => preorder parent above c ++ preorderAll parent above cs

end

def descendants (root : RoseTree α) : List (Visit α) := preorderAll root [] root.children

section Recursing

variable (visit : RoseTree α → RoseTree α → σ → σ)

def visitStep (s : σ) (v : Visit α) : σ := visit v.node v.parent s

mutual

theorem visitNode_recurse (parent : RoseTree α) (above : List (RoseTree α)) (t : RoseTree α) (s : σ) :
    visitNode (fun c p s => (visit c p s, .childVisitRecurse)) parent t s =
      (preorder parent above t).foldl (visitStep visit) s := by
  cases t with
  | node a cs =>
      simp only [visitNode, preorder, List.foldl_cons]
      exact visitAll_recurse (.node a cs) (parent :: above) cs _

theorem visitAll_recurse (parent : RoseTree α) (above : List (RoseTree α)) (cs : List (RoseTree α))
    (s : σ) :
    visitAll (fun c p s => (visit c p s, .childVisitRecurse)) parent cs s =
      (preorderAll parent above cs).foldl (visitStep visit) s := by
  cases cs with
  | nil => rfl
  | cons c cs =>
      simp only [visitAll, preorderAll, List.foldl_append]
      rw [visitNode_recurse parent above c s]
      exact visitAll_recurse parent above cs _

end

/-- A visitor that always goes on into the children folds over the nodes below the root. -/
theorem visitChildren_recurse (root : RoseTree α) (s : σ) :
    visitChildren (fun c p s => (visit c p s, .childVisitRecurse)) root s =
      (descendants root).foldl (visitStep visit) s :=
  visitAll_recurse visit root [] root.children s

end Recursing

def stepsFrom {β : Type} (step : σ → β → σ) : σ → List β → List (β × σ)
  | _, [] => []
  | s, b :: bs => (b, s) :: stepsFrom step (step s b) bs

section Steps

variable {β : Type} (step : σ → β → σ)

theorem mem_of_stepsFrom {s : σ} {l : List β} {x : β × σ} (h : x ∈ stepsFrom step s l) : x.1 ∈ l := by
  induction l generalizing s with
  | nil => cases h
  | cons b l ih =>
      rcases List.mem_cons.mp h with rfl | h
      · exact List.mem_cons_self
      · exact List.mem_cons_of_mem _ (ih h)

end Steps

end Prongc.Library.Traversal
