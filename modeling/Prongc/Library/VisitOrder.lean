import Mathlib.Data.List.Chain
import Prongc.Library.Traversal

namespace Prongc.Library.VisitOrder

open Traversal

variable {α : Type}

def ChildOf (a b : RoseTree α) : Prop := a ∈ b.children

def LastChildOf (a b : RoseTree α) : Prop := b.children.getLast? = some a

/-- What a traversal meets behind a visit: the first child of its node, or, if the node has none, the
next sibling of the node or of one above it. What it leaves on the way up are last children. -/
inductive Next : Visit α → Visit α → Prop
  | down {v : Visit α} {c : RoseTree α} {cs : List (RoseTree α)} (children : v.node.children = c :: cs) :
      Next v ⟨c, v.node, v.path⟩
  | across {v w : Visit α} {left before after : List (RoseTree α)} (leaf : v.node.children = [])
      (up : v.path = left ++ w.path) (last : (v.node :: left).IsChain LastChildOf)
      (siblings : w.parent.children =
        before ++ (v.node :: left).getLast (List.cons_ne_nil _ _) :: w.node :: after) : Next v w

section Upward

theorem sizeOf_lt_of_childOf {a b : RoseTree α} (h : ChildOf a b) : sizeOf a < sizeOf b := by
  cases b with
  | node x cs =>
      have hsize := List.sizeOf_lt_of_mem (show a ∈ cs from h)
      rw [RoseTree.node.sizeOf_spec]
      omega

theorem sizeOf_pairwise {l : List (RoseTree α)} (h : l.IsChain ChildOf) :
    l.Pairwise fun a b => sizeOf a < sizeOf b := by
  have htrans : Trans (fun a b : RoseTree α => sizeOf a < sizeOf b) (fun a b : RoseTree α => sizeOf a < sizeOf b)
      (fun a b : RoseTree α => sizeOf a < sizeOf b) := ⟨fun h h' => Nat.lt_trans h h'⟩
  exact (h.imp fun a b => sizeOf_lt_of_childOf).pairwise

theorem ne_above {below above : List (RoseTree α)} (h : (below ++ above).IsChain ChildOf) {a b : RoseTree α}
    (ha : a ∈ below) (hb : b ∈ above) : a ≠ b := by
  rintro rfl
  exact Nat.lt_irrefl _ ((List.pairwise_append.mp (sizeOf_pairwise h)).2.2 a ha a hb)

theorem preorderAll_eq (parent : RoseTree α) (above cs : List (RoseTree α)) :
    preorderAll parent above cs = cs.flatMap (preorder parent above) := by
  induction cs with
  | nil => rfl
  | cons c cs ih => rw [preorderAll, ih, List.flatMap_cons]

/-- Each visit of a traversal stands on a chain of children that ends at the root. -/
theorem preorder_upward (t : RoseTree α) : ∀ parent above, (t :: parent :: above).IsChain ChildOf →
    ∀ v ∈ preorder parent above t, (v.node :: v.path).IsChain ChildOf ∧
      t :: parent :: above <:+ v.node :: v.path := by
  induction t using RoseTree.childInduction with
  | hnode a cs ih =>
      intro parent above hup v hv
      rw [preorder, preorderAll_eq] at hv
      rcases List.mem_cons.mp hv with rfl | hv
      · exact ⟨hup, List.suffix_rfl⟩
      · obtain ⟨c, hc, hv⟩ := List.mem_flatMap.mp hv
        obtain ⟨hchain, hsuffix⟩ := ih c hc (.node a cs) (parent :: above) (hup.cons_cons hc) v hv
        exact ⟨hchain, (List.suffix_cons _ _).trans hsuffix⟩

theorem descendants_upward {root : RoseTree α} {v : Visit α} (h : v ∈ descendants root) :
    (v.node :: v.path).IsChain ChildOf ∧ [root] <:+ v.path := by
  rw [descendants, preorderAll_eq] at h
  obtain ⟨c, hc, hv⟩ := List.mem_flatMap.mp h
  obtain ⟨hchain, hsuffix⟩ := preorder_upward c root [] ((List.isChain_singleton root).cons_cons hc) v hv
  refine ⟨hchain, ?_⟩
  rcases List.suffix_cons_iff.mp hsuffix with heq | hsuffix
  · exact (List.cons.inj heq).2 ▸ List.suffix_rfl
  · exact (List.suffix_cons c [root]).trans hsuffix

/-- What stands above a visit is visited itself, or stands above the whole traversal. -/
theorem preorder_above (t : RoseTree α) : ∀ parent above, ∀ v ∈ preorder parent above t,
    ∀ c ∈ v.node :: v.path, c ∈ parent :: above ∨ ∃ u ∈ preorder parent above t, u.node = c := by
  induction t using RoseTree.childInduction with
  | hnode a cs ih =>
      intro parent above v hv c hc
      rw [preorder, preorderAll_eq] at hv ⊢
      rcases List.mem_cons.mp hv with rfl | hv
      · rcases List.mem_cons.mp hc with rfl | hc
        · exact .inr ⟨_, List.mem_cons_self, rfl⟩
        · exact .inl hc
      · obtain ⟨d, hd, hv⟩ := List.mem_flatMap.mp hv
        rcases ih d hd _ _ v hv c hc with habove | ⟨u, hu, hnode⟩
        · rcases List.mem_cons.mp habove with rfl | habove
          · exact .inr ⟨_, List.mem_cons_self, rfl⟩
          · exact .inl habove
        · exact .inr ⟨u, List.mem_cons_of_mem _ (List.mem_flatMap.mpr ⟨d, hd, hu⟩), hnode⟩

theorem descendants_above {root : RoseTree α} {v : Visit α} (h : v ∈ descendants root) {c : RoseTree α}
    (hc : c ∈ v.node :: v.path) : c = root ∨ ∃ u ∈ descendants root, u.node = c := by
  rw [descendants, preorderAll_eq] at h ⊢
  obtain ⟨d, hd, hv⟩ := List.mem_flatMap.mp h
  rcases preorder_above d root [] v hv c hc with habove | ⟨u, hu, hnode⟩
  · exact .inl (List.mem_singleton.mp habove)
  · exact .inr ⟨u, List.mem_flatMap.mpr ⟨d, hd, hu⟩, hnode⟩

end Upward

section Order

theorem head?_preorder (parent : RoseTree α) (above : List (RoseTree α)) (t : RoseTree α) :
    (preorder parent above t).head? = some ⟨t, parent, above⟩ := by
  cases t with
  | node a cs => rfl

theorem head?_preorderAll (parent : RoseTree α) (above cs : List (RoseTree α)) :
    (preorderAll parent above cs).head? = cs.head?.map fun c => ⟨c, parent, above⟩ := by
  cases cs with
  | nil => rfl
  | cons c cs => simp [preorderAll, head?_preorder]

theorem preorderAll_eq_nil {parent : RoseTree α} {above cs : List (RoseTree α)}
    (h : preorderAll parent above cs = []) : cs = [] := by
  have hhead := head?_preorderAll parent above cs
  rw [h] at hhead
  simpa using hhead.symm

def EndsBelow (t parent : RoseTree α) (above : List (RoseTree α)) (v : Visit α) : Prop :=
  v.node.children = [] ∧ ∃ left, v.path = left ++ parent :: above ∧ (v.node :: left).IsChain LastChildOf ∧
    (v.node :: left).getLast (List.cons_ne_nil _ _) = t

theorem EndsBelow.up {t parent grand : RoseTree α} {aboves : List (RoseTree α)} {v : Visit α}
    (h : EndsBelow t parent (grand :: aboves) v) (hlast : LastChildOf t parent) :
    EndsBelow parent grand aboves v := by
  obtain ⟨hleaf, left, hup, hchain, hend⟩ := h
  refine ⟨hleaf, left ++ [parent], by simpa using hup, ?_, by simp⟩
  rw [← List.cons_append]
  apply hchain.append (.singleton parent)
  intro a ha b hb
  obtain rfl : t = a := by
    rw [List.getLast?_eq_getLast_of_ne_nil (List.cons_ne_nil _ _), hend] at ha
    exact Option.some.inj ha
  obtain rfl : parent = b := by simpa using hb
  exact hlast

theorem preorderAll_next {parent : RoseTree α} {above before cs : List (RoseTree α)}
    (hcs : parent.children = before ++ cs)
    (h : ∀ c ∈ cs, (preorder parent above c).IsChain Next ∧
      ∀ v ∈ (preorder parent above c).getLast?, EndsBelow c parent above v) :
    (preorderAll parent above cs).IsChain Next ∧
      ∀ v ∈ (preorderAll parent above cs).getLast?, ∃ c ∈ cs.getLast?, EndsBelow c parent above v := by
  induction cs generalizing before with
  | nil => exact ⟨.nil, fun v hv => by cases hv⟩
  | cons c cs ih =>
      obtain ⟨hfirst, hend⟩ := h c List.mem_cons_self
      obtain ⟨hrest, hlast⟩ := @ih (before ++ [c]) (by simpa using hcs)
        fun d hd => h d (List.mem_cons_of_mem _ hd)
      rw [preorderAll]
      refine ⟨hfirst.append hrest ?_, ?_⟩
      · intro v hv w hw
        obtain ⟨hleaf, left, hup, hchain, rfl⟩ := hend v hv
        rw [head?_preorderAll, Option.mem_def] at hw
        obtain ⟨d, hd, rfl⟩ := Option.map_eq_some_iff.mp hw
        obtain ⟨after, rfl⟩ := List.head?_eq_some_iff.mp hd
        exact .across hleaf hup hchain hcs
      · intro v hv
        rw [List.getLast?_append, Option.mem_def, Option.or_eq_some_iff] at hv
        rcases hv with hv | ⟨hnone, hv⟩
        · obtain ⟨d, hd, hends⟩ := hlast v hv
          refine ⟨d, ?_, hends⟩
          rw [List.getLast?_cons, Option.mem_def.mp hd]
          rfl
        · obtain rfl := preorderAll_eq_nil (List.getLast?_eq_none_iff.mp hnone)
          exact ⟨c, rfl, hend v hv⟩

theorem preorder_next (t : RoseTree α) : ∀ parent above, (preorder parent above t).IsChain Next ∧
    ∀ v ∈ (preorder parent above t).getLast?, EndsBelow t parent above v := by
  induction t using RoseTree.childInduction with
  | hnode a cs ih =>
      intro parent above
      obtain ⟨hchain, hlast⟩ := @preorderAll_next α (.node a cs) (parent :: above) [] cs rfl
        fun c hc => ih c hc _ _
      rw [preorder]
      refine ⟨hchain.cons ?_, ?_⟩
      · intro w hw
        rw [head?_preorderAll, Option.mem_def] at hw
        obtain ⟨c, hc, rfl⟩ := Option.map_eq_some_iff.mp hw
        obtain ⟨after, hcs⟩ := List.head?_eq_some_iff.mp hc
        exact @Next.down α ⟨.node a cs, parent, above⟩ c after hcs
      · intro v hv
        rw [List.getLast?_cons, Option.mem_def, Option.some.injEq] at hv
        cases hlastv : (preorderAll (.node a cs) (parent :: above) cs).getLast? with
        | none =>
            rw [hlastv, Option.getD_none] at hv
            subst hv
            exact ⟨preorderAll_eq_nil (List.getLast?_eq_none_iff.mp hlastv), [], rfl, .singleton _, rfl⟩
        | some w =>
            rw [hlastv, Option.getD_some] at hv
            subst hv
            obtain ⟨c, hc, hends⟩ := hlast w hlastv
            exact hends.up hc

/-- The visits below a root follow each other, and the last one is of a leaf. -/
theorem descendants_next (root : RoseTree α) : (descendants root).IsChain Next ∧
    ∀ v ∈ (descendants root).getLast?, v.node.children = [] := by
  obtain ⟨hchain, hlast⟩ := @preorderAll_next α root [] [] root.children rfl
    fun c _ => preorder_next c root []
  refine ⟨hchain, ?_⟩
  intro v hv
  obtain ⟨c, -, hleaf, -⟩ := hlast v hv
  exact hleaf

theorem descendants_head {root : RoseTree α} {v : Visit α} (h : (descendants root).head? = some v) :
    v.parent = root ∧ v.above = [] := by
  rw [descendants, head?_preorderAll] at h
  obtain ⟨c, -, rfl⟩ := Option.map_eq_some_iff.mp h
  exact ⟨rfl, rfl⟩

end Order

/-- The second list with entries repeated in their place. -/
inductive Repeats {β : Type} : List β → List β → Prop
  | nil : Repeats [] []
  | again {b : β} {stack path : List β} : Repeats stack (b :: path) → Repeats (b :: stack) (b :: path)
  | next {b : β} {stack path : List β} : Repeats stack path → Repeats (b :: stack) (b :: path)

section Repeats

variable {β : Type} {stack path : List β}

theorem Repeats.refl (path : List β) : Repeats path path := by
  induction path with
  | nil => exact .nil
  | cons b path ih => exact .next ih

theorem Repeats.mem_iff (h : Repeats stack path) (b : β) : b ∈ stack ↔ b ∈ path := by
  induction h with
  | nil => rfl
  | again _ ih => rw [List.mem_cons, ih, List.mem_cons, or_self_left]
  | next _ ih => rw [List.mem_cons, ih, List.mem_cons]

theorem Repeats.getLast? (h : Repeats stack path) : stack.getLast? = path.getLast? := by
  have hcons : ∀ {b : β} {l l' : List β}, l.getLast? = l'.getLast? → (b :: l).getLast? = (b :: l').getLast? := by
    intro b l l' hsame
    rw [List.getLast?_cons, List.getLast?_cons, hsame]
  induction h with
  | nil => rfl
  | again _ ih => rw [hcons ih, List.getLast?_cons_cons]
  | next _ ih => exact hcons ih

theorem Repeats.dropWhile {p : β → Bool} {left right : List β} {b : β}
    (h : Repeats stack (left ++ b :: right)) (hleft : ∀ c ∈ left, p c = true) (hb : p b = false) :
    Repeats (stack.dropWhile p) (b :: right) := by
  induction stack generalizing left with
  | nil =>
      cases left <;> cases h
  | cons c stack ih =>
      cases left with
      | nil =>
          obtain rfl : c = b := by cases h <;> rfl
          rw [List.dropWhile_cons_of_neg (by simp [hb])]
          exact h
      | cons d left =>
          obtain rfl : c = d := by cases h <;> rfl
          rw [List.dropWhile_cons_of_pos (hleft c List.mem_cons_self)]
          cases h with
          | again h => exact @ih (c :: left) h hleft
          | next h => exact ih h fun e he => hleft e (List.mem_cons_of_mem _ he)

end Repeats

end Prongc.Library.VisitOrder
