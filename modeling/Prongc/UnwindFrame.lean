import Mathlib.Data.List.Forall2
import Prongc.Unwind

namespace Prongc.UnwindFrame

open Access WalkFunc Unwind Library.Traversal

def Renames (va va' : VarAccess) : Prop := ∃ usr, va' = { va with usr := usr }

def RenamesIn (func func' : FuncData) : Prop :=
  ∃ vas, func' = { func with varAccesses := vas } ∧ List.Forall₂ Renames func.varAccesses vas

def Unwound (root : FuncInfo) (path : List Nat) : Prop :=
  ∀ above, above <+: path → ∀ func, root.subtreeAt above = some func → isLeafCallee func = false

theorem Renames.refl (va : VarAccess) : Renames va va := ⟨va.usr, rfl⟩

theorem Renames.trans {va va' va'' : VarAccess} (h : Renames va va') (h' : Renames va' va'') :
    Renames va va'' := by
  obtain ⟨usr, rfl⟩ := h
  obtain ⟨usr', rfl⟩ := h'
  exact ⟨usr', rfl⟩

theorem forall₂_renames_refl (vas : List VarAccess) : List.Forall₂ Renames vas vas :=
  List.forall₂_same.mpr fun va _ => Renames.refl va

theorem forall₂_renames_trans {vas vas' vas'' : List VarAccess} (h : List.Forall₂ Renames vas vas')
    (h' : List.Forall₂ Renames vas' vas'') : List.Forall₂ Renames vas vas'' := by
  induction h generalizing vas'' with
  | nil => exact h'
  | cons hva _ ih =>
      cases h' with
      | cons hva' h' => exact .cons (hva.trans hva') (ih h')

theorem forall₂_renames_map {f : VarAccess → VarAccess} (hf : ∀ va, Renames va (f va))
    (vas : List VarAccess) : List.Forall₂ Renames vas (vas.map f) := by
  induction vas with
  | nil => exact .nil
  | cons va vas ih => exact .cons (hf va) ih

theorem mapArgument_renames (paramUsr arg : String) (va : VarAccess) :
    Renames va (mapArgument paramUsr arg va) := by
  rw [mapArgument]
  split
  next usr _ =>
    split
    · exact ⟨_, rfl⟩
    · exact Renames.refl va
  next => exact Renames.refl va

theorem argumentAccesses_renames (parsed : Option (List String)) (func : FuncData) :
    List.Forall₂ Renames func.varAccesses (argumentAccesses parsed func) := by
  cases parsed with
  | none => exact forall₂_renames_refl _
  | some call =>
      refine List.foldlRecOn (motive := List.Forall₂ Renames func.varAccesses) _ _
        (forall₂_renames_refl _) ?_
      intro vas h arg _
      exact forall₂_renames_trans h (forall₂_renames_map (mapArgument_renames arg.1 arg.2) vas)

theorem RenamesIn.refl (func : FuncData) : RenamesIn func func :=
  ⟨func.varAccesses, rfl, forall₂_renames_refl _⟩

theorem resolveVarAccessAlias_renames (func : FuncData) (va : VarAccess) :
    RenamesIn func (resolveVarAccessAlias func va) := by
  refine ⟨_, rfl, forall₂_renames_map ?_ _⟩
  intro working
  split
  · exact ⟨_, rfl⟩
  · exact Renames.refl working

theorem RenamesIn.trans {func func' func'' : FuncData} (h : RenamesIn func func')
    (h' : RenamesIn func' func'') : RenamesIn func func'' := by
  obtain ⟨vas, rfl, hvas⟩ := h
  obtain ⟨vas', rfl, hvas'⟩ := h'
  exact ⟨vas', rfl, forall₂_renames_trans hvas hvas'⟩

theorem forall₂_set {α β : Type} {R : α → β → Prop} {as : List α} {bs : List β} {i : Nat} {b : β}
    (h : List.Forall₂ R as bs) (hb : ∀ a, as[i]? = some a → R a b) : List.Forall₂ R as (bs.set i b) := by
  induction h generalizing i with
  | nil => exact .nil
  | cons hab h ih =>
      cases i with
      | zero => exact .cons (hb _ rfl) h
      | succ i => exact .cons hab (ih hb)

theorem forall₂_getElem? {α β : Type} {R : α → β → Prop} {as : List α} {bs : List β} {i : Nat} {a : α}
    {b : β} (h : List.Forall₂ R as bs) (ha : as[i]? = some a) (hb : bs[i]? = some b) : R a b := by
  induction h generalizing i with
  | nil => cases ha
  | cons hab h ih =>
      cases i with
      | zero =>
          obtain rfl := Option.some.inj ha
          obtain rfl := Option.some.inj hb
          exact hab
      | succ i => exact ih ha hb

theorem resolveNext_renames {callees : List FuncData} {st : Nat × List FuncData} (va : VarAccess)
    (h : List.Forall₂ RenamesIn callees st.2) : List.Forall₂ RenamesIn callees (resolveNext st va).2 := by
  rw [resolveNext]
  split
  next =>
    split
    next func hfunc =>
      split
      · exact h
      · apply forall₂_set h
        intro callee hcallee
        exact (forall₂_getElem? h hcallee hfunc).trans (resolveVarAccessAlias_renames func va)
    next => exact h
  next => exact h

theorem resolveAliases_renames (vas : List VarAccess) (callees : List FuncData) :
    List.Forall₂ RenamesIn callees (resolveAliases vas callees) := by
  refine List.foldlRecOn (motive := fun st : Nat × List FuncData => List.Forall₂ RenamesIn callees st.2)
    _ _ (List.forall₂_same.mpr fun func _ => RenamesIn.refl func) ?_
  intro st h va _
  exact resolveNext_renames va h

theorem unwindCallees_getElem? {labels : List FuncData} {callees : List FuncInfo} {i : Nat}
    {callee : FuncInfo} (h : List.Forall₂ RenamesIn (callees.map RoseTree.label) labels)
    (hcallee : callees[i]? = some callee) :
    ∃ label, RenamesIn callee.label label ∧
      (unwindCallees labels callees)[i]? = some (unwindAs none label callee) := by
  induction callees generalizing i labels with
  | nil => cases hcallee
  | cons first callees ih =>
      cases h with
      | @cons _ label _ labels hlabel h =>
          rw [unwindCallees]
          cases i with
          | zero =>
              obtain rfl := Option.some.inj hcallee
              exact ⟨label, hlabel, rfl⟩
          | succ i => exact ih h hcallee

theorem Unwound.child {root callee : FuncInfo} {i : Nat} {path : List Nat} (h : Unwound root (i :: path))
    (hcallee : root.children[i]? = some callee) : Unwound callee path := by
  intro above habove func hfunc
  apply h (i :: above) (List.cons_prefix_cons.mpr ⟨rfl, habove⟩) func
  rw [RoseTree.subtreeAt, hcallee, Option.bind_some, hfunc]

theorem unwindAs_subtreeAt {parsed : Option (List String)} {root func : FuncInfo} {label : FuncData}
    {path : List Nat} (hlabel : RenamesIn root.label label) (hunwound : Unwound root path)
    (hat : root.subtreeAt path = some func) :
    ∃ vas func', List.Forall₂ Renames func.label.varAccesses vas ∧
      (unwindAs parsed label root).subtreeAt path = some func' ∧
      func'.label = { func.label with varAccesses := vas.map (markVarAccess func.label) } := by
  induction path generalizing parsed root label with
  | nil =>
      obtain rfl : root = func := Option.some.inj hat
      have hleaf := hunwound [] List.nil_prefix root rfl
      obtain ⟨vas, rfl, hvas⟩ := hlabel
      cases root with
      | node d callees =>
          refine ⟨argumentAccesses parsed { d with varAccesses := vas }, _,
            forall₂_renames_trans hvas (argumentAccesses_renames parsed { d with varAccesses := vas }), rfl, ?_⟩
          rw [unwindAs, if_neg (by simpa [isLeafCallee] using hleaf)]
          rfl
  | cons i path ih =>
      have hleaf := hunwound [] List.nil_prefix root rfl
      obtain ⟨callee, hcallee, hsub⟩ := Option.bind_eq_some_iff.mp hat
      have hbelow := hunwound.child hcallee
      cases root with
      | node d callees =>
          obtain ⟨vas, rfl, hvas⟩ := hlabel
          simp only [RoseTree.label_node, RoseTree.children_node] at hcallee hvas ⊢
          obtain ⟨label, hlabel, hlabelAt⟩ := unwindCallees_getElem?
            (resolveAliases_renames (argumentAccesses parsed { d with varAccesses := vas }) _) hcallee
          obtain ⟨vas', func', hvas', hsub', hfunc'⟩ := @ih none callee label hlabel hbelow hsub
          refine ⟨vas', func', hvas', ?_, hfunc'⟩
          rw [unwindAs, if_neg (by simpa [isLeafCallee] using hleaf), RoseTree.subtreeAt,
            RoseTree.children_node, hlabelAt, Option.bind_some, hsub']

theorem unwindFuncInfo_subtreeAt (parsed : Option (List String)) {root func : FuncInfo} {path : List Nat}
    (hunwound : Unwound root path) (hat : root.subtreeAt path = some func) :
    ∃ vas func', List.Forall₂ Renames func.label.varAccesses vas ∧
      (unwindFuncInfo parsed root).subtreeAt path = some func' ∧
      func'.label = { func.label with varAccesses := vas.map (markVarAccess func.label) } :=
  unwindAs_subtreeAt (RenamesIn.refl _) hunwound hat

section Splicing

variable {va : VarAccess} (vas : List VarAccess) (footprints : List (List VarAccess))

theorem spliceFootprints_call (hcall : va.type = .call) (footprint : List VarAccess) :
    spliceFootprints (va :: vas) (footprint :: footprints) = footprint ++ spliceFootprints vas footprints := by
  rw [spliceFootprints, if_pos hcall]

theorem spliceFootprints_call_nil (hcall : va.type = .call) :
    spliceFootprints (va :: vas) [] = spliceFootprints vas [] := by
  rw [spliceFootprints, if_pos hcall]

theorem spliceFootprints_null (hnull : va.type = .null) :
    spliceFootprints (va :: vas) footprints = spliceFootprints vas footprints := by
  simp [spliceFootprints, hnull]

theorem spliceFootprints_other (hcall : va.type ≠ .call) (hnull : va.type ≠ .null) :
    spliceFootprints (va :: vas) footprints = va :: spliceFootprints vas footprints := by
  simp only [spliceFootprints, hcall, hnull, if_false]

end Splicing

end Prongc.UnwindFrame
