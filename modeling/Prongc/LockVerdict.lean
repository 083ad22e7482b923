import Prongc.LockReach

namespace Prongc.LockVerdict

open Access LockTracking LockRanges LockReach Library.LinkedArray Library.BranchMarkers Library.SizeT

def ifEntries (fp : List VarAccess) : Nat := fp.countP fun va => va.type == .ifStmt

def endIfEntries (fp : List VarAccess) : Nat := fp.countP fun va => va.type == .endIf

@[simp] theorem ifEntries_nil : ifEntries [] = 0 := rfl

@[simp] theorem ifEntries_cons (va : VarAccess) (fp : List VarAccess) :
    ifEntries (va :: fp) = ifEntries fp + if va.type = .ifStmt then 1 else 0 := by
  simp [ifEntries, List.countP_cons]

@[simp] theorem ifEntries_append (fp fp' : List VarAccess) :
    ifEntries (fp ++ fp') = ifEntries fp + ifEntries fp' := List.countP_append

@[simp] theorem endIfEntries_cons (va : VarAccess) (fp : List VarAccess) :
    endIfEntries (va :: fp) = endIfEntries fp + if va.type = .endIf then 1 else 0 := by
  simp [endIfEntries, List.countP_cons]

/-- A footprint the annotation is made for: branch markers are bracketed, every
acquisition is by a known primitive, lock entries name their object, and
branch_depth can count the ifs. -/
structure WellFormed (lockPairArray : List LockPrimitivePair) (fp : List VarAccess) : Prop where
  bracketed : Bracketed mark fp
  acquire : ∀ va ∈ fp, va.type = .lockAcquire →
    va.usr.isSome ∧ (getPairByLockFunc lockPairArray va.escFuncSpelling).isSome
  release : ∀ va ∈ fp, va.type = .lockRelease → va.usr.isSome
  fits : ifEntries fp < 2 ^ 64

/-- The array after the entries `seen`: one chain an acquisition, with `View`
holding of its ranges. -/
structure Annotated (View : Nat × UInt32 → List Segment → Prop) (seen : List VarAccess)
    (st : ProtectionFieldArray × Nat) : Prop where
  chains : ∃ z, Threads st.1 z ∧ starts z = (acquisitions seen).map Prod.fst ∧
    (∀ c ∈ labels z, c < seen.length) ∧
    ∀ x ∈ acquisitions seen, (∀ s ∈ segmentsOf z x.1, s.objHash = x.2) ∧ View x (segmentsOf z x.1)
  depth : st.2 = seen.foldl nextDepth 0

theorem annotated_init (View : Nat × UInt32 → List Segment → Prop) :
    Annotated View [] (initProtectionFieldArray, 0) :=
  ⟨⟨[], threads_init, rfl, fun c hc => by simp [labels] at hc, fun x hx => by simp [acquisitions] at hx⟩, rfl⟩

theorem segmentsOf_append (z z' : List (LockProtectionField × Nat)) (c : Nat) :
    segmentsOf (z ++ z') c = segmentsOf z c ++ segmentsOf z' c := by
  simp [segmentsOf, members_append]

theorem segmentsOf_of_fresh {z : List (LockProtectionField × Nat)} {c : Nat} (h : c ∉ labels z) :
    segmentsOf z c = [] := by
  have : z.filter (fun y => y.2 == c) = [] := List.filter_eq_nil_iff.mpr fun y hy => by
    simp only [beq_iff_eq]
    rintro rfl
    exact h (List.mem_map_of_mem hy)
  simp [segmentsOf, members, this]

theorem objHash_closeAt (objHash : UInt32) (r : Nat) (s : Segment) :
    (s.closeAt objHash r).objHash = s.objHash := by
  rw [Segment.closeAt]
  split_ifs <;> rfl

theorem objHash_splitAt (t depth : Nat) (s : Segment) : (s.splitAt t depth).objHash = s.objHash := by
  rw [Segment.splitAt]
  split_ifs <;> rfl

theorem objHash_entrySegments {fp : List VarAccess} {n depth : Nat} {va : VarAccess} {l : List Segment}
    {objHash : UInt32} (h : ∀ s ∈ l, s.objHash = objHash) :
    ∀ s ∈ entrySegments fp n depth va l, s.objHash = objHash := by
  have hmap {f : Segment → Segment} {l' : List Segment} (hf : ∀ s, (f s).objHash = s.objHash)
      (hl : ∀ s ∈ l', s.objHash = objHash) : ∀ s ∈ l'.map f, s.objHash = objHash := by
    intro s hs
    obtain ⟨y, hy, rfl⟩ := List.mem_map.mp hs
    rw [hf, hl y hy]
  have happ {l₁ l₂ : List Segment} (h₁ : ∀ s ∈ l₁, s.objHash = objHash)
      (h₂ : ∀ s ∈ l₂, s.objHash = objHash) : ∀ s ∈ l₁ ++ l₂, s.objHash = objHash := by
    intro s hs
    exact (List.mem_append.mp hs).elim (h₁ s) (h₂ s)
  rw [entrySegments]
  split
  · cases va.usr with
    | none => exact h
    | some usr => exact hmap (objHash_closeAt _ _) h
  · cases startOfBranch fp n with
    | none => exact h
    | some t =>
        exact happ (hmap (objHash_splitAt _ _) h)
          (hmap (fun _ => rfl) fun s hs => h s (List.mem_filter.mp hs).1)
  · refine happ h (hmap (fun _ => rfl) fun s hs => h s ?_)
    have hs := (List.mem_filter.mp hs).1
    simp only [Option.mem_toList] at hs
    exact List.mem_of_getLast? hs
  · exact h

section Annotate

variable {lockPairArray : List LockPrimitivePair} {fp seen : List VarAccess} {va : VarAccess}
  {View View' : Nat × UInt32 → List Segment → Prop} {st : ProtectionFieldArray × Nat}

theorem Annotated.rewrite (h : Annotated View seen st) (hty : va.type ≠ .lockAcquire)
    {arr' : ProtectionFieldArray}
    (hop : ∀ z, Threads st.1 z → ∃ z', Threads arr' z' ∧ starts z' = starts z ∧
      (∀ c, c ∈ labels z' ↔ c ∈ labels z) ∧
      ∀ c, segmentsOf z' c = entrySegments fp seen.length st.2 va (segmentsOf z c))
    (hV : ∀ x ∈ acquisitions seen, ∀ l, (∀ s ∈ l, s.objHash = x.2) → View x l →
      View' x (entrySegments fp seen.length st.2 va l)) :
    Annotated View' (seen ++ [va]) (arr', nextDepth st.2 va) := by
  obtain ⟨z, hz, hst, hl, hc⟩ := h.chains
  obtain ⟨z', hz', hst', hl', hc'⟩ := hop z hz
  have hacq : acquisitions (seen ++ [va]) = acquisitions seen := by
    rw [acquisitions_snoc, if_neg hty]
    simp
  refine ⟨⟨z', hz', by rw [hst', hst, hacq], fun c hm => ?_, fun x hx => ?_⟩, ?_⟩
  · have := hl c ((hl' c).mp hm)
    simp
    omega
  · rw [hacq] at hx
    obtain ⟨ho, hv⟩ := hc x hx
    rw [hc']
    exact ⟨objHash_entrySegments ho, hV x hx _ ho hv⟩
  · simp [h.depth]

theorem Annotated.acquire (h : Annotated View seen st) (hty : va.type = .lockAcquire) {usr : String}
    (hu : va.usr = some usr) {arr' : ProtectionFieldArray} {pair : Option LockPrimitivePair}
    (ha : addLockProtectionField st.1 pair va seen.length = some arr')
    (hV : ∀ x ∈ acquisitions seen, ∀ l, (∀ s ∈ l, s.objHash = x.2) → View x l → View' x l)
    (hnew : View' (seen.length, lockTrackingGenHash usr)
      [⟨seen.length, none, 0, lockTrackingGenHash usr⟩]) :
    Annotated View' (seen ++ [va]) (arr', st.2) := by
  obtain ⟨z, hz, hst, hl, hc⟩ := h.chains
  have hfresh : seen.length ∉ labels z := fun hm => by have := hl _ hm; omega
  obtain ⟨f, usr', hu', hseg, hz', hst'⟩ := hz.add ha hfresh
  obtain rfl : usr = usr' := by rw [hu] at hu'; exact Option.some.inj hu'
  have hacq : acquisitions (seen ++ [va]) =
      acquisitions seen ++ [(seen.length, lockTrackingGenHash usr)] := by
    rw [acquisitions_snoc, if_pos hty, hu]
    rfl
  have hlast : segmentsOf [(f, seen.length)] seen.length =
      [⟨seen.length, none, 0, lockTrackingGenHash usr⟩] := by
    simp [segmentsOf, members, hseg]
  refine ⟨⟨z ++ [(f, seen.length)], hz', by simp [hst', hst, hacq], fun c hm => ?_, fun x hx => ?_⟩, ?_⟩
  · rw [List.length_append, List.length_singleton]
    rw [labels, List.map_append, List.mem_append] at hm
    rcases hm with hm | hm
    · have := hl c hm
      omega
    · simp at hm
      omega
  · rw [hacq, List.mem_append] at hx
    rw [segmentsOf_append]
    rcases hx with hx | hx
    · have hlt := acquisitions_lt hx
      have hnil : segmentsOf [(f, seen.length)] x.1 = [] := by
        simp [segmentsOf, members]
        omega
      obtain ⟨ho, hv⟩ := hc x hx
      rw [hnil, List.append_nil]
      exact ⟨ho, hV x hx _ ho hv⟩
    · rw [List.mem_singleton.mp hx, segmentsOf_of_fresh hfresh, List.nil_append, hlast]
      exact ⟨fun s hs => by rw [List.mem_singleton.mp hs], hnew⟩
  · simp [h.depth, nextDepth, hty]

theorem Annotated.entry (h : Annotated View seen st)
    (hacq : va.type = .lockAcquire →
      va.usr.isSome ∧ (getPairByLockFunc lockPairArray va.escFuncSpelling).isSome)
    (hrel : va.type = .lockRelease → va.usr.isSome)
    (hif : va.type = .ifStmt → (startOfBranch fp seen.length).isSome)
    (hV : ∀ x ∈ acquisitions seen, ∀ l, (∀ s ∈ l, s.objHash = x.2) → View x l →
      View' x (entrySegments fp seen.length st.2 va l))
    (hnew : ∀ usr, va.type = .lockAcquire → va.usr = some usr →
      View' (seen.length, lockTrackingGenHash usr) [⟨seen.length, none, 0, lockTrackingGenHash usr⟩]) :
    ∃ st', annotateAt inPlace lockPairArray fp st (va, seen.length) = some st' ∧
      Annotated View' (seen ++ [va]) st' := by
  have hkeep (hty : va.type ≠ .lockAcquire) (hid : ∀ l, entrySegments fp seen.length st.2 va l = l) :
      Annotated View' (seen ++ [va]) (st.1, nextDepth st.2 va) :=
    h.rewrite hty (fun z hz => ⟨z, hz, rfl, fun _ => Iff.rfl, fun c => (hid _).symm⟩) hV
  cases hty : va.type with
  | lockAcquire =>
      obtain ⟨hu, hp⟩ := hacq hty
      obtain ⟨usr, hu⟩ := Option.isSome_iff_exists.mp hu
      obtain ⟨pair, hp⟩ := Option.isSome_iff_exists.mp hp
      obtain ⟨arr', ha⟩ : ∃ arr', addLockProtectionField st.1
          (getPairByLockFunc lockPairArray va.escFuncSpelling) va seen.length = some arr' := by
        simp [addLockProtectionField, initLpField, hp, hu]
      refine ⟨(arr', st.2), by simp [annotateAt, hty, ha], h.acquire hty hu ha ?_ (hnew usr hty hu)⟩
      intro x hx l ho hv
      simpa [entrySegments, hty] using hV x hx l ho hv
  | lockRelease =>
      obtain ⟨usr, hu⟩ := Option.isSome_iff_exists.mp (hrel hty)
      refine ⟨(setProtectionRangeEnd st.1 usr seen.length, nextDepth st.2 va),
        by simp [annotateAt, hty, hu, nextDepth], h.rewrite (by simp [hty]) (fun z hz => ?_) hV⟩
      obtain ⟨z', hz', hst', hl', hc'⟩ := hz.close usr seen.length
      exact ⟨z', hz', hst', fun c => by rw [hl'], fun c => by simp [hc', entrySegments, hty, hu]⟩
  | ifStmt =>
      obtain ⟨t, ht⟩ := Option.isSome_iff_exists.mp (hif hty)
      refine ⟨(addProtectionRangeFieldsActive inPlace st.1 t (sizeSucc st.2), nextDepth st.2 va),
        by simp [annotateAt, hty, ht, nextDepth], h.rewrite (by simp [hty]) (fun z hz => ?_) hV⟩
      obtain ⟨z', hz', hst', hl', hc'⟩ := hz.split t (sizeSucc st.2)
      exact ⟨z', hz', hst', hl', fun c => by simp [hc', entrySegments, hty, ht]⟩
  | elseStmt =>
      refine ⟨(addProtectionRangeFieldsInactive inPlace st.1 seen.length (sizePred st.2), nextDepth st.2 va),
        by simp [annotateAt, hty, nextDepth], h.rewrite (by simp [hty]) (fun z hz => ?_) hV⟩
      obtain ⟨z', hz', hst', hl', hc'⟩ := hz.revive seen.length (sizePred st.2)
      exact ⟨z', hz', hst', hl', fun c => by simp [hc', entrySegments, hty]⟩
  | _ =>
      exact ⟨_, by simp [annotateAt, hty, nextDepth],
        hkeep (by simp [hty]) (fun l => by simp [entrySegments, hty])⟩

end Annotate

theorem length_of_run {ps ps' : List Phase} {l : List VarAccess} (h : run mark ps l = some ps') :
    ps'.length + endIfEntries l = ps.length + ifEntries l := by
  induction l generalizing ps with
  | nil =>
      rw [run_nil, Option.some.injEq] at h
      rw [h]
      rfl
  | cons va l ih =>
      rw [run_cons] at h
      obtain ⟨ps₁, hs, hr⟩ := Option.bind_eq_some_iff.mp h
      have hrest := ih hr
      rw [advance, mark] at hs
      rw [endIfEntries_cons, ifEntries_cons]
      cases hty : va.type <;> simp only [hty, Option.some.injEq, reduceCtorEq, if_false, if_true] at hs ⊢
      case ifStmt =>
        have hlen : ps₁.length = ps.length + 1 := step_length hs
        omega
      case thenBlock =>
        have hlen : ps₁.length = ps.length := step_length hs
        omega
      case elseStmt =>
        have hlen : ps₁.length = ps.length := step_length hs
        omega
      case endIf =>
        have hlen : ps₁.length = ps.length - 1 := step_length hs
        cases ps with
        | nil => simp [Library.BranchMarkers.step] at hs
        | cons p ps =>
            simp only [List.length_cons] at hlen ⊢
            omega
      all_goals
        subst hs
        omega

theorem nextDepth_advance {ps ps' : List Phase} {va : VarAccess} (h : advance mark ps va = some ps')
    (hfits : ps.length + ifEntries [va] < 2 ^ 64) : nextDepth ps.length va = ps'.length := by
  rw [advance, mark] at h
  rw [nextDepth]
  cases hty : va.type <;> simp only [hty, Option.some.injEq] at h ⊢
  case ifStmt =>
    simp only [ifEntries_cons, hty, if_true, ifEntries_nil] at hfits
    rw [step_length h, sizeSucc_of_lt (by omega)]
  case thenBlock => exact (step_length h).symm
  case elseStmt => exact (step_length h).symm
  case endIf =>
    rw [step_length h]
    cases ps with
    | nil => simp [Library.BranchMarkers.step] at h
    | cons p ps => rfl
  all_goals rw [h]

/-- branch_depth is the number of open ifs, where it can count them. -/
theorem foldl_nextDepth {ps ps' : List Phase} {l : List VarAccess} (h : run mark ps l = some ps')
    (hfits : ps.length + ifEntries l < 2 ^ 64) : l.foldl nextDepth ps.length = ps'.length := by
  induction l generalizing ps with
  | nil =>
      rw [run_nil, Option.some.injEq] at h
      rw [h]
      rfl
  | cons va l ih =>
      rw [run_cons] at h
      obtain ⟨ps₁, hs, hr⟩ := Option.bind_eq_some_iff.mp h
      have hlen := length_of_run ((run_singleton ps va).trans hs)
      simp only [ifEntries_cons, ifEntries_nil] at hfits hlen
      rw [List.foldl_cons, nextDepth_advance hs (by simp only [ifEntries_cons, ifEntries_nil]; omega)]
      exact ih hr (by omega)

/-- Where an entry stands, branch_depth is the number of ifs around it, and counting one more if does
not wrap. -/
theorem depth_of_ifs {fp seen rest : List VarAccess} {va : VarAccess} {ps : List Phase}
    (hfits : ifEntries fp < 2 ^ 64) (hfp : fp = seen ++ va :: rest) (hps : run mark [] seen = some ps) :
    seen.foldl nextDepth 0 = ps.length ∧ (va.type = .ifStmt → sizeSucc ps.length ≠ 0) := by
  rw [hfp, ifEntries_append, ifEntries_cons] at hfits
  have hlen := length_of_run hps
  rw [List.length_nil] at hlen
  refine ⟨foldl_nextDepth hps (by rw [List.length_nil]; omega), fun hty => ?_⟩
  rw [if_pos hty] at hfits
  rw [sizeSucc_of_lt (by omega)]
  exact Nat.succ_ne_zero _

theorem mark_ifStmt_iff {va : VarAccess} : mark va = some .ifStmt ↔ va.type = .ifStmt := by
  rw [mark]
  cases va.type <;> simp

theorem mark_thenBlock_iff {va : VarAccess} : mark va = some .thenBlock ↔ va.type = .thenBlock := by
  rw [mark]
  cases va.type <;> simp

theorem then_of_bracketed {fp seen rest : List VarAccess} {va : VarAccess} (hb : Bracketed mark fp)
    (hfp : fp = seen ++ va :: rest) (hty : va.type = .ifStmt) : ∃ a ∈ rest, a.type = .thenBlock := by
  have hrun := (bracketed_iff_run fp).mp hb
  rw [hfp] at hrun
  obtain ⟨ps, -, hr⟩ := run_prefix hrun
  rw [run_cons_mark (mark_ifStmt_iff.mpr hty)] at hr
  obtain ⟨a, ha, hthen⟩ := exists_then_of_run ps hr
  exact ⟨a, ha, mark_thenBlock_iff.mp hthen⟩

theorem startOfBranch_isSome {fp seen rest : List VarAccess} {va : VarAccess} (hb : Bracketed mark fp)
    (hfp : fp = seen ++ va :: rest) (hty : va.type = .ifStmt) :
    (startOfBranch fp seen.length).isSome := by
  obtain ⟨a, ha, hthen⟩ := then_of_bracketed hb hfp hty
  exact startOfBranch_isSome_of_then hfp ha hthen

theorem foldlM_zipIdx_of_step {α σ : Type} {f : σ → α × Nat → Option σ} {P : List α → σ → Prop}
    {l : List α} {s : σ} (h0 : P [] s)
    (hstep : ∀ seen a rest s, l = seen ++ a :: rest → P seen s →
      ∃ s', f s (a, seen.length) = some s' ∧ P (seen ++ [a]) s') :
    ∃ s', l.zipIdx.foldlM f s = some s' ∧ P l s' := by
  suffices hs : ∀ rest seen s, l = seen ++ rest → P seen s →
      ∃ s', (rest.zipIdx seen.length).foldlM f s = some s' ∧ P l s' by
    simpa using hs l [] s rfl h0
  intro rest
  induction rest with
  | nil =>
      intro seen s hl hp
      rw [List.append_nil] at hl
      exact ⟨s, rfl, hl ▸ hp⟩
  | cons a rest ih =>
      intro seen s hl hp
      obtain ⟨s₁, hf, hp₁⟩ := hstep seen a rest s hl hp
      obtain ⟨s', hs', hp'⟩ := ih (seen ++ [a]) s₁ (by simp [hl]) hp₁
      refine ⟨s', ?_, hp'⟩
      rw [List.zipIdx_cons, List.foldlM_cons, hf]
      simpa using hs'

def View (fp : List VarAccess) (k : Nat) (seen : List VarAccess) (x : Nat × UInt32) (l : List Segment) :
    Prop :=
  if seen.length ≤ k then
    Before fp seen.length (holdAfter seen x.1 x.2) l ∧
      ∀ ps, run mark [] seen = some ps → (holdAfter seen x.1 x.2).Waiting ps
  else if x.1 < k then After k x.2 (seen.drop (k + 1)) (holdAfter (fp.take k) x.1 x.2) l
  else Capped k none l

theorem entrySegments_of_isAccess {fp : List VarAccess} {n depth : Nat} {va : VarAccess} {l : List Segment}
    (h : va.type.isAccess = true) : entrySegments fp n depth va l = l := by
  rw [entrySegments]
  cases hty : va.type <;> simp [hty, VarAccessType.isAccess] at h ⊢

theorem View.step {fp seen rest : List VarAccess} {va : VarAccess} {k depth : Nat} {x : Nat × UInt32}
    {l : List Segment} (hb : Bracketed mark fp)
    (hfits : ifEntries fp < 2 ^ 64) (hfp : fp = seen ++ va :: rest)
    (hacc : seen.length = k → va.type.isAccess = true) (hrel : va.type = .lockRelease → va.usr.isSome)
    (hd : depth = seen.foldl nextDepth 0) (hx : x ∈ acquisitions seen)
    (hobj : ∀ s ∈ l, s.objHash = x.2) (h : View fp k seen x l) :
    View fp k (seen ++ [va]) x (entrySegments fp seen.length depth va l) := by
  have hva : fp[seen.length]? = some va := by simp [hfp]
  have hstart := startOfBranch_isSome hb hfp
  obtain ⟨ps, hps, hr⟩ := run_prefix (hfp ▸ (bracketed_iff_run fp).mp hb)
  obtain ⟨hlen, hdepth⟩ := depth_of_ifs hfits hfp hps
  rw [← hd] at hlen
  rw [View] at h ⊢
  rw [List.length_append, List.length_singleton]
  rcases Nat.lt_trichotomy seen.length k with hlt | heq | hgt
  · rw [if_pos (by omega)] at h ⊢
    obtain ⟨hbef, hw⟩ := h
    rw [run_cons] at hr
    obtain ⟨ps', hs, -⟩ := Option.bind_eq_some_iff.mp hr
    rw [holdAfter_snoc (acquisitions_lt hx), ← hd, hlen]
    refine ⟨hbef.step hva hobj hs (hw ps hps) hstart hdepth hrel, fun ps'' hps'' => ?_⟩
    have : ps'' = ps' := by
      rw [run_append, hps] at hps''
      simpa [run, hs] using hps''.symm
    exact this ▸ (hw ps hps).next hs x.2
  · have htake : fp.take k = seen := by rw [hfp, ← heq]; simp
    rw [if_pos (by omega)] at h
    rw [if_neg (by omega), if_pos (heq ▸ acquisitions_lt hx), entrySegments_of_isAccess (hacc heq), htake]
    have hdrop : (seen ++ [va]).drop (k + 1) = [] := List.drop_eq_nil_of_le (by simp; omega)
    rw [hdrop]
    rw [heq] at h hva
    refine h.1.after hva ?_ x.2
    intro ht
    simp [ht, VarAccessType.isAccess] at hacc
    exact hacc heq
  · rw [if_neg (by omega)] at h ⊢
    split_ifs at h ⊢ with hk
    · rw [List.drop_append_of_le_length (by omega)]
      exact h.step hobj hgt hstart (hlen ▸ hdepth)
    · exact h.entry hgt

theorem View.acquire {fp seen : List VarAccess} {va : VarAccess} {k : Nat} (objHash : UInt32)
    (hty : va.type = .lockAcquire) (hacc : seen.length = k → va.type.isAccess = true) :
    View fp k (seen ++ [va]) (seen.length, objHash) [⟨seen.length, none, 0, objHash⟩] := by
  have hne : seen.length ≠ k := fun h => by simpa [hty, VarAccessType.isAccess] using hacc h
  rw [View]
  rw [List.length_append, List.length_singleton]
  split_ifs with hk hlt
  · rw [holdAfter_self]
    refine ⟨?_, fun ps _ hw => by simp at hw⟩
    rw [← List.nil_append [_]]
    exact .held (fun x hx => by simp at hx) (by simp) rfl rfl
  · omega
  · have hle : k ≤ seen.length := by simp only at hlt; omega
    refine ⟨fun x hx _ => ?_, ?_⟩
    · rw [List.mem_singleton.mp hx]
      exact hle
    · rw [List.filter_singleton, covers_of_le (s := ⟨seen.length, none, 0, objHash⟩) hle]
      rfl

section Reach

variable {lockPairArray : List LockPrimitivePair} {fp : List VarAccess} {k : Nat}

/-- The annotation of a well-formed footprint succeeds, and its chains are those
that the entries before and behind `k` call for. -/
theorem annotate_view (hfp : WellFormed lockPairArray fp)
    (hacc : ∀ va, fp[k]? = some va → va.type.isAccess = true) :
    ∃ arr depth, annotateLockProtectionRanges inPlace lockPairArray fp = some arr ∧
      Annotated (View fp k fp) fp (arr, depth) := by
  obtain ⟨st, hst, hann⟩ := foldlM_zipIdx_of_step (l := fp) (f := annotateAt inPlace lockPairArray fp)
    (P := fun seen st => Annotated (View fp k seen) seen st) (annotated_init _)
    (fun seen va rest st hl h => by
      have hmem : va ∈ fp := hl ▸ List.mem_append_right _ List.mem_cons_self
      have hva : fp[seen.length]? = some va := by simp [hl]
      have hk (he : seen.length = k) : va.type.isAccess = true := hacc va (he ▸ hva)
      refine h.entry (hfp.acquire va hmem) (hfp.release va hmem)
        (startOfBranch_isSome hfp.bracketed hl) ?_ ?_
      · intro x hx l ho hv
        exact hv.step hfp.bracketed hfp.fits hl hk (hfp.release va hmem) h.depth hx ho
      · intro usr hty _
        exact View.acquire _ hty hk)
  exact ⟨st.1, st.2, by rw [annotateLockProtectionRanges, hst]; rfl, hann⟩

/-- The ranges the code finds active at an access are those of the acquisitions
that reach it. -/
theorem active_eq_reaching (hfp : WellFormed lockPairArray fp) (hk : k < fp.length)
    (hacc : ∀ va, fp[k]? = some va → va.type.isAccess = true) {arr : ProtectionFieldArray}
    (harr : annotateLockProtectionRanges inPlace lockPairArray fp = some arr) :
    (getLpFieldsInRange arr k).map (fun f => (f.lockObjHash, decide (f.branchDepth ≠ 0))) =
      reaching fp k := by
  obtain ⟨arr', depth, harr', hann⟩ := annotate_view hfp hacc
  obtain rfl : arr = arr' := by rw [harr] at harr'; exact Option.some.inj harr'
  obtain ⟨z, hz, hst, -, hc⟩ := hann.chains
  have hmap : (getLpFieldsInRange arr k).map (fun f => (f.lockObjHash, decide (f.branchDepth ≠ 0))) =
      ((getLpFieldsInRange arr k).map segment).map (fun s => (s.objHash, decide (s.depth ≠ 0))) := by
    rw [List.map_map]
    rfl
  rw [hmap, hz.inRange, hst, List.flatMap_map, List.map_flatMap, reaching, List.filterMap_eq_flatMap_toList]
  apply List.flatMap_congr
  intro x hx
  obtain ⟨ho, hv⟩ := hc x hx
  have hpair : ((segmentsOf z x.1).filter (Segment.covers k)).map (fun s => (s.objHash, decide (s.depth ≠ 0))) =
      (((segmentsOf z x.1).filter (Segment.covers k)).map (fun s => decide (s.depth ≠ 0))).map
        (fun tag => (x.2, tag)) := by
    rw [List.map_map]
    apply List.map_congr_left
    intro s hs
    simp [ho s (List.mem_filter.mp hs).1]
  rw [hpair]
  rw [View] at hv
  rw [if_neg (by simpa using hk)] at hv
  rw [reach]
  split_ifs at hv ⊢ with hlt
  · rw [hv.tag]
    cases tagOf x.2 (fp.drop (k + 1)) (holdAfter (fp.take k) x.1 x.2) <;> rfl
  · rw [hv.2]
    rfl

theorem starts_ne_nil {arr : ProtectionFieldArray} {z : List (LockProtectionField × Nat)}
    (h : Threads arr z) (hz : z ≠ []) : starts z ≠ [] := by
  obtain ⟨x, z, rfl⟩ := List.exists_cons_of_ne_nil hz
  have hs := h.threaded.start_eq 0 x rfl
  simp only [List.take_zero, List.contains_nil, Bool.not_false] at hs
  simp [starts, startLabels, hs]

theorem lpFields_eq_nil_iff (hfp : WellFormed lockPairArray fp) {arr : ProtectionFieldArray}
    (harr : annotateLockProtectionRanges inPlace lockPairArray fp = some arr) :
    arr.lpFields = [] ↔ acquisitions fp = [] := by
  obtain ⟨arr', depth, harr', hann⟩ := annotate_view (k := fp.length) hfp (fun va hva => by simp at hva)
  obtain rfl : arr = arr' := by rw [harr] at harr'; exact Option.some.inj harr'
  obtain ⟨z, hz, hst, -, -⟩ := hann.chains
  rw [← List.map_eq_nil_iff (f := Prod.fst), ← hst, ← hz.fields, List.map_eq_nil_iff]
  constructor
  · rintro rfl
    rfl
  · intro hnil
    by_contra hne
    exact starts_ne_nil hz hne hnil

end Reach

/-- The verdict on two lists of reaching acquisitions: as many on both sides,
and each of the first finds its lock in the second before any branch tag. -/
def Matched (activeA activeB : List (UInt32 × Bool)) : Prop :=
  activeA.length = activeB.length ∧
    ∀ a ∈ activeA, ∃ b ∈ activeB.takeWhile (fun b => !b.2), b.1 = a.1

instance (activeA activeB : List (UInt32 × Bool)) : Decidable (Matched activeA activeB) :=
  inferInstanceAs (Decidable (_ ∧ _))

def summary (f : LockProtectionField) : UInt32 × Bool := (f.lockObjHash, decide (f.branchDepth ≠ 0))

theorem containsLpField_iff (lpFieldA : LockProtectionField) (activeB : List LockProtectionField) :
    containsLpField lpFieldA activeB = some true ↔
      ∃ b ∈ (activeB.map summary).takeWhile (fun b => !b.2), b.1 = lpFieldA.lockObjHash := by
  induction activeB with
  | nil => simp [containsLpField]
  | cons lpFieldB rest ih =>
      rw [containsLpField, List.map_cons, List.takeWhile_cons]
      by_cases hd : lpFieldB.branchDepth = 0
      · by_cases he : lpFieldA.lockObjHash = lpFieldB.lockObjHash
        · simp [summary, hd, equalLpFields, he]
        · have he' : ¬ lpFieldB.lockObjHash = lpFieldA.lockObjHash := fun h => he h.symm
          simp [summary, hd, equalLpFields, he, he', ih]
      · simp [summary, hd]

theorem matchActiveProtections_iff (activeA activeB : List LockProtectionField) :
    matchActiveProtections activeA activeB = .sharedProtected ↔
      ∀ a ∈ activeA.map summary, ∃ b ∈ (activeB.map summary).takeWhile (fun b => !b.2), b.1 = a.1 := by
  induction activeA with
  | nil => simp [matchActiveProtections]
  | cons lpFieldA rest ih =>
      rw [matchActiveProtections, List.map_cons, List.forall_mem_cons, ← ih]
      simp only [summary, ← containsLpField_iff]
      cases containsLpField lpFieldA activeB with
      | none => simp
      | some b => cases b <;> simp

section Verdict

variable {lockPairArray : List LockPrimitivePair} {fpA fpB : List VarAccess} {i j : Nat}
  {arrA arrB : ProtectionFieldArray}

/-- The verdict of the code at two accesses, from the entries of the footprints. -/
theorem matching_iff (hA : WellFormed lockPairArray fpA) (hB : WellFormed lockPairArray fpB)
    (hi : i < fpA.length) (hj : j < fpB.length)
    (haccA : ∀ va, fpA[i]? = some va → va.type.isAccess = true)
    (haccB : ∀ va, fpB[j]? = some va → va.type.isAccess = true)
    (harrA : annotateLockProtectionRanges inPlace lockPairArray fpA = some arrA)
    (harrB : annotateLockProtectionRanges inPlace lockPairArray fpB = some arrB) :
    matchingProtectionFieldArrays arrA arrB i j = .sharedProtected ↔
      Matched (reaching fpA i) (reaching fpB j) := by
  have hRA := active_eq_reaching hA hi haccA harrA
  have hRB := active_eq_reaching hB hj haccB harrB
  change (getLpFieldsInRange arrA i).map summary = _ at hRA
  change (getLpFieldsInRange arrB j).map summary = _ at hRB
  rw [matchingProtectionFieldArrays, Matched]
  rw [← hRA, ← hRB, List.length_map, List.length_map]
  by_cases hlen : (getLpFieldsInRange arrA i).length = (getLpFieldsInRange arrB j).length
  · simpa [hlen] using matchActiveProtections_iff _ _
  · simp [hlen]

theorem badProtection_iff (hA : WellFormed lockPairArray fpA) (hB : WellFormed lockPairArray fpB)
    (hi : i < fpA.length) (hj : j < fpB.length)
    (haccA : ∀ va, fpA[i]? = some va → va.type.isAccess = true)
    (haccB : ∀ va, fpB[j]? = some va → va.type.isAccess = true)
    (harrA : annotateLockProtectionRanges inPlace lockPairArray fpA = some arrA)
    (harrB : annotateLockProtectionRanges inPlace lockPairArray fpB = some arrB) :
    badProtection arrA arrB i j = false ↔
      Matched (reaching fpA i) (reaching fpB j) ∧ acquisitions fpA ≠ [] ∧ acquisitions fpB ≠ [] := by
  rw [← matching_iff hA hB hi hj haccA haccB harrA harrB, ne_eq, ne_eq,
    ← lpFields_eq_nil_iff hA harrA, ← lpFields_eq_nil_iff hB harrB]
  simp [badProtection]

end Verdict

end Prongc.LockVerdict
