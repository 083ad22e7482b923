import Prongc.Library.Pairing
import Prongc.LoopVerdicts

namespace Prongc.EarlierPairs

open Access LockTracking Comparison PairReports ComparisonFrame LockPaths LoopVerdicts Library.BranchMarkers
  Library.FirstFit Library.Pairing

abbrev Place := Nat × Nat

def ofUsr (usr : String) (judge : Nat → Nat → Option ReportKind) (a b : List VarAccess) (p : Nat × Nat) : Bool :=
  (verdictOf judge a b p).any (·.1.usr == some usr)

section Pairs

variable (moves : Nat → Bool) (lockPairArray : List LockPrimitivePair) (built : List (List VarAccess)) (usr : String)

/-- Whether two entries of the variable are judged badly protected on the footprints as built. -/
def badAt (i j : Nat) (p : Nat × Nat) : Bool :=
  built[i]?.any fun a => built[j]?.any fun b => (judgeOf moves lockPairArray true a b).any fun judge =>
    ofUsr usr judge a b p

def badPairs (i j : Nat) : List (Place × Place) :=
  ((indexPairs (built.getD i []).length (built.getD j []).length).filter
    (badAt moves lockPairArray built usr i j)).map fun p => ((i, p.1), (j, p.2))

def earlierCalls (i j : Nat) : List Call :=
  (pairCalls true built.length).takeWhile fun c => (c.i, c.j) != (i, j)

/-- The badly protected pairs of the variable in the order of the loops, each taken unless one of its entries is in a
pair taken before, up to the call on i and j. -/
def pairedBefore (i j : Nat) : List (Place × Place) :=
  pairUp [] ((earlierCalls built i j).flatMap fun c => badPairs moves lockPairArray built usr c.i c.j)

/-- A badly protected pair is left to the call on i and j. -/
def LeavesPair (i j : Nat) : Prop :=
  ∃ p ∈ badPairs moves lockPairArray built usr i j,
    p.1 ∉ elements (pairedBefore moves lockPairArray built usr i j) ∧
      p.2 ∉ elements (pairedBefore moves lockPairArray built usr i j)

instance (i j : Nat) : Decidable (LeavesPair moves lockPairArray built usr i j) :=
  inferInstanceAs (Decidable (∃ _ ∈ _, _))

/-- The entries of the variable are as built but for those in a taken pair, which are nulled. -/
def LeftBy (now : List (List VarAccess)) (taken : List (Place × Place)) : Prop :=
  ∀ (x : Place) a va, built[x.1]? = some a → a[x.2]? = some va → va.usr = some usr →
    ∃ a', now[x.1]? = some a' ∧ a'[x.2]? = some (if x ∈ elements taken then va.nullify else va)

end Pairs

section Runs

variable {moves : Nat → Bool} {lockPairArray : List LockPrimitivePair} {built now next : List (List VarAccess)}
  {usr : String} {c : Call} {a a' b b' : List VarAccess} {judge : Nat → Nat → Option ReportKind}
  {reports rs : List Report} {taken : List (Place × Place)} {i j : Nat}

theorem ofUsr_iff {p : Nat × Nat} : ofUsr usr judge a' b' p = true ↔
    ∃ v, verdictOf judge a' b' p = some v ∧ v.1.usr = some usr := by
  simp only [ofUsr, Option.any_eq_true, beq_iff_eq]

theorem badAt_iff {p : Nat × Nat} : badAt moves lockPairArray built usr i j p = true ↔
    ∃ a b judge, built[i]? = some a ∧ built[j]? = some b ∧ judgeOf moves lockPairArray true a b = some judge ∧
      ofUsr usr judge a b p = true := by
  simp only [badAt, Option.any_eq_true]
  constructor
  · rintro ⟨a, ha, b, hb, judge, hjudge, h⟩
    exact ⟨a, b, judge, ha, hb, hjudge, h⟩
  · rintro ⟨a, b, judge, ha, hb, hjudge, h⟩
    exact ⟨a, ha, b, hb, judge, hjudge, h⟩

def callPlaces (c : Call) : Places Place where
  left k := (c.i, k)
  right l := (c.j, l)
  left_inj _ _ h := (Prod.mk.inj h).2
  right_inj _ _ h := (Prod.mk.inj h).2
  apart _ _ h := c.ne (Prod.mk.inj h).1

theorem LeftBy.free_of_live (h : LeftBy built usr now taken) (hintact : Intact moves lockPairArray true built now)
    {x : Place} {va : VarAccess} (ha' : now[x.1]? = some a') (hva : a'[x.2]? = some va) (hlive : va.live = true)
    (husr : va.usr = some usr) : x ∉ elements taken := by
  intro hin
  obtain ⟨a, ha, hfa⟩ := hintact.built_at ha'
  obtain ⟨va₀, hva₀, hfade⟩ := hfa.getElem? hva
  obtain ⟨a'', ha'', hleft⟩ := h x a va₀ ha hva₀ (hfade.usr ▸ husr)
  obtain rfl := Option.some.inj (ha'.symm.trans ha'')
  rw [if_pos hin, hva, Option.some.injEq] at hleft
  rw [hleft] at hlive
  cases hlive

/-- A call finds the badly protected pairs that are left. -/
theorem LeftBy.finds_iff (h : LeftBy built usr now taken) (hintact : Intact moves lockPairArray true built now)
    (ha' : now[i]? = some a') (hb' : now[j]? = some b') (hjudge : judgeOf moves lockPairArray true a' b' = some judge)
    (p : Nat × Nat) : ofUsr usr judge a' b' p = true ↔ badAt moves lockPairArray built usr i j p = true ∧
      (i, p.1) ∉ elements taken ∧ (j, p.2) ∉ elements taken := by
  obtain ⟨a, ha, hfa⟩ := hintact.built_at ha'
  obtain ⟨b, hb, hfb⟩ := hintact.built_at hb'
  have hjudged := (hintact.judgeOf ha hb ha' hb').symm.trans hjudge
  rw [ofUsr_iff, badAt_iff]
  constructor
  · rintro ⟨v, hv, husr⟩
    obtain ⟨hvx, hvy, hlx, hly, hsame, -⟩ := verdictOf_eq_some.mp hv
    exact ⟨⟨a, b, judge, ha, hb, hjudged, ofUsr_iff.mpr ⟨v, Intact.verdict hfa hfb hv, husr⟩⟩,
      h.free_of_live hintact ha' hvx hlx husr,
      h.free_of_live hintact hb' hvy hly ((usr_right hsame).symm.trans husr)⟩
  · rintro ⟨⟨a₁, b₁, judge₁, ha₁, hb₁, hjudge₁, hbad⟩, hx, hy⟩
    obtain rfl := Option.some.inj (ha.symm.trans ha₁)
    obtain rfl := Option.some.inj (hb.symm.trans hb₁)
    obtain rfl := Option.some.inj (hjudged.symm.trans hjudge₁)
    obtain ⟨v, hv, husr⟩ := ofUsr_iff.mp hbad
    obtain ⟨hvx, hvy, hlx, hly, hsame, hkind⟩ := verdictOf_eq_some.mp hv
    obtain ⟨a'', ha'', hleft⟩ := h (i, p.1) a _ ha hvx husr
    obtain ⟨b'', hb'', hright⟩ := h (j, p.2) b _ hb hvy ((usr_right hsame).symm.trans husr)
    obtain rfl := Option.some.inj (ha'.symm.trans ha'')
    obtain rfl := Option.some.inj (hb'.symm.trans hb'')
    rw [if_neg hx] at hleft
    rw [if_neg hy] at hright
    exact ⟨v, verdictOf_eq_some.mpr ⟨hleft, hright, hlx, hly, hsame, hkind⟩, husr⟩

/-- Pairs with an entry in common are of one variable. -/
theorem ofUsr_shared {p q : Nat × Nat} (hp : ofUsr usr judge a' b' p = true)
    (hq : (verdictOf judge a' b' q).isSome = true) (h : q.1 = p.1 ∨ q.2 = p.2) : ofUsr usr judge a' b' q = true := by
  obtain ⟨v, hv, husr⟩ := ofUsr_iff.mp hp
  obtain ⟨w, hw⟩ := Option.isSome_iff_exists.mp hq
  obtain ⟨hvx, hvy, -, -, hvs, -⟩ := verdictOf_eq_some.mp hv
  obtain ⟨hwx, hwy, -, -, hws, -⟩ := verdictOf_eq_some.mp hw
  refine ofUsr_iff.mpr ⟨w, hw, ?_⟩
  rcases h with h | h
  · rw [h, hvx, Option.some.injEq] at hwx
    exact hwx ▸ husr
  · rw [h, hvy, Option.some.injEq] at hwy
    rw [usr_right hws, ← hwy, ← usr_right hvs, husr]

def matchedOf (usr : String) (judge : Nat → Nat → Option ReportKind) (a' b' : List VarAccess) : List (Nat × Nat) :=
  (matched judge a' b').filter (ofUsr usr judge a' b')

theorem LeftBy.pairUp_eq (h : LeftBy built usr now taken) (hintact : Intact moves lockPairArray true built now)
    (ha' : now[c.i]? = some a') (hb' : now[c.j]? = some b')
    (hjudge : judgeOf moves lockPairArray true a' b' = some judge) :
    pairUp taken (badPairs moves lockPairArray built usr c.i c.j) =
      taken ++ (matchedOf usr judge a' b').map (callPlaces c).pair := by
  obtain ⟨a, ha, hfa⟩ := hintact.built_at ha'
  obtain ⟨b, hb, hfb⟩ := hintact.built_at hb'
  have hlen : indexPairs (built.getD c.i []).length (built.getD c.j []).length =
      indexPairs a'.length b'.length := by
    rw [List.getD_eq_getElem?_getD, List.getD_eq_getElem?_getD, ha, hb]
    exact congrArg₂ indexPairs hfa.length_eq hfb.length_eq
  have hfit := @pairUp_firstFit Place (callPlaces c) (indexPairs a'.length b'.length) taken _
    (fun p => (verdictOf judge a' b' p).isSome) (badAt moves lockPairArray built usr c.i c.j)
    (ofUsr usr judge a' b') (h.finds_iff hintact ha' hb' hjudge)
    (fun p hp => by
      obtain ⟨v, hv, -⟩ := ofUsr_iff.mp hp
      exact Option.isSome_iff_exists.mpr ⟨v, hv⟩)
    (fun p q => ofUsr_shared) [] (fun q hq => by cases hq)
  rw [List.filter_nil, List.map_nil, List.append_nil] at hfit
  rw [badPairs, hlen]
  exact hfit

theorem left_step {x : Place} {va : VarAccess} {is : List Nat} {more : List (Place × Place)}
    (hleft : a'[x.2]? = some (if x ∈ elements taken then va.nullify else va))
    (hiff : x.2 ∈ is ↔ x ∈ elements more) : (clearAt VarAccess.nullify is a')[x.2]? =
      some (if x ∈ elements (taken ++ more) then va.nullify else va) := by
  rw [clearAt_getElem?, hleft]
  by_cases htaken : x ∈ elements taken <;> by_cases hmore : x ∈ elements more <;>
    simp [mem_elements_append, hiff, htaken, hmore, VarAccess.nullify]

theorem mem_matchedOf_fst {k : Nat} {va : VarAccess} (hva : a'[k]? = some va) (husr : va.usr = some usr) :
    k ∈ (matched judge a' b').map Prod.fst ↔
      (c.i, k) ∈ elements ((matchedOf usr judge a' b').map (callPlaces c).pair) := by
  rw [show (c.i, k) = (callPlaces c).left k from rfl, Places.left_mem]
  constructor
  · intro hmem
    obtain ⟨p, hp, rfl⟩ := List.mem_map.mp hmem
    obtain ⟨v, hv⟩ := verdictOf_of_mem_matched hp
    obtain rfl := Option.some.inj (hva.symm.trans (verdictOf_eq_some.mp hv).1)
    exact List.mem_map.mpr ⟨p, List.mem_filter.mpr ⟨hp, ofUsr_iff.mpr ⟨v, hv, husr⟩⟩, rfl⟩
  · exact fun hmem => List.map_subset _ (List.filter_subset_self _) hmem

theorem mem_matchedOf_snd {l : Nat} {va : VarAccess} (hva : b'[l]? = some va) (husr : va.usr = some usr) :
    l ∈ (matched judge a' b').map Prod.snd ↔
      (c.j, l) ∈ elements ((matchedOf usr judge a' b').map (callPlaces c).pair) := by
  rw [show (c.j, l) = (callPlaces c).right l from rfl, Places.right_mem]
  constructor
  · intro hmem
    obtain ⟨p, hp, rfl⟩ := List.mem_map.mp hmem
    obtain ⟨v, hv⟩ := verdictOf_of_mem_matched hp
    obtain ⟨-, hvy, -, -, hsame, -⟩ := verdictOf_eq_some.mp hv
    obtain rfl := Option.some.inj (hva.symm.trans hvy)
    exact List.mem_map.mpr ⟨p, List.mem_filter.mpr ⟨hp, ofUsr_iff.mpr ⟨v, hv, (usr_right hsame).trans husr⟩⟩, rfl⟩
  · exact fun hmem => List.map_subset _ (List.filter_subset_self _) hmem

theorem LeftBy.call (h : LeftBy built usr now taken) (hintact : Intact moves lockPairArray true built now)
    (htrack : c.trackLocking = true) (he : CallEffect moves lockPairArray now c a' b' judge next rs) :
    LeftBy built usr next (pairUp taken (badPairs moves lockPairArray built usr c.i c.j)) := by
  rw [h.pairUp_eq hintact he.left he.right (htrack ▸ he.judged)]
  rintro ⟨f, k⟩ a va ha hva husr
  obtain ⟨a₁, ha₁, hleft⟩ := h (f, k) a va ha hva husr
  have hnow : ∃ va', a₁[k]? = some va' ∧ va'.usr = some usr := by
    refine ⟨_, hleft, ?_⟩
    split
    next => exact husr
    next => exact husr
  obtain ⟨va', hva', husr'⟩ := hnow
  by_cases hi : f = c.i
  · subst hi
    obtain rfl := Option.some.inj (he.left.symm.trans ha₁)
    exact ⟨_, he.getElem_left, left_step hleft (mem_matchedOf_fst hva' husr')⟩
  · by_cases hj : f = c.j
    · subst hj
      obtain rfl := Option.some.inj (he.right.symm.trans ha₁)
      exact ⟨_, he.getElem_right, left_step hleft (mem_matchedOf_snd hva' husr')⟩
    · refine ⟨a₁, (he.getElem_other hi hj).trans ha₁, ?_⟩
      have hnone : (f, k) ∉ elements ((matchedOf usr judge a' b').map (callPlaces c).pair) := by
        intro hmem
        obtain ⟨p, hp, hfk⟩ := mem_elements.mp hmem
        obtain ⟨q, -, rfl⟩ := List.mem_map.mp hp
        exact hfk.elim (fun h => hi (congrArg Prod.fst h).symm) fun h => hj (congrArg Prod.fst h).symm
      simpa only [mem_elements_append, hnone, or_false] using hleft

theorem LeftBy.run {cs : List Call} (hmode : ∀ c ∈ cs, c.trackLocking = true)
    (hlocks : LocksAgree moves lockPairArray built) (h : LeftBy built usr now taken)
    (hintact : Intact moves lockPairArray true built now)
    (hrun : runCalls moves lockPairArray now cs = some (next, rs)) :
    Intact moves lockPairArray true built next ∧ LeftBy built usr next
      (pairUp taken (cs.flatMap fun c => badPairs moves lockPairArray built usr c.i c.j)) := by
  induction cs generalizing now rs taken with
  | nil =>
      cases hrun
      exact ⟨hintact, h⟩
  | cons c cs ih =>
      obtain ⟨mid, ms, ms', hcall, hrest, rfl⟩ := runCalls_cons hrun
      obtain ⟨a', b', judge, he⟩ := runCall_effect hcall
      have htrack := hmode c List.mem_cons_self
      have hmid : Intact moves lockPairArray true built mid := by
        have hstep := Intact.call (htrack ▸ hintact) he fun _ => hlocks
        rwa [htrack] at hstep
      rw [List.flatMap_cons, pairUp_append]
      exact ih (fun d hd => hmode d (List.mem_cons_of_mem _ hd)) (h.call hintact htrack he) hmid hrest

theorem leftBy_nil : LeftBy built usr built [] := fun _ a _ ha hva _ => ⟨a, ha, hva⟩

theorem mem_badPairs {q : Place × Place} : q ∈ badPairs moves lockPairArray built usr i j ↔
    ∃ p, badAt moves lockPairArray built usr i j p = true ∧ ((i, p.1), (j, p.2)) = q := by
  rw [badPairs, List.mem_map]
  refine exists_congr fun p => and_congr_left fun _ => ?_
  rw [List.mem_filter, and_iff_right_of_imp]
  intro hbad
  obtain ⟨a, b, judge, ha, hb, -, hof⟩ := badAt_iff.mp hbad
  obtain ⟨v, hv, -⟩ := ofUsr_iff.mp hof
  obtain ⟨hx, hy, -⟩ := verdictOf_eq_some.mp hv
  rw [List.getD_eq_getElem?_getD, List.getD_eq_getElem?_getD, ha, hb]
  exact mem_indexPairs.mpr ⟨(List.getElem?_eq_some_iff.mp hx).1, (List.getElem?_eq_some_iff.mp hy).1⟩

theorem LeftBy.judged_iff (h : LeftBy built usr now taken) (hintact : Intact moves lockPairArray true built now)
    (ha' : now[i]? = some a') (hb' : now[j]? = some b') : Judged moves lockPairArray true usr a' b' ↔
      ∃ p ∈ badPairs moves lockPairArray built usr i j, p.1 ∉ elements taken ∧ p.2 ∉ elements taken := by
  constructor
  · rintro ⟨judge, hjudge, p, v, hv, husr⟩
    obtain ⟨hbad, hx, hy⟩ := (h.finds_iff hintact ha' hb' hjudge p).mp (ofUsr_iff.mpr ⟨v, hv, husr⟩)
    exact ⟨_, mem_badPairs.mpr ⟨p, hbad, rfl⟩, hx, hy⟩
  · rintro ⟨_, hp, hx, hy⟩
    obtain ⟨p, hbad, rfl⟩ := mem_badPairs.mp hp
    obtain ⟨a, b, judge, ha, hb, hjudge, -⟩ := badAt_iff.mp hbad
    rw [← hintact.judgeOf ha hb ha' hb'] at hjudge
    obtain ⟨v, hv, husr⟩ := ofUsr_iff.mp ((h.finds_iff hintact ha' hb' hjudge p).mpr ⟨hbad, hx, hy⟩)
    exact ⟨judge, hjudge, p, v, hv, husr⟩

theorem pairCalls_sorted (trackLocking : Bool) (size : Nat) :
    (pairCalls trackLocking size).Pairwise fun c d => Before (c.i, c.j) (d.i, d.j) := by
  have hmem : ∀ {i : Nat} {c : Call}, c ∈ (List.range size).filterMap (fun j =>
      if h : i = j then none else some (⟨trackLocking, i, j, h⟩ : Call)) → c.i = i := by
    intro i c hc
    obtain ⟨j, -, hj⟩ := List.mem_filterMap.mp hc
    split_ifs at hj
    cases hj
    rfl
  rw [pairCalls, List.pairwise_flatMap]
  constructor
  · intro i _
    refine List.pairwise_lt_range.filterMap _ fun j j' hlt c hc d hd => ?_
    split_ifs at hc hd
    cases hc
    cases hd
    exact .inr ⟨rfl, hlt⟩
  · exact List.pairwise_lt_range.imp fun hlt c hc d hd => .inl (by rw [hmem hc, hmem hd]; exact hlt)

theorem earlierCalls_eq {pre post : List Call} (hsplit : pairCalls true built.length = pre ++ c :: post) :
    earlierCalls built c.i c.j = pre := by
  have hpre : ∀ d ∈ pre, (d.i, d.j) ≠ (c.i, c.j) := by
    intro d hd heq
    have hsorted := hsplit ▸ pairCalls_sorted true built.length
    have hbefore := (List.pairwise_append.mp hsorted).2.2 d hd c List.mem_cons_self
    rw [heq] at hbefore
    exact before_asymm hbefore hbefore
  rw [earlierCalls, hsplit, List.takeWhile_append_of_pos fun d hd => by simpa using hpre d hd,
    List.takeWhile_cons_of_neg (by simp), List.append_nil]

/-- A call finds a badly protected pair exactly if the calls before it leave one. -/
theorem judgedBefore_iff {pre post : List Call} (hlocks : LocksAgree moves lockPairArray built)
    (hsplit : pairCalls true built.length = pre ++ c :: post) (hrun : (runCalls moves lockPairArray built pre).isSome) :
    JudgedBefore moves lockPairArray built pre c usr ↔ LeavesPair moves lockPairArray built usr c.i c.j := by
  obtain ⟨⟨mid, rs⟩, hpre⟩ := Option.isSome_iff_exists.mp hrun
  have hmem : ∀ d ∈ pre ++ c :: post, d.trackLocking = true ∧ d.i < built.length ∧ d.j < built.length :=
    fun d hd => mem_pairCalls.mp (hsplit ▸ hd)
  obtain ⟨htrack, hi, hj⟩ := hmem c (by simp)
  have hstart : LeftBy built usr built [] := leftBy_nil
  have hmode : ∀ d ∈ pre, d.trackLocking = true := fun d hd => (hmem d (List.mem_append_left _ hd)).1
  obtain ⟨hintact, hleft⟩ := hstart.run hmode hlocks (intact_refl ..) hpre
  have hlen := hintact.faded.length_eq
  have hiff := hleft.judged_iff hintact (List.getElem?_eq_getElem (hlen ▸ hi)) (List.getElem?_eq_getElem (hlen ▸ hj))
  rw [LeavesPair, pairedBefore, earlierCalls_eq hsplit, ← hiff]
  constructor
  · rintro ⟨mid', rs', a', b', hpre', ha', hb', hjudged⟩
    obtain ⟨rfl, -⟩ := Prod.mk.inj (Option.some.inj (hpre.symm.trans hpre'))
    obtain ⟨_, rfl⟩ := List.getElem?_eq_some_iff.mp ha'
    obtain ⟨_, rfl⟩ := List.getElem?_eq_some_iff.mp hb'
    exact htrack ▸ hjudged
  · intro hjudged
    exact ⟨mid, rs, _, _, hpre, List.getElem?_eq_getElem (hlen ▸ hi), List.getElem?_eq_getElem (hlen ▸ hj),
      htrack ▸ hjudged⟩

theorem reported_iff_leaves {left : List (List VarAccess)} (hlocks : LocksAgree moves lockPairArray built)
    (hrun : compareAllFuncs moves lockPairArray true built = some (left, reports)) (hij : i ≠ j)
    (hi : i < built.length) (hj : j < built.length) : Reported reports usr i j ↔
      LeavesPair moves lockPairArray built usr i j ∨ LeavesPair moves lockPairArray built usr j i := by
  have hpre : ∀ {pre post : List Call} {c : Call}, pairCalls true built.length = pre ++ c :: post →
      (runCalls moves lockPairArray built pre).isSome = true := by
    intro pre post c hsplit
    rw [compareAllFuncs, hsplit] at hrun
    obtain ⟨mid, rs, rs', hpre, -⟩ := runCalls_append hrun
    rw [hpre, Option.isSome_some]
  rw [reported_iff hrun]
  constructor
  · rintro ⟨pre, c, post, hsplit, hc, hjudged⟩
    have hleaves := (judgedBefore_iff hlocks hsplit (hpre hsplit)).mp hjudged
    rcases hc with ⟨rfl, rfl⟩ | ⟨rfl, rfl⟩
    · exact .inl hleaves
    · exact .inr hleaves
  · have hcall {f g : Nat} (hne : f ≠ g) (hf : f < built.length) (hg : g < built.length)
        (hleaves : LeavesPair moves lockPairArray built usr f g) : ∃ pre c post,
          pairCalls true built.length = pre ++ c :: post ∧ (c.i = f ∧ c.j = g) ∧
            JudgedBefore moves lockPairArray built pre c usr := by
      obtain ⟨pre, post, hsplit⟩ := List.append_of_mem
        (mem_pairCalls.mpr ⟨rfl, hf, hg⟩ : (⟨true, f, g, hne⟩ : Call) ∈ pairCalls true built.length)
      exact ⟨pre, _, post, hsplit, ⟨rfl, rfl⟩, (judgedBefore_iff hlocks hsplit (hpre hsplit)).mpr hleaves⟩
    rintro (hleaves | hleaves)
    · obtain ⟨pre, c, post, hsplit, hc, hjudged⟩ := hcall hij hi hj hleaves
      exact ⟨pre, c, post, hsplit, .inl hc, hjudged⟩
    · obtain ⟨pre, c, post, hsplit, hc, hjudged⟩ := hcall hij.symm hj hi hleaves
      exact ⟨pre, c, post, hsplit, .inr hc, hjudged⟩

/-- The double loop reports every pair of functions that share a variable exactly where no variable is live in three
functions. With lock tracking, where no lock object is itself badly shared, a variable that is badly protected
between two functions as built is reported for them exactly if a first fit of its badly protected pairs, in the order
of the loops, leaves a pair to one of the two calls on them. -/
theorem pair_reports (moves : Nat → Bool) (hann : AllAnnotatable lockPairArray built) :
    (∃ left reports, compareAllFuncs moves lockPairArray false built = some (left, reports) ∧
      ((∀ usr i j a b, i ≠ j → built[i]? = some a → built[j]? = some b →
          LiveIn usr a → LiveIn usr b → Reported reports usr i j) ↔ LiveInTwo built)) ∧
    ∃ left reports, compareAllFuncs moves lockPairArray true built = some (left, reports) ∧
      (LocksAgree moves lockPairArray built →
        ∀ usr i j a b, i ≠ j → built[i]? = some a → built[j]? = some b → Judged moves lockPairArray true usr a b →
          (Reported reports usr i j ↔
            LeavesPair moves lockPairArray built usr i j ∨ LeavesPair moves lockPairArray built usr j i)) := by
  have hdefined (trackLocking : Bool) : ∃ left reports,
      compareAllFuncs moves lockPairArray trackLocking built = some (left, reports) := by
    obtain ⟨⟨left, reports⟩, h⟩ := Option.isSome_iff_exists.mp
      (runCalls_isSome moves hann fun c (hc : c ∈ pairCalls trackLocking built.length) => (mem_pairCalls.mp hc).2)
    exact ⟨left, reports, h⟩
  constructor
  · obtain ⟨left, reports, hrun⟩ := hdefined false
    refine ⟨left, reports, hrun, liveInTwo_of_reported hrun, ?_⟩
    intro htwo usr i j a b hij ha hb hla hlb
    exact reported_of_liveInTwo hrun htwo hij ha hb hla hlb
  · obtain ⟨left, reports, hrun⟩ := hdefined true
    refine ⟨left, reports, hrun, fun hlocks usr i j a b hij ha hb _ => ?_⟩
    exact reported_iff_leaves hlocks hrun hij (List.getElem?_eq_some_iff.mp ha).1 (List.getElem?_eq_some_iff.mp hb).1

end Runs

/-- Three functions that write x without a lock: the first two use up each other's entry. -/
example : LeavesPair (fun _ => true) defaultLockPairs threeWriters "x" 0 1 ∧
    ¬ (LeavesPair (fun _ => true) defaultLockPairs threeWriters "x" 0 2 ∨
      LeavesPair (fun _ => true) defaultLockPairs threeWriters "x" 2 0) := by
  decide +kernel

/-- Two functions that write x under the lock m, and one that writes it twice without. -/
def bareTwice : List (List VarAccess) := [flatten singleLock, flatten singleLock, [writeOf "x", writeOf "x"]]

theorem bareTwice_annotatable : AllAnnotatable defaultLockPairs bareTwice := by
  intro fp hfp
  have hno : ∀ fp ∈ bareTwice, ∀ va ∈ fp, va.type ≠ .ifStmt := by decide
  refine ⟨?_, ?_, fun k va hk hty => absurd hty (hno fp hfp va (List.mem_of_getElem? hk))⟩
  · revert fp
    decide +kernel
  · revert fp
    decide +kernel

theorem bareTwice_agree : LocksAgree (fun _ => true) defaultLockPairs bareTwice :=
  locksAgree_of_mem (by decide +kernel)

theorem bareTwice_reported : ∃ left reports,
    compareAllFuncs (fun _ => true) defaultLockPairs true bareTwice = some (left, reports) ∧
      Reported reports "x" 1 2 := by
  obtain ⟨-, left, reports, hrun, hall⟩ := pair_reports (fun _ => true) bareTwice_annotatable
  refine ⟨left, reports, hrun, ?_⟩
  have hjudged : Judged (fun _ => true) defaultLockPairs true "x" (flatten singleLock) [writeOf "x", writeOf "x"] :=
    by decide +kernel
  exact (hall bareTwice_agree "x" 1 2 _ _ (by decide) rfl rfl hjudged).mpr (.inl (by decide +kernel))

end Prongc.EarlierPairs
