import Prongc.SharedReferences

namespace Prongc.FilteredLocals

open Access Ast WalkFunc WalkAst Callbacks Recursion Unwind UnwindFrame ParseCall LockTracking CallSites Aliases PrivateObjects
  SharedReferences Comparison PairReports OnePair LocalReports WholeRun Library.FirstFit Library.Cancellation
  Library.Traversal

abbrev Placed := FuncData × VarAccess

/-- The entries of a function, with those of its callees in the places of the calls. -/
def place (func : FuncData) : List VarAccess → List (List Placed) → List Placed
  | [], _ => []
  | va :: vas, below =>
      if va.type = .call then
        match below with
        | entries :: below => entries ++ place func vas below
        | [] => place func vas []
      else (func, va) :: place func vas below

mutual

/-- What the walk has recorded in a tree, in the order of its footprint and behind the arguments of the call
string. -/
def recordedEntries (parsed : Option (List String)) : FuncInfo → List Placed
  | .node func callees =>
      if func.inSystemHeader || !func.hasDefinition then []
      else place func (func.varAccesses.map (boundEntry parsed func)) (recordedBelow callees)

def recordedBelow : List FuncInfo → List (List Placed)
  | [] => []
  | callee :: callees => recordedEntries none callee :: recordedBelow callees

end

def isLockArgument (va : VarAccess) : Bool := lockArgumentType va != .null

/-- The entry is not taken for one of a local (a lock argument, of pointer type, an Escape, or under another
USR than exactly that of a local of its function), nor a plain one under the USR of a parameter. -/
def slips (p : Placed) : Bool :=
  !takenForLocal p.1 p.2 && (isLockArgument p.2 || !isDirect p.2 || !containsUsr p.1.params p.2.usr)

def slipped (usr : String) (entries : List Placed) : List Placed :=
  entries.filter fun p => p.2.live && p.2.usr == some usr && slips p

/-- A direct access of an automatic local, or of a member of it. -/
def OfLocal (isStatic : String → Prop) (trees : List FuncInfo) (p : Placed) : Prop :=
  isDirect p.2 = true ∧ isLockArgument p.2 = false ∧ ∃ u, AutomaticIn isStatic trees u ∧ hasBase u p.2 = true

def slippedCounts (usr : String) (recorded : List (List Placed)) (k : Nat) : Nat :=
  (slipped usr (recorded[k]?.getD [])).length

/-- The slipped entries of a variable that earlier calls have not used up, first come first served. -/
def remaining (usr : String) (recorded : List (List Placed)) (earlier : List Call) (k : Nat) : List Placed :=
  (slipped usr (recorded[k]?.getD [])).drop
    (slippedCounts usr recorded k - cancelAll (slippedCounts usr recorded) (earlier.map pairOf) k)

/-- In no call of the double loop do two accesses of automatic locals meet that have slipped through: with
the same USR, and at the same place among the entries of this USR that remain. -/
def LocalsApart (isStatic : String → Prop) (trees : List FuncInfo) (recorded : List (List Placed)) : Prop :=
  ∀ earlier c later, pairCalls false recorded.length = earlier ++ c :: later → ∀ usr (n : Nat) p p',
    (remaining usr recorded earlier c.i)[n]? = some p → (remaining usr recorded earlier c.j)[n]? = some p' →
      ¬ (OfLocal isStatic trees p ∧ OfLocal isStatic trees p')

section Filter

variable {func : FuncData} {va : VarAccess} {parsed : Option (List String)}

def unwoundOf (entries : List Placed) : List VarAccess :=
  (entries.map fun p => markVarAccess p.1 p.2).filter fun va => va.type != .null

theorem unwoundOf_append (l l' : List Placed) : unwoundOf (l ++ l') = unwoundOf l ++ unwoundOf l' := by
  rw [unwoundOf, List.map_append, List.filter_append]
  rfl

theorem place_other (h : va.type ≠ .call) (vas : List VarAccess) (below : List (List Placed)) :
    place func (va :: vas) below = (func, va) :: place func vas below := by
  cases below <;> simp [place, h]

theorem unwoundOf_place (func : FuncData) {vas : List VarAccess}
    (h : ∀ va ∈ vas, va.type = .call → va.escParamIdx = noIdx) (below : List (List Placed)) :
    spliceFootprints (vas.map (markVarAccess func)) (below.map unwoundOf) = unwoundOf (place func vas below) := by
  induction vas generalizing below with
  | nil => rfl
  | cons va vas ih =>
      obtain ⟨hva, hvas⟩ := List.forall_mem_cons.mp h
      rw [List.map_cons]
      by_cases hcall : va.type = .call
      · have hmarked : (markVarAccess func va).type = .call := (markVarAccess_call_iff hva).mpr hcall
        cases below with
        | nil => rw [place, if_pos hcall, List.map_nil, spliceFootprints_call_nil _ hmarked, ← ih hvas, List.map_nil]
        | cons entries below =>
            rw [place, if_pos hcall, List.map_cons, spliceFootprints_call _ _ hmarked, unwoundOf_append, ih hvas]
      · rw [place_other hcall]
        have hmarked : (markVarAccess func va).type ≠ .call := fun h => hcall ((markVarAccess_call_iff hva).mp h)
        have hcons : unwoundOf ((func, va) :: place func vas below) =
            unwoundOf [(func, va)] ++ unwoundOf (place func vas below) := unwoundOf_append [_] _
        rw [hcons]
        by_cases hnull : (markVarAccess func va).type = .null
        · rw [spliceFootprints_null _ _ hnull, ih hvas]
          simp [unwoundOf, hnull]
        · rw [spliceFootprints_other _ _ hmarked hnull, ih hvas]
          simp [unwoundOf, hnull]

theorem recordedBelow_eq (callees : List FuncInfo) :
    recordedBelow callees = callees.map (recordedEntries none) := by
  induction callees with
  | nil => rfl
  | cons callee callees ih => rw [recordedBelow, ih, List.map_cons]

theorem footprint_eq {tree : FuncInfo} (hwf : tree.all fromWalk = true) (parsed : Option (List String)) :
    buildVarAccessFootprint (unwindFuncInfo parsed tree) = unwoundOf (recordedEntries parsed tree) := by
  induction tree using RoseTree.childInduction generalizing parsed with
  | hnode d callees ih =>
      have hwfs := ((RoseTree.all_iff _ _).mp hwf).2
      rw [unwindFuncInfo_node parsed hwf, recordedEntries]
      split
      next hclosed =>
        rw [buildVarAccessFootprint, if_pos hclosed]
        rfl
      next hopen =>
        have hbelow : calleeFootprints (callees.map (unwindFuncInfo none)) = (recordedBelow callees).map unwoundOf := by
          rw [calleeFootprints_eq, recordedBelow_eq, List.map_map, List.map_map]
          exact List.map_congr_left fun callee hcallee => ih callee hcallee (hwfs callee hcallee) none
        have hentries : (argumentAccesses parsed d).map (markVarAccess d) =
            (d.varAccesses.map (boundEntry parsed d)).map (markVarAccess d) := by
          rw [← unwoundEntries, unwoundEntries_eq, List.map_map]
          rfl
        have hunindexed := callsUnindexed_iff.mp (Bool.and_eq_true_iff.mp ((RoseTree.all_iff fromWalk _).mp hwf).1).1
        rw [buildVarAccessFootprint, if_neg hopen, hbelow, hentries, unwoundOf_place]
        intro va hva hcall
        obtain ⟨va', hva', rfl⟩ := List.mem_map.mp hva
        obtain ⟨usr, hrenamed⟩ := boundEntry_renames parsed d va'
        rw [hrenamed] at hcall ⊢
        exact hunindexed va' hva' hcall

theorem type_ne_null {va : VarAccess} (h : va.live = true) : va.type ≠ .null := by
  intro hnull
  simp [VarAccess.live, hnull, vaIsPlaceholderType] at h

theorem slips_iff (hlive : va.live = true) : slips (func, va) = true ↔ (markVarAccess func va).type ≠ .null := by
  rw [Ne, markVarAccess_null_iff (type_ne_null hlive), slips, isLockArgument, isDirect]
  cases takenForLocal func va with
  | true => simp
  | false =>
      simp only [Bool.not_false, Bool.true_and, Bool.or_eq_true, bne_iff_ne, Bool.not_eq_true', Bool.false_eq_true,
        false_or, not_and, Bool.or_eq_false_iff, beq_eq_false_iff_ne]
      grind

theorem unwound_live_iff (hva : recordedEntry va = true) {usr : String} :
    ((markVarAccess func va).live = true ∧ va.usr = some usr) ↔
      va.live = true ∧ va.usr = some usr ∧ slips (func, va) = true := by
  constructor
  · rintro ⟨hmarked, husr⟩
    have hlive : va.live = true := by
      rw [recordedEntry, Bool.or_eq_true_iff, Bool.or_eq_true_iff] at hva
      rcases hva with (haccess | hnone) | hcall
      · exact VarAccess.live_of_isAccess haccess
      · rw [Option.isNone_iff_eq_none.mp hnone] at husr
        cases husr
      · obtain ⟨htype, hidx⟩ := Bool.and_eq_true_iff.mp hcall
        have hcalled := (@markVarAccess_call_iff func va fun _ => beq_iff_eq.mp hidx).mpr (beq_iff_eq.mp htype)
        simp [VarAccess.live, hcalled, vaIsPlaceholderType, VarAccessType.toNat] at hmarked
    exact ⟨hlive, husr, (slips_iff hlive).mpr (type_ne_null hmarked)⟩
  · rintro ⟨hlive, husr, hslips⟩
    refine ⟨?_, husr⟩
    have hnull := (slips_iff hlive).mp hslips
    rcases markVarAccess_type func va with ht | ht | ht | ht
    · rwa [VarAccess.live, ht, ← VarAccess.live]
    · exact absurd ht hnull
    · rw [VarAccess.live_iff, ht]
      exact .inr (.inl rfl)
    · rw [VarAccess.live_iff, ht]
      exact .inr (.inr rfl)

theorem liveEntries_unwoundOf {entries : List Placed} (h : ∀ p ∈ entries, recordedEntry p.2 = true) (usr : String) :
    liveEntries usr (unwoundOf entries) = (slipped usr entries).map fun p => markVarAccess p.1 p.2 := by
  rw [liveEntries, unwoundOf, slipped, List.filter_filter, List.filter_map]
  congr 1
  apply List.filter_congr
  intro p hp
  rw [Bool.eq_iff_iff]
  have hiff := @unwound_live_iff p.1 p.2 (h p hp) usr
  simp only [Function.comp_apply, Bool.and_eq_true, beq_iff_eq, bne_iff_ne, markVarAccess_usr, and_assoc]
  rw [← hiff]
  exact ⟨fun hleft => ⟨hleft.1, hleft.2.1⟩, fun hright => ⟨hright.1, hright.2, type_ne_null hright.1⟩⟩

theorem mem_place {p : Placed} {vas : List VarAccess} {below : List (List Placed)} (h : p ∈ place func vas below) :
    (∃ va ∈ vas, p = (func, va)) ∨ ∃ entries ∈ below, p ∈ entries := by
  induction vas generalizing below with
  | nil => cases h
  | cons va vas ih =>
      have hlater {below' : List (List Placed)} (hsub : below' ⊆ below) (h : p ∈ place func vas below') :
          (∃ w ∈ va :: vas, p = (func, w)) ∨ ∃ entries ∈ below, p ∈ entries := by
        rcases ih h with ⟨w, hw, rfl⟩ | ⟨entries, hentries, hp⟩
        · exact .inl ⟨w, List.mem_cons_of_mem _ hw, rfl⟩
        · exact .inr ⟨entries, hsub hentries, hp⟩
      by_cases hcall : va.type = .call
      · cases below with
        | nil =>
            rw [place, if_pos hcall] at h
            exact hlater (List.Subset.refl _) h
        | cons entries below =>
            rw [place, if_pos hcall] at h
            rcases List.mem_append.mp h with h | h
            · exact .inr ⟨entries, List.mem_cons_self, h⟩
            · exact hlater (List.subset_cons_self _ _) h
      · rw [place_other hcall] at h
        rcases List.mem_cons.mp h with rfl | h
        · exact .inl ⟨va, List.mem_cons_self, rfl⟩
        · exact hlater (List.Subset.refl _) h

theorem recordedEntry_bound (hva : recordedEntry va = true) (parsed : Option (List String)) (func : FuncData) :
    recordedEntry (boundEntry parsed func va) = true := by
  rw [recordedEntry, Bool.or_eq_true_iff, Bool.or_eq_true_iff] at hva ⊢
  rcases hva with (haccess | hnone) | hcall
  · obtain ⟨usr, hrenamed⟩ := boundEntry_renames parsed func va
    rw [hrenamed]
    exact .inl (.inl haccess)
  · rw [boundEntry_unnamed (Option.isNone_iff_eq_none.mp hnone)]
    exact .inl (.inr hnone)
  · obtain ⟨usr, hrenamed⟩ := boundEntry_renames parsed func va
    rw [hrenamed]
    exact .inr hcall

theorem recordedEntries_recorded {tree : FuncInfo} (h : tree.all (entriesAll recordedEntry) = true)
    (parsed : Option (List String)) : ∀ p ∈ recordedEntries parsed tree, recordedEntry p.2 = true := by
  induction tree using RoseTree.childInduction generalizing parsed with
  | hnode d callees ih =>
      obtain ⟨hd, hcallees⟩ := (RoseTree.all_iff _ _).mp h
      intro p hp
      rw [recordedEntries] at hp
      split at hp
      next => cases hp
      next =>
        rcases mem_place hp with ⟨va, hva, rfl⟩ | ⟨entries, hentries, hp⟩
        · obtain ⟨w, hw, rfl⟩ := List.mem_map.mp hva
          exact recordedEntry_bound (List.all_eq_true.mp hd w hw) parsed d
        · rw [recordedBelow_eq] at hentries
          obtain ⟨callee, hcallee, rfl⟩ := List.mem_map.mp hentries
          exact ih callee hcallee (hcallees callee hcallee) none p hp

end Filter

section Queues

variable {moves : Nat → Bool} {lockPairArray : List LockPrimitivePair} {footprints footprints' : List (List VarAccess)}
  {c : Call} {reports : List Report} {a b : List VarAccess} {usr : String}

theorem length_liveEntries (usr : String) (fp : List VarAccess) : (liveEntries usr fp).length = usrCount usr fp :=
  List.countP_eq_length_filter.symm

/-- A function that loses its entries in the pairs with another one loses the first ones of each variable. -/
theorem liveEntries_clearAt {is : List Nat}
    (his : ∀ i, i ∈ is ↔ ∃ p ∈ matched (fun _ _ => some .variableOverlap) a b, p.1 = i) (usr : String) :
    liveEntries usr (clearAt VarAccess.nullify is a) =
      (liveEntries usr a).drop (min (usrCount usr a) (usrCount usr b)) := by
  apply filter_clearAt (fun _ => rfl)
  intro i va hva hclass
  obtain ⟨hlive, husr⟩ := (Bool.and_eq_true _ _).mp hclass
  have husr := beq_iff_eq.mp husr
  have hpaired := @exists_mem_matching_left_iff VarAccess ReportKind VarAccess.live equalVarAccesses
    (fun _ _ => some .variableOverlap) a b equalVarAccesses_symm equalVarAccesses_trans (fun _ _ => rfl) i va hva hlive
  have hrank : rank VarAccess.live equalVarAccesses a i va =
      (a.take i).countP fun va => va.live && va.usr == some usr := by
    rw [rank, List.countP_eq_length_filter, List.countP_eq_length_filter]
    exact congrArg List.length (classOf_eq husr (a.take i))
  have hlt : rank VarAccess.live equalVarAccesses a i va < usrCount usr a := by
    have h := rank_lt_length_classOf hva hlive ((equalVarAccesses_iff _ _).mpr ⟨usr, husr, husr⟩)
    rwa [classOf_eq husr, length_liveEntries] at h
  rw [classOf_eq husr, length_liveEntries] at hpaired
  rw [← hrank, his, matched, hpaired]
  omega

/-- Both functions of a call lose the first of their entries, as many as the other one has. -/
theorem call_drops (htrack : c.trackLocking = false)
    (h : runCall moves lockPairArray footprints c = some (footprints', reports)) (usr : String) (k : Nat) :
    liveEntries usr (footprints'[k]?.getD []) = (liveEntries usr (footprints[k]?.getD [])).drop
      (liveCounts usr footprints k - cancel (liveCounts usr footprints) (pairOf c) k) := by
  obtain ⟨a, b, judge, heffect⟩ := runCall_effect h
  have hjudge : judge = fun _ _ => some .variableOverlap := by
    have hjudged := heffect.judged
    rw [htrack] at hjudged
    exact (Option.some.inj hjudged).symm
  subst hjudge
  have hcountI : liveCounts usr footprints c.i = usrCount usr a := by
    rw [liveCounts, heffect.left, Option.getD_some]
  have hcountJ : liveCounts usr footprints c.j = usrCount usr b := by
    rw [liveCounts, heffect.right, Option.getD_some]
  rw [cancel, pairOf, hcountI, hcountJ]
  by_cases hi : k = c.i
  · rw [if_pos (.inl hi), hi, heffect.getElem_left, heffect.left, Option.getD_some, Option.getD_some, hcountI,
      liveEntries_clearAt fun i => List.mem_map]
    congr 1
    omega
  · by_cases hj : k = c.j
    · have hswap : ∀ j, j ∈ (matched (fun _ _ => some ReportKind.variableOverlap) a b).map Prod.snd ↔
          ∃ p ∈ matched (fun _ _ => some .variableOverlap) b a, p.1 = j := by
        intro j
        rw [List.mem_map]
        exact exists_mem_matching_swap equalVarAccesses_symm equalVarAccesses_trans fun _ _ => rfl
      rw [if_pos (.inr hj), hj, heffect.getElem_right, heffect.right, Option.getD_some, Option.getD_some, hcountJ,
        liveEntries_clearAt hswap]
      congr 1
      omega
    · rw [if_neg (not_or.mpr ⟨hi, hj⟩), heffect.getElem_other hi hj, Nat.sub_self]
      rfl

/-- Behind a run of calls each function still has its last entries of a variable. -/
theorem run_drops {cs : List Call} (htrack : ∀ c ∈ cs, c.trackLocking = false)
    (h : runCalls moves lockPairArray footprints cs = some (footprints', reports)) (usr : String) (k : Nat) :
    liveEntries usr (footprints'[k]?.getD []) = (liveEntries usr (footprints[k]?.getD [])).drop
      (liveCounts usr footprints k - cancelAll (liveCounts usr footprints) (cs.map pairOf) k) := by
  induction cs generalizing footprints reports with
  | nil =>
      cases h
      rw [List.map_nil, cancelAll, List.foldl_nil, Nat.sub_self]
      rfl
  | cons c cs ih =>
      obtain ⟨hc, hcs⟩ := List.forall_mem_cons.mp htrack
      obtain ⟨mid, rs, rs', hfirst, hrest, -⟩ := runCalls_cons h
      have hcounts := (runCall_cancels hc hfirst usr).1
      have hle := cancel_le (liveCounts usr footprints) (pairOf c) k
      have hle' := cancelAll_le (cancel (liveCounts usr footprints) (pairOf c)) (cs.map pairOf) k
      rw [ih hcs hrest, call_drops hc hfirst, hcounts, List.drop_drop, List.map_cons, cancelAll_cons]
      congr 1
      omega

end Queues

section Pairs

variable {isStatic : String → Prop} {trees : List FuncInfo} {usr : String}

theorem isDirect_marked {func : FuncData} {va : VarAccess} (hlive : va.live = true)
    (hslips : slips (func, va) = true) :
    isDirect (markVarAccess func va) = true ↔ isDirect va = true ∧ isLockArgument va = false := by
  have hnull := (slips_iff hlive).mp hslips
  rw [isLockArgument, bne_eq_false_iff_eq]
  by_cases hlock : lockArgumentType va = .null
  · rw [and_iff_left hlock]
    have hkept : (markVarAccess func va).type = va.type := by
      rw [markVarAccess, if_neg (not_not.mpr hlock)] at hnull ⊢
      grind [VarAccess.nullify_type]
    rw [isDirect, isDirect, hkept]
  · have htype : (markVarAccess func va).type = lockArgumentType va := by rw [markVarAccess, if_pos hlock]
    rw [isDirect, htype]
    rcases (lockArgumentType_cases va).resolve_left hlock with h | h <;> simp [h]

theorem hasBase_congr {va va' : VarAccess} (h : va'.usr = va.usr) (u : String) : hasBase u va' = hasBase u va := by
  rw [hasBase, hasBase, h]

theorem localPair_iff {entries entries' : List Placed} {p p' : Placed} (hp : p ∈ slipped usr entries)
    (hp' : p' ∈ slipped usr entries') :
    IsLocalPair isStatic trees (markVarAccess p.1 p.2) (markVarAccess p'.1 p'.2) ↔
      OfLocal isStatic trees p ∧ OfLocal isStatic trees p' := by
  obtain ⟨-, hp⟩ := List.mem_filter.mp hp
  obtain ⟨-, hp'⟩ := List.mem_filter.mp hp'
  simp only [Bool.and_eq_true, beq_iff_eq] at hp hp'
  obtain ⟨⟨hlive, husr⟩, hslips⟩ := hp
  obtain ⟨⟨hlive', husr'⟩, hslips'⟩ := hp'
  have hbase (u : String) : hasBase u p'.2 = hasBase u p.2 := hasBase_congr (husr'.trans husr.symm) u
  simp only [IsLocalPair, OfLocal, isDirect_marked hlive hslips, isDirect_marked hlive' hslips',
    hasBase_congr (markVarAccess_usr _ _), hbase, and_self, and_assoc]
  tauto

end Pairs

section Program

variable (moves : Nat → Bool) (lockPairArray : List LockPrimitivePair) (program : Program)
  (isStatic : String → Prop) (roots : List Cursor) (funcNames : List String)

def walkedTrees : List FuncInfo := (processFuncs program false (roots.map requestedFunc) initGlobals).1

def recordedIn : List (List Placed) :=
  List.zipWith (fun tree funcCall => recordedEntries (some (parseFuncCall funcCall).2) tree)
    (walkedTrees program roots) funcNames

variable {program roots funcNames}

theorem footprints_eq (hnamed : VariablesNamed program) :
    footprints program false (roots.map requestedFunc) funcNames = (recordedIn program roots funcNames).map unwoundOf ∧
      ∀ entries ∈ recordedIn program roots funcNames, ∀ p ∈ entries, recordedEntry p.2 = true := by
  have hwalked : ∀ tree ∈ walkedTrees program roots, tree.all fromWalk = true ∧
      tree.all (entriesAll recordedEntry) = true := by
    intro tree htree
    obtain ⟨before, func, after, hfuncs, rfl⟩ := mem_processFuncs htree
    have hfunc : func ∈ roots.map requestedFunc := hfuncs ▸ List.mem_append_right _ List.mem_cons_self
    obtain ⟨root, -, rfl⟩ := List.mem_map.mp hfunc
    exact ⟨walked_fromWalk hnamed root _, walked_recorded root _⟩
  constructor
  · rw [footprints, recordedIn, List.map_zipWith, ← List.map_uncurry_zip_eq_zipWith,
      ← List.map_uncurry_zip_eq_zipWith]
    exact List.map_congr_left fun x hx => footprint_eq (hwalked x.1 (List.of_mem_zip hx).1).1 _
  · intro entries hentries
    rw [recordedIn, ← List.map_uncurry_zip_eq_zipWith] at hentries
    obtain ⟨x, hx, rfl⟩ := List.mem_map.mp hentries
    exact recordedEntries_recorded (hwalked x.1 (List.of_mem_zip hx).1).2 _

theorem liveEntries_recorded {recorded : List (List Placed)}
    (h : ∀ entries ∈ recorded, ∀ p ∈ entries, recordedEntry p.2 = true) (usr : String) (k : Nat) :
    liveEntries usr ((recorded.map unwoundOf)[k]?.getD []) =
      (slipped usr (recorded[k]?.getD [])).map fun p => markVarAccess p.1 p.2 := by
  rw [List.getElem?_map]
  cases hk : recorded[k]? with
  | none => rfl
  | some entries => exact liveEntries_unwoundOf (h entries (List.mem_of_getElem? hk)) usr

theorem liveEntries_remaining {recorded : List (List Placed)}
    (h : ∀ entries ∈ recorded, ∀ p ∈ entries, recordedEntry p.2 = true) {earlier : List Call}
    (htrack : ∀ c ∈ earlier, c.trackLocking = false) {now : List (List VarAccess)} {reports : List Report}
    (hrun : runCalls moves lockPairArray (recorded.map unwoundOf) earlier = some (now, reports)) (usr : String)
    (k : Nat) : liveEntries usr (now[k]?.getD []) =
      (remaining usr recorded earlier k).map fun p => markVarAccess p.1 p.2 := by
  have hcounts : liveCounts usr (recorded.map unwoundOf) = slippedCounts usr recorded := by
    funext k
    rw [liveCounts, ← length_liveEntries, liveEntries_recorded h, List.length_map, slippedCounts]
  rw [run_drops htrack hrun, hcounts, liveEntries_recorded h, remaining, List.map_drop]

theorem call_apart_iff {recorded : List (List Placed)} {trees : List FuncInfo}
    (h : ∀ entries ∈ recorded, ∀ p ∈ entries, recordedEntry p.2 = true) {earlier : List Call} {c : Call}
    (htrack : ∀ c ∈ earlier, c.trackLocking = false) (hc : c.trackLocking = false)
    {now next : List (List VarAccess)} {reports reports' : List Report}
    (hearlier : runCalls moves lockPairArray (recorded.map unwoundOf) earlier = some (now, reports))
    (hcall : runCall moves lockPairArray now c = some (next, reports')) :
    (∀ r ∈ reports', ¬ IsLocalPair isStatic trees r.vaI r.vaJ) ↔ ∀ usr (n : Nat) p p',
      (remaining usr recorded earlier c.i)[n]? = some p → (remaining usr recorded earlier c.j)[n]? = some p' →
        ¬ (OfLocal isStatic trees p ∧ OfLocal isStatic trees p') := by
  obtain ⟨a, b, judge, heffect⟩ := runCall_effect hcall
  have hleft (usr : String) := liveEntries_remaining moves lockPairArray h htrack hearlier usr c.i
  have hright (usr : String) := liveEntries_remaining moves lockPairArray h htrack hearlier usr c.j
  rw [heffect.left, Option.getD_some] at hleft
  rw [heffect.right, Option.getD_some] at hright
  constructor
  · intro hnone usr n p p' hp hp' hlocal
    have hmem {k : Nat} {p : Placed} (h : (remaining usr recorded earlier k)[n]? = some p) :
        p ∈ slipped usr (recorded[k]?.getD []) := List.mem_of_mem_drop (List.mem_of_getElem? h)
    obtain ⟨r, hr, hI, hJ⟩ := (@overlap_reports_iff _ _ _ _ _ _ _ _ _ heffect hc (markVarAccess p.1 p.2)
      (markVarAccess p'.1 p'.2)).mpr ⟨usr, n, by rw [hleft, List.getElem?_map, hp]; rfl,
        by rw [hright, List.getElem?_map, hp']; rfl⟩
    apply hnone r hr
    rw [hI, hJ]
    exact (localPair_iff (hmem hp) (hmem hp')).mpr hlocal
  · intro hapart r hr hlocal
    obtain ⟨usr, n, hI, hJ⟩ := (overlap_reports_iff heffect hc).mp ⟨r, hr, rfl, rfl⟩
    rw [hleft, List.getElem?_map] at hI
    rw [hright, List.getElem?_map] at hJ
    obtain ⟨p, hp, hI⟩ := Option.map_eq_some_iff.mp hI
    obtain ⟨p', hp', hJ⟩ := Option.map_eq_some_iff.mp hJ
    rw [← hI, ← hJ] at hlocal
    exact hapart usr n p p' hp hp' ((localPair_iff (List.mem_of_mem_drop (List.mem_of_getElem? hp))
      (List.mem_of_mem_drop (List.mem_of_getElem? hp'))).mp hlocal)

theorem localsApart_of_one {trees : List FuncInfo} {recorded : List (List Placed)}
    (h : ∀ usr (i j : Nat), i ≠ j → (∀ p ∈ slipped usr (recorded[i]?.getD []), ¬ OfLocal isStatic trees p) ∨
      ∀ p ∈ slipped usr (recorded[j]?.getD []), ¬ OfLocal isStatic trees p) :
    LocalsApart isStatic trees recorded := by
  intro earlier c later _ usr n p p' hp hp' hlocal
  rcases h usr c.i c.j c.ne with hnone | hnone
  · exact hnone p (List.mem_of_mem_drop (List.mem_of_getElem? hp)) hlocal.1
  · exact hnone p' (List.mem_of_mem_drop (List.mem_of_getElem? hp')) hlocal.2

/-- No pair that the double loop reports is of direct accesses to an automatic local exactly if no two of
those that slip through the filter meet. -/
theorem locals_unreported_iff (hnamed : VariablesNamed program) :
    ∃ now reports, compareAllFuncs moves lockPairArray false
        (footprints program false (roots.map requestedFunc) funcNames) = some (now, reports) ∧
      ((∀ r ∈ reports, ¬ IsLocalPair isStatic (walkedTrees program roots) r.vaI r.vaJ) ↔
        LocalsApart isStatic (walkedTrees program roots) (recordedIn program roots funcNames)) := by
  obtain ⟨hfootprints, hrecorded⟩ := @footprints_eq program roots funcNames hnamed
  rw [hfootprints]
  generalize recordedIn program roots funcNames = recorded at hrecorded
  generalize walkedTrees program roots = trees
  have hlength : (recorded.map unwoundOf).length = recorded.length := List.length_map _
  obtain ⟨⟨now, reports⟩, hrun⟩ := Option.isSome_iff_exists.mp
    (@overlaps_isSome moves lockPairArray (recorded.map unwoundOf) (pairCalls false (recorded.map unwoundOf).length)
      fun c hc => mem_pairCalls.mp hc)
  refine ⟨now, reports, hrun, ?_⟩
  rw [hlength] at hrun
  rw [forall_reports_iff (fun r => ¬ IsLocalPair isStatic trees r.vaI r.vaJ) hrun, LocalsApart]
  have htrack : ∀ c ∈ pairCalls false recorded.length, c.trackLocking = false := fun c hc => (mem_pairCalls.mp hc).1
  constructor
  · intro hall earlier c later hsplit
    obtain ⟨mid, ms, ms', hearlier, hrest, -⟩ := runCalls_append (hsplit ▸ hrun)
    obtain ⟨next, rs, rs', hcall, -, -⟩ := runCalls_cons hrest
    rw [hsplit] at htrack
    exact (call_apart_iff moves lockPairArray isStatic hrecorded
      (fun d hd => htrack d (List.mem_append_left _ hd)) (htrack c (List.mem_append_right _ List.mem_cons_self))
        hearlier hcall).mp (hall earlier c later mid ms next rs hsplit hearlier hcall)
  · intro hapart earlier c later mid ms next rs hsplit hearlier hcall
    rw [hsplit] at htrack
    exact (call_apart_iff moves lockPairArray isStatic hrecorded
      (fun d hd => htrack d (List.mem_append_left _ hd)) (htrack c (List.mem_append_right _ List.mem_cons_self))
        hearlier hcall).mpr (hapart earlier c later hsplit)

end Program

/-- void g() { int x; x = 1; } -/
def plainSetter : Cursor :=
  definitionOf 21 "g" []
    [.node { id := 23, kind := .varDecl, usr := "c:g@x", linkage := .noLinkage } [],
     .node { id := 24, kind := .binaryOperator, binaryOperatorKind := .assign }
      [.node { id := 25, kind := .declRefExpr, referenced := some 23 } [],
       .node { id := 26, kind := .other 106 } []]]

def setterProgram : Program where
  tuArray := []
  fileNames := []
  decls := [.node { id := 4, kind := .varDecl, usr := "c:f@p", typeKind := .pointer } [],
    .node { id := 23, kind := .varDecl, usr := "c:g@x", linkage := .noLinkage } []]
  zeroCursorIsNull := false

/-- The local x of both calls of g is filtered out, and the pointer p is a local of one function only. -/
theorem setters_unreported : ∃ now reports, compareAllFuncs (fun _ => true) [] false
    (footprints setterProgram false ([plainSetter, plainSetter, pointerSetter].map requestedFunc) ["g()", "g()", "f(y)"]) =
      some (now, reports) ∧ ∀ r ∈ reports, ¬ IsLocalPair (fun _ => False)
        (walkedTrees setterProgram [plainSetter, plainSetter, pointerSetter]) r.vaI r.vaJ := by
  have hnamed : VariablesNamed setterProgram := by
    rw [VariablesNamed]
    decide +kernel
  obtain ⟨now, reports, hrun, hiff⟩ := @locals_unreported_iff (fun _ => true) [] setterProgram (fun _ => False)
    [plainSetter, plainSetter, pointerSetter] ["g()", "g()", "f(y)"] hnamed
  refine ⟨now, reports, hrun, hiff.mpr (localsApart_of_one _ ?_)⟩
  have hfiltered : ∀ k : Nat, k ≠ 2 → ∀ p ∈ (recordedIn setterProgram [plainSetter, plainSetter, pointerSetter]
      ["g()", "g()", "f(y)"])[k]?.getD [], slips p = false := by
    intro k hk
    match k with
    | 0 => decide +kernel
    | 1 => decide +kernel
    | 2 => exact absurd rfl hk
    | k + 3 => exact List.forall_mem_nil _
  have hnone : ∀ usr (k : Nat), k ≠ 2 → ∀ p ∈ slipped usr ((recordedIn setterProgram
      [plainSetter, plainSetter, pointerSetter] ["g()", "g()", "f(y)"])[k]?.getD []),
      ¬ OfLocal (fun _ => False) (walkedTrees setterProgram [plainSetter, plainSetter, pointerSetter]) p := by
    intro usr k hk p hp
    obtain ⟨hmem, hp⟩ := List.mem_filter.mp hp
    rw [hfiltered k hk p hmem, Bool.and_false] at hp
    cases hp
  intro usr i j hij
  by_cases hi : i = 2
  · exact .inr (hnone usr j fun hj => hij (hi.trans hj.symm))
  · exact .inl (hnone usr i hi)

end Prongc.FilteredLocals
