import Mathlib.Order.Lattice
import Prongc.Library.BranchMarkers

namespace Prongc.Library.MeetOverPaths

open BranchMarkers

/-- A conditional that a scan has entered, with the facts it must join at the end. -/
inductive Frame (L : Type)
  | cond
  | thenPart (entry : L)
  | elsePart (thenOut : L)

section Scan

variable {α L : Type} [SemilatticeInf L] (mark : α → Option Mark) (effect : L → α → L)

/-- One pass over a marked sequence that meets the facts of both sides at each end marker. -/
def scanStep (st : L × List (Frame L)) (a : α) : L × List (Frame L) :=
  match mark a, st with
  | some .ifStmt, (s, frames) => (s, .cond :: frames)
  | some .thenBlock, (s, .cond :: frames) => (s, .thenPart s :: frames)
  | some .elseStmt, (s, .thenPart entry :: frames) => (entry, .elsePart s :: frames)
  | some .endIf, (s, .thenPart entry :: frames) => (s ⊓ entry, frames)
  | some .endIf, (s, .elsePart thenOut :: frames) => (s ⊓ thenOut, frames)
  | _, (s, frames) => (effect s a, frames)

def scan (s : L) (l : List α) : L := (l.foldl (scanStep mark effect) (s, [])).1

def meetOut : Body α → L → L
  | .nil, s => s
  | .event a rest, s => meetOut rest (effect s a)
  | .ifThen _ _ _ cond thn rest, s => meetOut rest (meetOut thn (meetOut cond s) ⊓ meetOut cond s)
  | .ifThenElse _ _ _ _ cond thn els rest, s =>
      meetOut rest (meetOut els (meetOut cond s) ⊓ meetOut thn (meetOut cond s))

def Meets (g : L → Prop) : Prop := ∀ s t, g (s ⊓ t) ↔ g s ∧ g t

def upTo (p : α → Bool) (l : List α) : List α := l.takeWhile (fun a => !p a)

def Has (p : α → Bool) (l : List α) : Prop := ∃ a ∈ l, p a = true

def Once (p : α → Bool) (l : List α) : Prop := l.Pairwise (fun a b => ¬ (p a = true ∧ p b = true))

end Scan

variable {α L : Type} [SemilatticeInf L] {mark : α → Option Mark} {effect : L → α → L}

theorem upTo_append_of_not {p : α → Bool} {l : List α} (h : ¬ Has p l) (r : List α) :
    upTo p (l ++ r) = l ++ upTo p r := by
  apply List.takeWhile_append_of_pos
  intro a ha
  by_contra hn
  exact h ⟨a, ha, by simpa using hn⟩

theorem upTo_append_of_has {p : α → Bool} {l : List α} (h : Has p l) (r : List α) :
    upTo p (l ++ r) = upTo p l := by
  obtain ⟨a, ha, hp⟩ := h
  induction l with
  | nil => simp at ha
  | cons b l ih =>
      by_cases hb : p b = true
      · simp [upTo, hb]
      · have hm : a ∈ l := by
          rcases List.mem_cons.mp ha with rfl | hm
          · exact absurd hp hb
          · exact hm
        have := ih hm
        simp only [upTo, List.cons_append, List.takeWhile_cons, hb] at this ⊢
        simp [this]

theorem upTo_cons_of_not {p : α → Bool} {a : α} (h : p a = false) (l : List α) :
    upTo p (a :: l) = a :: upTo p l := by
  simp [upTo, h]

theorem has_append {p : α → Bool} {l r : List α} : Has p (l ++ r) ↔ Has p l ∨ Has p r := by
  simp [Has, or_and_right, exists_or]

theorem has_cons {p : α → Bool} {a : α} {l : List α} : Has p (a :: l) ↔ p a = true ∨ Has p l := by
  simp [Has]

theorem Once.append {p : α → Bool} {l r : List α} (h : Once p (l ++ r)) :
    Once p l ∧ Once p r ∧ ¬ (Has p l ∧ Has p r) := by
  obtain ⟨hl, hr, hlr⟩ := List.pairwise_append.mp h
  refine ⟨hl, hr, ?_⟩
  rintro ⟨⟨a, ha, hpa⟩, b, hb, hpb⟩
  exact hlr a ha b hb ⟨hpa, hpb⟩

theorem Once.cons {p : α → Bool} {a : α} {l : List α} (h : Once p (a :: l)) :
    Once p l ∧ ¬ (p a = true ∧ Has p l) := by
  obtain ⟨ha, hl⟩ := List.pairwise_cons.mp h
  refine ⟨hl, ?_⟩
  rintro ⟨hpa, b, hb, hpb⟩
  exact ha b hb ⟨hpa, hpb⟩

theorem exists_path (b : Body α) : ∃ π, Path b π := by
  induction b with
  | nil => exact ⟨[], .nil⟩
  | event a rest ih =>
      obtain ⟨π, h⟩ := ih
      exact ⟨_, .event h⟩
  | ifThen i t e cond thn rest ihc _ ihr =>
      obtain ⟨πc, hc⟩ := ihc
      obtain ⟨π, h⟩ := ihr
      exact ⟨_, .ifThen_skipped hc h⟩
  | ifThenElse i t l e cond thn els rest ihc iht _ ihr =>
      obtain ⟨πc, hc⟩ := ihc
      obtain ⟨πt, ht⟩ := iht
      obtain ⟨π, h⟩ := ihr
      exact ⟨_, .ifThenElse_then hc ht h⟩

theorem Has.of_path {p : α → Bool} {b : Body α} {π : List α} (hp : Path b π) (h : Has p π) :
    Has p (flatten b) := by
  induction hp with
  | nil => exact h
  | event _ ih =>
      rw [flatten, has_cons]
      exact (has_cons.mp h).imp_right ih
  | ifThen_taken _ _ _ ihc iht ihr =>
      simp only [flatten, has_cons, has_append] at h ⊢
      grind
  | ifThen_skipped _ _ ihc ihr =>
      simp only [flatten, has_cons, has_append] at h ⊢
      grind
  | ifThenElse_then _ _ _ ihc iht ihr =>
      simp only [flatten, has_cons, has_append] at h ⊢
      grind
  | ifThenElse_else _ _ _ ihc ihe ihr =>
      simp only [flatten, has_cons, has_append] at h ⊢
      grind

section Sound

variable (hmark : ∀ a m s, mark a = some m → effect s a = s)
  (hmeet : ∀ a s t, effect (s ⊓ t) a = effect s a ⊓ effect t a)

include hmeet in
theorem Meets.foldl {g : L → Prop} (hg : Meets g) (π : List α) : Meets (fun s => g (π.foldl effect s)) := by
  induction π with
  | nil => exact hg
  | cons a π ih =>
      intro s t
      simp only [List.foldl_cons, hmeet]
      exact ih _ _

theorem scanStep_event {a : α} (h : mark a = none) (s : L) (frames : List (Frame L)) :
    scanStep mark effect (s, frames) a = (effect s a, frames) := by
  simp [scanStep, h]

theorem foldl_scanStep_flatten {b : Body α} (hb : WellMarked mark b) (s : L) (frames : List (Frame L)) :
    (flatten b).foldl (scanStep mark effect) (s, frames) = (meetOut effect b s, frames) := by
  induction b generalizing s frames with
  | nil => rfl
  | event a rest ih =>
      rw [flatten, List.foldl_cons, scanStep_event hb.1, ih hb.2]
      rfl
  | ifThen i t e cond thn rest ihc iht ihr =>
      obtain ⟨hi, ht, he, hcond, hthn, hrest⟩ := hb
      simp only [flatten, List.foldl_cons, List.foldl_append, scanStep, hi, ht, he, ihc hcond, iht hthn,
        ihr hrest, meetOut]
  | ifThenElse i t l e cond thn els rest ihc iht ihe ihr =>
      obtain ⟨hi, ht, hl, he, hcond, hthn, hels, hrest⟩ := hb
      simp only [flatten, List.foldl_cons, List.foldl_append, scanStep, hi, ht, hl, he, ihc hcond,
        iht hthn, ihe hels, ihr hrest, meetOut]

include hmark hmeet

/-- A property that meets preserve holds of the facts behind a body exactly if
it holds behind every path. -/
theorem meetOut_iff {b : Body α} (hb : WellMarked mark b) {g : L → Prop} (hg : Meets g) (s : L) :
    g (meetOut effect b s) ↔ ∀ π, Path b π → g (π.foldl effect s) := by
  induction b generalizing g s with
  | nil =>
      constructor
      · intro h π hp
        cases hp
        exact h
      · intro h
        exact h [] .nil
  | event a rest ih =>
      rw [meetOut, ih hb.2 hg]
      constructor
      · intro h π hp
        cases hp with
        | event hp => exact h _ hp
      · intro h π hp
        exact h _ (.event hp)
  | ifThen i t e cond thn rest ihc iht ihr =>
      obtain ⟨hi, ht, he, hcond, hthn, hrest⟩ := hb
      rw [meetOut, ihr hrest hg]
      constructor
      · intro h π hp
        cases hp with
        | ifThen_taken pc pt pr =>
            have h₁ := ((hg.foldl hmeet _) _ _).mp (h _ pr)
            have h₂ := (iht hthn (hg.foldl hmeet _) _).mp h₁.1 _ pt
            have h₃ := (ihc hcond ((hg.foldl hmeet _).foldl hmeet _) _).mp h₂ _ pc
            simpa [hmark _ _ _ hi, hmark _ _ _ ht, hmark _ _ _ he] using h₃
        | ifThen_skipped pc pr =>
            have h₁ := ((hg.foldl hmeet _) _ _).mp (h _ pr)
            have h₂ := (ihc hcond (hg.foldl hmeet _) _).mp h₁.2 _ pc
            simpa [hmark _ _ _ hi, hmark _ _ _ he] using h₂
      · intro h πr pr
        refine ((hg.foldl hmeet πr) _ _).mpr ⟨?_, ?_⟩
        · refine (iht hthn (hg.foldl hmeet πr) _).mpr fun πt pt =>
            (ihc hcond ((hg.foldl hmeet πr).foldl hmeet πt) _).mpr fun πc pc => ?_
          simpa [hmark _ _ _ hi, hmark _ _ _ ht, hmark _ _ _ he] using h _ (.ifThen_taken pc pt pr)
        · apply (ihc hcond (hg.foldl hmeet πr) _).mpr
          intro πc pc
          simpa [hmark _ _ _ hi, hmark _ _ _ he] using h _ (.ifThen_skipped pc pr)
  | ifThenElse i t l e cond thn els rest ihc iht ihe ihr =>
      obtain ⟨hi, ht, hl, he, hcond, hthn, hels, hrest⟩ := hb
      rw [meetOut, ihr hrest hg]
      constructor
      · intro h π hp
        cases hp with
        | ifThenElse_then pc pt pr =>
            have h₁ := ((hg.foldl hmeet _) _ _).mp (h _ pr)
            have h₂ := (iht hthn (hg.foldl hmeet _) _).mp h₁.2 _ pt
            have h₃ := (ihc hcond ((hg.foldl hmeet _).foldl hmeet _) _).mp h₂ _ pc
            simpa [hmark _ _ _ hi, hmark _ _ _ ht, hmark _ _ _ he] using h₃
        | ifThenElse_else pc pe pr =>
            have h₁ := ((hg.foldl hmeet _) _ _).mp (h _ pr)
            have h₂ := (ihe hels (hg.foldl hmeet _) _).mp h₁.1 _ pe
            have h₃ := (ihc hcond ((hg.foldl hmeet _).foldl hmeet _) _).mp h₂ _ pc
            simpa [hmark _ _ _ hi, hmark _ _ _ hl, hmark _ _ _ he] using h₃
      · intro h πr pr
        refine ((hg.foldl hmeet πr) _ _).mpr ⟨?_, ?_⟩
        · refine (ihe hels (hg.foldl hmeet πr) _).mpr fun πe pe =>
            (ihc hcond ((hg.foldl hmeet πr).foldl hmeet πe) _).mpr fun πc pc => ?_
          simpa [hmark _ _ _ hi, hmark _ _ _ hl, hmark _ _ _ he] using h _ (.ifThenElse_else pc pe pr)
        · refine (iht hthn (hg.foldl hmeet πr) _).mpr fun πt pt =>
            (ihc hcond ((hg.foldl hmeet πr).foldl hmeet πt) _).mpr fun πc pc => ?_
          simpa [hmark _ _ _ hi, hmark _ _ _ ht, hmark _ _ _ he] using h _ (.ifThenElse_then pc pt pr)

omit [SemilatticeInf L] hmark hmeet in
theorem has_path_append {p : α → Bool} {b c : Body α} {π₁ π₂ : List α} (h₁ : Path b π₁) (h₂ : Path c π₂) :
    Has p (π₁ ++ π₂) → (¬ Has p (flatten b) → Has p π₂) ∧ (¬ Has p (flatten c) → Has p π₁) := by
  intro h
  rcases has_append.mp h with h | h
  · exact ⟨fun hn => absurd (h.of_path h₁) hn, fun _ => h⟩
  · exact ⟨fun _ => h, fun hn => absurd (h.of_path h₂) hn⟩

/-- The scan up to an event of `b` computes what holds there on every path that reaches it. -/
def ScansPaths (mark : α → Option Mark) (effect : L → α → L) (p : α → Bool) (b : Body α) : Prop :=
  ∀ g : L → Prop, Meets g → ∀ s frames,
    g ((upTo p (flatten b)).foldl (scanStep mark effect) (s, frames)).1 ↔
      ∀ π, Path b π → Has p π → g ((upTo p π).foldl effect s)

theorem ScansPaths.skip {p : α → Bool} {b c : Body α} (hb : WellMarked mark b)
    (hn : ¬ Has p (flatten b)) (hc : ScansPaths mark effect p c) : ScansPaths mark effect p (b.append c) := by
  intro g hg s frames
  have hpath {π : List α} (h : Path b π) : ¬ Has p π := fun hh => hn (hh.of_path h)
  rw [flatten_append, upTo_append_of_not hn, List.foldl_append, foldl_scanStep_flatten hb, hc g hg]
  constructor
  · intro h π hπ hh
    obtain ⟨π₁, π₂, h₁, h₂, rfl⟩ := path_append_iff.mp hπ
    rw [upTo_append_of_not (hpath h₁), List.foldl_append]
    exact (meetOut_iff hmark hmeet hb (hg.foldl hmeet (upTo p π₂)) s).mp
      (h π₂ h₂ ((has_path_append h₁ h₂ hh).1 hn)) π₁ h₁
  · intro h π₂ h₂ hh
    apply (meetOut_iff hmark hmeet hb (hg.foldl hmeet (upTo p π₂)) s).mpr
    intro π₁ h₁
    have := h _ (path_append_iff.mpr ⟨π₁, π₂, h₁, h₂, rfl⟩) (has_append.mpr (.inr hh))
    rwa [upTo_append_of_not (hpath h₁), List.foldl_append] at this

omit hmark hmeet in
theorem ScansPaths.append {p : α → Bool} {b c : Body α} (hb : Has p (flatten b))
    (hn : ¬ Has p (flatten c)) (h : ScansPaths mark effect p b) : ScansPaths mark effect p (b.append c) := by
  intro g hg s frames
  rw [flatten_append, upTo_append_of_has hb, h g hg]
  constructor
  · intro h π hπ hh
    obtain ⟨π₁, π₂, h₁, h₂, rfl⟩ := path_append_iff.mp hπ
    have hh₁ := (has_path_append h₁ h₂ hh).2 hn
    rw [upTo_append_of_has hh₁]
    exact h π₁ h₁ hh₁
  · intro h π₁ h₁ hh
    obtain ⟨π₂, h₂⟩ := exists_path c
    have := h _ (path_append_iff.mpr ⟨π₁, π₂, h₁, h₂, rfl⟩) (has_append.mpr (.inl hh))
    rwa [upTo_append_of_has hh] at this

omit hmark hmeet in
theorem scansPaths_event {p : α → Bool} {a : α} (h : p a = true) :
    ScansPaths mark effect p (.event a .nil) := by
  intro g _ s frames
  have hnil : upTo p [a] = [] := by simp [upTo, h]
  rw [flatten, flatten, hnil]
  constructor
  · intro hs π hπ _
    cases hπ with
    | event hr =>
        cases hr
        rwa [hnil]
  · intro hs
    simpa [hnil] using hs [a] (.event .nil) ⟨a, List.mem_cons_self, h⟩

section Group

variable {p : α → Bool} (hp : ∀ a m, mark a = some m → p a = false) {i t l e : α} {cond thn els : Body α}
  (hi : mark i = some .ifStmt) (ht : mark t = some .thenBlock) (hl : mark l = some .elseStmt)
  (he : mark e = some .endIf) (hcond : WellMarked mark cond) (hthn : WellMarked mark thn)

include hp hi

omit hmeet in
theorem scansPaths_cond {group : Body α} {rest : List α} (hflat : flatten group = i :: (flatten cond ++ rest))
    (hpath : ∀ π, Path group π → ∃ πc r, Path cond πc ∧ π = i :: (πc ++ r) ∧ (Has p r → Has p rest))
    (hrun : ∀ πc, Path cond πc → ∃ r, Path group (i :: (πc ++ r)))
    (hhas : Has p (flatten cond)) (hn : ¬ Has p rest) (h : ScansPaths mark effect p cond) :
    ScansPaths mark effect p group := by
  intro g hg s frames
  have hscan : scanStep mark effect (s, frames) i = (s, .cond :: frames) := by simp [scanStep, hi]
  rw [hflat, upTo_cons_of_not (hp _ _ hi), upTo_append_of_has hhas, List.foldl_cons, hscan, h g hg]
  constructor
  · intro hs π hπ hh
    obtain ⟨πc, r, hc, rfl, hr⟩ := hpath π hπ
    have hhc : Has p πc := by
      rcases has_cons.mp hh with hh | hh
      · simp [hp _ _ hi] at hh
      · exact (has_append.mp hh).resolve_right fun hh => hn (hr hh)
    rw [upTo_cons_of_not (hp _ _ hi), upTo_append_of_has hhc, List.foldl_cons, hmark _ _ _ hi]
    exact hs πc hc hhc
  · intro hs πc hc hh
    obtain ⟨r, hr⟩ := hrun πc hc
    have := hs _ hr (has_cons.mpr (.inr (has_append.mpr (.inl hh))))
    rwa [upTo_cons_of_not (hp _ _ hi), upTo_append_of_has hh, List.foldl_cons, hmark _ _ _ hi] at this

include ht hcond

theorem scansPaths_then {group : Body α} {rest : List α}
    (hflat : flatten group = i :: (flatten cond ++ t :: (flatten thn ++ rest)))
    (hpath : ∀ π, Path group π → Has p π → ∃ πc πt r, Path cond πc ∧ Path thn πt ∧
      π = i :: (πc ++ t :: (πt ++ r)) ∧ (Has p r → Has p rest))
    (hrun : ∀ πc πt, Path cond πc → Path thn πt → ∃ r, Path group (i :: (πc ++ t :: (πt ++ r))))
    (hnc : ¬ Has p (flatten cond)) (hhas : Has p (flatten thn)) (hn : ¬ Has p rest)
    (h : ScansPaths mark effect p thn) : ScansPaths mark effect p group := by
  intro g hg s frames
  have hnp {πc : List α} (hc : Path cond πc) : ¬ Has p πc := fun hh => hnc (hh.of_path hc)
  have hup {πc πt : List α} (r : List α) (hc : Path cond πc) (hh : Has p πt) :
      (upTo p (i :: (πc ++ t :: (πt ++ r)))).foldl effect s = (upTo p πt).foldl effect (πc.foldl effect s) := by
    rw [upTo_cons_of_not (hp _ _ hi), upTo_append_of_not (hnp hc), upTo_cons_of_not (hp _ _ ht),
      upTo_append_of_has hh]
    simp [hmark _ _ _ hi, hmark _ _ _ ht]
  have hscan : (upTo p (flatten group)).foldl (scanStep mark effect) (s, frames) =
      (upTo p (flatten thn)).foldl (scanStep mark effect)
        (meetOut effect cond s, .thenPart (meetOut effect cond s) :: frames) := by
    rw [hflat, upTo_cons_of_not (hp _ _ hi), upTo_append_of_not hnc, upTo_cons_of_not (hp _ _ ht),
      upTo_append_of_has hhas]
    simp only [List.foldl_cons, List.foldl_append, scanStep, hi, ht, foldl_scanStep_flatten hcond]
  rw [hscan, h g hg]
  constructor
  · intro hs π hπ hh
    obtain ⟨πc, πt, r, hc, htn, rfl, hr⟩ := hpath π hπ hh
    have hht : Has p πt := by
      simp only [has_cons, has_append, hp _ _ hi, hp _ _ ht, Bool.false_eq_true, false_or] at hh
      rcases hh with hh | hh | hh
      · exact absurd hh (hnp hc)
      · exact hh
      · exact absurd (hr hh) hn
    rw [hup r hc hht]
    exact (meetOut_iff hmark hmeet hcond (hg.foldl hmeet (upTo p πt)) s).mp (hs πt htn hht) πc hc
  · intro hs πt htn hh
    apply (meetOut_iff hmark hmeet hcond (hg.foldl hmeet (upTo p πt)) s).mpr
    intro πc hc
    obtain ⟨r, hr⟩ := hrun πc πt hc htn
    have hhas' : Has p (i :: (πc ++ t :: (πt ++ r))) := by
      simp only [has_cons, has_append]
      exact .inr (.inr (.inr (.inl hh)))
    rw [← hup r hc hh]
    exact hs _ hr hhas'

include hl hthn

theorem scansPaths_else (hnc : ¬ Has p (flatten cond)) (hnt : ¬ Has p (flatten thn))
    (hhas : Has p (flatten els)) (hpe : p e = false) (h : ScansPaths mark effect p els) :
    ScansPaths mark effect p (.ifThenElse i t l e cond thn els .nil) := by
  intro g hg s frames
  have hnp {πc : List α} (hc : Path cond πc) : ¬ Has p πc := fun hh => hnc (hh.of_path hc)
  have hup {πc πe : List α} (r : List α) (hc : Path cond πc) (hh : Has p πe) :
      (upTo p (i :: (πc ++ l :: (πe ++ r)))).foldl effect s = (upTo p πe).foldl effect (πc.foldl effect s) := by
    rw [upTo_cons_of_not (hp _ _ hi), upTo_append_of_not (hnp hc), upTo_cons_of_not (hp _ _ hl),
      upTo_append_of_has hh]
    simp [hmark _ _ _ hi, hmark _ _ _ hl]
  have hscan : (upTo p (flatten (.ifThenElse i t l e cond thn els .nil))).foldl (scanStep mark effect) (s, frames) =
      (upTo p (flatten els)).foldl (scanStep mark effect) (meetOut effect cond s,
        .elsePart (meetOut effect thn (meetOut effect cond s)) :: frames) := by
    rw [flatten, upTo_cons_of_not (hp _ _ hi), upTo_append_of_not hnc, upTo_cons_of_not (hp _ _ ht),
      upTo_append_of_not hnt, upTo_cons_of_not (hp _ _ hl), upTo_append_of_has hhas]
    simp only [List.foldl_cons, List.foldl_append, scanStep, hi, ht, hl, foldl_scanStep_flatten hcond,
      foldl_scanStep_flatten hthn]
  rw [hscan, h g hg]
  constructor
  · intro hs π hπ hh
    cases hπ with
    | ifThenElse_then hc htn hr =>
        simp only [has_cons, has_append, hp _ _ hi, hp _ _ ht, hpe, Bool.false_eq_true, false_or] at hh
        rcases hh with hh | hh | hh
        · exact absurd hh (hnp hc)
        · exact absurd (hh.of_path htn) hnt
        · cases hr
          simp [Has] at hh
    | @ifThenElse_else _ _ _ _ _ _ _ _ πc πe πr hc hen hr =>
        cases hr
        have hhe : Has p πe := by
          simp only [has_cons, has_append, hp _ _ hi, hp _ _ hl, hpe, Bool.false_eq_true, false_or] at hh
          rcases hh with hh | hh | hh
          · exact absurd hh (hnp hc)
          · exact hh
          · simp [Has] at hh
        rw [hup [e] hc hhe]
        exact (meetOut_iff hmark hmeet hcond (hg.foldl hmeet (upTo p πe)) s).mp (hs πe hen hhe) πc hc
  · intro hs πe hen hh
    apply (meetOut_iff hmark hmeet hcond (hg.foldl hmeet (upTo p πe)) s).mpr
    intro πc hc
    have hhas' : Has p (i :: (πc ++ l :: (πe ++ [e]))) := by
      simp only [has_cons, has_append]
      exact .inr (.inr (.inr (.inl hh)))
    rw [← hup [e] hc hh]
    exact hs _ (.ifThenElse_else hc hen .nil) hhas'

end Group

theorem scansPaths_ifThen {i t e : α} {cond thn : Body α} {p : α → Bool}
    (hb : WellMarked mark (.ifThen i t e cond thn .nil)) (hp : ∀ a m, mark a = some m → p a = false)
    (hone : Once p (flatten (.ifThen i t e cond thn .nil))) (hhas : Has p (flatten (.ifThen i t e cond thn .nil)))
    (ihc : Once p (flatten cond) → Has p (flatten cond) → ScansPaths mark effect p cond)
    (iht : Once p (flatten thn) → Has p (flatten thn) → ScansPaths mark effect p thn) :
    ScansPaths mark effect p (.ifThen i t e cond thn .nil) := by
  obtain ⟨hi, ht, he, hcond, hthn, -⟩ := hb
  rw [flatten] at hone hhas
  obtain ⟨honec, hone₁, hnc⟩ := hone.cons.1.append
  obtain ⟨honet, -, hnt⟩ := hone₁.cons.1.append
  by_cases hc : Has p (flatten cond)
  · refine scansPaths_cond hmark hp hi rfl ?_ ?_ hc (fun h => hnc ⟨hc, h⟩) (ihc honec hc)
    · intro π hπ
      cases hπ with
      | ifThen_taken pc pt pr =>
          refine ⟨_, _, pc, rfl, fun h => ?_⟩
          cases pr
          simp only [has_cons, has_append, flatten] at h ⊢
          exact h.imp_right (Or.imp_left (fun h => h.of_path pt))
      | ifThen_skipped pc pr =>
          refine ⟨_, _, pc, rfl, fun h => ?_⟩
          cases pr
          simp only [has_cons, has_append, flatten] at h ⊢
          exact .inr (.inr h)
    · exact fun πc pc => ⟨_, .ifThen_skipped pc .nil⟩
  · have hthas : Has p (flatten thn) := by
      simp only [has_cons, has_append, hp _ _ hi, hp _ _ ht, hp _ _ he, flatten,
        Bool.false_eq_true, false_or] at hhas
      rcases hhas with hhas | hhas | hhas
      · exact absurd hhas hc
      · exact hhas
      · simp [Has] at hhas
    refine scansPaths_then hmark hmeet hp hi ht hcond rfl ?_ ?_ hc hthas (fun h => hnt ⟨hthas, h⟩)
      (iht honet hthas)
    · intro π hπ hh
      cases hπ with
      | ifThen_taken pc pt pr => cases pr; exact ⟨_, _, _, pc, pt, rfl, fun h => h⟩
      | ifThen_skipped pc pr =>
          cases pr
          simp only [has_cons, has_append, hp _ _ hi, hp _ _ he, Bool.false_eq_true, false_or] at hh
          rcases hh with hh | hh
          · exact absurd (hh.of_path pc) hc
          · simp [Has] at hh
    · exact fun πc πt pc pt => ⟨_, .ifThen_taken pc pt .nil⟩

theorem scansPaths_ifThenElse {i t l e : α} {cond thn els : Body α} {p : α → Bool}
    (hb : WellMarked mark (.ifThenElse i t l e cond thn els .nil)) (hp : ∀ a m, mark a = some m → p a = false)
    (hone : Once p (flatten (.ifThenElse i t l e cond thn els .nil)))
    (hhas : Has p (flatten (.ifThenElse i t l e cond thn els .nil)))
    (ihc : Once p (flatten cond) → Has p (flatten cond) → ScansPaths mark effect p cond)
    (iht : Once p (flatten thn) → Has p (flatten thn) → ScansPaths mark effect p thn)
    (ihe : Once p (flatten els) → Has p (flatten els) → ScansPaths mark effect p els) :
    ScansPaths mark effect p (.ifThenElse i t l e cond thn els .nil) := by
  obtain ⟨hi, ht, hl, he, hcond, hthn, hels, -⟩ := hb
  rw [flatten] at hone hhas
  obtain ⟨honec, hone₁, hnc⟩ := hone.cons.1.append
  obtain ⟨honet, hone₂, hnt⟩ := hone₁.cons.1.append
  obtain ⟨honee, -, -⟩ := hone₂.cons.1.append
  by_cases hc : Has p (flatten cond)
  · refine scansPaths_cond hmark hp hi rfl ?_ ?_ hc (fun h => hnc ⟨hc, h⟩) (ihc honec hc)
    · intro π hπ
      cases hπ with
      | ifThenElse_then pc pt pr =>
          refine ⟨_, _, pc, rfl, fun h => ?_⟩
          cases pr
          simp only [has_cons, has_append, flatten] at h ⊢
          exact h.imp_right (Or.imp (fun h => h.of_path pt) (fun h => .inr (.inr h)))
      | ifThenElse_else pc pe pr =>
          refine ⟨_, _, pc, rfl, fun h => ?_⟩
          cases pr
          simp only [has_cons, has_append, flatten] at h ⊢
          exact .inr (.inr (h.imp_right (Or.imp_left (fun h => h.of_path pe))))
    · intro πc pc
      obtain ⟨πt, pt⟩ := exists_path thn
      exact ⟨_, .ifThenElse_then pc pt .nil⟩
  · by_cases hthas : Has p (flatten thn)
    · refine scansPaths_then hmark hmeet hp hi ht hcond rfl ?_ ?_ hc hthas (fun h => hnt ⟨hthas, h⟩)
        (iht honet hthas)
      · intro π hπ hh
        cases hπ with
        | ifThenElse_then pc pt pr =>
            cases pr
            refine ⟨_, _, _, pc, pt, rfl, fun h => ?_⟩
            simp only [has_cons, has_append, flatten] at h ⊢
            exact .inr (.inr h)
        | ifThenElse_else pc pe pr =>
            cases pr
            simp only [has_cons, has_append, hp _ _ hi, hp _ _ hl, hp _ _ he, Bool.false_eq_true,
              false_or] at hh
            have hne : ¬ Has p (flatten els) := fun h =>
              hnt ⟨hthas, has_cons.mpr (.inr (has_append.mpr (.inl h)))⟩
            rcases hh with hh | hh | hh
            · exact absurd (hh.of_path pc) hc
            · exact absurd (hh.of_path pe) hne
            · simp [Has] at hh
      · exact fun πc πt pc pt => ⟨_, .ifThenElse_then pc pt .nil⟩
    · have hehas : Has p (flatten els) := by
        simp only [has_cons, has_append, hp _ _ hi, hp _ _ ht, hp _ _ hl, hp _ _ he, flatten,
          Bool.false_eq_true, false_or] at hhas
        rcases hhas with hhas | hhas | hhas | hhas
        · exact absurd hhas hc
        · exact absurd hhas hthas
        · exact hhas
        · simp [Has] at hhas
      exact scansPaths_else hmark hmeet hp hi ht hl hcond hthn hc hthas hehas (hp _ _ he) (ihe honee hehas)

/-- Over a marked body, the scan up to an event computes what holds there on
every path that reaches it. -/
theorem scansPaths {b : Body α} (hb : WellMarked mark b) {p : α → Bool}
    (hp : ∀ a m, mark a = some m → p a = false) (hone : Once p (flatten b)) (hhas : Has p (flatten b)) :
    ScansPaths mark effect p b := by
  induction b with
  | nil => simp [flatten, Has] at hhas
  | event a rest ih =>
      obtain ⟨ha, hrest⟩ := hb
      change ScansPaths mark effect p ((Body.event a .nil).append rest)
      rw [flatten] at hone hhas
      by_cases hpa : p a = true
      · exact (scansPaths_event hpa).append ⟨a, by simp [flatten], hpa⟩
          (fun hr => hone.cons.2 ⟨hpa, hr⟩)
      · refine .skip hmark hmeet ⟨ha, trivial⟩ ?_
          (ih hrest hone.cons.1 ((has_cons.mp hhas).resolve_left hpa))
        simpa [flatten, Has] using hpa
  | ifThen i t e cond thn rest ihc iht ihr =>
      obtain ⟨hi, ht, he, hcond, hthn, hrest⟩ := hb
      have hgroup : WellMarked mark (.ifThen i t e cond thn .nil) := ⟨hi, ht, he, hcond, hthn, trivial⟩
      change ScansPaths mark effect p ((Body.ifThen i t e cond thn .nil).append rest)
      have hflat : flatten (.ifThen i t e cond thn rest) =
          flatten (.ifThen i t e cond thn .nil) ++ flatten rest := by simp [flatten]
      rw [hflat] at hone hhas
      obtain ⟨honeg, honer, hn⟩ := hone.append
      by_cases hr : Has p (flatten rest)
      · exact .skip hmark hmeet hgroup (fun hg => hn ⟨hg, hr⟩) (ihr hrest honer hr)
      · have hg := (has_append.mp hhas).resolve_right hr
        exact .append hg hr (scansPaths_ifThen hmark hmeet hgroup hp honeg hg (ihc hcond) (iht hthn))
  | ifThenElse i t l e cond thn els rest ihc iht ihe ihr =>
      obtain ⟨hi, ht, hl, he, hcond, hthn, hels, hrest⟩ := hb
      have hgroup : WellMarked mark (.ifThenElse i t l e cond thn els .nil) :=
        ⟨hi, ht, hl, he, hcond, hthn, hels, trivial⟩
      change ScansPaths mark effect p ((Body.ifThenElse i t l e cond thn els .nil).append rest)
      have hflat : flatten (.ifThenElse i t l e cond thn els rest) =
          flatten (.ifThenElse i t l e cond thn els .nil) ++ flatten rest := by simp [flatten]
      rw [hflat] at hone hhas
      obtain ⟨honeg, honer, hn⟩ := hone.append
      by_cases hr : Has p (flatten rest)
      · exact .skip hmark hmeet hgroup (fun hg => hn ⟨hg, hr⟩) (ihr hrest honer hr)
      · have hg := (has_append.mp hhas).resolve_right hr
        exact .append hg hr (scansPaths_ifThenElse hmark hmeet hgroup hp honeg hg (ihc hcond) (iht hthn) (ihe hels))

end Sound

end Prongc.Library.MeetOverPaths
