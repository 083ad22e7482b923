import Mathlib.Data.List.Basic

namespace Prongc.Library.BranchMarkers

inductive Mark
  | ifStmt | thenBlock | elseStmt | endIf
  deriving DecidableEq, Repr

/-- The part of an open conditional that a sequence has reached. -/
inductive Phase
  | cond | thenPart | elsePart
  deriving DecidableEq, Repr

def step : Mark → List Phase → Option (List Phase)
  | .ifStmt, st => some (.cond :: st)
  | .thenBlock, .cond :: st => some (.thenPart :: st)
  | .elseStmt, .thenPart :: st => some (.elsePart :: st)
  | .endIf, .thenPart :: st => some st
  | .endIf, .elsePart :: st => some st
  | _, _ => none

variable {α : Type}

def advance (mark : α → Option Mark) (st : List Phase) (a : α) : Option (List Phase) :=
  match mark a with
  | none => some st
  | some m => step m st

def run (mark : α → Option Mark) (st : List Phase) (l : List α) : Option (List Phase) :=
  l.foldlM (advance mark) st

/-- A sequence of events and conditionals. Each constructor carries the rest
of the sequence, so that the type is its own list. -/
inductive Body (α : Type)
  | nil
  | event (a : α) (rest : Body α)
  | ifThen (i t e : α) (cond thn rest : Body α)
  | ifThenElse (i t l e : α) (cond thn els rest : Body α)

def flatten : Body α → List α
  | .nil => []
  | .event a rest => a :: flatten rest
  | .ifThen i t e cond thn rest =>
      i :: (flatten cond ++ t :: (flatten thn ++ e :: flatten rest))
  | .ifThenElse i t l e cond thn els rest =>
      i :: (flatten cond ++ t :: (flatten thn ++ l :: (flatten els ++ e :: flatten rest)))

def WellMarked (mark : α → Option Mark) : Body α → Prop
  | .nil => True
  | .event a rest => mark a = none ∧ WellMarked mark rest
  | .ifThen i t e cond thn rest =>
      mark i = some .ifStmt ∧ mark t = some .thenBlock ∧ mark e = some .endIf ∧
        WellMarked mark cond ∧ WellMarked mark thn ∧ WellMarked mark rest
  | .ifThenElse i t l e cond thn els rest =>
      mark i = some .ifStmt ∧ mark t = some .thenBlock ∧ mark l = some .elseStmt ∧
        mark e = some .endIf ∧ WellMarked mark cond ∧ WellMarked mark thn ∧
        WellMarked mark els ∧ WellMarked mark rest

def Bracketed (mark : α → Option Mark) (l : List α) : Prop :=
  ∃ b : Body α, WellMarked mark b ∧ flatten b = l

/-- One execution of a body: the condition always runs, then one side runs,
or none where there is no else side. -/
inductive Path : Body α → List α → Prop
  | nil : Path .nil []
  | event {a rest π} : Path rest π → Path (.event a rest) (a :: π)
  | ifThen_taken {i t e cond thn rest πc πt π} : Path cond πc → Path thn πt → Path rest π →
      Path (.ifThen i t e cond thn rest) (i :: (πc ++ t :: (πt ++ e :: π)))
  | ifThen_skipped {i t e cond thn rest πc π} : Path cond πc → Path rest π →
      Path (.ifThen i t e cond thn rest) (i :: (πc ++ e :: π))
  | ifThenElse_then {i t l e cond thn els rest πc πt π} : Path cond πc → Path thn πt → Path rest π →
      Path (.ifThenElse i t l e cond thn els rest) (i :: (πc ++ t :: (πt ++ e :: π)))
  | ifThenElse_else {i t l e cond thn els rest πc πe π} : Path cond πc → Path els πe → Path rest π →
      Path (.ifThenElse i t l e cond thn els rest) (i :: (πc ++ l :: (πe ++ e :: π)))

def Body.append : Body α → Body α → Body α
  | .nil, c => c
  | .event a rest, c => .event a (rest.append c)
  | .ifThen i t e cond thn rest, c => .ifThen i t e cond thn (rest.append c)
  | .ifThenElse i t l e cond thn els rest, c => .ifThenElse i t l e cond thn els (rest.append c)

def Body.map {β : Type} (f : α → β) : Body α → Body β
  | .nil => .nil
  | .event a rest => .event (f a) (rest.map f)
  | .ifThen i t e cond thn rest => .ifThen (f i) (f t) (f e) (cond.map f) (thn.map f) (rest.map f)
  | .ifThenElse i t l e cond thn els rest =>
      .ifThenElse (f i) (f t) (f l) (f e) (cond.map f) (thn.map f) (els.map f) (rest.map f)

def Body.number : Nat → Body α → Body (α × Nat)
  | _, .nil => .nil
  | n, .event a rest => .event (a, n) (rest.number (n + 1))
  | n, .ifThen i t e cond thn rest =>
      let nt := n + 1 + (flatten cond).length
      let ne := nt + 1 + (flatten thn).length
      .ifThen (i, n) (t, nt) (e, ne) (cond.number (n + 1)) (thn.number (nt + 1)) (rest.number (ne + 1))
  | n, .ifThenElse i t l e cond thn els rest =>
      let nt := n + 1 + (flatten cond).length
      let nl := nt + 1 + (flatten thn).length
      let ne := nl + 1 + (flatten els).length
      .ifThenElse (i, n) (t, nt) (l, nl) (e, ne) (cond.number (n + 1)) (thn.number (nt + 1))
        (els.number (nl + 1)) (rest.number (ne + 1))

variable {mark : α → Option Mark}

theorem flatten_number (b : Body α) (n : Nat) : flatten (b.number n) = (flatten b).zipIdx n := by
  induction b generalizing n with
  | nil => rfl
  | event a rest ih => simp [Body.number, flatten, ih]
  | ifThen i t e cond thn rest ihc iht ihr =>
      simp [Body.number, flatten, ihc, iht, ihr, List.zipIdx_append]
  | ifThenElse i t l e cond thn els rest ihc iht ihe ihr =>
      simp [Body.number, flatten, ihc, iht, ihe, ihr, List.zipIdx_append]

theorem WellMarked.number {b : Body α} (hb : WellMarked mark b) (n : Nat) :
    WellMarked (fun x : α × Nat => mark x.1) (b.number n) := by
  induction b generalizing n with
  | nil => trivial
  | event a rest ih => exact ⟨hb.1, ih hb.2 _⟩
  | ifThen i t e cond thn rest ihc iht ihr =>
      obtain ⟨hi, ht, he, hcond, hthn, hrest⟩ := hb
      exact ⟨hi, ht, he, ihc hcond _, iht hthn _, ihr hrest _⟩
  | ifThenElse i t l e cond thn els rest ihc iht ihe ihr =>
      obtain ⟨hi, ht, hl, he, hcond, hthn, hels, hrest⟩ := hb
      exact ⟨hi, ht, hl, he, ihc hcond _, iht hthn _, ihe hels _, ihr hrest _⟩

theorem flatten_append (b c : Body α) : flatten (b.append c) = flatten b ++ flatten c := by
  induction b with
  | nil => rfl
  | event a rest ih => simp [Body.append, flatten, ih]
  | ifThen i t e cond thn rest _ _ ih => simp [Body.append, flatten, ih]
  | ifThenElse i t l e cond thn els rest _ _ _ ih => simp [Body.append, flatten, ih]

theorem WellMarked.append {b c : Body α} (hb : WellMarked mark b) (hc : WellMarked mark c) :
    WellMarked mark (b.append c) := by
  induction b with
  | nil => exact hc
  | event a rest ih => exact ⟨hb.1, ih hb.2⟩
  | ifThen i t e cond thn rest _ _ ih =>
      obtain ⟨hi, ht, he, hcond, hthn, hrest⟩ := hb
      exact ⟨hi, ht, he, hcond, hthn, ih hrest⟩
  | ifThenElse i t l e cond thn els rest _ _ _ ih =>
      obtain ⟨hi, ht, hl, he, hcond, hthn, hels, hrest⟩ := hb
      exact ⟨hi, ht, hl, he, hcond, hthn, hels, ih hrest⟩

theorem path_append_iff {b c : Body α} {π : List α} :
    Path (b.append c) π ↔ ∃ π₁ π₂, Path b π₁ ∧ Path c π₂ ∧ π = π₁ ++ π₂ := by
  constructor
  · intro h
    induction b generalizing π with
    | nil => exact ⟨[], π, .nil, h, rfl⟩
    | event a rest ih =>
        cases h with
        | event h =>
            obtain ⟨π₁, π₂, h₁, h₂, rfl⟩ := ih h
            exact ⟨_, π₂, .event h₁, h₂, rfl⟩
    | ifThen i t e cond thn rest _ _ ih =>
        cases h with
        | ifThen_taken hc ht h =>
            obtain ⟨π₁, π₂, h₁, h₂, rfl⟩ := ih h
            exact ⟨_, π₂, .ifThen_taken hc ht h₁, h₂, by simp⟩
        | ifThen_skipped hc h =>
            obtain ⟨π₁, π₂, h₁, h₂, rfl⟩ := ih h
            exact ⟨_, π₂, .ifThen_skipped hc h₁, h₂, by simp⟩
    | ifThenElse i t l e cond thn els rest _ _ _ ih =>
        cases h with
        | ifThenElse_then hc ht h =>
            obtain ⟨π₁, π₂, h₁, h₂, rfl⟩ := ih h
            exact ⟨_, π₂, .ifThenElse_then hc ht h₁, h₂, by simp⟩
        | ifThenElse_else hc he h =>
            obtain ⟨π₁, π₂, h₁, h₂, rfl⟩ := ih h
            exact ⟨_, π₂, .ifThenElse_else hc he h₁, h₂, by simp⟩
  · rintro ⟨π₁, π₂, h₁, h₂, rfl⟩
    induction h₁ with
    | nil => exact h₂
    | event _ ih => exact .event ih
    | ifThen_taken hc ht _ _ _ ih => simpa [Body.append] using Path.ifThen_taken hc ht ih
    | ifThen_skipped hc _ _ ih => simpa [Body.append] using Path.ifThen_skipped hc ih
    | ifThenElse_then hc ht _ _ _ ih => simpa [Body.append] using Path.ifThenElse_then hc ht ih
    | ifThenElse_else hc he _ _ _ ih => simpa [Body.append] using Path.ifThenElse_else hc he ih

@[simp] theorem run_nil (st : List Phase) : run mark st [] = some st := rfl

theorem run_cons (st : List Phase) (a : α) (l : List α) :
    run mark st (a :: l) = (advance mark st a).bind (fun st => run mark st l) := rfl

theorem run_singleton (st : List Phase) (a : α) : run mark st [a] = advance mark st a := by
  rw [run_cons]
  exact Option.bind_fun_some _

theorem run_append (st : List Phase) (l r : List α) :
    run mark st (l ++ r) = (run mark st l).bind (fun st => run mark st r) :=
  List.foldlM_append

theorem run_cons_event {a : α} (h : mark a = none) (st : List Phase) (l : List α) :
    run mark st (a :: l) = run mark st l := by
  simp [run_cons, advance, h]

theorem run_cons_mark {a : α} {m : Mark} (h : mark a = some m) (st : List Phase) (l : List α) :
    run mark st (a :: l) = (step m st).bind (fun st => run mark st l) := by
  simp [run_cons, advance, h]

theorem run_filterMap (st : List Phase) (l : List α) : run mark st l = run some st (l.filterMap mark) := by
  induction l generalizing st with
  | nil => rfl
  | cons a l ih =>
      cases hm : mark a with
      | none => rw [run_cons_event hm, List.filterMap_cons_none hm, ih]
      | some m =>
          rw [run_cons_mark hm, List.filterMap_cons_some hm, run_cons_mark rfl]
          exact congrArg _ (funext fun st => ih st)

theorem step_frame {m : Mark} {st st' : List Phase} (h : step m st = some st') (rest : List Phase) :
    step m (st ++ rest) = some (st' ++ rest) := by
  unfold step at h ⊢
  split at h <;> cases h <;> rfl

theorem step_length {m : Mark} {st st' : List Phase} (h : step m st = some st') :
    st'.length = (match m with
      | .ifStmt => st.length + 1
      | .thenBlock | .elseStmt => st.length
      | .endIf => st.length - 1) := by
  cases m with
  | ifStmt =>
      cases h
      rfl
  | _ =>
      cases st with
      | nil => simp [step] at h
      | cons p st => cases p <;> simp [step] at h <;> simp [← h]

/-- What stands below the phases a run works on does not matter to it. -/
theorem run_frame {st st' : List Phase} {l : List α} (h : run mark st l = some st')
    (rest : List Phase) : run mark (st ++ rest) l = some (st' ++ rest) := by
  induction l generalizing st with
  | nil => simpa using h
  | cons a l ih =>
      cases hm : mark a with
      | none =>
          rw [run_cons_event hm] at h ⊢
          exact ih h
      | some m =>
          rw [run_cons_mark hm] at h ⊢
          obtain ⟨st₁, hs, hr⟩ := Option.bind_eq_some_iff.mp h
          rw [step_frame hs rest]
          exact ih hr

theorem run_neutral {l : List α} (h : run mark [] l = some []) (st : List Phase) :
    run mark st l = some st := by
  simpa using run_frame h st

theorem run_flatten {b : Body α} (hb : WellMarked mark b) (st : List Phase) :
    run mark st (flatten b) = some st := by
  induction b generalizing st with
  | nil => rfl
  | event a rest ih =>
      rw [flatten, run_cons_event hb.1]
      exact ih hb.2 st
  | ifThen i t e cond thn rest ihc iht ihr =>
      obtain ⟨hi, ht, he, hcond, hthn, hrest⟩ := hb
      rw [flatten, run_cons_mark hi]
      simp only [step, Option.bind_some, run_append, ihc hcond, run_cons_mark ht, iht hthn,
        run_cons_mark he, ihr hrest]
  | ifThenElse i t l e cond thn els rest ihc iht ihe ihr =>
      obtain ⟨hi, ht, hl, he, hcond, hthn, hels, hrest⟩ := hb
      rw [flatten, run_cons_mark hi]
      simp only [step, Option.bind_some, run_append, ihc hcond, run_cons_mark ht, iht hthn,
        run_cons_mark hl, ihe hels, run_cons_mark he, ihr hrest]

theorem run_prefix {st st' : List Phase} {l r : List α} (h : run mark st (l ++ r) = some st') :
    ∃ st₁, run mark st l = some st₁ ∧ run mark st₁ r = some st' := by
  rw [run_append] at h
  exact Option.bind_eq_some_iff.mp h

inductive Closes (mark : α → Option Mark) : List Phase → List α → Prop
  | done {l} : Bracketed mark l → Closes mark [] l
  | cond {b : Body α} {t st r} : WellMarked mark b → mark t = some .thenBlock →
      Closes mark (.thenPart :: st) r → Closes mark (.cond :: st) (flatten b ++ t :: r)
  | thenEnd {b : Body α} {e st r} : WellMarked mark b → mark e = some .endIf →
      Closes mark st r → Closes mark (.thenPart :: st) (flatten b ++ e :: r)
  | thenElse {b : Body α} {l st r} : WellMarked mark b → mark l = some .elseStmt →
      Closes mark (.elsePart :: st) r → Closes mark (.thenPart :: st) (flatten b ++ l :: r)
  | elseEnd {b : Body α} {e st r} : WellMarked mark b → mark e = some .endIf →
      Closes mark st r → Closes mark (.elsePart :: st) (flatten b ++ e :: r)

theorem Closes.prepend {st : List Phase} {l : List α} (h : Closes mark st l) {g : Body α}
    (hg : WellMarked mark g) : Closes mark st (flatten g ++ l) := by
  cases h with
  | done h =>
      obtain ⟨b, hb, rfl⟩ := h
      exact .done ⟨g.append b, hg.append hb, flatten_append g b⟩
  | cond hb ht hr => simpa [flatten_append] using Closes.cond (hg.append hb) ht hr
  | thenEnd hb he hr => simpa [flatten_append] using Closes.thenEnd (hg.append hb) he hr
  | thenElse hb hl hr => simpa [flatten_append] using Closes.thenElse (hg.append hb) hl hr
  | elseEnd hb he hr => simpa [flatten_append] using Closes.elseEnd (hg.append hb) he hr

theorem Closes.group {st : List Phase} {i : α} {l : List α} (hi : mark i = some .ifStmt)
    (h : Closes mark (.cond :: st) l) : Closes mark st (i :: l) := by
  cases h with
  | @cond c t _ _ hc ht h =>
      cases h with
      | @thenEnd b e _ _ hb he hr =>
          have hg : WellMarked mark (.ifThen i t e c b .nil) := ⟨hi, ht, he, hc, hb, trivial⟩
          simpa [flatten] using hr.prepend hg
      | @thenElse b l _ _ hb hl h =>
          cases h with
          | @elseEnd b' e _ _ hb' he hr =>
              have hg : WellMarked mark (.ifThenElse i t l e c b b' .nil) :=
                ⟨hi, ht, hl, he, hc, hb, hb', trivial⟩
              simpa [flatten] using hr.prepend hg

theorem closes_of_run {st : List Phase} {l : List α} (h : run mark st l = some []) :
    Closes mark st l := by
  induction l generalizing st with
  | nil =>
      simp only [run_nil, Option.some.injEq] at h
      subst h
      exact .done ⟨.nil, trivial, rfl⟩
  | cons a l ih =>
      cases hm : mark a with
      | none =>
          rw [run_cons_event hm] at h
          exact (ih h).prepend (g := .event a .nil) ⟨hm, trivial⟩
      | some m =>
          rw [run_cons_mark hm] at h
          obtain ⟨st₁, hs, hr⟩ := Option.bind_eq_some_iff.mp h
          have hc := ih hr
          unfold step at hs
          split at hs <;> cases hs
          · exact hc.group hm
          · exact .cond (b := .nil) trivial hm hc
          · exact .thenElse (b := .nil) trivial hm hc
          · exact .thenEnd (b := .nil) trivial hm hc
          · exact .elseEnd (b := .nil) trivial hm hc

/-- The automaton accepts exactly the flattened bodies. -/
theorem bracketed_iff_run (l : List α) : Bracketed mark l ↔ run mark [] l = some [] := by
  constructor
  · rintro ⟨b, hb, rfl⟩
    exact run_flatten hb []
  · intro h
    cases closes_of_run h with
    | done hb => exact hb

theorem run_cond_of_no_then {st st' : List Phase} {l : List α} (ps : List Phase)
    (hl : ∀ a ∈ l, mark a ≠ some .thenBlock) (h : run mark (ps ++ .cond :: st) l = some st') :
    ∃ ps', st' = ps' ++ .cond :: st := by
  induction l generalizing ps with
  | nil => exact ⟨ps, by simpa using h.symm⟩
  | cons a l ih =>
      have hl' : ∀ b ∈ l, mark b ≠ some .thenBlock := fun b hb => hl b (List.mem_cons_of_mem _ hb)
      cases hm : mark a with
      | none =>
          rw [run_cons_event hm] at h
          exact ih ps hl' h
      | some m =>
          rw [run_cons_mark hm] at h
          obtain ⟨st₁, hs, hr⟩ := Option.bind_eq_some_iff.mp h
          cases m with
          | ifStmt =>
              cases hs
              exact ih (.cond :: ps) hl' hr
          | thenBlock => exact absurd hm (hl a List.mem_cons_self)
          | elseStmt =>
              cases ps with
              | nil => simp [step] at hs
              | cons p ps =>
                  cases p <;> simp [step] at hs
                  subst hs
                  exact ih (.elsePart :: ps) hl' hr
          | endIf =>
              cases ps with
              | nil => simp [step] at hs
              | cons p ps =>
                  cases p <;> simp [step] at hs <;> subst hs <;> exact ih ps hl' hr

theorem exists_then_of_run (st : List Phase) {l : List α}
    (h : run mark (.cond :: st) l = some []) : ∃ a ∈ l, mark a = some .thenBlock := by
  by_contra hn
  push Not at hn
  obtain ⟨ps, hp⟩ := run_cond_of_no_then [] hn h
  simp at hp

theorem events_of_no_if {l : List α} {st : List Phase} (hl : ∀ a ∈ l, mark a ≠ some .ifStmt)
    (h : run mark [] l = some st) : ∀ a ∈ l, mark a = none := by
  induction l with
  | nil => exact fun _ ha => by cases ha
  | cons a l ih =>
      obtain ⟨ha, hrest⟩ := List.forall_mem_cons.mp hl
      cases hm : mark a with
      | none =>
          rw [run_cons_event hm] at h
          exact List.forall_mem_cons.mpr ⟨hm, ih hrest h⟩
      | some m =>
          rw [run_cons_mark hm] at h
          cases m with
          | ifStmt => exact absurd hm ha
          | thenBlock | elseStmt | endIf => cases h

theorem exists_cond_of_run {st : List Phase} {l : List α} (h : run mark (.cond :: st) l = some []) :
    ∃ cond a rest, l = cond ++ a :: rest ∧ Bracketed mark cond ∧ mark a = some .thenBlock := by
  cases closes_of_run h with
  | @cond b t _ r hb ht _ => exact ⟨flatten b, t, r, rfl, ⟨b, hb, rfl⟩, ht⟩

theorem cond_unique {cond cond' rest rest' : List α} {a a' : α} (hcond : Bracketed mark cond)
    (hcond' : Bracketed mark cond') (ha : mark a = some .thenBlock) (ha' : mark a' = some .thenBlock)
    (h : cond ++ a :: rest = cond' ++ a' :: rest') : cond = cond' := by
  have hshort : ∀ {l l' : List α} {b : α} {r r' : List α}, Bracketed mark l → Bracketed mark l' →
      mark b = some .thenBlock → l ++ b :: r = l' ++ r' → l'.length ≤ l.length := by
    intro l l' b r r' hl hl' hb heq
    by_contra hlt
    obtain ⟨more, rfl⟩ : l ++ [b] <+: l' := by
      have hprefix : l ++ [b] <+: l' ++ r' := ⟨r, by rw [List.append_assoc, ← heq]; rfl⟩
      exact List.prefix_of_prefix_length_le hprefix (List.prefix_append _ _) (by simp; omega)
    rw [bracketed_iff_run] at hl hl'
    rw [List.append_assoc, run_append, hl, Option.bind_some, List.singleton_append, run_cons_mark hb] at hl'
    cases hl'
  have hlength := Nat.le_antisymm (hshort hcond' hcond ha' h.symm) (hshort hcond hcond' ha h)
  exact (List.append_inj h hlength).1

end Prongc.Library.BranchMarkers
