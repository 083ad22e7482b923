import Mathlib.Data.List.Basic
import Mathlib.Data.Prod.Lex
import Mathlib.Order.OrderIsoNat
import Prongc.Library.Interleaving

namespace Prongc.Library.Mutex

open Interleaving

variable {α ρ σ υ : Type}

/-- Threads that work on data of their own and enter a critical section on shared data. Inside, a tick
is one step of the section; it ends with the release of the lock. -/
structure Client (α ρ σ υ : Type) where
  maxThreads : Nat
  initial : α
  work : Nat → α → υ → Option (α × υ)
  enter : α → Option ρ
  tick : ρ → σ → (ρ ⊕ α) × σ
  /-- The whole of the section from some point on. -/
  finish : ρ → σ → α × σ
  ticksLeft : ρ → Nat
  finish_inside : ∀ r s r', (tick r s).1 = .inl r' → finish r s = finish r' (tick r s).2
  finish_released : ∀ r s a, (tick r s).1 = .inr a → finish r s = (a, (tick r s).2)
  ticks_lt : ∀ r s r', (tick r s).1 = .inl r' → ticksLeft r' < ticksLeft r

inductive Place (α ρ : Type)
  | outside (a : α)
  | inside (r : ρ)

structure Locked (α ρ σ υ : Type) where
  threads : List (Place α ρ)
  owner : Option Nat
  shared : σ
  data : υ

structure Atomic (α σ υ : Type) where
  threads : List α
  shared : σ
  data : υ

inductive Action
  | spawn
  | work (thread : Nat)
  | lock (thread : Nat)
  | tick (thread : Nat)

variable (client : Client α ρ σ υ)

def tickThread (thread : Nat) (r : ρ) (s : Locked α ρ σ υ) : Locked α ρ σ υ :=
  match client.tick r s.shared with
  | (.inl r', shared) => { s with threads := s.threads.set thread (.inside r'), shared := shared }
  | (.inr a, shared) => { s with threads := s.threads.set thread (.outside a), owner := none, shared := shared }

def step : Action → Locked α ρ σ υ → Option (Locked α ρ σ υ)
  | .spawn, s =>
      if s.threads.length < client.maxThreads then some { s with threads := s.threads ++ [.outside client.initial] }
      else none
  | .work thread, s =>
      match s.threads[thread]? with
      | some (.outside a) => (client.work thread a s.data).map fun (a', data) =>
          { s with threads := s.threads.set thread (.outside a'), data := data }
      | _ => none
  | .lock thread, s =>
      match s.threads[thread]?, s.owner with
      | some (.outside a), none => (client.enter a).map fun r =>
          { s with threads := s.threads.set thread (.inside r), owner := some thread }
      | _, _ => none
  | .tick thread, s =>
      match s.threads[thread]? with
      | some (.inside r) => some (tickThread client thread r s)
      | _ => none

inductive AtomicAction
  | spawn
  | work (thread : Nat)
  | enter (thread : Nat)

def atomicStep : AtomicAction → Atomic α σ υ → Option (Atomic α σ υ)
  | .spawn, s =>
      if s.threads.length < client.maxThreads then some { s with threads := s.threads ++ [client.initial] } else none
  | .work thread, s =>
      match s.threads[thread]? with
      | some a => (client.work thread a s.data).map fun (a', data) =>
          { s with threads := s.threads.set thread a', data := data }
      | none => none
  | .enter thread, s =>
      match s.threads[thread]? with
      | some a => (client.enter a).map fun r =>
          { s with
            threads := s.threads.set thread (client.finish r s.shared).1
            shared := (client.finish r s.shared).2 }
      | none => none

structure Exclusive (s : Locked α ρ σ υ) : Prop where
  owns : ∀ thread r, s.threads[thread]? = some (.inside r) → s.owner = some thread
  inside : ∀ thread, s.owner = some thread → ∃ r, s.threads[thread]? = some (.inside r)

def settledPlace (shared : σ) : Place α ρ → α
  | .outside a => a
  | .inside r => (client.finish r shared).1

def settledShared (s : Locked α ρ σ υ) : σ :=
  match s.owner.bind (s.threads[·]?) with
  | some (.inside r) => (client.finish r s.shared).2
  | _ => s.shared

def ticks (s : Locked α ρ σ υ) : Nat :=
  match s.owner.bind (s.threads[·]?) with
  | some (.inside r) => client.ticksLeft r + 1
  | _ => 0

def settled (s : Locked α ρ σ υ) : Atomic α σ υ :=
  ⟨s.threads.map (settledPlace client s.shared), settledShared client s, s.data⟩

def rank (μ : Atomic α σ υ → Nat) (s : Locked α ρ σ υ) : Nat ×ₗ Nat := toLex (μ (settled client s), ticks client s)

def quiet (s : Atomic α σ υ) : Locked α ρ σ υ := ⟨s.threads.map .outside, none, s.shared, s.data⟩

variable {client} {s t : Locked α ρ σ υ}

theorem settledShared_free (h : s.owner = none) : settledShared client s = s.shared := by
  rw [settledShared, h]
  rfl

theorem settledShared_owned {thread : Nat} {r : ρ} (howner : s.owner = some thread)
    (hthread : s.threads[thread]? = some (.inside r)) :
    settledShared client s = (client.finish r s.shared).2 := by
  rw [settledShared, howner, Option.bind_some, hthread]

theorem step_cases {a : Action} (h : step client a s = some t) :
    (s.threads.length < client.maxThreads ∧ t = { s with threads := s.threads ++ [.outside client.initial] }) ∨
    (∃ thread a a' data, s.threads[thread]? = some (.outside a) ∧ client.work thread a s.data = some (a', data) ∧
      t = { s with threads := s.threads.set thread (.outside a'), data := data }) ∨
    (∃ thread a r, s.threads[thread]? = some (.outside a) ∧ s.owner = none ∧ client.enter a = some r ∧
      t = { s with threads := s.threads.set thread (.inside r), owner := some thread }) ∨
    ∃ thread r, s.threads[thread]? = some (.inside r) ∧ t = tickThread client thread r s := by
  cases a with
  | spawn =>
      rw [step] at h
      split at h
      next hlt => exact .inl ⟨hlt, (Option.some.inj h).symm⟩
      next => cases h
  | work thread =>
      rw [step] at h
      split at h
      next a hthread =>
        obtain ⟨⟨a', data⟩, hwork, heq⟩ := Option.map_eq_some_iff.mp h
        exact .inr (.inl ⟨thread, a, a', data, hthread, hwork, heq.symm⟩)
      next => cases h
  | lock thread =>
      rw [step] at h
      split at h
      next a hthread howner =>
        obtain ⟨r, henter, heq⟩ := Option.map_eq_some_iff.mp h
        exact .inr (.inr (.inl ⟨thread, a, r, hthread, howner, henter, heq.symm⟩))
      next => cases h
  | tick thread =>
      rw [step] at h
      split at h
      next r hthread => exact .inr (.inr (.inr ⟨thread, r, hthread, (Option.some.inj h).symm⟩))
      next => cases h

section Simulation

theorem exclusive_set (h : Exclusive s) {thread : Nat} {a a' : α} {data : υ}
    (hthread : s.threads[thread]? = some (.outside a)) :
    Exclusive { s with threads := s.threads.set thread (.outside a'), data := data } where
  owns other r hother := by
    by_cases heq : thread = other
    · subst heq
      rw [List.getElem?_set_self (List.getElem?_eq_some_iff.mp hthread).1] at hother
      cases hother
    · rw [List.getElem?_set_ne heq] at hother
      exact h.owns other r hother
  inside other howner := by
    obtain ⟨r, hother⟩ := h.inside other howner
    have hne : thread ≠ other := by
      rintro rfl
      rw [hthread] at hother
      cases hother
    exact ⟨r, (List.getElem?_set_ne hne).trans hother⟩

/-- What the threads come to when one place changes, with the lock free or held by the thread there. -/
theorem Exclusive.settled_set (h : Exclusive s) {thread : Nat} (howner : s.owner = none ∨ s.owner = some thread)
    (p : Place α ρ) (shared : σ) : (s.threads.set thread p).map (settledPlace client shared) =
      (s.threads.map (settledPlace client s.shared)).set thread (settledPlace client shared p) := by
  apply List.ext_getElem?
  intro k
  rw [List.getElem?_map, List.getElem?_set, List.getElem?_set, List.length_map, List.getElem?_map]
  split
  next => split <;> rfl
  next hk =>
    cases hother : s.threads[k]? with
    | none => rfl
    | some q =>
        cases q with
        | outside a => rfl
        | inside r =>
            have howns := h.owns k r hother
            rcases howner with howner | howner
            · rw [howner] at howns
              cases howns
            · rw [howner] at howns
              exact absurd (Option.some.inj howns) hk

theorem spawn_settled (h : Exclusive s) (hlt : s.threads.length < client.maxThreads) :
    Exclusive { s with threads := s.threads ++ [.outside client.initial] } ∧
      atomicStep client .spawn (settled client s) =
        some (settled client { s with threads := s.threads ++ [.outside client.initial] }) := by
  have hsame : ∀ thread, s.owner = some thread →
      (s.threads ++ [.outside client.initial])[thread]? = s.threads[thread]? := by
    intro thread howner
    obtain ⟨r, hthread⟩ := h.inside thread howner
    exact List.getElem?_append_left (List.getElem?_eq_some_iff.mp hthread).1
  constructor
  · constructor
    · intro thread r hthread
      rcases Nat.lt_or_ge thread s.threads.length with hin | hout
      · rw [List.getElem?_append_left hin] at hthread
        exact h.owns thread r hthread
      · rw [List.getElem?_append_right hout] at hthread
        have hmem := List.mem_of_getElem? hthread
        simp at hmem
    · intro thread howner
      rw [hsame thread howner]
      exact h.inside thread howner
  · have hshared : settledShared client { s with threads := s.threads ++ [.outside client.initial] } =
        settledShared client s := by
      rcases Option.eq_none_or_eq_some s.owner with howner | ⟨thread, howner⟩
      · rw [@settledShared_free _ _ _ _ client s howner]
        exact settledShared_free howner
      · obtain ⟨r, hthread⟩ := h.inside thread howner
        rw [settledShared_owned howner hthread]
        exact settledShared_owned howner ((hsame thread howner).trans hthread)
    rw [atomicStep, settled, settled, hshared, List.length_map, if_pos hlt, List.map_append]
    rfl

theorem work_settled (h : Exclusive s) {thread : Nat} {a a' : α} {data : υ}
    (hthread : s.threads[thread]? = some (.outside a)) (hwork : client.work thread a s.data = some (a', data)) :
    Exclusive { s with threads := s.threads.set thread (.outside a'), data := data } ∧
      atomicStep client (.work thread) (settled client s) =
        some (settled client { s with threads := s.threads.set thread (.outside a'), data := data }) := by
  refine ⟨exclusive_set h hthread, ?_⟩
  have hplace : (s.threads.map (settledPlace client s.shared))[thread]? = some a := by
    rw [List.getElem?_map, hthread]
    rfl
  have hshared : settledShared client { s with threads := s.threads.set thread (.outside a'), data := data } =
      settledShared client s := by
    rcases Option.eq_none_or_eq_some s.owner with howner | ⟨owner, howner⟩
    · rw [@settledShared_free _ _ _ _ client s howner]
      exact settledShared_free howner
    · obtain ⟨r, hinside⟩ := h.inside owner howner
      have hne : thread ≠ owner := by
        rintro rfl
        rw [hthread] at hinside
        cases hinside
      rw [settledShared_owned howner hinside]
      exact settledShared_owned howner ((List.getElem?_set_ne hne).trans hinside)
  rw [atomicStep, settled, settled, hshared]
  dsimp only
  rw [hplace, List.map_set]
  simp only [hwork, Option.map_some]
  rfl

/-- The section takes effect when the lock is taken. -/
theorem lock_settled (h : Exclusive s) {thread : Nat} {a : α} {r : ρ}
    (hthread : s.threads[thread]? = some (.outside a)) (howner : s.owner = none) (henter : client.enter a = some r) :
    Exclusive { s with threads := s.threads.set thread (.inside r), owner := some thread } ∧
      atomicStep client (.enter thread) (settled client s) =
        some (settled client { s with threads := s.threads.set thread (.inside r), owner := some thread }) := by
  have hlt := (List.getElem?_eq_some_iff.mp hthread).1
  have hself : (s.threads.set thread (.inside r))[thread]? = some (.inside r) := List.getElem?_set_self hlt
  constructor
  · constructor
    · intro other r' hother
      by_cases heq : thread = other
      · exact congrArg some heq
      · rw [List.getElem?_set_ne heq] at hother
        have howns := h.owns other r' hother
        rw [howner] at howns
        cases howns
    · intro other hother
      obtain rfl := Option.some.inj hother
      exact ⟨r, hself⟩
  · have hplace : (s.threads.map (settledPlace client s.shared))[thread]? = some a := by
      rw [List.getElem?_map, hthread]
      rfl
    have hshared : settledShared client { s with threads := s.threads.set thread (.inside r), owner := some thread } =
        (client.finish r s.shared).2 := settledShared_owned rfl hself
    rw [atomicStep, settled, settled, hshared, settledShared_free howner]
    dsimp only
    rw [hplace, List.map_set]
    simp only [henter, Option.map_some]
    rfl

theorem tick_settled (h : Exclusive s) {thread : Nat} {r : ρ} (hthread : s.threads[thread]? = some (.inside r)) :
    Exclusive (tickThread client thread r s) ∧
      settled client (tickThread client thread r s) = settled client s := by
  have howner := h.owns thread r hthread
  have hlt := (List.getElem?_eq_some_iff.mp hthread).1
  have hothers : ∀ (p : Place α ρ) (other : Nat) (r' : ρ), (s.threads.set thread p)[other]? = some (.inside r') →
      other = thread := by
    intro p other r' hother
    by_contra hne
    rw [List.getElem?_set_ne (Ne.symm hne)] at hother
    have howns := h.owns other r' hother
    rw [howner] at howns
    exact hne (Option.some.inj howns).symm
  have hsame : ∀ a, (client.finish r s.shared).1 = a →
      (s.threads.map (settledPlace client s.shared)).set thread a = s.threads.map (settledPlace client s.shared) := by
    intro a hfinish
    have hlen : thread < (s.threads.map (settledPlace client s.shared)).length := by
      rwa [List.length_map]
    have hplace : (s.threads.map (settledPlace client s.shared))[thread] = a := by
      rw [List.getElem_map, (List.getElem_eq_iff hlt).mpr hthread]
      exact hfinish
    rw [← hplace, List.set_getElem_self]
  rw [tickThread]
  cases htick : client.tick r s.shared with
  | mk next shared =>
      cases next with
      | inl r' =>
          have hself : (s.threads.set thread (.inside r'))[thread]? = some (.inside r') := List.getElem?_set_self hlt
          have hfinish := client.finish_inside r s.shared r' (by rw [htick])
          rw [htick] at hfinish
          constructor
          · constructor
            · intro other r'' hother
              rw [hothers _ other r'' hother]
              exact howner
            · intro other hother
              have heq : thread = other := Option.some.inj (howner.symm.trans hother)
              exact ⟨r', heq ▸ hself⟩
          · have hshared : settledShared client
                { s with threads := s.threads.set thread (.inside r'), shared := shared } =
                (client.finish r' shared).2 := settledShared_owned howner hself
            rw [settled, settled, hshared, settledShared_owned howner hthread, hfinish]
            dsimp only
            rw [h.settled_set (.inr howner), hsame]
            rw [hfinish]
            rfl
      | inr a =>
          have hfinish := client.finish_released r s.shared a (by rw [htick])
          rw [htick] at hfinish
          constructor
          · constructor
            · intro other r'' hother
              have heq := hothers _ other r'' hother
              subst heq
              rw [List.getElem?_set_self hlt] at hother
              cases hother
            · intro other hother
              cases hother
          · have hshared : settledShared client
                { s with threads := s.threads.set thread (.outside a), owner := none, shared := shared } = shared :=
              settledShared_free rfl
            rw [settled, settled, hshared, settledShared_owned howner hthread, hfinish]
            dsimp only
            rw [h.settled_set (.inr howner), hsame]
            rw [hfinish]
            rfl

theorem tick_lowers (h : Exclusive s) {thread : Nat} {r : ρ} (hthread : s.threads[thread]? = some (.inside r)) :
    ticks client (tickThread client thread r s) < ticks client s := by
  have howner := h.owns thread r hthread
  have hticks : ticks client s = client.ticksLeft r + 1 := by
    rw [ticks, howner, Option.bind_some, hthread]
  rw [hticks, tickThread]
  cases htick : client.tick r s.shared with
  | mk next shared =>
      cases next with
      | inl r' =>
          have hself : (s.threads.set thread (.inside r'))[thread]? = some (.inside r') :=
            List.getElem?_set_self (List.getElem?_eq_some_iff.mp hthread).1
          have hlt := client.ticks_lt r s.shared r' (by rw [htick])
          dsimp only
          rw [ticks, howner, Option.bind_some, hself]
          exact Nat.add_lt_add_right hlt 1
      | inr a => exact Nat.succ_pos _

theorem Exclusive.step {a : Action} (h : Exclusive s) (hstep : step client a s = some t) : Exclusive t := by
  rcases step_cases hstep with ⟨hlt, rfl⟩ | ⟨thread, a, a', data, hthread, hwork, rfl⟩ |
    ⟨thread, a, r, hthread, howner, henter, rfl⟩ | ⟨thread, r, hthread, rfl⟩
  · exact (spawn_settled h hlt).1
  · exact (work_settled h hthread hwork).1
  · exact (lock_settled h hthread howner henter).1
  · exact (tick_settled h hthread).1

/-- A step is one of the threads with atomic sections, or a tick inside a section that they do not see. -/
theorem step_simulated {a : Action} (h : Exclusive s) (hstep : Mutex.step client a s = some t) :
    (settled client t = settled client s ∧ ticks client t < ticks client s) ∨
      ∃ b, atomicStep client b (settled client s) = some (settled client t) := by
  rcases step_cases hstep with ⟨hlt, rfl⟩ | ⟨thread, a, a', data, hthread, hwork, rfl⟩ |
    ⟨thread, a, r, hthread, howner, henter, rfl⟩ | ⟨thread, r, hthread, rfl⟩
  · exact .inr ⟨.spawn, (spawn_settled h hlt).2⟩
  · exact .inr ⟨.work thread, (work_settled h hthread hwork).2⟩
  · exact .inr ⟨.enter thread, (lock_settled h hthread howner henter).2⟩
  · exact .inl ⟨(tick_settled h hthread).2, tick_lowers h hthread⟩

theorem reaches_simulated (h : Reaches (Mutex.step client) s t) (hs : Exclusive s) :
    Exclusive t ∧ Reaches (atomicStep client) (settled client s) (settled client t) := by
  induction h with
  | refl => exact ⟨hs, .refl⟩
  | tail _ hlast ih =>
      obtain ⟨a, ha⟩ := hlast
      refine ⟨ih.1.step ha, ?_⟩
      rcases step_simulated ih.1 ha with ⟨heq, -⟩ | hatomic
      · rw [heq]
        exact ih.2
      · exact .tail ih.2 hatomic

theorem exclusive_quiet (u : Atomic α σ υ) : Exclusive (quiet u : Locked α ρ σ υ) where
  owns thread r hthread := by
    rw [quiet, List.getElem?_map] at hthread
    obtain ⟨a, -, ha⟩ := Option.map_eq_some_iff.mp hthread
    cases ha
  inside thread howner := by cases howner

theorem settled_quiet (u : Atomic α σ υ) : settled client (quiet u) = u := by
  have hthreads : (u.threads.map Place.outside).map (settledPlace client u.shared) = u.threads := by
    rw [List.map_map]
    exact List.map_id _
  exact congrArg (fun threads => (⟨threads, u.shared, u.data⟩ : Atomic α σ υ)) hthreads

theorem quiet_thread {u : Atomic α σ υ} {thread : Nat} {a : α} (h : u.threads[thread]? = some a) :
    (quiet u : Locked α ρ σ υ).threads[thread]? = some (.outside a) := by
  rw [quiet, List.getElem?_map, h]
  rfl

theorem Exclusive.eq_quiet (h : Exclusive s) (howner : s.owner = none) : s = quiet (settled client s) := by
  have houtside : ∀ p ∈ s.threads, Place.outside (settledPlace client s.shared p) = p := by
    intro p hmem
    cases p with
    | outside a => rfl
    | inside r =>
        obtain ⟨thread, hthread⟩ := List.mem_iff_getElem?.mp hmem
        have howns := h.owns thread r hthread
        rw [howner] at howns
        cases howns
  have hthreads : (s.threads.map (settledPlace client s.shared)).map Place.outside = s.threads := by
    rw [List.map_map]
    exact (List.map_congr_left houtside).trans (List.map_id _)
  rw [quiet, settled, settledShared_free howner, hthreads, ← howner]

end Simulation

section Progress

theorem Exclusive.releases (h : Exclusive s) : Reaches (Mutex.step client) s (quiet (settled client s)) := by
  rcases Option.eq_none_or_eq_some s.owner with howner | ⟨thread, howner⟩
  · rw [← h.eq_quiet howner]
    exact .refl
  · obtain ⟨r, hthread⟩ := h.inside thread howner
    induction hleft : client.ticksLeft r using Nat.strongRecOn generalizing s r with
    | ind left ih =>
        obtain ⟨hnext, hsettled⟩ := @tick_settled _ _ _ _ client s h thread r hthread
        have hstep : Mutex.step client (.tick thread) s = some (tickThread client thread r s) := by
          rw [Mutex.step, hthread]
        refine .head ⟨_, hstep⟩ ?_
        rw [← hsettled]
        have hlt := (List.getElem?_eq_some_iff.mp hthread).1
        cases htick : (client.tick r s.shared).1 with
        | inl r' =>
            have heq : tickThread client thread r s = { s with
                threads := s.threads.set thread (.inside r'), shared := (client.tick r s.shared).2 } := by
              rw [tickThread, ← Prod.eta (client.tick r s.shared), htick]
            rw [heq] at hnext ⊢
            exact ih _ (hleft ▸ client.ticks_lt r s.shared r' htick) hnext howner r'
              (List.getElem?_set_self hlt) rfl
        | inr a =>
            have heq : tickThread client thread r s = { s with
                threads := s.threads.set thread (.outside a)
                owner := none
                shared := (client.tick r s.shared).2 } := by
              rw [tickThread, ← Prod.eta (client.tick r s.shared), htick]
            rw [heq] at hnext ⊢
            rw [← hnext.eq_quiet rfl]

theorem atomicStep_realized {u v : Atomic α σ υ} {b : AtomicAction} (h : atomicStep client b u = some v) :
    ∃ a t, Mutex.step client a (quiet u) = some t ∧ settled client t = v := by
  have hquiet : Exclusive (quiet u : Locked α ρ σ υ) := exclusive_quiet u
  rw [← @settled_quiet _ _ _ _ client u] at h
  cases b with
  | spawn =>
      have hlt : (quiet u : Locked α ρ σ υ).threads.length < client.maxThreads := by
        rw [atomicStep] at h
        split at h
        next hlt => rwa [settled, List.length_map] at hlt
        next => cases h
      refine ⟨.spawn, _, if_pos hlt, ?_⟩
      exact Option.some.inj ((spawn_settled hquiet hlt).2.symm.trans h)
  | work thread =>
      rw [atomicStep, settled_quiet] at h
      cases hthread : u.threads[thread]? with
      | none =>
          rw [hthread] at h
          cases h
      | some a =>
          rw [hthread] at h
          obtain ⟨⟨a', data⟩, hwork, heq⟩ := Option.map_eq_some_iff.mp h
          have hplace : (quiet u : Locked α ρ σ υ).threads[thread]? = some (.outside a) := quiet_thread hthread
          refine ⟨.work thread, { (quiet u : Locked α ρ σ υ) with
            threads := (quiet u : Locked α ρ σ υ).threads.set thread (.outside a'), data := data }, ?_, ?_⟩
          · rw [step, hplace]
            exact congrArg (Option.map _) hwork
          · have hsettled := (work_settled hquiet hplace hwork).2
            rw [settled_quiet, atomicStep, hthread] at hsettled
            exact Option.some.inj (hsettled.symm.trans h)
  | enter thread =>
      rw [atomicStep, settled_quiet] at h
      cases hthread : u.threads[thread]? with
      | none =>
          rw [hthread] at h
          cases h
      | some a =>
          rw [hthread] at h
          obtain ⟨r, henter, heq⟩ := Option.map_eq_some_iff.mp h
          have hplace : (quiet u : Locked α ρ σ υ).threads[thread]? = some (.outside a) := quiet_thread hthread
          refine ⟨.lock thread, { (quiet u : Locked α ρ σ υ) with
            threads := (quiet u : Locked α ρ σ υ).threads.set thread (.inside r), owner := some thread }, ?_, ?_⟩
          · rw [step, hplace]
            exact congrArg (Option.map _) henter
          · have hsettled := (lock_settled hquiet hplace rfl henter).2
            rw [settled_quiet, atomicStep, hthread] at hsettled
            exact Option.some.inj (hsettled.symm.trans h)

theorem reaches_realized {u v : Atomic α σ υ} (h : Reaches (atomicStep client) u v) :
    Reaches (Mutex.step client) (quiet u) (quiet v) := by
  induction h with
  | refl => exact .refl
  | tail _ hlast ih =>
      obtain ⟨b, hb⟩ := hlast
      obtain ⟨a, t, ha, rfl⟩ := atomicStep_realized hb
      exact .trans ih (.head ⟨a, ha⟩ ((exclusive_quiet _).step ha).releases)

/-- Between two states where the lock is free, threads that interleave inside their sections come
exactly as far as threads whose sections are atomic. -/
theorem reaches_quiet_iff {u v : Atomic α σ υ} :
    Reaches (Mutex.step client) (quiet u) (quiet v) ↔ Reaches (atomicStep client) u v := by
  constructor
  · intro h
    have hsim := (reaches_simulated h (exclusive_quiet u)).2
    rwa [settled_quiet, settled_quiet] at hsim
  · exact reaches_realized

theorem free_of_stuck (h : Exclusive s) (hstuck : Stuck (Mutex.step client) s) : s.owner = none := by
  rcases Option.eq_none_or_eq_some s.owner with howner | ⟨thread, howner⟩
  · exact howner
  · obtain ⟨r, hthread⟩ := h.inside thread howner
    have htick := hstuck (.tick thread)
    rw [step, hthread] at htick
    cases htick

/-- Where every atomic step lowers a measure, no schedule goes on for ever. -/
theorem not_endless {I : Atomic α σ υ → Prop} (μ : Atomic α σ υ → Nat)
    (hstep : ∀ u b v, I u → atomicStep client b u = some v → I v ∧ μ v < μ u) (hs : Exclusive s)
    (hI : I (settled client s)) :
    ¬ ∃ run : Nat → Locked α ρ σ υ,
      run 0 = s ∧ ∀ n, ∃ a, Mutex.step client a (run n) = some (run (n + 1)) := by
  rintro ⟨run, rfl, hrun⟩
  have hinv : ∀ n, Exclusive (run n) ∧ I (settled client (run n)) := by
    intro n
    induction n with
    | zero => exact ⟨hs, hI⟩
    | succ n ih =>
        obtain ⟨a, ha⟩ := hrun n
        refine ⟨ih.1.step ha, ?_⟩
        rcases step_simulated ih.1 ha with ⟨heq, -⟩ | ⟨b, hb⟩
        · rw [heq]
          exact ih.2
        · exact (hstep _ b _ ih.2 hb).1
  have hanti : StrictAnti fun n => rank client μ (run n) := by
    apply strictAnti_nat_of_succ_lt
    intro n
    obtain ⟨a, ha⟩ := hrun n
    apply Prod.Lex.toLex_lt_toLex.mpr
    rcases step_simulated (hinv n).1 ha with ⟨heq, hlt⟩ | ⟨b, hb⟩
    · exact .inr ⟨congrArg μ heq, hlt⟩
    · exact .inl (hstep _ b _ (hinv n).2 hb).2
  exact not_strictAnti_of_wellFoundedLT _ hanti

end Progress

end Prongc.Library.Mutex
