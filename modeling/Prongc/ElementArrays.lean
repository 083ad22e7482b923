import Prongc.LockTracking

namespace Prongc.ElementArrays

open Library.SizeT

def sizeofCXCursor : Nat := 32

def sizeofCXCursorArr : Nat := 24

def sizeofFuncInfo : Nat := 104

def sizeofVarAccess : Nat := 64

structure ElementArr where
  size : Nat
  capacity : Nat
  allocated : Nat

structure Write where
  start : Nat
  stop : Nat
  allocated : Nat

/-- `none` for a number beyond size_t. -/
def inSizeT (n : Nat) : Option Nat := if n < 2 ^ 64 then some n else none

section Operations

variable (sizeof : Nat) (array : ElementArr)

def grow : Option ElementArr := do
  let capacity ← inSizeT (array.capacity * 2)
  let allocated ← inSizeT (capacity * sizeof)
  some { array with capacity := capacity, allocated := allocated }

def growIf (full : Bool) : Option ElementArr := if full then grow sizeof array else some array

def writeElement : ElementArr × List Write :=
  ({ array with size := array.size + 1 },
    [⟨array.size * sizeof, (array.size + 1) * sizeof, array.allocated⟩])

/-- A push that compares the bytes of the elements with the capacity. -/
def pushByBytes : Option (ElementArr × List Write) := do
  let needed ← inSizeT ((array.size + 1) * sizeof)
  let array ← growIf sizeof array (needed > array.capacity)
  some (writeElement sizeof array)

/-- A push that keeps one element of the capacity free. -/
def pushByElements : Option (ElementArr × List Write) := do
  let array ← growIf sizeof array (array.size ≥ sizePred array.capacity)
  some (writeElement sizeof array)

end Operations

def initCursorArray : ElementArr := ⟨0, 8, sizeofCXCursorArr * 8⟩

def pushCursor : ElementArr → Option (ElementArr × List Write) := pushByBytes sizeofCXCursor

def popCursor (array : ElementArr) : Option (ElementArr × List Write) :=
  if array.size = 0 then some (array, []) else some ({ array with size := array.size - 1 }, [])

def initFuncInfoArray : ElementArr := ⟨0, 8, sizeofFuncInfo * 8⟩

def pushFuncInfo : ElementArr → Option (ElementArr × List Write) := pushByBytes sizeofFuncInfo

def initVarAccessArray : ElementArr := ⟨0, 8, sizeofVarAccess * 8⟩

def pushVarAccess : ElementArr → Option (ElementArr × List Write) := pushByElements sizeofVarAccess

def pushAccessCopy : ElementArr → Option (ElementArr × List Write) := pushByBytes sizeofVarAccess

inductive CursorOp
  | push
  | pop

def CursorOp.run : CursorOp → ElementArr → Option (ElementArr × List Write)
  | .push => pushCursor
  | .pop => popCursor

inductive FuncInfoOp
  | push

def FuncInfoOp.run : FuncInfoOp → ElementArr → Option (ElementArr × List Write)
  | .push => pushFuncInfo

inductive VarAccessOp
  | push
  | pushCopy

def VarAccessOp.run : VarAccessOp → ElementArr → Option (ElementArr × List Write)
  | .push => pushVarAccess
  | .pushCopy => pushAccessCopy

def runOps {Op : Type} (run : Op → ElementArr → Option (ElementArr × List Write)) :
    List Op → ElementArr → Option (ElementArr × List Write)
  | [], array => some (array, [])
  | op :: ops, array => do
      let next ← run op array
      let last ← runOps run ops next.1
      some (last.1, next.2 ++ last.2)

def Inside (w : Write) : Prop := w.start ≤ w.stop ∧ w.stop ≤ w.allocated

structure Sized (sizeof : Nat) (array : ElementArr) : Prop where
  size_le : array.size ≤ array.capacity
  capacity_pos : 0 < array.capacity
  allocated_eq : array.allocated = array.capacity * sizeof

section Invariants

variable {sizeof : Nat} {array array' : ElementArr} {r : ElementArr × List Write}

theorem inSizeT_eq {m n : Nat} (h : inSizeT n = some m) : m = n := by
  rw [inSizeT] at h
  split at h
  · exact (Option.some.inj h).symm
  · cases h

theorem grow_sized (hsize : array.size ≤ array.capacity) (hpos : 0 < array.capacity)
    (h : grow sizeof array = some array') : Sized sizeof array' ∧ array'.size < array'.capacity := by
  obtain ⟨capacity, hcapacity, h⟩ := Option.bind_eq_some_iff.mp h
  obtain ⟨allocated, hallocated, h⟩ := Option.bind_eq_some_iff.mp h
  obtain rfl := Option.some.inj h
  have hdouble := inSizeT_eq hcapacity
  refine ⟨⟨?_, ?_, inSizeT_eq hallocated⟩, ?_⟩
  all_goals
    dsimp only
    omega

theorem writeElement_sized (h : Sized sizeof array) (hroom : array.size < array.capacity) :
    Sized sizeof (writeElement sizeof array).1 ∧ ∀ w ∈ (writeElement sizeof array).2, Inside w := by
  refine ⟨⟨hroom, h.capacity_pos, h.allocated_eq⟩, ?_⟩
  intro w hw
  obtain rfl := List.mem_singleton.mp hw
  refine ⟨Nat.mul_le_mul_right sizeof (Nat.le_succ _), ?_⟩
  dsimp only
  rw [h.allocated_eq]
  exact Nat.mul_le_mul_right sizeof hroom

/-- A push that grows a full array writes inside of the block, where only a push that does not grow depends on
the block there was. -/
theorem push_sized {full : Bool} (hsize : array.size ≤ array.capacity) (hpos : 0 < array.capacity)
    (hroom : full = false → Sized sizeof array ∧ array.size < array.capacity)
    (h : (growIf sizeof array full).bind (fun array => some (writeElement sizeof array)) = some r) :
    Sized sizeof r.1 ∧ ∀ w ∈ r.2, Inside w := by
  obtain ⟨array', harray', h⟩ := Option.bind_eq_some_iff.mp h
  obtain rfl := Option.some.inj h
  cases full with
  | true =>
      obtain ⟨hsized, hlt⟩ := grow_sized hsize hpos harray'
      exact writeElement_sized hsized hlt
  | false =>
      obtain rfl := Option.some.inj harray'
      obtain ⟨hsized, hlt⟩ := hroom rfl
      exact writeElement_sized hsized hlt

theorem pushByBytes_sized (hsize : array.size ≤ array.capacity) (hpos : 0 < array.capacity)
    (hroom : (array.size + 1) * sizeof ≤ array.capacity → Sized sizeof array ∧ array.size < array.capacity)
    (hpush : pushByBytes sizeof array = some r) : Sized sizeof r.1 ∧ ∀ w ∈ r.2, Inside w := by
  obtain ⟨needed, hneeded, hpush⟩ := Option.bind_eq_some_iff.mp hpush
  refine push_sized hsize hpos (fun hfull => hroom ?_) hpush
  rw [← inSizeT_eq hneeded]
  exact Nat.le_of_not_lt (of_decide_eq_false hfull)

theorem lt_capacity (hsizeof : 0 < sizeof) (h : (array.size + 1) * sizeof ≤ array.capacity) :
    array.size < array.capacity := Nat.le_trans (Nat.le_mul_of_pos_right _ hsizeof) h

theorem pushByBytes_keeps (hsizeof : 0 < sizeof) (h : Sized sizeof array) (hpush : pushByBytes sizeof array = some r) :
    Sized sizeof r.1 ∧ ∀ w ∈ r.2, Inside w :=
  pushByBytes_sized h.size_le h.capacity_pos (fun hroom => ⟨h, lt_capacity hsizeof hroom⟩) hpush

theorem pushByElements_keeps (h : Sized sizeof array) (hpush : pushByElements sizeof array = some r) :
    Sized sizeof r.1 ∧ ∀ w ∈ r.2, Inside w := by
  refine push_sized h.size_le h.capacity_pos (fun hfull => ⟨h, ?_⟩) hpush
  have hpos := h.capacity_pos
  have hless := of_decide_eq_false hfull
  rw [sizePred, if_neg (by omega)] at hless
  omega

/-- What every operation keeps holds throughout a run, and so do the writes that it allows. -/
theorem runOps_inside {Op : Type} {run : Op → ElementArr → Option (ElementArr × List Write)}
    {Inv : ElementArr → Prop}
    (hstep : ∀ op array r, Inv array → run op array = some r → Inv r.1 ∧ ∀ w ∈ r.2, Inside w) (ops : List Op)
    (hinv : Inv array) (h : runOps run ops array = some r) : ∀ w ∈ r.2, Inside w := by
  induction ops generalizing array r with
  | nil =>
      obtain rfl := Option.some.inj h
      exact fun w hw => absurd hw List.not_mem_nil
  | cons op ops ih =>
      obtain ⟨next, hnext, h⟩ := Option.bind_eq_some_iff.mp h
      obtain ⟨last, hlast, h⟩ := Option.bind_eq_some_iff.mp h
      obtain rfl := Option.some.inj h
      obtain ⟨hinv', hinside⟩ := hstep op array next hinv hnext
      intro w hw
      rcases List.mem_append.mp hw with hw | hw
      · exact hinside w hw
      · exact ih hinv' hlast w hw

end Invariants

/-- The first block of a cursor array is too small for its capacity, but the first push leaves it. -/
def CursorSized (array : ElementArr) : Prop := array = initCursorArray ∨ Sized sizeofCXCursor array

theorem cursorOp_sized (op : CursorOp) (array : ElementArr) (r : ElementArr × List Write) (h : CursorSized array)
    (hrun : op.run array = some r) : CursorSized r.1 ∧ ∀ w ∈ r.2, Inside w := by
  cases op with
  | push =>
      have hsized : Sized sizeofCXCursor r.1 ∧ ∀ w ∈ r.2, Inside w := by
        rcases h with rfl | h
        · exact pushByBytes_sized (by decide) (by decide) (fun hroom => absurd hroom (by decide)) hrun
        · exact pushByBytes_keeps (by decide) h hrun
      exact ⟨.inr hsized.1, hsized.2⟩
  | pop =>
      rw [CursorOp.run, popCursor] at hrun
      split at hrun
      · obtain rfl := Option.some.inj hrun
        exact ⟨h, fun w hw => absurd hw List.not_mem_nil⟩
      next hne =>
        obtain rfl := Option.some.inj hrun
        refine ⟨.inr ?_, fun w hw => absurd hw List.not_mem_nil⟩
        rcases h with rfl | h
        · exact absurd rfl hne
        · exact ⟨Nat.le_trans (Nat.sub_le _ _) h.size_le, h.capacity_pos, h.allocated_eq⟩

theorem funcInfoOp_sized (op : FuncInfoOp) (array : ElementArr) (r : ElementArr × List Write)
    (h : Sized sizeofFuncInfo array) (hrun : op.run array = some r) :
    Sized sizeofFuncInfo r.1 ∧ ∀ w ∈ r.2, Inside w := by
  cases op with
  | push => exact pushByBytes_keeps (by decide) h hrun

theorem varAccessOp_sized (op : VarAccessOp) (array : ElementArr) (r : ElementArr × List Write)
    (h : Sized sizeofVarAccess array) (hrun : op.run array = some r) :
    Sized sizeofVarAccess r.1 ∧ ∀ w ∈ r.2, Inside w := by
  cases op with
  | push => exact pushByElements_keeps h hrun
  | pushCopy => exact pushByBytes_keeps (by decide) h hrun

/-- Whatever the growth tests compare, every element goes to the bytes allocated last. -/
theorem pushes_inside :
    (∀ ops r, runOps CursorOp.run ops initCursorArray = some r → ∀ w ∈ r.2, Inside w) ∧
      (∀ ops r, runOps FuncInfoOp.run ops initFuncInfoArray = some r → ∀ w ∈ r.2, Inside w) ∧
        ∀ ops r, runOps VarAccessOp.run ops initVarAccessArray = some r → ∀ w ∈ r.2, Inside w := by
  refine ⟨fun ops r h => ?_, fun ops r h => ?_, fun ops r h => ?_⟩
  · exact runOps_inside cursorOp_sized ops (.inl rfl) h
  · exact runOps_inside funcInfoOp_sized ops ⟨by decide, by decide, rfl⟩ h
  · exact runOps_inside varAccessOp_sized ops ⟨by decide, by decide, rfl⟩ h

theorem pushes_inside_runs :
    (∃ r, runOps CursorOp.run [.push, .pop, .pop, .push] initCursorArray = some r ∧
      r.2.map Write.allocated = [512, 1024] ∧ ∀ w ∈ r.2, Inside w) ∧
      (∃ r, runOps FuncInfoOp.run [.push, .push] initFuncInfoArray = some r ∧
        r.2.map Write.allocated = [1664, 3328] ∧ ∀ w ∈ r.2, Inside w) ∧
        ∃ r, runOps VarAccessOp.run [.push, .pushCopy, .push] initVarAccessArray = some r ∧
          r.2.map Write.allocated = [512, 1024, 1024] ∧ ∀ w ∈ r.2, Inside w :=
  ⟨⟨_, rfl, rfl, pushes_inside.1 [.push, .pop, .pop, .push] _ rfl⟩,
    ⟨_, rfl, rfl, pushes_inside.2.1 [.push, .push] _ rfl⟩,
    ⟨_, rfl, rfl, pushes_inside.2.2 [.push, .pushCopy, .push] _ rfl⟩⟩

section Range

variable {sizeof n : Nat} {array : ElementArr}

structure Bounded (sizeof n : Nat) (array : ElementArr) : Prop where
  size_le : array.size ≤ n
  capacity_le : array.capacity ≤ 16 + 2 * (n * sizeof)

def InRange (sizeof n : Nat) : Prop := (16 + 2 * (n * sizeof)) * sizeof < 2 ^ 64

theorem inSizeT_of_lt {m : Nat} (h : m < 2 ^ 64) : inSizeT m = some m := if_pos h

theorem growIf_bounded {full : Bool} (hsizeof : 0 < sizeof) (hrange : InRange sizeof (n + 1))
    (h : Bounded sizeof n array) (hfull : full = true → array.capacity ≤ (n + 1) * sizeof) :
    ∃ r, (growIf sizeof array full).bind (fun array => some (writeElement sizeof array)) = some r ∧
      Bounded sizeof (n + 1) r.1 := by
  have hnext : n * sizeof ≤ (n + 1) * sizeof := Nat.mul_le_mul_right sizeof (Nat.le_succ n)
  have hsize := h.size_le
  have hcapacity := h.capacity_le
  cases full with
  | false => exact ⟨_, rfl, Nat.succ_le_succ hsize, by change array.capacity ≤ _; omega⟩
  | true =>
      have hdouble : array.capacity * 2 ≤ 16 + 2 * ((n + 1) * sizeof) := by
        have := hfull rfl
        omega
      have hbytes : array.capacity * 2 * sizeof < 2 ^ 64 :=
        Nat.lt_of_le_of_lt (Nat.mul_le_mul_right sizeof hdouble) hrange
      have helems : array.capacity * 2 < 2 ^ 64 :=
        Nat.lt_of_le_of_lt (Nat.le_mul_of_pos_right _ hsizeof) hbytes
      let grown : ElementArr := ⟨array.size, array.capacity * 2, array.capacity * 2 * sizeof⟩
      have hgrown : grow sizeof array = some grown := by
        rw [grow, inSizeT_of_lt helems, Option.bind_eq_bind, Option.bind_some, inSizeT_of_lt hbytes]
        rfl
      refine ⟨writeElement sizeof grown, ?_, Nat.succ_le_succ hsize, hdouble⟩
      rw [growIf, if_pos rfl, hgrown]
      rfl

theorem pushByBytes_bounded (hsizeof : 0 < sizeof) (hrange : InRange sizeof (n + 1)) (h : Bounded sizeof n array) :
    ∃ r, pushByBytes sizeof array = some r ∧ Bounded sizeof (n + 1) r.1 := by
  have hneeded : (array.size + 1) * sizeof ≤ (n + 1) * sizeof :=
    Nat.mul_le_mul_right sizeof (Nat.succ_le_succ h.size_le)
  have hlt : (n + 1) * sizeof < 2 ^ 64 := by
    have hmul := Nat.le_mul_of_pos_right (16 + 2 * ((n + 1) * sizeof)) hsizeof
    have hlimit : (16 + 2 * ((n + 1) * sizeof)) * sizeof < 2 ^ 64 := hrange
    omega
  rw [pushByBytes, inSizeT_of_lt (Nat.lt_of_le_of_lt hneeded hlt)]
  apply growIf_bounded hsizeof hrange h
  intro hfull
  exact Nat.le_trans (Nat.le_of_lt (of_decide_eq_true hfull)) hneeded

theorem pushByElements_bounded (hsizeof : 0 < sizeof) (hrange : InRange sizeof (n + 1)) (h : Bounded sizeof n array)
    (hpos : 0 < array.capacity) : ∃ r, pushByElements sizeof array = some r ∧ Bounded sizeof (n + 1) r.1 := by
  apply growIf_bounded hsizeof hrange h
  intro hfull
  have hge := of_decide_eq_true hfull
  rw [sizePred, if_neg (by omega)] at hge
  have hsize := h.size_le
  have hmul := Nat.le_mul_of_pos_right (n + 1) hsizeof
  omega

theorem popCursor_bounded (h : Bounded sizeof n array) :
    ∃ r, popCursor array = some r ∧ Bounded sizeof (n + 1) r.1 := by
  have hsize := h.size_le
  have hcapacity := h.capacity_le
  have hnext : n * sizeof ≤ (n + 1) * sizeof := Nat.mul_le_mul_right sizeof (Nat.le_succ n)
  rw [popCursor]
  split
  · exact ⟨_, rfl, Nat.le_succ_of_le hsize, by dsimp only; omega⟩
  · exact ⟨_, rfl, by dsimp only; omega, by dsimp only; omega⟩

theorem cursorOp_bounded (op : CursorOp) (hrange : InRange sizeofCXCursor (n + 1))
    (h : Bounded sizeofCXCursor n array) : ∃ r, op.run array = some r ∧ Bounded sizeofCXCursor (n + 1) r.1 := by
  cases op with
  | push => exact pushByBytes_bounded (by decide) hrange h
  | pop => exact popCursor_bounded h

theorem funcInfoOp_bounded (op : FuncInfoOp) (hrange : InRange sizeofFuncInfo (n + 1))
    (h : Bounded sizeofFuncInfo n array) : ∃ r, op.run array = some r ∧ Bounded sizeofFuncInfo (n + 1) r.1 := by
  cases op with
  | push => exact pushByBytes_bounded (by decide) hrange h

theorem varAccessOp_bounded (op : VarAccessOp) (hrange : InRange sizeofVarAccess (n + 1))
    (hsized : Sized sizeofVarAccess array) (h : Bounded sizeofVarAccess n array) :
    ∃ r, op.run array = some r ∧ Bounded sizeofVarAccess (n + 1) r.1 := by
  cases op with
  | push => exact pushByElements_bounded (by decide) hrange h hsized.capacity_pos
  | pushCopy => exact pushByBytes_bounded (by decide) hrange h

section Runs

variable {Op : Type} {run : Op → ElementArr → Option (ElementArr × List Write)} {Inv : ElementArr → Prop}

theorem runOps_bounded
    (hkeep : ∀ op array r, Inv array → run op array = some r → Inv r.1 ∧ ∀ w ∈ r.2, Inside w)
    (hstep : ∀ op array n, InRange sizeof (n + 1) → Inv array → Bounded sizeof n array →
      ∃ r, run op array = some r ∧ Bounded sizeof (n + 1) r.1)
    (ops : List Op) (hinv : Inv array) (h : Bounded sizeof n array) (hrange : InRange sizeof (n + ops.length)) :
    (runOps run ops array).isSome := by
  induction ops generalizing array n with
  | nil => rfl
  | cons op ops ih =>
      have hfirst : InRange sizeof (n + 1) := by
        refine Nat.lt_of_le_of_lt ?_ hrange
        have hmono : (n + 1) * sizeof ≤ (n + (op :: ops).length) * sizeof :=
          Nat.mul_le_mul_right sizeof (by rw [List.length_cons]; omega)
        exact Nat.mul_le_mul_right sizeof (by omega)
      obtain ⟨next, hnext, hbounded⟩ := hstep op array n hfirst hinv h
      obtain ⟨hinv', -⟩ := hkeep op array next hinv hnext
      rw [List.length_cons, Nat.add_comm ops.length, ← Nat.add_assoc] at hrange
      obtain ⟨last, hlast⟩ := Option.isSome_iff_exists.mp (ih hinv' hbounded hrange)
      rw [runOps, hnext, Option.bind_eq_bind, Option.bind_some, hlast]
      rfl

theorem runOps_total
    (hkeep : ∀ op array r, Inv array → run op array = some r → Inv r.1 ∧ ∀ w ∈ r.2, Inside w)
    (hstep : ∀ op array n, InRange sizeof (n + 1) → Inv array → Bounded sizeof n array →
      ∃ r, run op array = some r ∧ Bounded sizeof (n + 1) r.1)
    (ops : List Op) (hinv : Inv array) (hempty : array.size = 0) (hcapacity : array.capacity = 8)
    (hrange : InRange sizeof ops.length) : (runOps run ops array).isSome := by
  have hbounded : Bounded sizeof 0 array := by
    refine ⟨Nat.le_of_eq hempty, ?_⟩
    rw [hcapacity]
    omega
  apply runOps_bounded hkeep hstep ops hinv hbounded
  rwa [Nat.zero_add]

end Runs

theorem runs_total :
    (∀ ops, InRange sizeofCXCursor ops.length → (runOps CursorOp.run ops initCursorArray).isSome) ∧
      (∀ ops, InRange sizeofFuncInfo ops.length → (runOps FuncInfoOp.run ops initFuncInfoArray).isSome) ∧
        ∀ ops, InRange sizeofVarAccess ops.length → (runOps VarAccessOp.run ops initVarAccessArray).isSome := by
  refine ⟨?_, ?_, ?_⟩
  · intro ops hrange
    apply runOps_total cursorOp_sized _ ops (.inl rfl) rfl rfl hrange
    exact fun op _ _ hrange _ h => cursorOp_bounded op hrange h
  · intro ops hrange
    apply runOps_total funcInfoOp_sized _ ops ⟨by decide, by decide, rfl⟩ rfl rfl hrange
    exact fun op _ _ hrange _ h => funcInfoOp_bounded op hrange h
  · intro ops hrange
    apply runOps_total varAccessOp_sized _ ops ⟨by decide, by decide, rfl⟩ rfl rfl hrange
    exact fun op _ _ hrange hsized h => varAccessOp_bounded op hrange hsized h

end Range

end Prongc.ElementArrays
