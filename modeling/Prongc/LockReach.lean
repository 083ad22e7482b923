import Prongc.LockRanges
import Prongc.Library.BranchMarkers

namespace Prongc.LockReach

open Access LockTracking LockRanges Library.LinkedArray Library.BranchMarkers Library.SizeT

def mark (va : VarAccess) : Option Mark :=
  match va.type with
  | .ifStmt => some .ifStmt
  | .thenBlock => some .thenBlock
  | .elseStmt => some .elseStmt
  | .endIf => some .endIf
  | _ => none

/-- How the ranges of one acquisition stand. While the condition of an if is
evaluated, a held lock is `split`, and a lock released there is `closing`. -/
inductive Hold
  | held | split | closing | closed
  deriving DecidableEq, Repr

def releases (objHash : UInt32) (va : VarAccess) : Bool :=
  va.type == .lockRelease && va.usr.any (fun usr => lockTrackingGenHash usr == objHash)

def nextDepth (depth : Nat) (va : VarAccess) : Nat :=
  match va.type with
  | .ifStmt => sizeSucc depth
  | .endIf => sizePred depth
  | _ => depth

def Hold.next (objHash : UInt32) (depth : Nat) (va : VarAccess) (s : Hold) : Hold :=
  match va.type, s with
  | .lockRelease, .held => if releases objHash va then .closed else .held
  | .lockRelease, .split => if releases objHash va then .closing else .split
  | .ifStmt, .held => .split
  | .thenBlock, .split => .held
  | .thenBlock, .closing => .closed
  | .elseStmt, .closed => if depth = 1 then .held else .closed
  | _, s => s

def holdStep (objHash : UInt32) (st : Hold × Nat) (va : VarAccess) : Hold × Nat :=
  (st.1.next objHash st.2 va, nextDepth st.2 va)

def holdAfter (fp : List VarAccess) (c : Nat) (objHash : UInt32) : Hold :=
  ((fp.drop (c + 1)).foldl (holdStep objHash) (.held, (fp.take (c + 1)).foldl nextDepth 0)).1

/-- The held range that covers an entry is capped by an if before any release. -/
def branchesFirst (objHash : UInt32) (rest : List VarAccess) : Bool :=
  (rest.find? (fun va => va.type == .ifStmt || releases objHash va)).any (fun va => va.type == .ifStmt)

/-- The branch tag of the range that covers an entry, from how the acquisition
stands there and from the entries behind it. -/
def tagOf (objHash : UInt32) (rest : List VarAccess) : Hold → Option Bool
  | .held => some (branchesFirst objHash rest)
  | .split | .closing => some true
  | .closed => none

/-- Whether the acquisition at `c` reaches the entry at `k`, and with which branch tag. -/
def reach (fp : List VarAccess) (k c : Nat) (objHash : UInt32) : Option Bool :=
  if c < k then tagOf objHash (fp.drop (k + 1)) (holdAfter (fp.take k) c objHash) else none

def acquisitions (fp : List VarAccess) : List (Nat × UInt32) :=
  fp.zipIdx.filterMap (fun x =>
    if x.1.type = .lockAcquire then x.1.usr.map (fun usr => (x.2, lockTrackingGenHash usr)) else none)

def reaching (fp : List VarAccess) (k : Nat) : List (UInt32 × Bool) :=
  (acquisitions fp).filterMap (fun x => (reach fp k x.1 x.2).map (fun tag => (x.2, tag)))

theorem foldl_holdStep_depth (objHash : UInt32) (l : List VarAccess) (st : Hold × Nat) :
    (l.foldl (holdStep objHash) st).2 = l.foldl nextDepth st.2 := by
  induction l generalizing st with
  | nil => rfl
  | cons va l ih => rw [List.foldl_cons, ih]; rfl

theorem holdAfter_snoc {fp : List VarAccess} {c : Nat} (hc : c < fp.length) (objHash : UInt32)
    (va : VarAccess) : holdAfter (fp ++ [va]) c objHash =
      (holdAfter fp c objHash).next objHash (fp.foldl nextDepth 0) va := by
  unfold holdAfter
  rw [List.drop_append_of_le_length (by omega), List.take_append_of_le_length (by omega),
    List.foldl_append, List.foldl_cons, List.foldl_nil, holdStep, foldl_holdStep_depth,
    ← List.foldl_append, List.take_append_drop]

theorem holdAfter_self (fp : List VarAccess) (va : VarAccess) (objHash : UInt32) :
    holdAfter (fp ++ [va]) fp.length objHash = .held := by
  simp [holdAfter]

theorem acquisitions_snoc (fp : List VarAccess) (va : VarAccess) :
    acquisitions (fp ++ [va]) = acquisitions fp ++
      (if va.type = .lockAcquire then va.usr.map (fun usr => (fp.length, lockTrackingGenHash usr))
        else none).toList := by
  rw [acquisitions]
  rw [List.zipIdx_append, List.filterMap_append]
  congr 1
  simp only [List.zipIdx_cons, List.zipIdx_nil, Nat.zero_add]
  split_ifs with ht
  · cases hu : va.usr <;> simp [ht, hu]
  · simp [ht]

theorem acquisitions_lt {fp : List VarAccess} {x : Nat × UInt32} (h : x ∈ acquisitions fp) :
    x.1 < fp.length := by
  rw [acquisitions] at h
  obtain ⟨y, hy, hx⟩ := List.mem_filterMap.mp h
  split_ifs at hx
  obtain ⟨u, -, rfl⟩ := Option.map_eq_some_iff.mp hx
  have := List.mem_zipIdx hy
  simpa using this.2.1

structure FirstThen (fp : List VarAccess) (n t : Nat) : Prop where
  le : n ≤ t
  marked : ∃ va, fp[t]? = some va ∧ va.type = .thenBlock
  first : ∀ m, n ≤ m → m < t → ∀ va, fp[m]? = some va → va.type ≠ .thenBlock

theorem FirstThen.unique {fp : List VarAccess} {n t t' : Nat} (h : FirstThen fp n t)
    (h' : FirstThen fp n t') : t = t' := by
  obtain ⟨va, hva, ht⟩ := h.marked
  obtain ⟨va', hva', ht'⟩ := h'.marked
  rcases Nat.lt_trichotomy t t' with hlt | rfl | hlt
  · exact absurd ht (h'.first t h.le hlt va hva)
  · rfl
  · exact absurd ht' (h.first t' h'.le hlt va' hva')

theorem FirstThen.next {fp : List VarAccess} {n t : Nat} (h : FirstThen fp n t) (hne : n ≠ t) :
    FirstThen fp (n + 1) t :=
  ⟨by have := h.le; omega, h.marked, fun m hm hlt va hva => h.first m (by omega) hlt va hva⟩

theorem startOfBranch_isSome_of_then {fp seen rest : List VarAccess} {va a : VarAccess}
    (hfp : fp = seen ++ va :: rest) (ha : a ∈ rest) (hthen : a.type = .thenBlock) :
    (startOfBranch fp seen.length).isSome := by
  have hdrop : fp.drop (seen.length + 1) = rest := by
    rw [hfp]
    simp
  rw [startOfBranch, hdrop, Option.isSome_map, List.findIdx?_isSome, List.any_eq_true]
  exact ⟨a, ha, by simp [hthen]⟩

theorem firstThen_of_startOfBranch {fp : List VarAccess} {n t : Nat}
    (h : startOfBranch fp n = some t) : FirstThen fp (n + 1) t := by
  obtain ⟨m, hm, rfl⟩ := Option.map_eq_some_iff.mp h
  obtain ⟨hlt, hp, hlo⟩ := List.findIdx?_eq_some_iff_getElem.mp hm
  rw [List.length_drop] at hlt
  refine ⟨by omega, ⟨fp[m + (n + 1)], List.getElem?_eq_getElem _, ?_⟩, fun k hk hlt' va hva => ?_⟩
  · rw [List.getElem_drop] at hp
    simpa [Nat.add_comm] using hp
  · obtain ⟨hk', rfl⟩ := List.getElem?_eq_some_iff.mp hva
    have := hlo (k - (n + 1)) (by omega)
    rw [List.getElem_drop] at this
    have he : n + 1 + (k - (n + 1)) = k := by omega
    simpa [he] using this

def Past (n : Nat) (s : Segment) : Prop := ∃ e, s.rangeEnd = some e ∧ e < n

theorem Past.mono {n m : Nat} {s : Segment} (h : Past n s) (hnm : n ≤ m) : Past m s := by
  obtain ⟨e, he, hlt⟩ := h
  exact ⟨e, he, by omega⟩

theorem Past.not_covers {n m : Nat} {s : Segment} (h : Past n s) (hnm : n ≤ m) : s.covers m = false := by
  obtain ⟨e, he, hlt⟩ := h
  have : ¬ m < e := by omega
  simp [Segment.covers, he, this]

/-- The ranges of an acquisition made before `n`, as the entries before `n`
leave them. The last range is the one later entries change. -/
inductive Before (fp : List VarAccess) (n : Nat) : Hold → List Segment → Prop
  | held {pre tail} (hp : ∀ x ∈ pre, Past n x) (hs : tail.rangeStart < n) (he : tail.rangeEnd = none)
      (hd : tail.depth = 0) : Before fp n .held (pre ++ [tail])
  | split {pre tail t s} (ht : FirstThen fp n t) (hp : ∀ x ∈ pre, Past (t + 1) x) (hd' : s.depth ≠ 0)
      (hc : ∀ m, n ≤ m → m < t → pre.filter (Segment.covers m) = [s]) (hs : tail.rangeStart = t)
      (he : tail.rangeEnd = none) (hd : tail.depth = 0) : Before fp n .split (pre ++ [tail])
  | closing {pre tail t s} (ht : FirstThen fp n t) (hp : ∀ x ∈ pre, Past (t + 1) x) (hd' : s.depth ≠ 0)
      (hc : ∀ m, n ≤ m → m < t → pre.filter (Segment.covers m) = [s]) (hs : tail.rangeStart = t)
      (he : Past n tail) (hd : tail.depth = 0) : Before fp n .closing (pre ++ [tail])
  | closed {pre tail} (hp : ∀ x ∈ pre, Past n x) (he : Past n tail) (hd : tail.depth = 0) :
      Before fp n .closed (pre ++ [tail])

theorem Past.not_open {n : Nat} {s : Segment} (h : Past n s) : s.isOpen = false := by
  obtain ⟨e, he, -⟩ := h
  simp [Segment.isOpen, he]

theorem closeSegments_of_closed {l : List Segment} (h : ∀ x ∈ l, x.isOpen = false) (objHash : UInt32)
    (r : Nat) : closeSegments objHash r l = l := by
  refine (List.map_congr_left fun x hx => ?_).trans (List.map_id l)
  have hx := h x hx
  simp only [Segment.isOpen, Option.isNone_eq_false_iff, Option.isSome_iff_ne_none] at hx
  simp [Segment.closeAt, hx]

theorem closeAt_of_past {n : Nat} {s : Segment} (h : Past n s) (objHash : UInt32) (r : Nat) :
    s.closeAt objHash r = s := by
  obtain ⟨e, he, -⟩ := h
  simp [Segment.closeAt, he]

theorem closeSegments_of_ne {l : List Segment} {objHash : UInt32} (h : ∀ x ∈ l, x.objHash ≠ objHash)
    (r : Nat) : closeSegments objHash r l = l :=
  (List.map_congr_left fun x hx => by simp [Segment.closeAt, h x hx]).trans (List.map_id l)

theorem closeSegments_snoc {pre : List Segment} {tail : Segment} (h : ∀ x ∈ pre, x.isOpen = false)
    (objHash : UInt32) (r : Nat) :
    closeSegments objHash r (pre ++ [tail]) = pre ++ [tail.closeAt objHash r] := by
  have := closeSegments_of_closed h objHash r
  rw [closeSegments, List.map_append]
  rw [closeSegments] at this
  rw [this]
  rfl

theorem splitSegments_of_closed {l : List Segment} (h : ∀ x ∈ l, x.isOpen = false) (start depth : Nat) :
    splitSegments start depth l = l := by
  have hm : l.map (Segment.splitAt start depth) = l :=
    (List.map_congr_left fun x hx => by simp [Segment.splitAt, h x hx]).trans (List.map_id l)
  have hf : l.filter Segment.isOpen = [] := List.filter_eq_nil_iff.mpr fun x hx => by simp [h x hx]
  simp [splitSegments, hm, hf]

theorem splitSegments_snoc {pre : List Segment} {tail : Segment} (h : ∀ x ∈ pre, x.isOpen = false)
    (ht : tail.isOpen = true) (start depth : Nat) :
    splitSegments start depth (pre ++ [tail]) =
      (pre ++ [tail.splitAt start depth]) ++ [tail.reopenAt start] := by
  have hm : pre.map (Segment.splitAt start depth) = pre :=
    (List.map_congr_left fun x hx => by simp [Segment.splitAt, h x hx]).trans (List.map_id pre)
  have hf : pre.filter Segment.isOpen = [] := List.filter_eq_nil_iff.mpr fun x hx => by simp [h x hx]
  simp [splitSegments, hm, hf, ht]

theorem reviveSegments_snoc (pre : List Segment) (tail : Segment) (start depth : Nat) :
    reviveSegments start depth (pre ++ [tail]) =
      (pre ++ [tail]) ++ if tail.revivable depth = true then [tail.reopenAt start] else [] := by
  rw [reviveSegments, List.getLast?_concat]
  cases ht : tail.revivable depth <;> simp [ht]

def entrySegments (fp : List VarAccess) (n depth : Nat) (va : VarAccess) (l : List Segment) : List Segment :=
  match va.type with
  | .lockRelease => va.usr.elim l (fun usr => closeSegments (lockTrackingGenHash usr) n l)
  | .ifStmt => (startOfBranch fp n).elim l (fun start => splitSegments start (sizeSucc depth) l)
  | .elseStmt => reviveSegments n (sizePred depth) l
  | _ => l

section Steps

variable {fp : List VarAccess} {n : Nat} {hold : Hold} {l : List Segment}

theorem Before.idle (h : Before fp n hold l)
    (hn : hold = .split ∨ hold = .closing → ∀ va, fp[n]? = some va → va.type ≠ .thenBlock) :
    Before fp (n + 1) hold l := by
  have hne {t : Nat} (ht : FirstThen fp n t) (hw : hold = .split ∨ hold = .closing) : n ≠ t := by
    rintro rfl
    obtain ⟨va, hva, hty⟩ := ht.marked
    exact hn hw va hva hty
  cases h with
  | held hp hs he hd => exact .held (fun x hx => (hp x hx).mono (by omega)) (by omega) he hd
  | split ht hp hd' hc hs he hd =>
      exact .split (ht.next (hne ht (.inl rfl))) hp hd' (fun m hm hlt => hc m (by omega) hlt) hs he hd
  | closing ht hp hd' hc hs he hd =>
      exact .closing (ht.next (hne ht (.inr rfl))) hp hd' (fun m hm hlt => hc m (by omega) hlt) hs
        (he.mono (by omega)) hd
  | closed hp he hd => exact .closed (fun x hx => (hp x hx).mono (by omega)) (he.mono (by omega)) hd

theorem Before.thenBlock (h : Before fp n hold l) {va : VarAccess} (hva : fp[n]? = some va)
    (hty : va.type = .thenBlock) (objHash : UInt32) (depth : Nat) :
    Before fp (n + 1) (hold.next objHash depth va) l := by
  have heq {t : Nat} (ht : FirstThen fp n t) : t = n := by
    by_contra hne
    exact ht.first n (Nat.le_refl n) (by have := ht.le; omega) va hva hty
  cases h with
  | held hp hs he hd =>
      simp only [Hold.next, hty]
      exact .held (fun x hx => (hp x hx).mono (by omega)) (by omega) he hd
  | split ht hp hd' hc hs he hd =>
      obtain rfl := heq ht
      simp only [Hold.next, hty]
      exact .held hp (by omega) he hd
  | closing ht hp hd' hc hs he hd =>
      obtain rfl := heq ht
      simp only [Hold.next, hty]
      exact .closed hp (he.mono (by omega)) hd
  | closed hp he hd =>
      simp only [Hold.next, hty]
      exact .closed (fun x hx => (hp x hx).mono (by omega)) (he.mono (by omega)) hd

theorem Segment.closeAt_of_open {s : Segment} (he : s.rangeEnd = none) (r : Nat) :
    s.closeAt s.objHash r = { s with rangeEnd := some r } := by
  simp [Segment.closeAt, he]

theorem Before.release (h : Before fp n hold l) {va : VarAccess} (hva : fp[n]? = some va)
    (hty : va.type = .lockRelease) {usr : String} (hu : va.usr = some usr) {objHash : UInt32}
    (hobj : ∀ x ∈ l, x.objHash = objHash) (depth : Nat) :
    Before fp (n + 1) (hold.next objHash depth va) (closeSegments (lockTrackingGenHash usr) n l) := by
  have hidle : Before fp (n + 1) hold l := h.idle fun _ va' hva' => by
    rw [hva, Option.some.injEq] at hva'
    simp [← hva', hty]
  have hrel : releases objHash va = (lockTrackingGenHash usr == objHash) := by
    simp [releases, hty, hu]
  have hclosed {m : Nat} {pre : List Segment} (hp : ∀ x ∈ pre, Past m x) : ∀ x ∈ pre, x.isOpen = false :=
    fun x hx => (hp x hx).not_open
  by_cases hh : lockTrackingGenHash usr = objHash
  · have hr : releases objHash va = true := by simp [hrel, hh]
    cases hidle with
    | held hp hs he hd =>
        have ho := hobj _ (List.mem_append_right _ List.mem_cons_self)
        rw [closeSegments_snoc (hclosed hp), hh, ← ho, Segment.closeAt_of_open he]
        rw [← ho] at hr
        simp only [Hold.next, hty, hr, if_true]
        exact .closed hp ⟨n, rfl, by omega⟩ hd
    | split ht hp hd' hc hs he hd =>
        have ho := hobj _ (List.mem_append_right _ List.mem_cons_self)
        rw [closeSegments_snoc (hclosed hp), hh, ← ho, Segment.closeAt_of_open he]
        rw [← ho] at hr
        simp only [Hold.next, hty, hr, if_true]
        exact .closing ht hp hd' hc hs ⟨n, rfl, by omega⟩ hd
    | closing ht hp hd' hc hs he hd =>
        rw [closeSegments_snoc (hclosed hp), closeAt_of_past he]
        simp only [Hold.next, hty]
        exact .closing ht hp hd' hc hs he hd
    | closed hp he hd =>
        rw [closeSegments_snoc (hclosed hp), closeAt_of_past he]
        simp only [Hold.next, hty]
        exact .closed hp he hd
  · have hr : releases objHash va = false := by simp [hrel, hh]
    have hsame : closeSegments (lockTrackingGenHash usr) n l = l := closeSegments_of_ne (fun x hx => by
      rw [hobj x hx]
      exact fun he => hh he.symm) n
    have hnext : hold.next objHash depth va = hold := by
      cases hold <;> simp [Hold.next, hty, hr]
    rw [hsame, hnext]
    exact hidle

theorem covers_splitAt {s : Segment} {t : Nat} (hs : s.rangeStart < n) (he : s.rangeEnd = none)
    (depth : Nat) {m : Nat} (hm : n ≤ m) (hlt : m < t) : (s.splitAt t depth).covers m = true := by
  have hst : s.rangeStart < m := by omega
  simp [Segment.splitAt, Segment.isOpen, he, Segment.covers, hst, hlt]

theorem not_covers_splitAt {s : Segment} {t : Nat} (hs : s.rangeStart = t) (he : s.rangeEnd = none)
    (depth m : Nat) : (s.splitAt t depth).covers m = false := by
  have : ¬ (t < m ∧ m < t) := by omega
  simpa [Segment.splitAt, Segment.isOpen, he, Segment.covers, hs] using this

theorem past_splitAt {s : Segment} (he : s.rangeEnd = none) (t depth : Nat) :
    Past (t + 1) (s.splitAt t depth) :=
  ⟨t, by simp [Segment.splitAt, Segment.isOpen, he], by omega⟩

theorem Before.ifStmt (h : Before fp n hold l) {va : VarAccess} (hva : fp[n]? = some va)
    (hty : va.type = .ifStmt) {t : Nat} (hstart : startOfBranch fp n = some t) (objHash : UInt32)
    {depth : Nat} (hdepth : sizeSucc depth ≠ 0) :
    Before fp (n + 1) (hold.next objHash depth va) (splitSegments t (sizeSucc depth) l) := by
  have hidle : Before fp (n + 1) hold l := h.idle fun _ va' hva' => by
    rw [hva, Option.some.injEq] at hva'
    simp [← hva', hty]
  have hthen := firstThen_of_startOfBranch hstart
  have hclosed {m : Nat} {pre : List Segment} (hp : ∀ x ∈ pre, Past m x) : ∀ x ∈ pre, x.isOpen = false :=
    fun x hx => (hp x hx).not_open
  have hsnoc {m : Nat} {pre : List Segment} {tail : Segment} (hp : ∀ x ∈ pre, Past m x)
      (ht : Past m tail) : ∀ x ∈ pre ++ [tail], x.isOpen = false := fun x hx => by
    rcases List.mem_append.mp hx with hx | hx
    · exact hclosed hp x hx
    · rw [List.mem_singleton.mp hx]
      exact ht.not_open
  have hpast {pre : List Segment} {tail : Segment} (hp : ∀ x ∈ pre, Past (t + 1) x)
      (he : tail.rangeEnd = none) : ∀ x ∈ pre ++ [tail.splitAt t (sizeSucc depth)], Past (t + 1) x := by
    intro x hx
    rcases List.mem_append.mp hx with hx | hx
    · exact hp x hx
    · rw [List.mem_singleton.mp hx]
      exact past_splitAt he _ _
  simp only [Hold.next, hty]
  cases hidle with
  | @held pre tail hp hs he hd =>
      rw [splitSegments_snoc (hclosed hp) (by simp [Segment.isOpen, he])]
      refine .split (s := tail.splitAt t (sizeSucc depth)) hthen
        (hpast (fun x hx => (hp x hx).mono (by have := hthen.le; omega)) he) ?_ ?_ rfl rfl hd
      · simp [Segment.splitAt, Segment.isOpen, he, hdepth]
      · intro m hm hlt
        have hnil : pre.filter (Segment.covers m) = [] :=
          List.filter_eq_nil_iff.mpr fun x hx => by simp [(hp x hx).not_covers hm]
        rw [List.filter_append, hnil, List.nil_append, List.filter_singleton,
          covers_splitAt hs he _ hm hlt]
        rfl
  | @split pre tail t' s ht hp hd' hc hs he hd =>
      obtain rfl := ht.unique hthen
      rw [splitSegments_snoc (hclosed hp) (by simp [Segment.isOpen, he])]
      refine .split hthen (hpast hp he) hd' ?_ rfl rfl hd
      intro m hm hlt
      rw [List.filter_append, hc m hm hlt, List.filter_singleton, not_covers_splitAt hs he]
      rfl
  | closing ht hp hd' hc hs he hd =>
      rw [splitSegments_of_closed]
      · exact .closing ht hp hd' hc hs he hd
      · intro x hx
        rcases List.mem_append.mp hx with hx | hx
        · exact hclosed hp x hx
        · rw [List.mem_singleton.mp hx]
          exact he.not_open
  | closed hp he hd =>
      rw [splitSegments_of_closed (hsnoc hp he)]
      exact .closed hp he hd

theorem Before.elseStmt (h : Before fp n hold l) {va : VarAccess} (hva : fp[n]? = some va)
    (hty : va.type = .elseStmt) (hhold : hold = .held ∨ hold = .closed) (objHash : UInt32)
    (depth : Nat) :
    Before fp (n + 1) (hold.next objHash depth va) (reviveSegments n (sizePred depth) l) := by
  have hidle : Before fp (n + 1) hold l := h.idle fun _ va' hva' => by
    rw [hva, Option.some.injEq] at hva'
    simp [← hva', hty]
  cases hidle with
  | held hp hs he hd =>
      rw [reviveSegments_snoc, if_neg (by simp [Segment.revivable, Segment.isOpen, he]), List.append_nil]
      simp only [Hold.next, hty]
      exact .held hp hs he hd
  | split => simp at hhold
  | closing => simp at hhold
  | @closed pre tail hp he hd =>
      have hrev : tail.revivable (sizePred depth) = true ↔ depth = 1 := by
        simp only [Segment.revivable, he.not_open, hd, Bool.not_false, Bool.true_and, beq_iff_eq]
        rw [eq_comm, sizePred_eq_zero]
      rw [reviveSegments_snoc]
      simp only [Hold.next, hty]
      by_cases h1 : depth = 1
      · rw [if_pos (hrev.mpr h1), if_pos h1]
        refine .held ?_ (Nat.lt_succ_self n) rfl hd
        intro x hx
        rcases List.mem_append.mp hx with hx | hx
        · exact hp x hx
        · rw [List.mem_singleton.mp hx]
          exact he
      · rw [if_neg (fun h => h1 (hrev.mp h)), if_neg h1, List.append_nil]
        exact .closed hp he hd

def Hold.Waiting (hold : Hold) (ps : List Phase) : Prop :=
  hold = .split ∨ hold = .closing → ∃ st, ps = .cond :: st

theorem Hold.Waiting.next {ps ps' : List Phase} {va : VarAccess} (h : hold.Waiting ps)
    (hs : advance mark ps va = some ps') (objHash : UInt32) :
    (hold.next objHash ps.length va).Waiting ps' := by
  have hkeep (hm : mark va = none) (hw : hold = .split ∨ hold = .closing) : ∃ st, ps' = .cond :: st := by
    simp only [advance, hm, Option.some.injEq] at hs
    exact hs ▸ h hw
  intro hw
  cases hty : va.type with
  | ifStmt =>
      simp only [advance, mark, hty, Library.BranchMarkers.step, Option.some.injEq] at hs
      exact ⟨ps, hs.symm⟩
  | thenBlock => cases hold <;> simp [Hold.next, hty] at hw
  | elseStmt =>
      have hwait : hold = .split ∨ hold = .closing := by
        cases hold <;> simp_all [Hold.next]
        split_ifs at hw <;> simp at hw
      obtain ⟨st, rfl⟩ := h hwait
      simp [advance, mark, hty, Library.BranchMarkers.step] at hs
  | endIf =>
      obtain ⟨st, rfl⟩ := h (by simpa [Hold.next, hty] using hw)
      simp [advance, mark, hty, Library.BranchMarkers.step] at hs
  | lockRelease =>
      apply hkeep (by simp [mark, hty])
      cases hold <;> simp_all [Hold.next]
      split_ifs at hw <;> simp at hw
  | _ => exact hkeep (by simp [mark, hty]) (by simpa [Hold.next, hty] using hw)

/-- The phases are those of the markers met, so the condition of an if holds
no else or end marker of an outer one. -/
theorem Before.step (h : Before fp n hold l) {va : VarAccess} (hva : fp[n]? = some va) {objHash : UInt32}
    (hobj : ∀ x ∈ l, x.objHash = objHash) {ps ps' : List Phase} (hs : advance mark ps va = some ps')
    (hw : hold.Waiting ps) (hstart : va.type = .ifStmt → (startOfBranch fp n).isSome)
    (hdepth : va.type = .ifStmt → sizeSucc ps.length ≠ 0)
    (hu : va.type = .lockRelease → va.usr.isSome) :
    Before fp (n + 1) (hold.next objHash ps.length va) (entrySegments fp n ps.length va l) := by
  have hplain (hm : va.type ≠ .thenBlock) : Before fp (n + 1) hold l := h.idle fun _ va' hva' => by
    rw [hva, Option.some.injEq] at hva'
    exact hva' ▸ hm
  cases hty : va.type with
  | lockRelease =>
      obtain ⟨usr, husr⟩ := Option.isSome_iff_exists.mp (hu hty)
      simp only [entrySegments, hty, husr, Option.elim_some]
      exact h.release hva hty husr hobj _
  | ifStmt =>
      obtain ⟨t, ht⟩ := Option.isSome_iff_exists.mp (hstart hty)
      simp only [entrySegments, hty, ht, Option.elim_some]
      exact h.ifStmt hva hty ht _ (hdepth hty)
  | thenBlock =>
      simp only [entrySegments, hty]
      exact h.thenBlock hva hty _ _
  | elseStmt =>
      simp only [entrySegments, hty]
      refine h.elseStmt hva hty ?_ _ _
      by_contra hn
      have hwait : hold = .split ∨ hold = .closing := by cases hold <;> simp_all
      obtain ⟨st, rfl⟩ := hw hwait
      simp [advance, mark, hty, Library.BranchMarkers.step] at hs
  | _ =>
      simpa [entrySegments, Hold.next, hty] using hplain (by simp [hty])

end Steps

def Capped (k : Nat) (tag : Option Bool) (l : List Segment) : Prop :=
  (∀ x ∈ l, x.isOpen = true → k ≤ x.rangeStart) ∧
    (l.filter (Segment.covers k)).map (fun s => decide (s.depth ≠ 0)) = tag.toList

def Uncapped (k : Nat) (l : List Segment) : Prop :=
  ∃ s, l.filter (Segment.covers k) = [s] ∧ s.isOpen = true ∧ s.depth = 0

/-- The ranges of an acquisition that stood as `hold` at `k`, once the entries
`seen` behind `k` have been met. -/
def After (k : Nat) (objHash : UInt32) (seen : List VarAccess) (hold : Hold) (l : List Segment) : Prop :=
  match hold with
  | .held => match seen.find? (fun va => va.type == .ifStmt || releases objHash va) with
      | none => Uncapped k l
      | some va => Capped k (some (va.type == .ifStmt)) l
  | .split | .closing => Capped k (some true) l
  | .closed => Capped k none l

section Cover

variable {k : Nat} {l : List Segment}

theorem covers_of_le {s : Segment} (h : k ≤ s.rangeStart) : s.covers k = false := by
  have : ¬ s.rangeStart < k := by omega
  simp [Segment.covers, this]

theorem covers_closeAt {r : Nat} (hr : k < r) (objHash : UInt32) (s : Segment) :
    (s.closeAt objHash r).covers k = s.covers k := by
  rw [Segment.closeAt]
  split_ifs with h
  · simp [Segment.covers, h.1, hr]
  · rfl

theorem covers_splitAt_eq {t : Nat} (ht : k < t) (depth : Nat) (s : Segment) :
    (s.splitAt t depth).covers k = s.covers k := by
  rw [Segment.splitAt, Segment.isOpen]
  split_ifs with h
  · simp [Segment.covers, Option.isNone_iff_eq_none.mp h, ht]
  · rfl

theorem filter_covers_map {f : Segment → Segment} (h : ∀ s, (f s).covers k = s.covers k) :
    (l.map f).filter (Segment.covers k) = (l.filter (Segment.covers k)).map f := by
  rw [List.filter_map]
  congr 1
  exact List.filter_congr fun s _ => h s

theorem filter_covers_of_le (hl : ∀ x ∈ l, k ≤ x.rangeStart) : l.filter (Segment.covers k) = [] :=
  List.filter_eq_nil_iff.mpr fun x hx => by simp [covers_of_le (hl x hx)]

theorem filter_closeSegments {r : Nat} (hr : k < r) (objHash : UInt32) :
    (closeSegments objHash r l).filter (Segment.covers k) =
      closeSegments objHash r (l.filter (Segment.covers k)) :=
  filter_covers_map (covers_closeAt hr objHash)

theorem filter_splitSegments {t : Nat} (ht : k < t) (depth : Nat) :
    (splitSegments t depth l).filter (Segment.covers k) =
      (l.filter (Segment.covers k)).map (Segment.splitAt t depth) := by
  rw [splitSegments, List.filter_append, filter_covers_map (covers_splitAt_eq ht depth),
    filter_covers_of_le (l := List.map (Segment.reopenAt t) _), List.append_nil]
  intro x hx
  obtain ⟨s, -, rfl⟩ := List.mem_map.mp hx
  exact Nat.le_of_lt ht

theorem filter_reviveSegments {r : Nat} (hr : k < r) (depth : Nat) :
    (reviveSegments r depth l).filter (Segment.covers k) = l.filter (Segment.covers k) := by
  rw [reviveSegments, List.filter_append,
    filter_covers_of_le (l := List.map (Segment.reopenAt r) _), List.append_nil]
  intro x hx
  obtain ⟨s, -, rfl⟩ := List.mem_map.mp hx
  exact Nat.le_of_lt hr

theorem Capped.not_open {tag : Option Bool} (h : Capped k tag l) :
    ∀ x ∈ l.filter (Segment.covers k), x.isOpen = false := by
  intro x hx
  obtain ⟨hm, hc⟩ := List.mem_filter.mp hx
  by_contra ho
  have := covers_of_le (h.1 x hm (by simpa using ho))
  simp [this] at hc

theorem closeAt_isOpen {objHash : UInt32} {r : Nat} {s : Segment}
    (h : (s.closeAt objHash r).isOpen = true) : s.closeAt objHash r = s := by
  rw [Segment.closeAt] at h ⊢
  split_ifs at h ⊢ with hc
  · simp [Segment.isOpen] at h
  · rfl

theorem splitAt_not_open (t depth : Nat) (s : Segment) : (s.splitAt t depth).isOpen = false := by
  rw [Segment.splitAt]
  split_ifs with h
  · simp [Segment.isOpen]
  · simpa using h

theorem open_of_mem_split {t depth : Nat} {x : Segment} (hx : x ∈ splitSegments t depth l)
    (ho : x.isOpen = true) : x.rangeStart = t := by
  rcases List.mem_append.mp hx with hx | hx
  · obtain ⟨s, -, rfl⟩ := List.mem_map.mp hx
    simp [splitAt_not_open] at ho
  · obtain ⟨s, -, rfl⟩ := List.mem_map.mp hx
    rfl

theorem Capped.closeSegments {tag : Option Bool} (h : Capped k tag l) {r : Nat} (hr : k < r)
    (objHash : UInt32) : Capped k tag (closeSegments objHash r l) := by
  refine ⟨fun x hx ho => ?_, ?_⟩
  · obtain ⟨s, hs, rfl⟩ := List.mem_map.mp hx
    have he := closeAt_isOpen ho
    rw [he] at ho ⊢
    exact h.1 s hs ho
  · rw [filter_closeSegments hr, closeSegments_of_closed h.not_open]
    exact h.2

theorem Capped.splitSegments {tag : Option Bool} (h : Capped k tag l) {t : Nat} (ht : k < t)
    (depth : Nat) : Capped k tag (splitSegments t depth l) := by
  refine ⟨fun x hx ho => ?_, ?_⟩
  · rw [open_of_mem_split hx ho]
    exact Nat.le_of_lt ht
  · have hm : (l.filter (Segment.covers k)).map (Segment.splitAt t depth) = l.filter (Segment.covers k) :=
      (List.map_congr_left fun x hx => by simp [Segment.splitAt, h.not_open x hx]).trans (List.map_id _)
    rw [filter_splitSegments ht, hm]
    exact h.2

theorem Capped.reviveSegments {tag : Option Bool} (h : Capped k tag l) {r : Nat} (hr : k < r)
    (depth : Nat) : Capped k tag (reviveSegments r depth l) := by
  refine ⟨fun x hx ho => ?_, ?_⟩
  · rcases List.mem_append.mp hx with hx | hx
    · exact h.1 x hx ho
    · obtain ⟨s, -, rfl⟩ := List.mem_map.mp hx
      exact Nat.le_of_lt hr
  · rw [filter_reviveSegments hr]
    exact h.2

variable {fp : List VarAccess} {n depth : Nat} {va : VarAccess}

theorem Capped.entry {tag : Option Bool} (h : Capped k tag l) (hn : k < n) :
    Capped k tag (entrySegments fp n depth va l) := by
  rw [entrySegments]
  split
  · cases va.usr with
    | none => exact h
    | some usr => exact h.closeSegments hn _
  · cases ht : startOfBranch fp n with
    | none => exact h
    | some t => exact h.splitSegments (by have := (firstThen_of_startOfBranch ht).le; omega) _
  · exact h.reviveSegments hn _
  · exact h

theorem Uncapped.release (h : Uncapped k l) {objHash : UInt32} (hobj : ∀ x ∈ l, x.objHash = objHash)
    (hn : k < n) : Capped k (some false) (closeSegments objHash n l) := by
  obtain ⟨s, hs, ho, hd⟩ := h
  have hmem : s ∈ l := (List.mem_filter.mp (hs ▸ List.mem_cons_self : s ∈ l.filter _)).1
  refine ⟨fun x hx hox => ?_, ?_⟩
  · obtain ⟨y, hy, rfl⟩ := List.mem_map.mp hx
    have hy' : y.rangeEnd = none ∧ y.objHash = objHash := by
      have he := closeAt_isOpen hox
      rw [he] at hox
      exact ⟨by simpa [Segment.isOpen] using hox, hobj y hy⟩
    simp [Segment.closeAt, hy', Segment.isOpen] at hox
  · rw [filter_closeSegments hn, hs]
    have he : s.closeAt objHash n = { s with rangeEnd := some n } := by
      simp only [Segment.isOpen, Option.isNone_iff_eq_none] at ho
      simp [Segment.closeAt, ho, hobj s hmem]
    simp [LockRanges.closeSegments, he, hd]

theorem Uncapped.branch (h : Uncapped k l) {t : Nat} (ht : k < t) {depth : Nat} (hdepth : sizeSucc depth ≠ 0) :
    Capped k (some true) (splitSegments t (sizeSucc depth) l) := by
  obtain ⟨s, hs, ho, hd⟩ := h
  refine ⟨fun x hx hox => ?_, ?_⟩
  · rw [open_of_mem_split hx hox]
    exact Nat.le_of_lt ht
  · rw [filter_splitSegments ht, hs]
    simp [Segment.splitAt, ho, hdepth]

theorem Uncapped.keep (h : Uncapped k l) {objHash : UInt32} (hobj : ∀ x ∈ l, x.objHash = objHash)
    (hn : k < n) (hif : va.type ≠ .ifStmt) (hrel : releases objHash va = false)
    (fp : List VarAccess) (depth : Nat) :
    Uncapped k (entrySegments fp n depth va l) := by
  rw [entrySegments]
  split
  · rename_i hty
    cases hu : va.usr with
    | none => exact h
    | some usr =>
        have hne : lockTrackingGenHash usr ≠ objHash := by simpa [releases, hty, hu] using hrel
        have hsame : closeSegments (lockTrackingGenHash usr) n l = l := closeSegments_of_ne (fun x hx => by
          rw [hobj x hx]
          exact hne.symm) n
        rw [Option.elim_some, hsame]
        exact h
  · rename_i hty
    exact absurd hty hif
  · obtain ⟨s, hs, ho, hd⟩ := h
    exact ⟨s, by rw [filter_reviveSegments hn, hs], ho, hd⟩
  · exact h

theorem After.step {objHash : UInt32} {seen : List VarAccess} {hold : Hold}
    (h : After k objHash seen hold l) (hobj : ∀ x ∈ l, x.objHash = objHash) (hn : k < n)
    (hstart : va.type = .ifStmt → (startOfBranch fp n).isSome)
    (hdepth : va.type = .ifStmt → sizeSucc depth ≠ 0) :
    After k objHash (seen ++ [va]) hold (entrySegments fp n depth va l) := by
  cases hold with
  | held =>
      rw [After] at h ⊢
      rw [List.find?_append]
      cases hf : seen.find? (fun va => va.type == .ifStmt || releases objHash va) with
      | some w =>
          simp only [hf] at h
          exact h.entry hn
      | none =>
          simp only [hf] at h
          by_cases hif : va.type = .ifStmt
          · obtain ⟨t, ht⟩ := Option.isSome_iff_exists.mp (hstart hif)
            have hlt : k < t := by have := (firstThen_of_startOfBranch ht).le; omega
            simpa [hif, entrySegments, ht] using h.branch hlt (hdepth hif)
          · by_cases hrel : releases objHash va = true
            · have hty : va.type = .lockRelease := by
                simp only [releases, Bool.and_eq_true, beq_iff_eq] at hrel
                exact hrel.1
              obtain ⟨usr, hu, hh⟩ : ∃ usr, va.usr = some usr ∧ lockTrackingGenHash usr = objHash := by
                simpa [releases, hty, Option.any_eq_true] using hrel
              have hne : (VarAccessType.lockRelease == .ifStmt) = false := rfl
              simpa [hrel, entrySegments, hty, hu, hh, hne] using h.release hobj hn
            · have hrel' : releases objHash va = false := by simpa using hrel
              simpa [hif, hrel'] using h.keep hobj hn hif hrel' fp depth
  | split => exact Capped.entry h hn
  | closing => exact Capped.entry h hn
  | closed => exact Capped.entry h hn

theorem After.tag {objHash : UInt32} {seen : List VarAccess} {hold : Hold}
    (h : After k objHash seen hold l) :
    (l.filter (Segment.covers k)).map (fun s => decide (s.depth ≠ 0)) =
      (tagOf objHash seen hold).toList := by
  cases hold with
  | held =>
      rw [After] at h
      rw [tagOf, branchesFirst]
      cases hf : seen.find? (fun va => va.type == .ifStmt || releases objHash va) with
      | none =>
          simp only [hf] at h
          obtain ⟨s, hs, -, hd⟩ := h
          simp [hs, hd]
      | some va =>
          simp only [hf] at h
          exact h.2
  | split => exact h.2
  | closing => exact h.2
  | closed => exact h.2

/-- At `k` itself, an entry that opens no branch, the covering range is known. -/
theorem Before.after {hold : Hold} (h : Before fp k hold l) (hva : fp[k]? = some va)
    (hty : va.type ≠ .thenBlock) (objHash : UInt32) : After k objHash [] hold l := by
  have hlt {t : Nat} (ht : FirstThen fp k t) : k < t := by
    apply Nat.lt_of_le_of_ne ht.le
    rintro rfl
    obtain ⟨w, hw, hwt⟩ := ht.marked
    rw [hva, Option.some.injEq] at hw
    exact hty (hw ▸ hwt)
  have hnil {pre : List Segment} (hp : ∀ x ∈ pre, Past k x) : pre.filter (Segment.covers k) = [] :=
    List.filter_eq_nil_iff.mpr fun x hx => by simp [(hp x hx).not_covers (Nat.le_refl k)]
  cases h with
  | @held pre tail hp hs he hd =>
      refine ⟨tail, ?_, by simp [Segment.isOpen, he], hd⟩
      rw [List.filter_append, hnil hp]
      simp [Segment.covers, hs, he]
  | @split pre tail t s ht hp hd' hc hs he hd =>
      refine ⟨fun x hx ho => ?_, ?_⟩
      · rcases List.mem_append.mp hx with hx | hx
        · simp [(hp x hx).not_open] at ho
        · rw [List.mem_singleton.mp hx, hs]
          exact ht.le
      · rw [List.filter_append, hc k (Nat.le_refl k) (hlt ht), List.filter_singleton,
          covers_of_le (hs ▸ ht.le)]
        simp [hd']
  | @closing pre tail t s ht hp hd' hc hs he hd =>
      refine ⟨fun x hx ho => ?_, ?_⟩
      · rcases List.mem_append.mp hx with hx | hx
        · simp [(hp x hx).not_open] at ho
        · rw [List.mem_singleton.mp hx, hs]
          exact ht.le
      · rw [List.filter_append, hc k (Nat.le_refl k) (hlt ht), List.filter_singleton,
          covers_of_le (hs ▸ ht.le)]
        simp [hd']
  | @closed pre tail hp he hd =>
      refine ⟨fun x hx ho => ?_, ?_⟩
      · rcases List.mem_append.mp hx with hx | hx
        · simp [(hp x hx).not_open] at ho
        · simp [List.mem_singleton.mp hx, he.not_open] at ho
      · rw [List.filter_append, hnil hp]
        simp [he.not_covers (Nat.le_refl k)]

end Cover

end Prongc.LockReach
