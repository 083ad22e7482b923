import Prongc.Library.Separator
import Prongc.LockPairs

namespace Prongc.LockPairFormat

open Access ParseCall LockPairs Library.Separator

def isName (text : List Char) : Bool := !text.isEmpty && text.all isLockNameChar

def IsPair (str : String) (pair : LockPrimitivePair) : Prop :=
  str.toList = pair.lockFunc.toList ++ ':' :: pair.unlockFunc.toList ∧
    isName pair.lockFunc.toList = true ∧ isName pair.unlockFunc.toList = true

/-- The strings are accepted exactly if each of them is a pair, and then the slots hold these pairs. -/
structure AcceptsFormat (uninitialised : Nat → Option String) (strings : List String) : Prop where
  accepted_iff : (∃ pairs, aosToLockPairArray uninitialised strings = .ok pairs) ↔
    ∀ str ∈ strings, ∃ pair, IsPair str pair
  pairs : ∀ pairs, aosToLockPairArray uninitialised strings = .ok pairs → List.Forall₂ IsPair strings pairs
  colon : ∀ str ∈ strings, ':' ∉ str.toList → ∀ pairs, aosToLockPairArray uninitialised strings ≠ .ok pairs

/-- What the scan turns down: a character of no name in front of the first colon, or no colon while
the slot happens to hold NULL. -/
def TurnedDown (uninitialised : Option String) (str : String) : Prop :=
  (∃ c ∈ str.toList.takeWhile (· ≠ ':'), isLockNameChar c = false) ∨
    (':' ∉ str.toList ∧ uninitialised = none)

theorem takeWhile_colon {lockFunc : List Char} (h : lockFunc.all isLockNameChar = true) (unlockFunc : List Char) :
    (lockFunc ++ ':' :: unlockFunc).takeWhile isLockNameChar = lockFunc ∧
      (lockFunc ++ ':' :: unlockFunc).dropWhile isLockNameChar = ':' :: unlockFunc := by
  have hname : ∀ c ∈ lockFunc, isLockNameChar c = true := List.all_eq_true.mp h
  rw [List.takeWhile_append_of_pos hname, List.dropWhile_append_of_pos hname,
    List.takeWhile_cons_of_neg (by decide), List.dropWhile_cons_of_neg (by decide), List.append_nil]
  exact ⟨rfl, rfl⟩

theorem not_mem_name {text : List Char} (h : text.all isLockNameChar = true) : ':' ∉ text := by
  intro hcolon
  have := List.all_eq_true.mp h _ hcolon
  revert this
  decide

theorem splitLockPair_name {text : List Char} (h : text.all isLockNameChar = true) :
    splitLockPair text = .ok (text, none) := by
  rw [splitLockPair, List.dropWhile_eq_nil_iff.mpr (List.all_eq_true.mp h)]

theorem splitLockPair_colon {lockFunc : List Char} (h : lockFunc.all isLockNameChar = true)
    (unlockFunc : List Char) : splitLockPair (lockFunc ++ ':' :: unlockFunc) = .ok (lockFunc, some unlockFunc) := by
  obtain ⟨htake, hdrop⟩ := takeWhile_colon h unlockFunc
  rw [splitLockPair, hdrop, htake]
  rfl

theorem splitLockPair_cases (text : List Char) : text.all isLockNameChar = true ∨
    (∃ lockFunc unlockFunc, lockFunc.all isLockNameChar = true ∧ text = lockFunc ++ ':' :: unlockFunc) ∨
      splitLockPair text = .error .syntaxError := by
  rw [splitLockPair]
  split
  next hall =>
    left
    rw [List.all_eq_true]
    exact List.dropWhile_eq_nil_iff.mp hall
  next c unlockFunc hrest =>
    right
    by_cases hcolon : c = ':'
    · left
      refine ⟨text.takeWhile isLockNameChar, unlockFunc, List.all_takeWhile, ?_⟩
      rw [← hcolon, ← hrest, List.takeWhile_append_dropWhile]
    · right
      rw [if_neg hcolon]

theorem toLockPair_name {str : String} (h : str.toList.all isLockNameChar = true)
    (uninitialised : Option String) : toLockPair uninitialised str =
      match uninitialised with
      | some unlockFunc => .ok ⟨str, unlockFunc⟩
      | none => .error .syntaxError := by
  rw [toLockPair, splitLockPair_name h]
  cases uninitialised with
  | none => rfl
  | some unlockFunc =>
      change Except.ok (LockPrimitivePair.mk (String.ofList str.toList) unlockFunc) = _
      rw [String.ofList_toList]

theorem toLockPair_colon {str : String} {lockFunc unlockFunc : List Char}
    (h : lockFunc.all isLockNameChar = true) (hstr : str.toList = lockFunc ++ ':' :: unlockFunc)
    (uninitialised : Option String) :
    toLockPair uninitialised str = .ok ⟨String.ofList lockFunc, String.ofList unlockFunc⟩ := by
  rw [toLockPair, hstr, splitLockPair_colon h]
  rfl

/-- Only the part in front of the first colon is checked. -/
theorem toLockPair_ok_iff {uninitialised : Option String} {str : String} {pair : LockPrimitivePair} :
    toLockPair uninitialised str = .ok pair ↔
      (pair.lockFunc.toList.all isLockNameChar = true ∧
        str.toList = pair.lockFunc.toList ++ ':' :: pair.unlockFunc.toList) ∨
      (str.toList.all isLockNameChar = true ∧ pair.lockFunc = str ∧ uninitialised = some pair.unlockFunc) := by
  constructor
  · intro h
    rcases splitLockPair_cases str.toList with hall | ⟨lockFunc, unlockFunc, hlock, hstr⟩ | herror
    · rw [toLockPair_name hall] at h
      cases uninitialised with
      | none => cases h
      | some unlockFunc =>
          obtain rfl := Except.ok.inj h
          exact .inr ⟨hall, rfl, rfl⟩
    · rw [toLockPair_colon hlock hstr] at h
      obtain rfl := Except.ok.inj h
      simp only [String.toList_ofList]
      exact .inl ⟨hlock, hstr⟩
    · rw [toLockPair, herror] at h
      cases h
  · rintro (⟨hlock, hstr⟩ | ⟨hall, rfl, rfl⟩)
    · rw [toLockPair_colon hlock hstr, String.ofList_toList, String.ofList_toList]
    · rw [toLockPair_name hall]

theorem toLockPair_of_isPair {str : String} {pair : LockPrimitivePair} (h : IsPair str pair)
    (uninitialised : Option String) : toLockPair uninitialised str = .ok pair := by
  obtain ⟨hstr, hlock, -⟩ := h
  exact toLockPair_ok_iff.mpr (.inl ⟨((Bool.and_eq_true _ _).mp hlock).2, hstr⟩)

theorem mapM_ok_iff {α β ε : Type} {f : α → Except ε β} {as : List α} {bs : List β} :
    as.mapM f = .ok bs ↔ List.Forall₂ (fun a b => f a = .ok b) as bs := by
  induction as generalizing bs with
  | nil =>
      rw [List.mapM_nil, List.forall₂_nil_left_iff]
      exact ⟨fun h => (Except.ok.inj h).symm, fun h => h ▸ rfl⟩
  | cons a as ih =>
      rw [List.mapM_cons, List.forall₂_cons_left_iff]
      cases hfa : f a with
      | error e =>
          constructor
          · intro h
            cases h
          · rintro ⟨b, bs', hb, -⟩
            cases hb
      | ok b =>
          constructor
          · intro h
            cases hrest : as.mapM f with
            | error e =>
                rw [hrest] at h
                cases h
            | ok bs' =>
                rw [hrest] at h
                exact ⟨b, bs', rfl, ih.mp hrest, (Except.ok.inj h).symm⟩
          · rintro ⟨b', bs', hb, hrest, rfl⟩
            obtain rfl := Except.ok.inj hb
            rw [ih.mpr hrest]
            rfl

theorem turnedDown_iff (uninitialised : Option String) (str : String) :
    TurnedDown uninitialised str ↔ ∀ pair, toLockPair uninitialised str ≠ .ok pair := by
  constructor
  · rintro hdown pair hok
    rcases toLockPair_ok_iff.mp hok with ⟨hlock, hstr⟩ | ⟨hall, -, hslot⟩
    · rcases hdown with ⟨c, hc, hbad⟩ | ⟨hnone, -⟩
      · rw [hstr, (takeWhile_of_not_mem (not_mem_name hlock) _).1] at hc
        rw [List.all_eq_true.mp hlock c hc] at hbad
        cases hbad
      · rw [hstr] at hnone
        exact hnone (List.mem_append_right _ List.mem_cons_self)
    · rcases hdown with ⟨c, hc, hbad⟩ | ⟨-, hnull⟩
      · rw [List.all_eq_true.mp hall c (List.takeWhile_subset _ hc)] at hbad
        cases hbad
      · rw [hnull] at hslot
        cases hslot
  · intro hnone
    by_contra hdown
    obtain ⟨hfront, hrest⟩ := not_or.mp hdown
    have hname : (str.toList.takeWhile (· ≠ ':')).all isLockNameChar = true := by
      rw [List.all_eq_true]
      intro c hc
      by_contra hbad
      exact hfront ⟨c, hc, by simpa using hbad⟩
    by_cases hcolon : ':' ∈ str.toList
    · obtain ⟨lockFunc, unlockFunc, hsplit, hfirst⟩ := List.eq_append_cons_of_mem hcolon
      rw [hsplit, (takeWhile_of_not_mem hfirst _).1] at hname
      exact hnone _ (toLockPair_colon hname hsplit uninitialised)
    · rw [takeWhile_eq_self hcolon] at hname
      obtain ⟨unlockFunc, hslot⟩ := Option.ne_none_iff_exists'.mp fun hnull => hrest ⟨hcolon, hnull⟩
      rw [toLockPair_name hname, hslot] at hnone
      exact hnone _ rfl

variable {uninitialised : Nat → Option String} {strings : List String}

theorem accepted_cases (uninitialised : Nat → Option String) (strings : List String) :
    (∃ pairs, aosToLockPairArray uninitialised strings = .ok pairs) ∨
      ∃ x ∈ strings.zipIdx, TurnedDown (uninitialised x.2) x.1 := by
  rw [aosToLockPairArray]
  generalize strings.zipIdx = slots
  induction slots with
  | nil => exact .inl ⟨[], rfl⟩
  | cons x slots ih =>
      rcases ih with ⟨pairs, hpairs⟩ | ⟨y, hy, hdown⟩
      · by_cases hdown : TurnedDown (uninitialised x.2) x.1
        · exact .inr ⟨x, List.mem_cons_self, hdown⟩
        · rw [turnedDown_iff, not_forall] at hdown
          obtain ⟨pair, hpair⟩ := hdown
          refine .inl ⟨pair :: pairs, mapM_ok_iff.mpr (.cons ?_ (mapM_ok_iff.mp hpairs))⟩
          exact not_not.mp hpair
      · exact .inr ⟨y, List.mem_cons_of_mem _ hy, hdown⟩

theorem not_accepted_of_turnedDown {x : String × Nat} (hx : x ∈ strings.zipIdx)
    (hdown : TurnedDown (uninitialised x.2) x.1) (pairs : List LockPrimitivePair) :
    aosToLockPairArray uninitialised strings ≠ .ok pairs := by
  intro hok
  obtain ⟨i, hi, rfl⟩ := List.mem_iff_getElem.mp hx
  have hpairs := mapM_ok_iff.mp hok
  exact (turnedDown_iff _ _).mp hdown _ ((List.forall₂_iff_get.mp hpairs).2 i hi (hpairs.length_eq ▸ hi))

theorem pairs_of_wellFormed (hall : ∀ str ∈ strings, ∃ pair, IsPair str pair) {pairs : List LockPrimitivePair}
    (hok : aosToLockPairArray uninitialised strings = .ok pairs) : List.Forall₂ IsPair strings pairs := by
  have hslots : ∀ x ∈ strings.zipIdx, ∃ pair, IsPair x.1 pair := fun x hx =>
    hall x.1 (List.fst_mem_of_mem_zipIdx hx)
  have hexact : List.Forall₂ (fun (x : String × Nat) pair => IsPair x.1 pair) strings.zipIdx pairs := by
    apply ((List.forall₂_and_left _ _).mpr ⟨hslots, mapM_ok_iff.mp hok⟩).imp
    rintro x pair ⟨⟨pair', hpair'⟩, hpair⟩
    have heq := Except.ok.inj ((toLockPair_of_isPair hpair' (uninitialised x.2)).symm.trans hpair)
    exact heq ▸ hpair'
  rw [← @List.zipIdx_map_fst String 0 strings]
  exact List.forall₂_map_left_iff.mpr hexact

/-- The format is what is accepted exactly if all strings are well formed, or some string is turned down. -/
theorem acceptsFormat_iff (uninitialised : Nat → Option String) (strings : List String) :
    AcceptsFormat uninitialised strings ↔
      (∀ str ∈ strings, ∃ pair, IsPair str pair) ∨
        ∃ x ∈ strings.zipIdx, TurnedDown (uninitialised x.2) x.1 := by
  have hcolon : ∀ str, ':' ∉ str.toList → ¬ ∃ pair, IsPair str pair := by
    rintro str hnone ⟨pair, hstr, -⟩
    rw [hstr] at hnone
    exact hnone (List.mem_append_right _ List.mem_cons_self)
  constructor
  · intro h
    rcases accepted_cases uninitialised strings with hok | hdown
    · exact .inl (h.accepted_iff.mp hok)
    · exact .inr hdown
  · rintro (hall | ⟨x, hx, hdown⟩)
    · refine ⟨⟨fun _ => hall, fun _ => ?_⟩, fun pairs => pairs_of_wellFormed hall,
        fun str hstr hnone => absurd (hall str hstr) (hcolon str hnone)⟩
      rcases accepted_cases uninitialised strings with hok | ⟨x, hx, hdown⟩
      · exact hok
      · obtain ⟨pair, hpair⟩ := hall x.1 (List.fst_mem_of_mem_zipIdx hx)
        exact absurd (toLockPair_of_isPair hpair _) ((turnedDown_iff _ _).mp hdown pair)
    · have hnone := not_accepted_of_turnedDown hx hdown
      refine ⟨⟨fun ⟨pairs, hok⟩ => absurd hok (hnone pairs), fun hall => ?_⟩,
        fun pairs hok => absurd hok (hnone pairs), fun _ _ _ => hnone⟩
      obtain ⟨pair, hpair⟩ := hall x.1 (List.fst_mem_of_mem_zipIdx hx)
      exact absurd (toLockPair_of_isPair hpair _) ((turnedDown_iff _ _).mp hdown pair)

/-- A lock function without an unlock function is accepted. -/
theorem noUnlockFunc_accepted : aosToLockPairArray (fun _ => none) ["take_it:"] = .ok [⟨"take_it", ""⟩] ∧
    ¬ ∃ pair, IsPair "take_it:" pair := by
  refine ⟨rfl, ?_⟩
  rintro ⟨pair, hpair⟩
  have hsplit := toLockPair_of_isPair hpair none
  have heq : pair = ⟨"take_it", ""⟩ := (Except.ok.inj hsplit).symm
  have hunlock := hpair.2.2
  rw [heq] at hunlock
  cases hunlock

end Prongc.LockPairFormat
