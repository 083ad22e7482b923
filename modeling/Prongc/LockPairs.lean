import Prongc.UnwindFrame

namespace Prongc.LockPairs

open Access Ast ParseCall LockTracking WalkFunc Unwind UnwindFrame Library.Traversal

def isLockNameChar (c : Char) : Bool := c.isAlphanum || c == '_'

/-- The lock function up to the first colon, and the unlock function behind it if there is a colon.
Before the colon only characters of names are accepted. -/
def splitLockPair (text : List Char) : Except ProngError (List Char × Option (List Char)) :=
  match text.dropWhile isLockNameChar with
  | [] => .ok (text, none)
  | c :: unlockFunc =>
      if c = ':' then .ok (text.takeWhile isLockNameChar, some unlockFunc) else .error .syntaxError

/-- Without a colon the unlock function is what the memory of the new array happens to hold. -/
def toLockPair (uninitialised : Option String) (str : String) : Except ProngError LockPrimitivePair := do
  let (lockFunc, unlockFunc) ← splitLockPair str.toList
  match (unlockFunc.map String.ofList).or uninitialised with
  | some unlockFunc => .ok ⟨String.ofList lockFunc, unlockFunc⟩
  | none => .error .syntaxError

def aosToLockPairArray (uninitialised : Nat → Option String) (strings : List String) :
    Except ProngError (List LockPrimitivePair) :=
  strings.zipIdx.mapM fun (str, i) => toLockPair (uninitialised i) str

def lockPairArray (uninitialised : Nat → Option String) (lockPairs : List String) :
    Except ProngError (List LockPrimitivePair) := do
  let userPairs ← aosToLockPairArray uninitialised lockPairs
  return userPairs ++ defaultLockPairs

example : aosToLockPairArray (fun _ => none) ["take_it:drop_it", "mutex_lock:my_unlock"] =
    .ok [⟨"take_it", "drop_it"⟩, ⟨"mutex_lock", "my_unlock"⟩] := by rfl

def IsLockFunc (pairs : List LockPrimitivePair) (name : String) : Prop :=
  ∃ pair ∈ pairs, pair.lockFunc = name

def IsUnlockFunc (pairs : List LockPrimitivePair) (name : String) : Prop :=
  ∃ pair ∈ pairs, pair.unlockFunc = name

instance (pairs : List LockPrimitivePair) (name : String) : Decidable (IsLockFunc pairs name) :=
  inferInstanceAs (Decidable (∃ pair ∈ pairs, pair.lockFunc = name))

instance (pairs : List LockPrimitivePair) (name : String) : Decidable (IsUnlockFunc pairs name) :=
  inferInstanceAs (Decidable (∃ pair ∈ pairs, pair.unlockFunc = name))

def MarkedBy (pairs : List LockPrimitivePair) (name : String) (type : VarAccessType) : Prop :=
  (type = .lockAcquire ↔ IsLockFunc pairs name) ∧
    (type = .lockRelease ↔ IsUnlockFunc pairs name ∧ ¬ IsLockFunc pairs name)

def entryAt (root : FuncInfo) (path : List Nat) (j : Nat) : Option VarAccess :=
  (root.subtreeAt path).bind fun func => func.label.varAccesses[j]?

def NamesDisjoint (pairs : List LockPrimitivePair) : Prop :=
  ∀ p ∈ pairs, ∀ q ∈ pairs, p.lockFunc ≠ q.unlockFunc

theorem defaultLockPairs_namesDisjoint : NamesDisjoint defaultLockPairs := by
  rw [NamesDisjoint]
  decide +kernel

theorem NamesDisjoint.tail {pair : LockPrimitivePair} {pairs : List LockPrimitivePair}
    (h : NamesDisjoint (pair :: pairs)) : NamesDisjoint pairs :=
  fun p hp q hq => h p (List.mem_cons_of_mem _ hp) q (List.mem_cons_of_mem _ hq)

theorem isLockFunc_append (pairs pairs' : List LockPrimitivePair) (name : String) :
    IsLockFunc (pairs ++ pairs') name ↔ IsLockFunc pairs name ∨ IsLockFunc pairs' name := by
  simp only [IsLockFunc, List.mem_append, or_and_right, exists_or]

theorem isUnlockFunc_append (pairs pairs' : List LockPrimitivePair) (name : String) :
    IsUnlockFunc (pairs ++ pairs') name ↔ IsUnlockFunc pairs name ∨ IsUnlockFunc pairs' name := by
  simp only [IsUnlockFunc, List.mem_append, or_and_right, exists_or]

/-- Over a table with disjoint names the first match decides nothing that the table leaves open. -/
theorem lockPrimitiveTypeIn_markedBy {pairs : List LockPrimitivePair} (h : NamesDisjoint pairs)
    (name : String) :
    (lockPrimitiveTypeIn pairs name = .lockAcquire ↔ IsLockFunc pairs name) ∧
      (lockPrimitiveTypeIn pairs name = .lockRelease ↔ IsUnlockFunc pairs name) := by
  induction pairs with
  | nil => simp [lockPrimitiveTypeIn, IsLockFunc, IsUnlockFunc]
  | cons pair pairs ih =>
      have ih := ih h.tail
      have hlock : IsLockFunc (pair :: pairs) name ↔ name = pair.lockFunc ∨ IsLockFunc pairs name := by
        simp [IsLockFunc, eq_comm]
      have hunlock : IsUnlockFunc (pair :: pairs) name ↔
          name = pair.unlockFunc ∨ IsUnlockFunc pairs name := by
        simp [IsUnlockFunc, eq_comm]
      rw [lockPrimitiveTypeIn, hlock, hunlock]
      split
      next heq =>
        have hnot : ¬ (name = pair.unlockFunc ∨ IsUnlockFunc pairs name) := by
          rw [← hunlock]
          rintro ⟨q, hq, hname⟩
          exact h pair List.mem_cons_self q hq (heq.symm.trans hname.symm)
        exact ⟨iff_of_true rfl (.inl heq), iff_of_false VarAccessType.noConfusion hnot⟩
      next hne =>
        split
        next heq =>
          have hnot : ¬ (name = pair.lockFunc ∨ IsLockFunc pairs name) := by
            rw [← hlock]
            rintro ⟨q, hq, hname⟩
            exact h q hq pair List.mem_cons_self (hname.trans heq)
          exact ⟨iff_of_false VarAccessType.noConfusion hnot, iff_of_true rfl (.inl heq)⟩
        next hne' => simpa [hne, hne'] using ih

theorem default_not_both (name : String) :
    ¬ (IsLockFunc defaultLockPairs name ∧ IsUnlockFunc defaultLockPairs name) := by
  rintro ⟨⟨p, hp, hlock⟩, q, hq, hunlock⟩
  exact defaultLockPairs_namesDisjoint p hp q hq (hlock.trans hunlock.symm)

theorem markVarAccess_lockType {func : FuncData} {va : VarAccess} {name : String}
    (hrecorded : va.type.isAccess = true) (hname : va.escFuncSpelling = some name)
    (hidx : va.escParamIdx = 0) :
    ((markVarAccess func va).type = .lockAcquire ↔ lockPrimitiveType name = .lockAcquire) ∧
      ((markVarAccess func va).type = .lockRelease ↔ lockPrimitiveType name = .lockRelease) := by
  have harg : lockArgumentType va = lockPrimitiveType name := by
    simp only [lockArgumentType, hname, hidx, if_true]
  rw [markVarAccess]
  rw [harg]
  split
  next => exact ⟨Iff.rfl, Iff.rfl⟩
  next hnull =>
    rw [not_not.mp hnull]
    grind [VarAccess.nullify_type, VarAccessType.isAccess]

theorem entryAt_unwound {parsed : Option (List String)} {root : FuncInfo} {path : List Nat} {j : Nat}
    {va : VarAccess} (hunwound : Unwound root path) (hentry : entryAt root path j = some va) :
    ∃ func usr, entryAt (unwindFuncInfo parsed root) path j =
      some (markVarAccess func { va with usr := usr }) := by
  obtain ⟨func, hat, hva⟩ := Option.bind_eq_some_iff.mp hentry
  obtain ⟨vas, func', hvas, hat', hfunc'⟩ := unwindFuncInfo_subtreeAt parsed hunwound hat
  obtain ⟨va', hva'⟩ : ∃ va', vas[j]? = some va' := by
    have hj := List.getElem?_eq_some_iff.mp hva
    exact ⟨_, List.getElem?_eq_getElem (hvas.length_eq ▸ hj.1)⟩
  obtain ⟨usr, rfl⟩ := forall₂_getElem? hvas hva hva'
  refine ⟨func.label, usr, ?_⟩
  rw [entryAt, hat', Option.bind_some, hfunc', List.getElem?_map, hva', Option.map_some]

/-- In what way the default marking of a name differs from the marking by the whole table. -/
theorem default_markedBy_iff (userPairs : List LockPrimitivePair) (name : String)
    (type : VarAccessType) (hlock : type = .lockAcquire ↔ lockPrimitiveType name = .lockAcquire)
    (hunlock : type = .lockRelease ↔ lockPrimitiveType name = .lockRelease) :
    MarkedBy (userPairs ++ defaultLockPairs) name type ↔
      (IsLockFunc userPairs name → IsLockFunc defaultLockPairs name) ∧
        (IsUnlockFunc userPairs name → IsLockFunc userPairs name ∨
          IsLockFunc defaultLockPairs name ∨ IsUnlockFunc defaultLockPairs name) := by
  obtain ⟨hacquire, hrelease⟩ := lockPrimitiveTypeIn_markedBy defaultLockPairs_namesDisjoint name
  have hboth := default_not_both name
  rw [MarkedBy]
  rw [hlock, hunlock, lockPrimitiveType, hacquire, hrelease, isLockFunc_append, isUnlockFunc_append]
  -- by default the name locks, unlocks or does neither
  by_cases hlocks : IsLockFunc defaultLockPairs name
  · have hunlocks : ¬ IsUnlockFunc defaultLockPairs name := fun h => hboth ⟨hlocks, h⟩
    simp [hlocks, hunlocks]
  · by_cases hunlocks : IsUnlockFunc defaultLockPairs name
    · simp [hlocks, hunlocks]
    · by_cases huser : IsLockFunc userPairs name <;> simp [hlocks, hunlocks, huser]

/-- The first argument of a call is marked as the whole table says exactly if a name that the user
gives as a lock function is one by default, and one given as an unlock function is a lock function
of the user or by default, or unlocks by default. -/
theorem user_pairs_marked_iff {uninitialised : Nat → Option String} {lockPairs : List String}
    {userPairs table : List LockPrimitivePair}
    (haccepted : aosToLockPairArray uninitialised lockPairs = .ok userPairs)
    (htable : lockPairArray uninitialised lockPairs = .ok table) {parsed : Option (List String)}
    {root : FuncInfo} {path : List Nat} {j : Nat} {va : VarAccess} {name : String}
    (hunwound : Unwound root path) (hentry : entryAt root path j = some va)
    (hrecorded : va.type.isAccess = true) (hname : va.escFuncSpelling = some name)
    (hidx : va.escParamIdx = 0) :
    ∃ va', entryAt (unwindFuncInfo parsed root) path j = some va' ∧
      (MarkedBy table name va'.type ↔
        (IsLockFunc userPairs name → IsLockFunc defaultLockPairs name) ∧
          (IsUnlockFunc userPairs name → IsLockFunc userPairs name ∨
            IsLockFunc defaultLockPairs name ∨ IsUnlockFunc defaultLockPairs name)) := by
  obtain rfl : table = userPairs ++ defaultLockPairs := by
    rw [lockPairArray, haccepted] at htable
    exact (Except.ok.inj htable).symm
  obtain ⟨func, usr, hentry'⟩ := @entryAt_unwound parsed root path j va hunwound hentry
  obtain ⟨hlock, hunlock⟩ := @markVarAccess_lockType func { va with usr := usr } name hrecorded hname hidx
  exact ⟨_, hentry', default_markedBy_iff userPairs name _ hlock hunlock⟩

/-- void f() { take_it(&m); } as the walk leaves it. -/
def taker : FuncInfo :=
  .node
    { cursor := .node { id := 1, kind := .functionDecl } []
      usr := "c:@F@f"
      name := "f()"
      spelling := "f"
      params := []
      locals := []
      varAccesses :=
        [initVarAccess none none (some "take_it") (some "c:@F@take_it") "f" noIdx 0 0 .call false,
         initVarAccess (some "c:@m") (some "m") (some "take_it") (some "c:@F@take_it") "f" 0 1 9 .escape false]
      inSystemHeader := false
      hasDefinition := true }
    [initFuncInfo (.node { id := 2, kind := .functionDecl } []) "c:@F@take_it" "take_it(int *)" "take_it" false false]

def takerEntry : VarAccess :=
  initVarAccess (some "c:@m") (some "m") (some "take_it") (some "c:@F@take_it") "f" 0 1 9 .escape false

theorem taker_unwound : Unwound taker [] := by
  intro above habove func hfunc
  obtain rfl := List.prefix_nil.mp habove
  obtain rfl := Option.some.inj hfunc
  rfl

theorem take_it_marked_iff : ∃ va', entryAt (unwindFuncInfo (some []) taker) [] 1 = some va' ∧
    (MarkedBy (⟨"take_it", "drop_it"⟩ :: defaultLockPairs) "take_it" va'.type ↔
      (IsLockFunc [⟨"take_it", "drop_it"⟩] "take_it" → IsLockFunc defaultLockPairs "take_it") ∧
        (IsUnlockFunc [⟨"take_it", "drop_it"⟩] "take_it" → IsLockFunc [⟨"take_it", "drop_it"⟩] "take_it" ∨
          IsLockFunc defaultLockPairs "take_it" ∨ IsUnlockFunc defaultLockPairs "take_it")) :=
  @user_pairs_marked_iff (fun _ => none) ["take_it:drop_it"] _ _ rfl rfl (some []) taker [] 1 takerEntry
    "take_it" taker_unwound rfl rfl rfl rfl

theorem take_it_unmarked : ∃ userPairs, aosToLockPairArray (fun _ => none) ["take_it:drop_it"] = .ok userPairs ∧
    ∃ table, lockPairArray (fun _ => none) ["take_it:drop_it"] = .ok table ∧
      ∃ va', entryAt (unwindFuncInfo (some []) taker) [] 1 = some va' ∧ ¬ MarkedBy table "take_it" va'.type := by
  refine ⟨_, rfl, _, rfl, _, rfl, ?_⟩
  rintro ⟨hlock, -⟩
  have htype := hlock.mpr ⟨_, List.mem_cons_self, rfl⟩
  revert htype
  decide +kernel

end Prongc.LockPairs
