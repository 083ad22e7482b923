import Prongc.MemberPaths
import Prongc.PrivateObjects
import Prongc.WalkAst

namespace Prongc.ArgumentBinding

open Access Ast DeclRef WalkFunc ParseCall WalkAst Callbacks Recursion Unwind ArtificialUsr PrivateObjects
  Library.CStrings Library.Traversal

def declaredParams (func : Cursor) : List String := (arguments func).map fun c => c.label.usr

def isParam (c : Cursor) : Bool := isOfKind .parmDecl c && c.label.linkage == .noLinkage

/-- The USRs of the parameters that a walk of the function meets, also of those that a parameter or a
declaration in the body has of its own. -/
def collectedParams (func : Cursor) : List String :=
  ((descendants func).filter fun v => isParam v.node).map fun v => v.node.label.usr

def argumentUsr (arg : String) : String := text (namePart (ascii arg))

/-- In the buffer for the argument the text of the USR from its first "::" on ends up as the suffix. -/
def KeepsSuffix (arg usr suffix : String) : Prop :=
  strlen (argumentUsr arg) ≤ 63 + strlen arg ∧
    text (((fieldAccess (ascii usr)).getD []).take (63 + strlen arg - strlen (argumentUsr arg))) = suffix

instance (arg usr suffix : String) : Decidable (KeepsSuffix arg usr suffix) :=
  inferInstanceAs (Decidable (_ ∧ _))

/-- The arguments that a USR takes one after another: that of the first parameter it starts with, then that
of every later parameter whose own USR is so short that an artificial one starts with it. -/
def taken (bindings : List (String × String)) (usr : String) : List String :=
  match bindings.dropWhile fun x => !startsWith usr x.1 with
  | [] => []
  | x :: later => x.2 :: (later.filter fun y => startsWith "p:" y.1).map Prod.snd

def renamed (args : List String) (usr : String) : String :=
  args.foldl (fun usr arg => generateArtificialParamUsr arg usr) usr

/-- The argument is the last one that the USR takes, and the suffix is kept up to it. -/
def BindsTo (bindings : List (String × String)) (arg usr suffix : String) : Prop :=
  ∃ earlier own, taken bindings usr = earlier ++ [own] ∧ ascii own = ascii arg ∧
    KeepsSuffix arg (renamed earlier usr) suffix

section Usrs

theorem text_eq_append_iff {b a : List UInt8} {s : String} :
    text b = text a ++ s ↔ ∃ t, b = a ++ t ∧ text t = s := by
  constructor
  · intro h
    have hchars : chars b = chars a ++ s.toList := by
      have hlist := congrArg String.toList h
      rwa [String.toList_append, text, text, String.toList_ofList, String.toList_ofList] at hlist
    obtain ⟨a', t, rfl, ha, ht⟩ := List.map_eq_append_iff.mp hchars
    have heq : a' = a := by
      have hbytes := congrArg (List.map Char.toUInt8) ha
      rw [map_toUInt8_chars] at hbytes
      exact Eq.trans (map_toUInt8_chars a').symm hbytes
    exact ⟨t, by rw [heq], by rw [text, chars, ht, String.ofList_toList]⟩
  · rintro ⟨t, rfl, rfl⟩
    exact text_append a t

theorem generate_eq {own : String} (hown : own ≠ "") (usr : String) : generateArtificialParamUsr own usr =
    text ((namePart (ascii own) ++ (fieldAccess (ascii usr)).getD []).take (63 + strlen own)) := by
  have hlength : 0 < (ascii own).length := by
    rw [List.length_pos_iff, Ne, ascii, List.map_eq_nil_iff, String.toList_eq_nil_iff]
    exact hown
  have hbuffer : 64 + (ascii own).length - 1 = 63 + strlen own := by
    rw [strlen]
    omega
  rw [generateArtificialParamUsr, generateBytes, if_pos hlength, snprintf, hbuffer]

/-- What is generated for an argument is an argument's USR with a suffix only if the two arguments are the
same and the suffix is kept. -/
theorem generate_eq_iff {own arg usr suffix : String} (hown : own ≠ "") :
    generateArtificialParamUsr own usr = argumentUsr arg ++ suffix ↔
      ascii own = ascii arg ∧ KeepsSuffix arg usr suffix := by
  rw [generate_eq hown, argumentUsr, text_eq_append_iff]
  simp only [KeepsSuffix, argumentUsr, strlen, ascii_text]
  generalize (fieldAccess (ascii usr)).getD [] = path
  constructor
  · rintro ⟨t, ht, hsuffix⟩
    have hwhole : namePart (ascii arg) ++ (t ++ (namePart (ascii own) ++ path).drop (63 + (ascii own).length)) =
        namePart (ascii own) ++ path := by
      rw [← List.append_assoc, ← ht, List.take_append_drop]
    have hsame : ascii own = ascii arg := (namePart_inj hwhole).1.symm
    rw [hsame] at ht
    have hfits : (namePart (ascii arg)).length ≤ 63 + (ascii arg).length := by
      have hcut := List.length_take_le (63 + (ascii arg).length) (namePart (ascii arg) ++ path)
      rw [ht, List.length_append] at hcut
      omega
    rw [List.take_append, List.take_of_length_le hfits] at ht
    rw [List.append_cancel_left ht]
    exact ⟨hsame, hfits, hsuffix⟩
  · rintro ⟨hsame, hfits, hsuffix⟩
    refine ⟨_, ?_, hsuffix⟩
    rw [hsame, List.take_append, List.take_of_length_le hfits]

theorem startsWith_argumentUsr (arg suffix : String) : startsWith (argumentUsr arg ++ suffix) "p:" = true := by
  have hmarked : argumentUsr arg = "p:" ++ text (decimal (hashBytes (ascii arg)).toNat ++ (ascii ":" ++
      (decimal (ascii arg).length ++ (ascii ":" ++ ascii arg)))) := by
    simp only [argumentUsr, namePart, List.append_assoc]
    exact text_append _ _
  rw [hmarked, String.append_assoc, startsWith, String.toList_append]
  exact List.isPrefixOf_iff_prefix.mpr (List.prefix_append _ _)

theorem startsWith_of_artificial {usr param : String} (husr : startsWith usr "p:" = true)
    (hparam : startsWith param "p:" = false) : startsWith usr param = startsWith "p:" param := by
  rw [startsWith, List.isPrefixOf_iff_prefix] at husr
  rw [Bool.eq_iff_iff, startsWith, startsWith, List.isPrefixOf_iff_prefix, List.isPrefixOf_iff_prefix]
  constructor
  · intro h
    rcases List.prefix_or_prefix_of_prefix h husr with hshort | hlong
    · exact hshort
    · exact absurd (List.isPrefixOf_iff_prefix.mpr hlong) (Bool.eq_false_iff.mp hparam)
  · exact fun h => h.trans husr

end Usrs

section Mapping

def mapUsr (bindings : List (String × String)) (usr : String) : String :=
  bindings.foldl (fun usr x => if startsWith usr x.1 then generateArtificialParamUsr x.2 usr else usr) usr

theorem mapEntry_usr {va : VarAccess} {usr : String} (husr : va.usr = some usr) (hlive : va.live = true)
    (bindings : List (String × String)) : (mapEntry bindings va).usr = some (mapUsr bindings usr) := by
  induction bindings generalizing va usr with
  | nil => exact husr
  | cons x bindings ih =>
      rw [mapEntry, mapUsr, List.foldl_cons, List.foldl_cons, mapArgument_live husr hlive]
      split
      · exact @ih { va with usr := some (generateArtificialParamUsr x.2 usr) } _ rfl hlive
      · exact ih husr hlive

theorem parseArguments_ne_empty {rounds : Nat} {text : List Char} {arg : String}
    (h : arg ∈ parseArguments rounds text) : arg ≠ "" := by
  induction rounds generalizing text with
  | zero => cases h
  | succ rounds ih =>
      rw [parseArguments] at h
      cases htext : text.dropWhile isspace with
      | nil =>
          rw [htext] at h
          cases h
      | cons c cs =>
          rw [htext] at h
          dsimp only at h
          generalize scanArgument 0 (c :: cs) = scanned at h
          rcases List.mem_append.mp h with h | h
          · by_cases hempty : trimTrailing scanned.1 = []
            · rw [if_pos hempty] at h
              cases h
            · rw [if_neg hempty, List.mem_singleton] at h
              rw [h, Ne, ← String.toList_inj, String.toList_ofList]
              exact hempty
          · exact ih h

theorem parseFuncCall_ne_empty {funcCall arg : String} (h : arg ∈ (parseFuncCall funcCall).2.tail) : arg ≠ "" := by
  rw [parseFuncCall] at h
  dsimp only at h
  split at h
  · cases h
  · split at h
    · cases h
    · split at h
      · exact parseArguments_ne_empty h
      · cases h

theorem mem_taken {bindings : List (String × String)} {usr own : String} (h : own ∈ taken bindings usr) :
    ∃ x ∈ bindings, x.2 = own := by
  rw [taken] at h
  cases hdrop : bindings.dropWhile fun x => !startsWith usr x.1 with
  | nil =>
      rw [hdrop] at h
      cases h
  | cons x later =>
      have hsuffix : x :: later <:+ bindings := hdrop ▸ List.dropWhile_suffix _
      rw [hdrop] at h
      rcases List.mem_cons.mp h with rfl | h
      · exact ⟨x, hsuffix.mem List.mem_cons_self, rfl⟩
      · obtain ⟨y, hy, rfl⟩ := List.mem_map.mp h
        exact ⟨y, hsuffix.mem (List.mem_cons_of_mem _ (List.mem_filter.mp hy).1), rfl⟩

theorem startsWith_renamed {args : List String} (hargs : args ≠ []) (usr : String) :
    startsWith (renamed args usr) "p:" = true := by
  obtain ⟨earlier, own, rfl⟩ := (List.eq_nil_or_concat args).resolve_left hargs
  rw [renamed, List.concat_eq_append, List.foldl_append]
  exact startsWith_artificial _ _

variable {bindings : List (String × String)} {arg usr suffix : String}

theorem mapUsr_artificial (hparams : ∀ x ∈ bindings, startsWith x.1 "p:" = false)
    (husr : startsWith usr "p:" = true) :
    mapUsr bindings usr = renamed ((bindings.filter fun x => startsWith "p:" x.1).map Prod.snd) usr := by
  induction bindings generalizing usr with
  | nil => rfl
  | cons x bindings ih =>
      have hlater := fun y hy => hparams y (List.mem_cons_of_mem x hy)
      rw [mapUsr, List.foldl_cons, startsWith_of_artificial husr (hparams x List.mem_cons_self), ← mapUsr]
      cases hshort : startsWith "p:" x.1 with
      | false => simpa [hshort] using ih hlater husr
      | true => simpa [hshort, renamed] using ih hlater (startsWith_artificial x.2 usr)

theorem mapUsr_eq (hparams : ∀ x ∈ bindings, startsWith x.1 "p:" = false) (usr : String) :
    mapUsr bindings usr = renamed (taken bindings usr) usr := by
  induction bindings with
  | nil => rfl
  | cons x bindings ih =>
      have hlater := fun y hy => hparams y (List.mem_cons_of_mem x hy)
      rw [mapUsr, List.foldl_cons, ← mapUsr]
      cases hmatch : startsWith usr x.1 with
      | false => simpa [taken, hmatch] using ih hlater
      | true =>
          simpa [taken, hmatch, renamed] using mapUsr_artificial hlater (startsWith_artificial x.2 usr)

theorem taken_eq_nil_iff : taken bindings usr = [] ↔ ∀ x ∈ bindings, startsWith usr x.1 = false := by
  rw [taken]
  cases hdrop : bindings.dropWhile fun x => !startsWith usr x.1 with
  | nil => simpa [List.dropWhile_eq_nil_iff] using hdrop
  | cons x later =>
      simp only [List.cons_ne_nil, false_iff]
      intro hnone
      rw [List.dropWhile_eq_nil_iff.mpr fun y hy => by simp [hnone y hy]] at hdrop
      cases hdrop

theorem mapUsr_eq_argument_iff (hargs : ∀ x ∈ bindings, x.2 ≠ "")
    (hparams : ∀ x ∈ bindings, startsWith x.1 "p:" = false) (husr : startsWith usr "p:" = false) :
    mapUsr bindings usr = argumentUsr arg ++ suffix ↔ BindsTo bindings arg usr suffix := by
  have hlast : ∀ {earlier own}, taken bindings usr = earlier ++ [own] →
      mapUsr bindings usr = generateArtificialParamUsr own (renamed earlier usr) := by
    intro earlier own htaken
    rw [mapUsr_eq hparams, htaken, renamed, List.foldl_append]
    rfl
  have hown : ∀ {earlier own}, taken bindings usr = earlier ++ [own] → own ≠ "" := by
    intro earlier own htaken
    have hmem : own ∈ taken bindings usr := by simp [htaken]
    obtain ⟨x, hx, rfl⟩ := mem_taken hmem
    exact hargs x hx
  constructor
  · intro h
    have htaken : taken bindings usr ≠ [] := by
      intro hnil
      rw [mapUsr_eq hparams, hnil, renamed, List.foldl_nil] at h
      rw [h, startsWith_argumentUsr] at husr
      cases husr
    obtain ⟨earlier, own, heq⟩ := (List.eq_nil_or_concat _).resolve_left htaken
    rw [List.concat_eq_append] at heq
    rw [hlast heq, generate_eq_iff (hown heq)] at h
    exact ⟨earlier, own, heq, h.1, h.2⟩
  · rintro ⟨earlier, own, heq, hsame, hkeeps⟩
    rw [hlast heq, generate_eq_iff (hown heq)]
    exact ⟨hsame, hkeeps⟩

theorem mapUsr_eq_self_iff (hparams : ∀ x ∈ bindings, startsWith x.1 "p:" = false)
    (husr : startsWith usr "p:" = false) :
    mapUsr bindings usr = usr ↔ ∀ x ∈ bindings, startsWith usr x.1 = false := by
  rw [mapUsr_eq hparams, ← taken_eq_nil_iff]
  constructor
  · intro h
    by_contra htaken
    have hmarked := startsWith_renamed htaken usr
    rw [h, husr] at hmarked
    cases hmarked
  · intro hnil
    rw [hnil]
    rfl

end Mapping

section Root

variable (program : Program) (trackLocking : Bool)

theorem enterCursor_params (current parent : Cursor) (s : WalkState) :
    (enterCursor program trackLocking current parent s).currentFunc.params =
      s.currentFunc.params ++ if isParam current then [current.label.usr] else [] := by
  have hentered : (setLastVisited current (updateAncestryStack program trackLocking parent s)).currentFunc.params =
      s.currentFunc.params := by
    rw [updateAncestryStack_eq]
    rfl
  rw [enterCursor, recordBranches]
  rw [← hentered]
  generalize setLastVisited current (updateAncestryStack program trackLocking parent s) = entered
  rw [recordDeclaration, isParam, isOfKind]
  cases hkind : kindOf current <;> by_cases hlinkage : current.label.linkage = .noLinkage <;>
    simp [hlinkage, WalkState.pushVarAccesses]

theorem visitorWalkFunc_params (process : FuncInfo → Globals → FuncInfo × Globals) (current parent : Cursor)
    (s : WalkState) : (visitorWalkFunc program trackLocking process current parent s).currentFunc.params =
      s.currentFunc.params ++ if isParam current then [current.label.usr] else [] := by
  rw [← enterCursor_params program trackLocking current parent s]
  rcases visitorWalkFunc_cases program trackLocking process current parent s with
    ⟨-, vas, -, h⟩ | ⟨-, -, h⟩ | ⟨working, -, -, -, h⟩ | ⟨working, -, -, -, h⟩ <;>
    rw [h] <;> rfl

theorem processFuncInfo_params (func : FuncInfo) (globals : Globals) :
    (processFuncInfo program trackLocking func globals).1.label.params =
      func.label.params ++ collectedParams func.label.cursor := by
  have hfold : ∀ (visits : List (Visit CursorInfo)) (s : WalkState),
      (visits.foldl (visitStep (visitorWalkFunc program trackLocking (processFuncInfo program trackLocking)))
          s).currentFunc.params =
        s.currentFunc.params ++ (visits.filter fun v => isParam v.node).map fun v => v.node.label.usr := by
    intro visits
    induction visits with
    | nil => exact fun s => (List.append_nil _).symm
    | cons v visits ih =>
        intro s
        rw [List.foldl_cons, ih, visitStep, visitorWalkFunc_params, List.append_assoc]
        cases h : isParam v.node <;> simp [h]
  rw [processFuncInfo_eq, walkFunc_eq]
  exact hfold _ _

theorem pushedEntries_eq (cb : Callback) : ∃ vas,
    pushedEntries program trackLocking cb =
        markersAt program trackLocking cb.visit.node cb.visit.parent cb.before ++ vas ∧
      (visitorWalkFunc program trackLocking (processFuncInfo program trackLocking) cb.visit.node cb.visit.parent
          cb.before).currentFunc.varAccesses =
        cb.before.currentFunc.varAccesses ++ pushedEntries program trackLocking cb ∧
      ∀ va ∈ vas, va.type = .call ∨ declRefAccess program (stackAt program cb.visit.parent cb.before)
        cb.before.currentFunc.spelling cb.visit.node = some va := by
  have hadded : ∀ {vas new}, Adds program trackLocking cb.visit.node cb.visit.parent cb.before vas new
      (visitorWalkFunc program trackLocking (processFuncInfo program trackLocking) cb.visit.node cb.visit.parent
        cb.before) → pushedEntries program trackLocking cb =
          markersAt program trackLocking cb.visit.node cb.visit.parent cb.before ++ vas := by
    intro vas new hadds
    rw [pushedEntries, hadds.varAccesses, List.append_assoc, List.drop_left]
  rcases visitorWalkFunc_adds (Q := fun _ _ => True) (fun _ _ => trivial) (fun _ _ _ => trivial) with
    ⟨vas, hvas, hadds⟩ | ⟨working, callee, -, hadds⟩
  · refine ⟨vas, hadded hadds, ?_, fun va hva => .inr (Option.mem_toList.mp (hvas hva))⟩
    rw [hadded hadds, hadds.varAccesses, List.append_assoc]
  · refine ⟨_, hadded hadds, ?_, List.forall_mem_singleton.mpr (.inl rfl)⟩
    rw [hadded hadds, hadds.varAccesses, List.append_assoc]

theorem declNames_usr (stack : CursorArr) (referenced : Cursor) :
    ∃ suffix, (declNames program stack referenced).usr = referenced.label.usr ++ suffix := by
  have hfold : ∀ (members : List Cursor) (chain : MemberChain), ∃ suffix,
      (members.foldl (appendMember program) chain).usr = chain.usr ++ suffix := by
    intro members
    induction members with
    | nil => exact fun chain => ⟨"", String.append_empty.symm⟩
    | cons c members ih =>
        intro chain
        obtain ⟨suffix, hsuffix⟩ := ih (appendMember program chain c)
        rw [List.foldl_cons, hsuffix, appendMember]
        split
        · exact ⟨_, by rw [String.append_assoc, String.append_assoc]⟩
        · exact ⟨suffix, rfl⟩
  unfold declNames
  dsimp only
  split
  · exact hfold _ _
  · exact ⟨"", String.append_empty.symm⟩

theorem referenced_of_pushed {cb : Callback} {va : VarAccess} (h : va ∈ pushedAccesses program trackLocking cb) :
    ∃ referenced suffix, referencedVariable program cb.visit.node = some referenced ∧
      va.usr = some (referenced.label.usr ++ suffix) := by
  obtain ⟨hpushed, haccess⟩ := List.mem_filter.mp h
  obtain ⟨vas, heq, -, hvas⟩ := pushedEntries_eq program trackLocking cb
  rw [heq] at hpushed
  rcases List.mem_append.mp hpushed with hmarker | hva
  · rcases markersAt_isMarker program trackLocking _ _ _ hmarker with ht | ht | ht | ht <;>
      simp [ht, VarAccessType.isAccess] at haccess
  · rcases hvas va hva with hcall | hrecorded
    · simp [hcall, VarAccessType.isAccess] at haccess
    · obtain ⟨referenced, hreferenced, -⟩ := Option.bind_eq_some_iff.mp hrecorded
      obtain ⟨suffix, hsuffix⟩ := declNames_usr program (stackAt program cb.visit.parent cb.before) referenced
      exact ⟨referenced, suffix, hreferenced, by
        rw [(MemberPaths.declRefAccess_names hreferenced hrecorded).2, hsuffix]⟩

theorem mem_entries_of_walk {func : FuncInfo} {globals : Globals} {va : VarAccess}
    (h : va ∈ (processFuncInfo program trackLocking func globals).1.label.varAccesses) :
    va ∈ func.label.varAccesses ∨
      ∃ x ∈ ownCallbacks program trackLocking (processFuncInfo program trackLocking) func globals,
        va ∈ pushedEntries program trackLocking ⟨x.1, x.2⟩ := by
  rw [processFuncInfo_eq, walkFunc_eq] at h
  have hsteps : ∀ (visits : List (Visit CursorInfo)) (s : WalkState),
      va ∈ (visits.foldl (visitStep (visitorWalkFunc program trackLocking (processFuncInfo program trackLocking)))
        s).currentFunc.varAccesses →
      va ∈ s.currentFunc.varAccesses ∨
        ∃ x ∈ stepsFrom (visitStep (visitorWalkFunc program trackLocking (processFuncInfo program trackLocking)))
          s visits, va ∈ pushedEntries program trackLocking ⟨x.1, x.2⟩ := by
    intro visits
    induction visits with
    | nil => exact fun _ hva => .inl hva
    | cons v visits ih =>
        intro s hva
        rcases ih _ hva with hva | ⟨x, hx, hpushed⟩
        · obtain ⟨-, -, hentries, -⟩ := pushedEntries_eq program trackLocking ⟨v, s⟩
          rw [visitStep, hentries] at hva
          rcases List.mem_append.mp hva with hva | hva
          · exact .inl hva
          · exact .inr ⟨(v, s), List.mem_cons_self, hva⟩
        · exact .inr ⟨x, List.mem_cons_of_mem _ hx, hpushed⟩
  exact hsteps _ _ h

end Root

section Claim

variable (program : Program) (trackLocking : Bool) (funcDecl : Cursor) (globals : Globals) (funcCall : String)

def walked : FuncData := (processFuncInfo program trackLocking (requestedFunc funcDecl) globals).1.label

/-- The entry is recorded for a reference to a variable with this USR, of which it accesses the members in the
suffix. -/
def AccessAt (j : Nat) (base suffix : String) : Prop :=
  ∃ va, (walked program trackLocking funcDecl globals).varAccesses[j]? = some va ∧
    va.usr = some (base ++ suffix) ∧
    ∃ x ∈ ownCallbacks program trackLocking (processFuncInfo program trackLocking) (requestedFunc funcDecl) globals,
      va ∈ pushedAccesses program trackLocking ⟨x.1, x.2⟩ ∧
        ∃ referenced, referencedVariable program x.1.node = some referenced ∧ referenced.label.usr = base

/-- The USR of an entry once the arguments of the call string are mapped. -/
def mappedUsr (j : Nat) : Option String :=
  (argumentAccesses (some (parseFuncCall funcCall).2) (walked program trackLocking funcDecl globals))[j]?.bind
    VarAccess.usr

/-- Every access of a parameter has the USR of the parameter's argument, with the same members, and every
other access keeps its USR. -/
def ArgumentsBound : Prop :=
  ∀ j base suffix, AccessAt program trackLocking funcDecl globals j base suffix →
    (∀ (k : Nat) arg, (declaredParams funcDecl)[k]? = some base → (parseFuncCall funcCall).2.tail[k]? = some arg →
      mappedUsr program trackLocking funcDecl globals funcCall j = some (argumentUsr arg ++ suffix)) ∧
    (base ∉ declaredParams funcDecl →
      mappedUsr program trackLocking funcDecl globals funcCall j = some (base ++ suffix))

def bindings : List (String × String) := (collectedParams funcDecl).zip (parseFuncCall funcCall).2.tail

/-- The last argument that an access of a parameter takes is the parameter's own, and no other access takes
one. -/
def TakesOwn : Prop :=
  ∀ j base suffix, AccessAt program trackLocking funcDecl globals j base suffix →
    (∀ (k : Nat) arg, (declaredParams funcDecl)[k]? = some base → (parseFuncCall funcCall).2.tail[k]? = some arg →
      BindsTo (bindings funcDecl funcCall) arg (base ++ suffix) suffix) ∧
    (base ∉ declaredParams funcDecl → ∀ x ∈ bindings funcDecl funcCall, startsWith (base ++ suffix) x.1 = false)

/-- The artificial USRs are distinct from the format of libclang, where a USR is empty or starts with "c:". -/
def UsualUsrs : Prop :=
  (∀ u ∈ collectedParams funcDecl, startsWith u "p:" = false) ∧
    ∀ va ∈ (walked program trackLocking funcDecl globals).varAccesses, ∀ usr, va.usr = some usr →
      startsWith usr "p:" = false

variable {program trackLocking funcDecl globals funcCall} {j : Nat} {base suffix : String}

theorem walked_params : (walked program trackLocking funcDecl globals).params = collectedParams funcDecl :=
  processFuncInfo_params program trackLocking (requestedFunc funcDecl) globals

theorem accessAt_of_isAccess {va : VarAccess}
    (hva : (walked program trackLocking funcDecl globals).varAccesses[j]? = some va)
    (haccess : va.type.isAccess = true) :
    ∃ base suffix, AccessAt program trackLocking funcDecl globals j base suffix := by
  rcases mem_entries_of_walk program trackLocking (List.mem_of_getElem? hva) with hnone | ⟨x, hx, hpushed⟩
  · cases hnone
  · have hmem : va ∈ pushedAccesses program trackLocking ⟨x.1, x.2⟩ := List.mem_filter.mpr ⟨hpushed, haccess⟩
    obtain ⟨referenced, suffix, hreferenced, husr⟩ := referenced_of_pushed program trackLocking hmem
    exact ⟨_, suffix, va, hva, husr, x, hx, hmem, referenced, hreferenced, rfl⟩

theorem mappedUsr_eq (h : AccessAt program trackLocking funcDecl globals j base suffix) :
    mappedUsr program trackLocking funcDecl globals funcCall j =
      some (mapUsr (bindings funcDecl funcCall) (base ++ suffix)) := by
  obtain ⟨va, hva, husr, x, -, hmem, -⟩ := h
  have hlive := VarAccess.live_of_isAccess (List.mem_filter.mp hmem).2
  rw [mappedUsr, argumentAccesses_getElem?, hva, Option.map_some, Option.bind_some, mapEntry_usr husr hlive,
    walked_params, bindings]

/-- The arguments are bound exactly if the last that each access takes is its own. -/
theorem arguments_bound_iff (program : Program) (trackLocking : Bool) (funcDecl : Cursor) (globals : Globals)
    (funcCall : String) (_hread : ParamsReadable (collectedParams funcDecl) (parseFuncCall funcCall).2)
    (husual : UsualUsrs program trackLocking funcDecl globals) :
    ArgumentsBound program trackLocking funcDecl globals funcCall ↔
      TakesOwn program trackLocking funcDecl globals funcCall := by
  have hargs : ∀ x ∈ bindings funcDecl funcCall, x.2 ≠ "" :=
    fun x hx => parseFuncCall_ne_empty (List.of_mem_zip hx).2
  have hparams : ∀ x ∈ bindings funcDecl funcCall, startsWith x.1 "p:" = false :=
    fun x hx => husual.1 _ (List.of_mem_zip hx).1
  rw [ArgumentsBound, TakesOwn]
  refine forall_congr' fun j => forall_congr' fun base => forall_congr' fun suffix => forall_congr' fun haccess => ?_
  have husr : startsWith (base ++ suffix) "p:" = false := by
    obtain ⟨va, hva, husr, -⟩ := haccess
    exact husual.2 va (List.mem_of_getElem? hva) _ husr
  rw [mappedUsr_eq haccess]
  simp only [Option.some.injEq, mapUsr_eq_argument_iff hargs hparams husr, mapUsr_eq_self_iff hparams husr]

end Claim

/-- void f(int a, struct s *b) { b->m = 1; } -/
def memberWriter : Cursor :=
  definitionOf 1 "f"
    [.node { id := 3, kind := .parmDecl, usr := "c:t.c@7@F@f@a", linkage := .noLinkage } [],
     .node { id := 4, kind := .parmDecl, usr := "c:t.c@14@F@f@b", linkage := .noLinkage, typeKind := .pointer } []]
    [.node { id := 5, kind := .binaryOperator, binaryOperatorKind := .assign }
      [.node { id := 6, kind := .memberRefExpr, referenced := some 7 }
        [.node { id := 8, kind := .declRefExpr, referenced := some 4 } []],
       .node { id := 9, kind := .other 106 } []]]

/-- void f(int (*op)(int v), int *p) { *p = 1; } -/
def applier : Cursor :=
  definitionOf 1 "f"
    [.node { id := 3, kind := .parmDecl, usr := "c:t.c@7@F@f@op", linkage := .noLinkage, typeKind := .pointer }
      [.node { id := 10, kind := .parmDecl, usr := "c:t.c@17@F@f@v", linkage := .noLinkage } []],
     .node { id := 4, kind := .parmDecl, usr := "c:t.c@24@F@f@p", linkage := .noLinkage, typeKind := .pointer } []]
    [.node { id := 5, kind := .binaryOperator, binaryOperatorKind := .assign }
      [.node { id := 6, kind := .unaryOperator, unaryOperatorKind := .deref }
        [.node { id := 8, kind := .declRefExpr, referenced := some 4 } []],
       .node { id := 9, kind := .other 106 } []]]

def paramProgram (paramUsr : String) : Program where
  tuArray := []
  fileNames := []
  decls := [.node { id := 4, kind := .parmDecl, usr := paramUsr, typeKind := .pointer } [],
    .node { id := 7, kind := .other 6, usr := "c:@S@s@FI@m", spelling := "m" } []]
  zeroCursorIsNull := false

theorem memberWriter_access {j : Nat} {base suffix : String}
    (h : AccessAt (paramProgram "c:t.c@14@F@f@b") false memberWriter initGlobals j base suffix) :
    base = "c:t.c@14@F@f@b" ∧ suffix = "::m" := by
  obtain ⟨va, hva, husr, x, hx, -, referenced, hreferenced, rfl⟩ := h
  have hbases : ∀ x ∈ ownCallbacks (paramProgram "c:t.c@14@F@f@b") false
      (processFuncInfo (paramProgram "c:t.c@14@F@f@b") false) (requestedFunc memberWriter) initGlobals,
      (referencedVariable (paramProgram "c:t.c@14@F@f@b") x.1.node).all
        (fun c => c.label.usr == "c:t.c@14@F@f@b") = true := by
    decide +kernel
  have hbase : referenced.label.usr = "c:t.c@14@F@f@b" := by
    have hall := hbases x hx
    rw [hreferenced] at hall
    exact beq_iff_eq.mp hall
  have husrs : ∀ va ∈ (walked (paramProgram "c:t.c@14@F@f@b") false memberWriter initGlobals).varAccesses,
      va.usr = some ("c:t.c@14@F@f@b" ++ "::m") := by
    decide +kernel
  rw [husrs va (List.mem_of_getElem? hva), hbase, Option.some.injEq, String.append_right_inj] at husr
  exact ⟨hbase, husr.symm⟩

theorem memberWriter_usual : UsualUsrs (paramProgram "c:t.c@14@F@f@b") false memberWriter initGlobals := by
  refine ⟨by decide +kernel, ?_⟩
  have hall : ∀ va ∈ (walked (paramProgram "c:t.c@14@F@f@b") false memberWriter initGlobals).varAccesses,
      (va.usr.all fun usr => !startsWith usr "p:") = true := by
    decide +kernel
  intro va hva usr husr
  simpa [husr] using hall va hva

theorem memberWriter_takesOwn :
    TakesOwn (paramProgram "c:t.c@14@F@f@b") false memberWriter initGlobals "f(x, y)" := by
  intro j base suffix haccess
  obtain ⟨rfl, rfl⟩ := memberWriter_access haccess
  refine ⟨fun k arg hk harg => ?_, fun hbase => absurd (by decide +kernel) hbase⟩
  obtain rfl : k = 1 := by
    have hlt : k < 2 := (List.getElem?_eq_some_iff.mp hk).1
    have hne : k ≠ 0 := by
      rintro rfl
      exact absurd hk (by decide +kernel)
    omega
  obtain rfl : "y" = arg := Option.some.inj (Eq.trans (by decide +kernel) harg)
  exact ⟨[], "y", by decide +kernel, rfl, by decide +kernel⟩

theorem memberWriter_bound : ArgumentsBound (paramProgram "c:t.c@14@F@f@b") false memberWriter initGlobals "f(x, y)" :=
  (arguments_bound_iff _ _ _ _ _ (by decide +kernel) memberWriter_usual).2 memberWriter_takesOwn

/-- The parameter of the function pointer takes the argument of p. -/
theorem applier_argument_lost : (declaredParams applier).Nodup ∧ "" ∉ declaredParams applier ∧
    (parseFuncCall "f(x, y)").2.tail.length = numArguments applier ∧
      ¬ ArgumentsBound (paramProgram "c:t.c@24@F@f@p") false applier initGlobals "f(x, y)" := by
  refine ⟨by decide +kernel, by decide +kernel, by decide +kernel, fun h => ?_⟩
  have haccess : AccessAt (paramProgram "c:t.c@24@F@f@p") false applier initGlobals 0 "c:t.c@24@F@f@p" "" :=
    ⟨_, rfl, by decide +kernel, _, List.mem_of_getElem? (i := 6) rfl, List.mem_of_getElem? (i := 0) rfl, _, rfl, rfl⟩
  have hmapped := (h 0 _ _ haccess).1 1 "y" (by decide +kernel) (by decide +kernel)
  exact absurd hmapped (by decide +kernel)

end Prongc.ArgumentBinding
