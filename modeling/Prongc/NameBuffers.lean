import Prongc.MemberPaths
import Prongc.Unwind

namespace Prongc.NameBuffers

open Access Ast DeclRef WalkFunc Callbacks Unwind MemberPaths Library.CStrings Library.Traversal

structure Buffer (size : Nat) where
  text : String
  fits : strlen text + 1 ≤ size

/-- `none` when the copy goes past the end of the array. -/
def strcpy (size : Nat) (text : String) : Option (Buffer size) :=
  if h : strlen text + 1 ≤ size then some ⟨text, h⟩ else none

def strcat {size : Nat} (buffer : Buffer size) (text : String) : Option (Buffer size) :=
  strcpy size (buffer.text ++ text)

structure DeclStrs where
  declNameStr : Buffer 256
  declUsrStr : Buffer 384
  previousMemberref : Option Cursor

def selectorOf (previousMemberref : Option Cursor) : String :=
  if typeKindOf previousMemberref = .pointer then "->" else "."

def catMember (program : Program) (buffers : DeclStrs) (memberCursor : Cursor) : Option DeclStrs :=
  if isOfKind .memberRefExpr memberCursor then do
    let memberReferenced := clangGetCursorReferenced program memberCursor
    let declNameStr ← strcat buffers.declNameStr (selectorOf buffers.previousMemberref)
    let declUsrStr ← strcat buffers.declUsrStr "::"
    let declNameStr ← strcat declNameStr (cursorSpelling memberReferenced)
    let declUsrStr ← strcat declUsrStr (cursorSpelling memberReferenced)
    some ⟨declNameStr, declUsrStr, memberReferenced⟩
  else some buffers

/-- The buffers for the name and USR of a reference; `none` when one of the copies leaves its buffer. -/
def declBuffers (program : Program) (stack : CursorArr) (referenced : Cursor) : Option DeclStrs := do
  let declNameStr ← strcpy 256 referenced.label.displayName
  let declUsrStr ← strcpy 384 referenced.label.usr
  let start : DeclStrs := ⟨declNameStr, declUsrStr, some referenced⟩
  let closestMembexprOffset := getCursorOffsetOfKind stack .memberRefExpr
  if closestMembexprOffset ≠ ancestorNotFound then
    (stack.dropLast.drop (closestMembexprOffset - 1)).foldlM (catMember program) start
  else some start

def fitsBuffers (program : Program) (cb : Callback) : Bool :=
  !isOfKind .declRefExpr cb.visit.node || (referencedVariable program cb.visit.node).all fun referenced =>
    (declBuffers program (stackAt program cb.visit.parent cb.before) referenced).isSome

def namesFit (program : Program) (trackLocking : Bool) (funcs : List FuncInfo) : Bool :=
  (runCallbacks program trackLocking funcs initGlobals).all (fitsBuffers program)

/-- The walks and the unwinding stay in their memory. -/
def staysInMemory (program : Program) (trackLocking : Bool) (funcs : List FuncInfo) (funcNames : List String) : Bool :=
  namesFit program trackLocking funcs &&
    argumentsReadable (processFuncs program trackLocking funcs initGlobals).1 funcNames

def chainBuffers (chain : MemberChain) : Option DeclStrs := do
  let declNameStr ← strcpy 256 chain.name
  let declUsrStr ← strcpy 384 chain.usr
  some ⟨declNameStr, declUsrStr, chain.previousMemberref⟩

def selectedMembers (stack : CursorArr) : List Cursor :=
  let closestMembexprOffset := getCursorOffsetOfKind stack .memberRefExpr
  if closestMembexprOffset ≠ ancestorNotFound then membersOf (stack.dropLast.drop (closestMembexprOffset - 1)) else []

def memberNameBytes (program : Program) : Option Cursor → List Cursor → Nat
  | _, [] => 0
  | previousMemberref, memberCursor :: members =>
      let memberReferenced := clangGetCursorReferenced program memberCursor
      strlen (selectorOf previousMemberref) + strlen (cursorSpelling memberReferenced) +
        memberNameBytes program memberReferenced members

def memberUsrBytes (program : Program) : List Cursor → Nat
  | [] => 0
  | memberCursor :: members =>
      2 + strlen (cursorSpelling (clangGetCursorReferenced program memberCursor)) + memberUsrBytes program members

section Copies

variable {size : Nat} {text text' : String}

theorem strcpy_isSome : (strcpy size text).isSome ↔ strlen text + 1 ≤ size := by
  rw [strcpy]
  split <;> simp [*]

theorem strcpy_of_fits (h : strlen text + 1 ≤ size) : strcpy size text = some ⟨text, h⟩ := dif_pos h

theorem strcpy_of_long (h : ¬ strlen text + 1 ≤ size) : strcpy size text = none := dif_neg h

/-- A copy and a concatenation behave as one copy of both texts. -/
theorem strcpy_strcat : (strcpy size text).bind (strcat · text') = strcpy size (text ++ text') := by
  by_cases h : strlen text + 1 ≤ size
  · rw [strcpy_of_fits h, Option.bind_some, strcat]
  · rw [strcpy_of_long h, strcpy_of_long, Option.bind_none]
    rw [strlen_append]
    omega

end Copies

section Chains

variable {program : Program} {stack : CursorArr} {referenced : Cursor}

theorem appendMember_of_member {memberCursor : Cursor} (h : isOfKind .memberRefExpr memberCursor = true)
    (chain : MemberChain) :
    appendMember program chain memberCursor =
      { name := chain.name ++ selectorOf chain.previousMemberref ++
          cursorSpelling (clangGetCursorReferenced program memberCursor)
        usr := chain.usr ++ "::" ++ cursorSpelling (clangGetCursorReferenced program memberCursor)
        previousMemberref := clangGetCursorReferenced program memberCursor } := by
  rw [appendMember, if_pos h]
  rfl

/-- The four concatenations for a member leave the buffers as two copies of the longer texts do. -/
theorem chainBuffers_catMember (chain : MemberChain) (memberCursor : Cursor) :
    (chainBuffers chain).bind (catMember program · memberCursor) =
      chainBuffers (appendMember program chain memberCursor) := by
  by_cases hkind : isOfKind .memberRefExpr memberCursor = true
  · simp only [chainBuffers, catMember, if_pos hkind, appendMember_of_member hkind, ← strcpy_strcat]
    cases strcpy 256 chain.name with
    | none => rfl
    | some name =>
        cases strcpy 384 chain.usr with
        | none => simp
        | some usr =>
            cases hname : strcat name (selectorOf chain.previousMemberref) with
            | none => simp [hname]
            | some name' =>
                cases husr : strcat usr "::" with
                | none => simp [hname, husr]
                | some usr' => simp [hname, husr]
  · simp only [catMember, appendMember, if_neg hkind]
    exact Option.bind_fun_some _

theorem chainBuffers_foldlM (chain : MemberChain) (l : List Cursor) :
    (chainBuffers chain).bind (l.foldlM (catMember program)) = chainBuffers (l.foldl (appendMember program) chain) := by
  induction l generalizing chain with
  | nil => exact Option.bind_fun_some _
  | cons c l ih =>
      rw [List.foldl_cons, ← ih, ← chainBuffers_catMember, Option.bind_assoc]
      rfl

theorem declBuffers_eq : declBuffers program stack referenced = chainBuffers (declNames program stack referenced) := by
  rw [declNames]
  split
  next hfound =>
    rw [← chainBuffers_foldlM]
    simp only [declBuffers, if_pos hfound]
    simp [chainBuffers, Option.bind_assoc]
  next hnone =>
    simp only [declBuffers, if_neg hnone, chainBuffers]

theorem chainBuffers_isSome (chain : MemberChain) :
    (chainBuffers chain).isSome ↔ strlen chain.name + 1 ≤ 256 ∧ strlen chain.usr + 1 ≤ 384 := by
  rw [← strcpy_isSome, ← strcpy_isSome, chainBuffers]
  cases strcpy 256 chain.name <;> cases strcpy 384 chain.usr <;> simp

theorem bytes_foldl (members : List Cursor) (hmembers : ∀ c ∈ members, isOfKind .memberRefExpr c = true)
    (chain : MemberChain) :
    strlen (members.foldl (appendMember program) chain).name =
        strlen chain.name + memberNameBytes program chain.previousMemberref members ∧
      strlen (members.foldl (appendMember program) chain).usr =
        strlen chain.usr + memberUsrBytes program members := by
  induction members generalizing chain with
  | nil => exact ⟨rfl, rfl⟩
  | cons c members ih =>
      obtain ⟨hc, hrest⟩ := List.forall_mem_cons.mp hmembers
      obtain ⟨hname, husr⟩ := ih hrest (appendMember program chain c)
      have hcolons : strlen "::" = 2 := rfl
      rw [List.foldl_cons, hname, husr, appendMember_of_member hc]
      simp only [strlen_append, memberNameBytes, memberUsrBytes, hcolons]
      omega

theorem declNames_selected :
    declNames program stack referenced = objectNames program referenced (selectedMembers stack) := by
  rw [declNames, selectedMembers, objectNames]
  split
  · rw [foldl_appendMember]
  · rfl

/-- The texts stay in their buffers exactly when the names and USRs that they are made of are short enough
together, with one or two bytes for each selector. -/
theorem declBuffers_isSome_iff : (declBuffers program stack referenced).isSome ↔
    strlen referenced.label.displayName +
        memberNameBytes program (some referenced) (selectedMembers stack) ≤ 255 ∧
      strlen referenced.label.usr + memberUsrBytes program (selectedMembers stack) ≤ 383 := by
  have hmembers : ∀ c ∈ selectedMembers stack, isOfKind .memberRefExpr c = true := by
    intro c hc
    rw [selectedMembers] at hc
    split at hc
    · exact (List.mem_filter.mp hc).2
    · cases hc
  obtain ⟨hname, husr⟩ := @bytes_foldl program _ hmembers
    ⟨referenced.label.displayName, referenced.label.usr, some referenced⟩
  rw [declBuffers_eq, chainBuffers_isSome, declNames_selected, objectNames, hname, husr, Nat.succ_le_succ_iff,
    Nat.succ_le_succ_iff]

end Chains

def longVariable : Cursor :=
  let identifier := String.ofList (List.replicate 256 'a')
  .node { id := 1, kind := .varDecl, usr := "c:@" ++ identifier, displayName := identifier } []

def longProgram : Program where
  tuArray := []
  fileNames := []
  decls := [longVariable]
  zeroCursorIsNull := false

def longReference : Cursor := .node { id := 2, kind := .declRefExpr, referenced := some 1 } []

/-- The name of the variable needs 257 bytes. -/
theorem longVariable_overflow :
    referencedVariable longProgram longReference = some longVariable ∧
      strlen longVariable.label.displayName + 1 = 257 ∧ declBuffers longProgram [] longVariable = none := by
  have hsize : strlen longVariable.label.displayName = 256 := by decide +kernel
  refine ⟨rfl, congrArg (· + 1) hsize, ?_⟩
  rw [declBuffers, strcpy_of_long (by omega)]
  rfl

end Prongc.NameBuffers
