import Prongc.Library.PathSearch
import Prongc.DynAos
import Prongc.Unwind

namespace Prongc.CallTraces

open Access Ast WalkFunc Library.CStrings DynAos Library.Traversal RoseTree Library.PathSearch

/-- An entry as it lies in memory: its strings by address, and the bytes behind its last field. -/
structure VarAccessStruct where
  usr : UInt64
  name : UInt64
  parentFuncName : UInt64
  escFuncSpelling : UInt64
  escFuncUsr : UInt64
  escParamIdx : UInt32
  line : UInt32
  column : UInt32
  type : VarAccessType
  isPtrType : Bool
  padding : Vector UInt8 7
  deriving DecidableEq

structure FuncInfoStruct where
  cursor : Cursor
  usr : CString
  name : CString
  spelling : CString
  params : List CString
  locals : List CString
  varAccesses : List VarAccessStruct
  inSystemHeader : Bool
  hasDefinition : Bool

abbrev FuncTree := RoseTree FuncInfoStruct

/-- memcmp on all bytes of the two entries. -/
def equalVarAccessStructs (a b : VarAccessStruct) : Bool := decide (a = b)

def VarAccessStruct.live (va : VarAccessStruct) : Bool := !vaIsPlaceholderType va.type

def isClosed (func : FuncInfoStruct) : Bool := func.inSystemHeader || !func.hasDefinition

/-- The copies that go into the footprint are copies of all bytes. -/
def spliceFootprints : List VarAccessStruct → List (List VarAccessStruct) → List VarAccessStruct
  | [], _ => []
  | va :: vas, footprints =>
      if va.type = .call then
        match footprints with
        | footprint :: footprints => footprint ++ spliceFootprints vas footprints
        | [] => spliceFootprints vas []
      else if va.type = .null then spliceFootprints vas footprints
      else va :: spliceFootprints vas footprints

mutual

def buildVarAccessFootprint : FuncTree → List VarAccessStruct
  | .node func callees =>
      if isClosed func then [] else spliceFootprints func.varAccesses (calleeFootprints callees)

def calleeFootprints : List FuncTree → List (List VarAccessStruct)
  | [] => []
  | callee :: callees => buildVarAccessFootprint callee :: calleeFootprints callees

end

structure CallTrace where
  names : List (List UInt8)
  cursor : Cursor
  access : VarAccessStruct

def printCallTrace (func : FuncInfoStruct) (va : VarAccessStruct) (callTrace : DynamicAOS) : List CallTrace :=
  if callTrace.count = 0 then [] else [⟨aosStrings callTrace, func.cursor, va⟩]

def contains (va : VarAccessStruct) (func : FuncInfoStruct) : Bool := func.varAccesses.any (equalVarAccessStructs va)

mutual

/-- What is printed, and the stack of names behind the call. -/
def traceVaOverlap (va : VarAccessStruct) : FuncTree → DynamicAOS → List CallTrace × DynamicAOS
  | .node func callees, callTrace =>
      let callTrace := (aosPushString callTrace func.name).2
      let found :=
        if isClosed func then ([], callTrace)
        else if contains va func then (printCallTrace func va callTrace, callTrace)
        else traceCallees va callees callTrace
      (found.1, (aosPopString found.2).2)

def traceCallees (va : VarAccessStruct) : List FuncTree → DynamicAOS → List CallTrace × DynamicAOS
  | [], callTrace => ([], callTrace)
  | callee :: callees, callTrace =>
      let first := traceVaOverlap va callee callTrace
      let rest := traceCallees va callees first.2
      (first.1 ++ rest.1, rest.2)

end

section Reading

/-- What addresses lead to, and the text of a string. -/
structure Memory where
  string : UInt64 → Option CString
  text : CString → String

variable (mem : Memory)

def VarAccessStruct.read (va : VarAccessStruct) : VarAccess where
  usr := (mem.string va.usr).map mem.text
  name := (mem.string va.name).map mem.text
  parentFuncName := ((mem.string va.parentFuncName).map mem.text).getD ""
  escFuncSpelling := (mem.string va.escFuncSpelling).map mem.text
  escFuncUsr := (mem.string va.escFuncUsr).map mem.text
  escParamIdx := va.escParamIdx.toNat
  line := va.line.toNat
  column := va.column.toNat
  type := va.type
  isPtrType := va.isPtrType

def FuncInfoStruct.read (func : FuncInfoStruct) : FuncData where
  cursor := func.cursor
  usr := mem.text func.usr
  name := mem.text func.name
  spelling := mem.text func.spelling
  params := func.params.map mem.text
  locals := func.locals.map mem.text
  varAccesses := func.varAccesses.map (VarAccessStruct.read mem)
  inSystemHeader := func.inSystemHeader
  hasDefinition := func.hasDefinition

mutual

def readFuncInfo : FuncTree → FuncInfo
  | .node func callees => .node (func.read mem) (readCallees callees)

def readCallees : List FuncTree → List FuncInfo
  | [] => []
  | callee :: callees => readFuncInfo callee :: readCallees callees

end

theorem spliceFootprints_read (vas : List VarAccessStruct) (fps : List (List VarAccessStruct)) :
    (spliceFootprints vas fps).map (VarAccessStruct.read mem) =
      Unwind.spliceFootprints (vas.map (VarAccessStruct.read mem)) (fps.map (List.map (VarAccessStruct.read mem))) := by
  induction vas generalizing fps with
  | nil => rfl
  | cons va vas ih =>
      have hcall : (va.read mem).type = .call ↔ va.type = .call := Iff.rfl
      have hnull : (va.read mem).type = .null ↔ va.type = .null := Iff.rfl
      cases fps with
      | nil =>
          simp only [spliceFootprints, List.map_cons, List.map_nil, Unwind.spliceFootprints, hcall, hnull]
          split_ifs with hc hn
          · exact ih []
          · exact ih []
          · rw [List.map_cons, ih, List.map_nil]
      | cons fp fps =>
          simp only [spliceFootprints, List.map_cons, Unwind.spliceFootprints, hcall, hnull]
          split_ifs with hc hn
          · rw [List.map_append, ih]
          · exact ih (fp :: fps)
          · rw [List.map_cons, ih, List.map_cons]

theorem footprint_read (tree : FuncTree) : (buildVarAccessFootprint tree).map (VarAccessStruct.read mem) =
    Unwind.buildVarAccessFootprint (readFuncInfo mem tree) := by
  induction tree using childInduction with
  | hnode func callees ih =>
      have hcallees : (calleeFootprints callees).map (List.map (VarAccessStruct.read mem)) =
          Unwind.calleeFootprints (readCallees mem callees) := by
        induction callees with
        | nil => rfl
        | cons callee callees ihs =>
            rw [calleeFootprints, readCallees, Unwind.calleeFootprints, List.map_cons, ih callee List.mem_cons_self,
              ihs fun c hc => ih c (List.mem_cons_of_mem _ hc)]
      rw [buildVarAccessFootprint, readFuncInfo, Unwind.buildVarAccessFootprint]
      split
      next hclosed => rw [if_pos (show ((func.read mem).inSystemHeader || !(func.read mem).hasDefinition) = true
        from hclosed), List.map_nil]
      next hopen => rw [if_neg (show ¬ ((func.read mem).inSystemHeader || !(func.read mem).hasDefinition) = true
        from hopen), spliceFootprints_read, hcallees, FuncInfoStruct.read]

end Reading

def entries (tree : FuncTree) : List VarAccessStruct := (labels tree).flatMap FuncInfoStruct.varAccesses

/-- Each access owns the string of its USR. -/
def OwnUsrs (tree : FuncTree) : Prop := (((entries tree).filter VarAccessStruct.live).map VarAccessStruct.usr).Nodup

instance (tree : FuncTree) : Decidable (OwnUsrs tree) := inferInstanceAs (Decidable (List.Nodup _))

/-- The entry belongs to the function at the path and to no other, and a trace for it prints the names on
the path, behind those on the stack, once. -/
structure TracedTo (tree : FuncTree) (va : VarAccessStruct) (path : List Nat) (func : FuncTree) : Prop where
  at_path : tree.subtreeAt path = some func
  contains : va ∈ func.label.varAccesses
  unique : ∀ path' func', tree.subtreeAt path' = some func' → va ∈ func'.label.varAccesses → path' = path
  traced : ∀ callTrace, traceVaOverlap va tree callTrace =
    ([⟨aosStrings callTrace ++ (labelsTo path tree).map fun above => above.name.bytes, func.label.cursor, va⟩],
      callTrace)

/-- A report starts on the empty stack, and its second trace starts there again. -/
theorem TracedTo.from_empty {tree func : FuncTree} {va : VarAccessStruct} {path : List Nat}
    (h : TracedTo tree va path func) : traceVaOverlap va tree initAos =
      ([⟨(labelsTo path tree).map fun above => above.name.bytes, func.label.cursor, va⟩], initAos) :=
  h.traced initAos

section Search

variable {va : VarAccessStruct}

theorem contains_iff {func : FuncInfoStruct} : contains va func = true ↔ va ∈ func.varAccesses := by
  rw [contains, List.any_eq_true]
  constructor
  · rintro ⟨working, hmem, heq⟩
    exact of_decide_eq_true heq ▸ hmem
  · intro hmem
    exact ⟨va, hmem, decide_eq_true rfl⟩

def printed (va : VarAccessStruct) (callTrace : DynamicAOS) (found : List FuncInfoStruct × FuncInfoStruct) : CallTrace :=
  ⟨aosStrings callTrace ++ found.1.map fun above => above.name.bytes, found.2.cursor, va⟩

theorem printed_push (va : VarAccessStruct) (callTrace : DynamicAOS) (func : FuncInfoStruct)
    (found : List FuncInfoStruct × FuncInfoStruct) :
    printed va (aosPushString callTrace func.name).2 found = printed va callTrace (func :: found.1, found.2) := by
  rw [printed, printed, aosStrings_push, List.append_assoc, List.singleton_append, List.map_cons]

theorem printCallTrace_push (callTrace : DynamicAOS) (func : FuncInfoStruct) :
    printCallTrace func va (aosPushString callTrace func.name).2 = [printed va callTrace ([func], func)] := by
  rw [printCallTrace, if_neg (by rw [count_push]; exact Nat.succ_ne_zero _), printed, aosStrings_push]
  rfl

theorem traceVaOverlap_eq (va : VarAccessStruct) (tree : FuncTree) : ∀ callTrace, traceVaOverlap va tree callTrace =
    ((search isClosed (contains va) tree).map (printed va callTrace), callTrace) := by
  induction tree using childInduction with
  | hnode func callees ih =>
      have hcallees : ∀ callTrace, traceCallees va callees callTrace =
          ((searchAll isClosed (contains va) callees).map (printed va callTrace), callTrace) := by
        induction callees with
        | nil => exact fun _ => rfl
        | cons callee callees ihs =>
            intro callTrace
            rw [traceCallees, ih callee List.mem_cons_self, ihs fun c hc => ih c (List.mem_cons_of_mem _ hc),
              searchAll, List.map_append]
      intro callTrace
      have hpop : ∀ traces : List CallTrace, ((traces, (aosPushString callTrace func.name).2).1,
          (aosPopString (traces, (aosPushString callTrace func.name).2).2).2) = (traces, callTrace) := by
        intro traces
        rw [pop_push]
      rw [traceVaOverlap, search]
      by_cases hclosed : isClosed func = true
      · rw [if_pos hclosed, if_pos hclosed, hpop, List.map_nil]
      · rw [if_neg hclosed, if_neg hclosed]
        by_cases hhit : contains va func = true
        · rw [if_pos hhit, if_pos hhit, hpop, printCallTrace_push, List.map_singleton]
        · rw [if_neg hhit, if_neg hhit, hcallees, hpop, List.map_map]
          congr 1
          apply List.map_congr_left
          intro found _
          exact printed_push va callTrace func found

theorem mem_spliceFootprints {vas : List VarAccessStruct} {fps : List (List VarAccessStruct)}
    (h : va ∈ spliceFootprints vas fps) : va ∈ vas ∨ ∃ fp ∈ fps, va ∈ fp := by
  induction vas generalizing fps with
  | nil => cases h
  | cons working vas ih =>
      rw [spliceFootprints.eq_def] at h
      dsimp only at h
      split at h
      next =>
        cases fps with
        | nil => exact (ih h).imp_left (List.mem_cons_of_mem _)
        | cons fp fps =>
            rcases List.mem_append.mp h with h | h
            · exact .inr ⟨fp, List.mem_cons_self, h⟩
            · apply (ih h).imp (List.mem_cons_of_mem _)
              rintro ⟨fp', hfp', hva⟩
              exact ⟨fp', List.mem_cons_of_mem _ hfp', hva⟩
      next =>
        split at h
        next => exact (ih h).imp_left (List.mem_cons_of_mem _)
        next =>
          rcases List.mem_cons.mp h with rfl | h
          · exact .inl List.mem_cons_self
          · exact (ih h).imp_left (List.mem_cons_of_mem _)

theorem calleeFootprints_eq (callees : List FuncTree) :
    calleeFootprints callees = callees.map buildVarAccessFootprint := by
  induction callees with
  | nil => rfl
  | cons callee callees ih => rw [calleeFootprints, ih, List.map_cons]

/-- An entry of the footprint comes from a function whose callers are all entered. -/
theorem reaches_of_footprint {tree : FuncTree} (h : va ∈ buildVarAccessFootprint tree) :
    ∃ path func, Reaches isClosed tree path func ∧ va ∈ func.label.varAccesses := by
  induction tree using childInduction with
  | hnode func callees ih =>
      rw [buildVarAccessFootprint] at h
      split at h
      next => cases h
      next hopen =>
        have hroot : isClosed (node func callees).label = false := Bool.eq_false_iff.mpr hopen
        rcases mem_spliceFootprints h with hva | ⟨fp, hfp, hva⟩
        · exact ⟨[], _, reaches_self hroot, hva⟩
        · rw [calleeFootprints_eq] at hfp
          obtain ⟨callee, hcallee, rfl⟩ := List.mem_map.mp hfp
          obtain ⟨path, sub, hreach, hsub⟩ := ih callee hcallee hva
          obtain ⟨i, hi⟩ := List.mem_iff_getElem?.mp hcallee
          exact ⟨i :: path, sub, hreach.cons hroot hi, hsub⟩

theorem countP_contains_le (funcs : List FuncInfoStruct) (va : VarAccessStruct) :
    funcs.countP (contains va) ≤ (funcs.flatMap FuncInfoStruct.varAccesses).count va := by
  induction funcs with
  | nil => exact Nat.zero_le _
  | cons func funcs ih =>
      rw [List.countP_cons, List.flatMap_cons, List.count_append]
      split
      next hhit =>
        have hpos := List.count_pos_iff.mpr (contains_iff.mp hhit)
        omega
      next => omega

theorem contains_once {tree func : FuncTree} {path : List Nat} (hown : OwnUsrs tree) (hlive : va.live = true)
    (hat : tree.subtreeAt path = some func) (hva : va ∈ func.label.varAccesses) :
    (labels tree).countP (contains va) = 1 := by
  have hpos := countP_pos_of_subtreeAt hat (contains_iff.mpr hva)
  have hcount := countP_contains_le (labels tree) va
  have hnodup : ((entries tree).filter VarAccessStruct.live).Nodup := List.Nodup.of_map _ hown
  have honce := List.nodup_iff_count_le_one.mp hnodup va
  rw [List.count_filter hlive] at honce
  exact Nat.le_antisymm (hcount.trans honce) hpos

end Search

/-- Every access of a footprint gets one trace, along the path to its function. -/
theorem footprint_traced {tree : FuncTree} {va : VarAccessStruct} (hown : OwnUsrs tree)
    (hva : va ∈ buildVarAccessFootprint tree) (hlive : va.live = true) : ∃ path func, TracedTo tree va path func := by
  obtain ⟨path, func, hreach, hfunc⟩ := reaches_of_footprint hva
  have honce := contains_once hown hlive hreach.at_path hfunc
  have hhit := contains_iff.mpr hfunc
  refine ⟨path, func, hreach.at_path, hfunc, fun path' func' hat hfunc' => ?_, fun callTrace => ?_⟩
  · exact hit_path_unique honce hat hreach.at_path (contains_iff.mpr hfunc') hhit
  · rw [traceVaOverlap_eq, search_eq_singleton hreach hhit honce]
    rfl

def structOf (usr : UInt64) (type : VarAccessType) : VarAccessStruct :=
  ⟨usr, 16, 32, 0, 0, 4294967295, 3, 5, type, false, Vector.replicate 7 0⟩

def funcOf (id : Nat) (name : CString) (varAccesses : List VarAccessStruct) : FuncInfoStruct :=
  ⟨definitionOf id "f" [] [], name, name, name, [], [], varAccesses, false, true⟩

def writerCaller : FuncTree :=
  .node (funcOf 1 ⟨[109], by decide, by decide⟩ [structOf 0 .call, structOf 0 .call])
    [.node (funcOf 2 ⟨[102], by decide, by decide⟩ [structOf 4096 .write]) [],
      .node (funcOf 3 ⟨[103], by decide, by decide⟩ [structOf 8192 .write]) []]

theorem writerCaller_traced : ∃ path func, TracedTo writerCaller (structOf 8192 .write) path func :=
  footprint_traced (by decide) (by decide) rfl

end Prongc.CallTraces
