import Prongc.CallTraces
import Prongc.CommandLine
import Prongc.TraceNames

namespace Prongc.TraceMode

open Access Ast Library.CStrings DynAos CallTraces Library.Traversal RoseTree Library.PathSearch

section Names

variable {σ ν τ : Type}

def traceStep (traced : σ → ν → Option Bool) (null : σ → σ) (print : σ → ν → τ) (st : σ × List τ) (name : ν) :
    Option (σ × List τ) :=
  (traced st.1 name).map fun isTraced => if isTraced then (null st.1, st.2 ++ [print st.1 name]) else st

/-- The first name that matches sees the entry itself, the others see it nulled. -/
def traceResult (null : σ → σ) (print : σ → ν → τ) (x : σ) : List ν → σ × List τ
  | [] => (x, [])
  | name :: names => (null x, print x name :: names.map (print (null x)))

variable {traced : σ → ν → Option Bool} {null : σ → σ} {print : σ → ν → τ} {x : σ} {names : List ν}
  {result : σ × List τ}

theorem traceSteps_nulled {printed : List τ}
    (hrun : names.foldlM (traceStep traced null print) (null x, printed) = some result)
    (hsame : ∀ x, traced (null x) = traced x) (hnull : ∀ x, null (null x) = null x) :
    result = (null x, printed ++ (names.filter fun name => traced x name == some true).map (print (null x))) := by
  induction names generalizing printed with
  | nil =>
      cases hrun
      simp
  | cons name names ih =>
      rw [List.foldlM_cons, traceStep, hsame] at hrun
      cases htraced : traced x name with
      | none =>
          rw [htraced] at hrun
          cases hrun
      | some isTraced =>
          rw [htraced, Option.map_some] at hrun
          cases isTraced with
          | false => rw [ih hrun, List.filter_cons_of_neg (by simp [htraced])]
          | true =>
              rw [if_pos rfl, hnull] at hrun
              rw [ih hrun, List.filter_cons_of_pos (by simp [htraced]), List.map_cons, List.append_assoc]
              rfl

theorem traceSteps_live (hrun : names.foldlM (traceStep traced null print) (x, []) = some result)
    (hsame : ∀ x, traced (null x) = traced x) (hnull : ∀ x, null (null x) = null x) :
    result = traceResult null print x (names.filter fun name => traced x name == some true) := by
  induction names with
  | nil =>
      cases hrun
      rfl
  | cons name names ih =>
      rw [List.foldlM_cons, traceStep] at hrun
      cases htraced : traced x name with
      | none =>
          rw [htraced] at hrun
          cases hrun
      | some isTraced =>
          rw [htraced, Option.map_some] at hrun
          cases isTraced with
          | false =>
              rw [List.filter_cons_of_neg (by simp [htraced])]
              exact ih hrun
          | true =>
              rw [List.filter_cons_of_pos (by simp [htraced])]
              exact traceSteps_nulled hrun hsame hnull

end Names

structure Tracing where
  varName : String
  access : VarAccessStruct
  callTraces : List CallTrace

def Tracing.read (mem : Memory) (tracing : Tracing) : TraceNames.VarTrace :=
  ⟨tracing.varName, tracing.access.read mem⟩

def nullify (va : VarAccessStruct) : VarAccessStruct := { va with type := .null }

section Loop

variable (mem : Memory) (globalUsrs : List String) (funcInfo : FuncTree)

def traceName (st : VarAccessStruct × List Tracing) (varName : String) : Option (VarAccessStruct × List Tracing) :=
  (TraceNames.isTraced globalUsrs (st.1.read mem) varName).map fun traced =>
    if traced then (nullify st.1, st.2 ++ [⟨varName, st.1, (traceVaOverlap st.1 funcInfo initAos).1⟩]) else st

def findExclusiveVaNames (traceVarNames : List String) (accessFootprint : List VarAccessStruct) :
    Option (List (VarAccessStruct × List Tracing)) :=
  accessFootprint.mapM fun va => traceVarNames.foldlM (traceName mem globalUsrs funcInfo) (va, [])

end Loop

section Refines

variable {mem : Memory} {globalUsrs traceVarNames : List String} {funcInfo : FuncTree}

theorem traceName_read (st : VarAccessStruct × List Tracing) (varName : String) :
    TraceNames.traceName globalUsrs (st.1.read mem, st.2.map (Tracing.read mem)) varName =
      (traceName mem globalUsrs funcInfo st varName).map fun st' =>
        (st'.1.read mem, st'.2.map (Tracing.read mem)) := by
  rw [TraceNames.traceName, traceName, Option.map_map]
  apply congrArg (Option.map · _)
  funext traced
  cases traced with
  | false => rfl
  | true => simp [nullify, VarAccess.nullify, VarAccessStruct.read, Tracing.read]

theorem traceNames_read (st : VarAccessStruct × List Tracing) :
    traceVarNames.foldlM (TraceNames.traceName globalUsrs) (st.1.read mem, st.2.map (Tracing.read mem)) =
      (traceVarNames.foldlM (traceName mem globalUsrs funcInfo) st).map fun st' =>
        (st'.1.read mem, st'.2.map (Tracing.read mem)) := by
  induction traceVarNames generalizing st with
  | nil => rfl
  | cons varName names ih =>
      rw [List.foldlM_cons, List.foldlM_cons, @traceName_read mem globalUsrs funcInfo]
      cases traceName mem globalUsrs funcInfo st varName with
      | none => rfl
      | some st' => exact ih st'

/-- Without the call traces it is the loop over the entries' texts. -/
theorem findExclusiveVaNames_read (fp : List VarAccessStruct) :
    TraceNames.findExclusiveVaNames globalUsrs traceVarNames (fp.map (VarAccessStruct.read mem)) =
      (findExclusiveVaNames mem globalUsrs funcInfo traceVarNames fp).map fun result =>
        (result.map fun entry => entry.1.read mem, result.flatMap fun entry => entry.2.map (Tracing.read mem)) := by
  rw [findExclusiveVaNames]
  induction fp with
  | nil => rfl
  | cons va fp ih =>
      have hfirst := @traceNames_read mem globalUsrs traceVarNames funcInfo (va, [])
      rw [List.map_cons, TraceNames.findExclusiveVaNames, List.mapM_cons, ih]
      simp only [List.map_nil] at hfirst
      rw [hfirst]
      cases traceVarNames.foldlM (traceName mem globalUsrs funcInfo) (va, []) with
      | none => rfl
      | some first =>
          cases fp.mapM fun va => traceVarNames.foldlM (traceName mem globalUsrs funcInfo) (va, []) with
          | none => rfl
          | some rest => rfl

end Refines

section Asked

variable {globalUsrs traceVarNames : List String} {fp : List VarAccess} {va : VarAccess} {varName : String}

/-- The trace name is for the entry: for its function and its name, or for its name if its variable is global. -/
def asked (globalUsrs : List String) (va : VarAccess) (varName : String) : Bool :=
  match TraceNames.markPostfixFuncName varName with
  | some (funcName, argName) => va.parentFuncName == funcName && va.name == some argName
  | none => va.name == some varName && va.usr.any globalUsrs.contains

/-- What is printed for an entry: the first name that is for it sees the entry, the others see it nulled. -/
def tracesOf (globalUsrs traceVarNames : List String) (va : VarAccess) : List TraceNames.VarTrace :=
  (traceResult VarAccess.nullify (fun va varName => ⟨varName, va⟩) va (traceVarNames.filter (asked globalUsrs va))).2

theorem asked_eq : (TraceNames.isTraced globalUsrs va varName == some true) = asked globalUsrs va varName := by
  rw [TraceNames.isTraced, asked]
  cases TraceNames.markPostfixFuncName varName with
  | some split =>
      obtain ⟨funcName, argName⟩ := split
      by_cases hfunc : funcName = va.parentFuncName
      · cases hname : va.name with
        | none => simp [TraceNames.strcmpEqual, hfunc]
        | some name => simp [TraceNames.strcmpEqual, hfunc, eq_comm]
      · simp [TraceNames.strcmpEqual, hfunc, Ne.symm hfunc]
  | none =>
      cases hname : va.name with
      | none => simp [TraceNames.strcmpEqual]
      | some name =>
          by_cases hvar : varName = name
          · cases husr : va.usr <;> simp [TraceNames.strcmpEqual, TraceNames.aosContainsString, hvar]
          · simp [TraceNames.strcmpEqual, hvar, Ne.symm hvar]

/-- Where the loops come to their end they print the traces of the entries in their order. -/
theorem findExclusiveVaNames_traces {result : List VarAccess × List TraceNames.VarTrace}
    (hrun : TraceNames.findExclusiveVaNames globalUsrs traceVarNames fp = some result) :
    result.2 = fp.flatMap (tracesOf globalUsrs traceVarNames) := by
  induction fp generalizing result with
  | nil =>
      cases hrun
      rfl
  | cons va fp ih =>
      rw [TraceNames.findExclusiveVaNames, Option.bind_eq_bind, Option.bind_eq_some_iff] at hrun
      obtain ⟨first, hfirst, hrun⟩ := hrun
      obtain ⟨rest, hrest, hrun⟩ := Option.bind_eq_some_iff.mp hrun
      cases hrun
      have hstep : TraceNames.traceName globalUsrs =
          traceStep (TraceNames.isTraced globalUsrs) VarAccess.nullify fun va varName => ⟨varName, va⟩ := rfl
      rw [hstep] at hfirst
      have hlive := traceSteps_live hfirst (fun _ => rfl) fun _ => rfl
      simp only [asked_eq] at hlive
      rw [List.flatMap_cons, ← ih hrest, hlive, tracesOf]

end Asked

def OwnStrings (tree : FuncTree) : Prop :=
  (((entries tree).filter fun va => va.live || va.usr != 0).map VarAccessStruct.usr).Nodup

instance (tree : FuncTree) : Decidable (OwnStrings tree) := inferInstanceAs (Decidable (List.Nodup _))

section Once

variable {mem : Memory} {globalUsrs traceVarNames : List String} {tree : FuncTree} {va : VarAccessStruct}

def matching (mem : Memory) (globalUsrs traceVarNames : List String) (va : VarAccessStruct) : List String :=
  traceVarNames.filter fun varName => TraceNames.isTraced globalUsrs (va.read mem) varName == some true

theorem OwnStrings.ownUsrs (h : OwnStrings tree) : OwnUsrs tree := by
  have hsub : ((entries tree).filter VarAccessStruct.live).Sublist
      ((entries tree).filter fun va => va.live || va.usr != 0) := by
    apply List.monotone_filter_right
    intro va hlive
    rw [hlive]
    rfl
  exact List.Nodup.sublist (hsub.map VarAccessStruct.usr) h

theorem mem_entries {path : List Nat} {func : FuncTree} (hat : tree.subtreeAt path = some func)
    (hva : va ∈ func.label.varAccesses) : va ∈ entries tree :=
  List.mem_flatMap.mpr ⟨func.label, mem_labels_of_subtreeAt hat, hva⟩

theorem trace_nullify (h : OwnStrings tree) (hva : va ∈ entries tree) (hlive : va.live = true) (husr : va.usr ≠ 0) :
    (traceVaOverlap (nullify va) tree initAos).1 = [] := by
  have hnone : nullify va ∉ entries tree := by
    intro hmem
    have hfilter : ∀ x ∈ entries tree, x.usr ≠ 0 →
        x ∈ (entries tree).filter fun va => va.live || va.usr != 0 := by
      intro x hx hx0
      exact List.mem_filter.mpr ⟨hx, by simp [hx0]⟩
    have heq : nullify va = va :=
      List.inj_on_of_nodup_map h (hfilter _ hmem husr) (hfilter va hva husr) rfl
    have hdead : (nullify va).live = false := rfl
    rw [heq, hlive] at hdead
    cases hdead
  rw [traceVaOverlap_eq, search_eq_nil tree, List.map_nil]
  intro func hfunc
  rw [Bool.eq_false_iff]
  intro hhit
  exact hnone (List.mem_flatMap.mpr ⟨func, hfunc, contains_iff.mp hhit⟩)

theorem traceNames_live {result : VarAccessStruct × List Tracing}
    (hrun : traceVarNames.foldlM (traceName mem globalUsrs tree) (va, []) = some result) :
    result = traceResult nullify (fun va varName => ⟨varName, va, (traceVaOverlap va tree initAos).1⟩) va
      (matching mem globalUsrs traceVarNames va) := by
  have hstep : traceName mem globalUsrs tree =
      traceStep (fun va varName => TraceNames.isTraced globalUsrs (va.read mem) varName) nullify
        fun va varName => ⟨varName, va, (traceVaOverlap va tree initAos).1⟩ := rfl
  rw [hstep] at hrun
  exact traceSteps_live hrun (fun _ => rfl) fun _ => rfl

theorem mapM_getElem? {α β : Type} {f : α → Option β} {l : List α} {result : List β} (h : l.mapM f = some result)
    {k : Nat} {x : α} (hk : l[k]? = some x) : ∃ y, result[k]? = some y ∧ f x = some y := by
  induction l generalizing result k with
  | nil => cases hk
  | cons z l ih =>
      rw [List.mapM_cons, Option.bind_eq_bind, Option.bind_eq_some_iff] at h
      obtain ⟨y, hy, h⟩ := h
      obtain ⟨rest, hrest, h⟩ := Option.bind_eq_some_iff.mp h
      cases h
      cases k with
      | zero =>
          obtain rfl := Option.some.inj hk
          exact ⟨y, rfl, hy⟩
      | succ k => exact ih hrest hk

/-- The way down to the function of an access is its one call trace. -/
theorem traceVaOverlap_own (h : OwnUsrs tree) (hva : va ∈ buildVarAccessFootprint tree) (hlive : va.live = true) :
    ∃ path func, tree.subtreeAt path = some func ∧ va ∈ func.label.varAccesses ∧ (traceVaOverlap va tree initAos).1 =
      [⟨(labelsTo path tree).map fun above => above.name.bytes, func.label.cursor, va⟩] := by
  obtain ⟨path, func, hreach, hfunc⟩ := reaches_of_footprint hva
  have honce := contains_once h hlive hreach.at_path hfunc
  refine ⟨path, func, hreach.at_path, hfunc, ?_⟩
  rw [traceVaOverlap_eq, search_eq_singleton hreach (contains_iff.mpr hfunc) honce]
  rfl

end Once

/-- However many trace names match an access, and whatever else is traced, its way down from the requested
function is printed once, under the first name that matches; the other names are printed without one. -/
theorem access_traced_once (mem : Memory) (globalUsrs traceVarNames : List String) {tree : FuncTree}
    (hown : OwnStrings tree) {result : List (VarAccessStruct × List Tracing)}
    (hrun : findExclusiveVaNames mem globalUsrs tree traceVarNames (buildVarAccessFootprint tree) = some result)
    {k : Nat} {va : VarAccessStruct} (hk : (buildVarAccessFootprint tree)[k]? = some va) (hlive : va.live = true)
    (husr : va.usr ≠ 0) :
    ∃ va' tracings, result[k]? = some (va', tracings) ∧
      tracings.map Tracing.varName = matching mem globalUsrs traceVarNames va ∧
      (tracings = [] → va' = va) ∧
      ∀ first rest, tracings = first :: rest → va' = nullify va ∧
        (∃ path func, tree.subtreeAt path = some func ∧ va ∈ func.label.varAccesses ∧ first.callTraces =
          [⟨(labelsTo path tree).map fun above => above.name.bytes, func.label.cursor, va⟩]) ∧
        ∀ later ∈ rest, later.callTraces = [] := by
  obtain ⟨⟨va', tracings⟩, hresult, hfold⟩ := mapM_getElem? hrun hk
  have hva := List.mem_of_getElem? hk
  obtain ⟨path, func, hat, hfunc, htrace⟩ := traceVaOverlap_own hown.ownUsrs hva hlive
  have hnone := trace_nullify hown (mem_entries hat hfunc) hlive husr
  have hentry := traceNames_live hfold
  refine ⟨va', tracings, hresult, ?_⟩
  cases hmatching : matching mem globalUsrs traceVarNames va with
  | nil =>
      rw [hmatching] at hentry
      cases hentry
      exact ⟨rfl, fun _ => rfl, fun first rest h => by cases h⟩
  | cons varName names =>
      rw [hmatching] at hentry
      cases hentry
      refine ⟨?_, ?_, ?_⟩
      · simp [Function.comp_def]
      · intro h
        cases h
      · intro first rest h
        obtain ⟨rfl, rfl⟩ := List.cons.inj h
        refine ⟨rfl, ⟨path, func, hat, hfunc, htrace⟩, fun later hlater => ?_⟩
        obtain ⟨name, -, rfl⟩ := List.mem_map.mp hlater
        exact hnone

/-- Both writes are to something named x; only the one at 8192 has the USR of the variable. -/
def writerMemory : Memory where
  string := fun address =>
    if address = 16 then some ⟨ascii "x", by decide, by decide⟩
    else if address = 4096 then some ⟨ascii "c:f@x", by decide, by decide⟩
    else if address = 8192 then some ⟨ascii "c:@x", by decide, by decide⟩ else none
  text := fun str => text str.bytes

/-- The access to x is asked for twice, and its way down is printed for the first time only. -/
theorem writerCaller_traced_once : ∃ va' first later result,
    findExclusiveVaNames writerMemory ["c:@x"] writerCaller ["x", "g@y", "x"] (buildVarAccessFootprint writerCaller) =
      some result ∧ result[1]? = some (va', [first, later]) ∧ va' = nullify (structOf 8192 .write) ∧
      (∃ path func, writerCaller.subtreeAt path = some func ∧
        structOf 8192 .write ∈ func.label.varAccesses ∧ first.callTraces =
          [⟨(labelsTo path writerCaller).map fun above => above.name.bytes, func.label.cursor,
            structOf 8192 .write⟩]) ∧ later.callTraces = [] := by
  have hdefined : (findExclusiveVaNames writerMemory ["c:@x"] writerCaller ["x", "g@y", "x"]
      (buildVarAccessFootprint writerCaller)).isSome = true := by decide +kernel
  obtain ⟨result, hrun⟩ := Option.isSome_iff_exists.mp hdefined
  obtain ⟨va', tracings, hresult, hnames, -, hmatched⟩ :=
    @access_traced_once writerMemory ["c:@x"] ["x", "g@y", "x"] writerCaller (by decide) result hrun 1
      (structOf 8192 .write) (by decide) rfl (by decide)
  have htwo : tracings.map Tracing.varName = ["x", "x"] := hnames
  obtain ⟨first, later, rfl⟩ := List.length_eq_two.mp ((List.length_map _).symm.trans (congrArg List.length htwo))
  obtain ⟨hnull, hfirst, hrest⟩ := hmatched first [later] rfl
  exact ⟨va', first, later, result, hrun, hresult, hnull, hfirst, hrest later List.mem_cons_self⟩

end Prongc.TraceMode
