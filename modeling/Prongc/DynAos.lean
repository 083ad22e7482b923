import Prongc.Library.CStrings
import Prongc.ParseCall

namespace Prongc.DynAos

open ParseCall Library.CStrings Library.Separator

def packedData (strs : List CString) : List UInt8 := strs.flatMap fun str => str.bytes ++ [0]

def startsFrom : Nat → List CString → List Nat
  | _, [] => []
  | offset, str :: strs => offset :: startsFrom (offset + (str.bytes.length + 1)) strs

/-- Strings in one block, each behind the terminator of the one before. A pointer to a string is
its offset in the block, which stays the same when the block moves. -/
structure DynamicAOS where
  data : List UInt8
  strings : List Nat
  packed : ∃ strs, data = packedData strs ∧ strings = startsFrom 0 strs

namespace DynamicAOS

variable (array : DynamicAOS)

def size : Nat := array.data.length

def count : Nat := array.strings.length

end DynamicAOS

def stringFrom (data : List UInt8) (offset : Nat) : List UInt8 := (data.drop offset).takeWhile (· ≠ 0)

def aosStrings (array : DynamicAOS) : List (List UInt8) := array.strings.map (stringFrom array.data)

theorem packedData_append (strs strs' : List CString) :
    packedData (strs ++ strs') = packedData strs ++ packedData strs' := List.flatMap_append

theorem packedData_singleton (str : CString) : packedData [str] = str.bytes ++ [0] := by
  rw [packedData, List.flatMap_singleton]

theorem startsFrom_append (offset : Nat) (strs strs' : List CString) :
    startsFrom offset (strs ++ strs') =
      startsFrom offset strs ++ startsFrom (offset + (packedData strs).length) strs' := by
  induction strs generalizing offset with
  | nil => rfl
  | cons str strs ih =>
      have hlength : (packedData (str :: strs)).length = str.bytes.length + 1 + (packedData strs).length := by
        rw [← List.singleton_append, packedData_append, packedData_singleton, List.length_append,
          List.length_append, List.length_singleton]
      rw [List.cons_append, startsFrom, startsFrom, ih, List.cons_append, hlength, Nat.add_assoc offset]

theorem stringFrom_append (front : List UInt8) (str : CString) (rest : List UInt8) :
    stringFrom (front ++ (str.bytes ++ 0 :: rest)) front.length = str.bytes := by
  rw [stringFrom, List.drop_left, (takeWhile_of_not_mem str.terminated rest).1]

theorem strings_packed (front : List UInt8) (strs : List CString) :
    (startsFrom front.length strs).map (stringFrom (front ++ packedData strs)) = strs.map CString.bytes := by
  induction strs generalizing front with
  | nil => rfl
  | cons str strs ih =>
      have hdata : packedData (str :: strs) = str.bytes ++ 0 :: packedData strs := by
        rw [← List.singleton_append, packedData_append, packedData_singleton, List.append_assoc, List.singleton_append]
      have hfront : (front ++ (str.bytes ++ [0])).length = front.length + (str.bytes.length + 1) := by
        rw [List.length_append, List.length_append, List.length_singleton]
      have hrest := ih (front ++ (str.bytes ++ [0]))
      rw [hfront, List.append_assoc, List.append_assoc, List.singleton_append] at hrest
      rw [startsFrom, List.map_cons, List.map_cons, hdata, stringFrom_append, hrest]

theorem aosStrings_of_packed {array : DynamicAOS} {strs : List CString} (hdata : array.data = packedData strs)
    (hstrings : array.strings = startsFrom 0 strs) : aosStrings array = strs.map CString.bytes := by
  rw [aosStrings, hdata, hstrings]
  exact strings_packed [] strs

def initAos : DynamicAOS := ⟨[], [], [], rfl, rfl⟩

theorem push_packed (array : DynamicAOS) (str : CString) : ∃ strs,
    array.data ++ (str.bytes ++ [0]) = packedData strs ∧ array.strings ++ [array.size] = startsFrom 0 strs := by
  obtain ⟨strs, hdata, hstrings⟩ := array.packed
  refine ⟨strs ++ [str], ?_, ?_⟩
  · rw [packedData_append, packedData_singleton, hdata]
  · rw [startsFrom_append, hstrings, DynamicAOS.size, hdata, Nat.zero_add]
    rfl

/-- The string is copied behind the last one, in a block that has grown for it if needed. -/
def aosPushString (array : DynamicAOS) (str : CString) : ProngError × DynamicAOS :=
  (.ok, ⟨array.data ++ (str.bytes ++ [0]), array.strings ++ [array.size], push_packed array str⟩)

/-- The bytes left when the last string and its terminator are taken off the size. -/
def dataBefore (array : DynamicAOS) (last : Nat) : List UInt8 :=
  array.data.take (array.size - ((stringFrom array.data last).length + 1))

theorem pop_packed {array : DynamicAOS} {last : Nat} (hlast : array.strings.getLast? = some last) :
    ∃ strs, dataBefore array last = packedData strs ∧ array.strings.dropLast = startsFrom 0 strs := by
  obtain ⟨strs, hdata, hstrings⟩ := array.packed
  rcases List.eq_nil_or_concat strs with rfl | ⟨strs, str, rfl⟩
  · rw [hstrings] at hlast
    cases hlast
  · rw [List.concat_eq_append, packedData_append, packedData_singleton] at hdata
    rw [List.concat_eq_append, startsFrom_append, Nat.zero_add] at hstrings
    rw [hstrings, startsFrom, startsFrom, List.getLast?_concat] at hlast
    obtain rfl := Option.some.inj hlast
    refine ⟨strs, ?_, ?_⟩
    · have hstring : stringFrom array.data (packedData strs).length = str.bytes := by
        rw [hdata]
        exact stringFrom_append _ str []
      rw [dataBefore, hstring, DynamicAOS.size, hdata, List.length_append, List.length_append, List.length_singleton,
        Nat.add_sub_cancel, List.take_left]
    · rw [hstrings, startsFrom, startsFrom, List.dropLast_concat]

def aosPopString (array : DynamicAOS) : ProngError × DynamicAOS :=
  match hlast : array.strings.getLast? with
  | none => (.aosEmpty, array)
  | some last => (.ok, ⟨dataBefore array last, array.strings.dropLast, pop_packed hlast⟩)

theorem count_push (array : DynamicAOS) (str : CString) : (aosPushString array str).2.count = array.count + 1 := by
  rw [DynamicAOS.count, aosPushString, List.length_append, List.length_singleton, DynamicAOS.count]

theorem aosStrings_push (array : DynamicAOS) (str : CString) :
    aosStrings (aosPushString array str).2 = aosStrings array ++ [str.bytes] := by
  obtain ⟨strs, hdata, hstrings⟩ := array.packed
  have hpushed : aosStrings (aosPushString array str).2 = (strs ++ [str]).map CString.bytes := by
    apply aosStrings_of_packed
    · rw [packedData_append, packedData_singleton, ← hdata]
      rfl
    · rw [startsFrom_append, ← hstrings, Nat.zero_add, ← hdata]
      rfl
  rw [hpushed, aosStrings_of_packed hdata hstrings, List.map_append, List.map_singleton]

/-- Popping takes back what was pushed last, down to the bytes. -/
theorem pop_push (array : DynamicAOS) (str : CString) :
    aosPopString (aosPushString array str).2 = (.ok, array) := by
  have hlast : (aosPushString array str).2.strings.getLast? = some array.size := List.getLast?_concat
  have hstring : stringFrom (aosPushString array str).2.data array.size = str.bytes := stringFrom_append _ str []
  have hdata : dataBefore (aosPushString array str).2 array.size = array.data := by
    rw [dataBefore, hstring, DynamicAOS.size, aosPushString, List.length_append, List.length_append,
      List.length_singleton, Nat.add_sub_cancel, List.take_left]
  have hstrings : (aosPushString array str).2.strings.dropLast = array.strings := List.dropLast_concat
  rw [aosPopString]
  split
  next hnone =>
    rw [hlast] at hnone
    cases hnone
  next last hsome =>
    obtain rfl := Option.some.inj (hlast.symm.trans hsome)
    simp only [hdata, hstrings]

end Prongc.DynAos
