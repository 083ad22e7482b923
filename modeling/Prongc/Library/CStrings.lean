import Mathlib.Algebra.Group.Nat.Defs
import Prongc.Library.Separator

namespace Prongc.Library.CStrings

open Library.Separator

/-- A string of C: bytes without a zero, fewer than there are addresses. -/
structure CString where
  bytes : List UInt8
  terminated : 0 ∉ bytes
  addressable : bytes.length < 2 ^ 64

/-- The bytes of a text. A text that stands for a string of C has one character for each byte. -/
def ascii (text : String) : List UInt8 := text.toList.map Char.toUInt8

def chars (bytes : List UInt8) : List Char := bytes.map fun b => Char.ofNat b.toNat

def text (bytes : List UInt8) : String := String.ofList (chars bytes)

def strlen (text : String) : Nat := (ascii text).length

def decimal (n : Nat) : List UInt8 := ascii (toString n)

def strstrBytes (haystack needle : List UInt8) : Option (List UInt8) :=
  haystack.tails.find? (needle.isPrefixOf ·)

/-- What a buffer of a size holds of a text. -/
def snprintf (size : Nat) (text : List UInt8) : List UInt8 := text.take (size - 1)

section Texts

theorem ascii_append (s t : String) : ascii (s ++ t) = ascii s ++ ascii t := by
  rw [ascii, String.toList_append, List.map_append]
  rfl

theorem strlen_append (s t : String) : strlen (s ++ t) = strlen s + strlen t := by
  rw [strlen, ascii_append, List.length_append]
  rfl

theorem toUInt8_ofNat (b : UInt8) : (Char.ofNat b.toNat).toUInt8 = b := by
  have hvalid : b.toNat.isValidChar := .inl (Nat.lt_trans b.toNat_lt (by decide))
  have hnat : (Char.ofNat b.toNat).toNat = b.toNat := by
    rw [Char.ofNat, dif_pos hvalid]
    rfl
  apply UInt8.toNat_inj.mp
  change (Char.ofNat b.toNat).toNat % 256 = b.toNat
  rw [hnat, Nat.mod_eq_of_lt b.toNat_lt]

theorem map_toUInt8_chars (bytes : List UInt8) : (chars bytes).map Char.toUInt8 = bytes := by
  rw [chars, List.map_map]
  conv_rhs => rw [← List.map_id bytes]
  exact List.map_congr_left fun b _ => toUInt8_ofNat b

theorem ascii_text (bytes : List UInt8) : ascii (text bytes) = bytes := by
  rw [ascii, text, String.toList_ofList, map_toUInt8_chars]

theorem text_append (s t : List UInt8) : text (s ++ t) = text s ++ text t := by
  rw [text, chars, List.map_append, String.ofList_append]
  rfl

end Texts

section Digits

theorem toUInt8_injective {c d : Char} (hc : c.toNat < 256) (hd : d.toNat < 256)
    (h : c.toUInt8 = d.toUInt8) : c = d := by
  have hval := congrArg UInt8.toNat h
  simp only [Char.toUInt8, UInt32.toNat_toUInt8] at hval
  apply Char.toNat_inj.mp
  change c.toNat % 256 = d.toNat % 256 at hval
  rwa [Nat.mod_eq_of_lt hc, Nat.mod_eq_of_lt hd] at hval

theorem ascii_injective {text text' : List Char} (h : ∀ c ∈ text, c.toNat < 256)
    (h' : ∀ c ∈ text', c.toNat < 256) (heq : text.map Char.toUInt8 = text'.map Char.toUInt8) :
    text = text' := by
  induction text generalizing text' with
  | nil => exact (List.map_eq_nil_iff.mp heq.symm).symm
  | cons c text ih =>
      obtain ⟨d, rest, rfl, hd, hrest⟩ := List.map_eq_cons_iff.mp heq.symm
      rw [toUInt8_injective (h c List.mem_cons_self) (h' d List.mem_cons_self) hd.symm,
        ih (fun c hc => h c (List.mem_cons_of_mem _ hc)) (fun c hc => h' c (List.mem_cons_of_mem _ hc)) hrest.symm]

theorem toList_toString (n : Nat) : (toString n).toList = Nat.toDigits 10 n := by simp

theorem digit_lt {n : Nat} {c : Char} (h : c ∈ Nat.toDigits 10 n) : c.toNat < 256 := by
  have hdigit := Nat.isDigit_of_mem_toDigits (by decide) (by decide) h
  rw [Char.isDigit, Bool.and_eq_true, decide_eq_true_eq, decide_eq_true_eq] at hdigit
  have hle : c.toNat ≤ 57 := hdigit.2
  omega

theorem decimal_injective {m n : Nat} (h : decimal m = decimal n) : m = n := by
  rw [decimal, decimal, ascii, ascii, toList_toString, toList_toString] at h
  exact toDigits_injective (ascii_injective (fun c hc => digit_lt hc) (fun c hc => digit_lt hc) h)

theorem colon_not_mem_decimal (n : Nat) : Char.toUInt8 ':' ∉ decimal n := by
  intro h
  rw [decimal, ascii, toList_toString] at h
  obtain ⟨c, hc, hcolon⟩ := List.mem_map.mp h
  rw [toUInt8_injective (digit_lt hc) (by decide) hcolon] at hc
  exact not_mem_toDigits rfl n hc

theorem decimal_length_le {n k : Nat} (hk : 0 < k) (h : n < 10 ^ k) : (decimal n).length ≤ k := by
  rw [decimal, ascii, List.length_map, toList_toString]
  exact (Nat.length_toDigits_le_iff (by decide) hk).mpr h

theorem decimal_colon_inj {m n : Nat} {s t : List UInt8}
    (h : decimal m ++ (ascii ":" ++ s) = decimal n ++ (ascii ":" ++ t)) : m = n ∧ s = t := by
  obtain ⟨hdecimal, hrest⟩ := append_cons_inj (colon_not_mem_decimal m) (colon_not_mem_decimal n) h
  exact ⟨decimal_injective hdecimal, hrest⟩

end Digits

theorem chars_ascii {l : List Char} (h : ∀ c ∈ l, c.toNat < 256) : chars (l.map Char.toUInt8) = l := by
  rw [chars, List.map_map]
  conv_rhs => rw [← List.map_id l]
  apply List.map_congr_left
  intro c hc
  have hbyte : c.toUInt8.toNat = c.toNat := Nat.mod_eq_of_lt (h c hc)
  rw [Function.comp_apply, hbyte]
  exact Char.ofNat_toNat c

end Prongc.Library.CStrings
