import Prongc.Library.CStrings

namespace Prongc.ArtificialUsr

open Library.Separator Library.CStrings

structure ArgName extends CString where
  nonempty : bytes ≠ []

def hashBytes (name : List UInt8) : UInt32 :=
  name.foldl (fun hash c => ((hash <<< 5) + hash) + c.toUInt32) 5381

def fieldAccess (usr : List UInt8) : Option (List UInt8) := strstrBytes usr (ascii "::")

/-- p:<hash>:<namelen>:<name> -/
def namePart (name : List UInt8) : List UInt8 :=
  ascii "p:" ++ decimal (hashBytes name).toNat ++ ascii ":" ++ decimal name.length ++ ascii ":" ++ name

def generateBytes (name oldUsr : List UInt8) : List UInt8 :=
  let bufferSize := 64 + name.length
  if name.length > 0 then snprintf bufferSize (namePart name ++ (fieldAccess oldUsr).getD [])
  else snprintf bufferSize (ascii "p:null:unnamed")

/-- Equal USRs are generated exactly for the same argument and the same member path. -/
def InjectiveAt (a b u v : List UInt8) : Prop :=
  generateBytes a u = generateBytes b v ↔ a = b ∧ fieldAccess u = fieldAccess v

/-- The bytes that the buffer for a name has room for behind the name. -/
def room (name : List UInt8) : Nat :=
  59 - ((decimal (hashBytes name).toNat).length + (decimal name.length).length)

def keptAccess (name usr : List UInt8) : List UInt8 := ((fieldAccess usr).getD []).take (room name)

section Generated

theorem generateBytes_marked (name usr : List UInt8) : ∃ rest, generateBytes name usr = ascii "p:" ++ rest := by
  have hcut : ∀ (size : Nat) (rest : List UInt8), 2 < size → ∃ rest', snprintf size (ascii "p:" ++ rest) =
      ascii "p:" ++ rest' := by
    intro size rest hsize
    refine ⟨rest.take (size - 1 - 2), ?_⟩
    rw [snprintf, List.take_append, List.take_of_length_le (show (ascii "p:").length ≤ size - 1 by
      rw [show (ascii "p:").length = 2 from rfl]; omega)]
    rfl
  rw [generateBytes]
  split
  · simp only [namePart, List.append_assoc]
    exact hcut _ _ (by omega)
  · exact hcut _ (ascii "null:unnamed") (by omega)

/-- The text tells which argument it is for and what stands behind the name. -/
theorem namePart_inj {a b s t : List UInt8} (h : namePart a ++ s = namePart b ++ t) : a = b ∧ s = t := by
  simp only [namePart, List.append_assoc] at h
  obtain ⟨-, hlength⟩ := decimal_colon_inj (List.append_cancel_left h)
  obtain ⟨hsize, hname⟩ := decimal_colon_inj hlength
  exact List.append_inj hname hsize

theorem namePart_length (name : List UInt8) : (namePart name).length =
    4 + ((decimal (hashBytes name).toNat).length + (decimal name.length).length) + name.length := by
  have hcolon : (ascii ":").length = 1 := rfl
  have hp : (ascii "p:").length = 2 := rfl
  simp only [namePart, List.length_append, hcolon, hp]
  omega

theorem room_spec (name : CString) :
    29 ≤ room name.bytes ∧ (namePart name.bytes).length + room name.bytes = 63 + name.bytes.length := by
  have hhash : (decimal (hashBytes name.bytes).toNat).length ≤ 10 :=
    decimal_length_le (by decide) (Nat.lt_trans (hashBytes name.bytes).toNat_lt (by decide))
  have hlength : (decimal name.bytes.length).length ≤ 20 :=
    decimal_length_le (by decide) (Nat.lt_trans name.addressable (by decide))
  rw [namePart_length, room]
  omega

theorem generateBytes_eq (name : ArgName) (usr : List UInt8) :
    generateBytes name.bytes usr = namePart name.bytes ++ keptAccess name.bytes usr := by
  have hpos : name.bytes.length > 0 := List.length_pos_iff.mpr name.nonempty
  obtain ⟨-, hroom⟩ := room_spec name.toCString
  have hsize : 64 + name.bytes.length - 1 = (namePart name.bytes).length + room name.bytes := by omega
  rw [generateBytes, if_pos hpos, snprintf, hsize, List.take_length_add_append, keptAccess]

theorem getD_fieldAccess_inj {u v : List UInt8}
    (h : (fieldAccess u).getD [] = (fieldAccess v).getD []) : fieldAccess u = fieldAccess v := by
  have hfound : ∀ usr, fieldAccess usr ≠ some [] := by
    intro usr hempty
    have hstarts := List.find?_some hempty
    revert hstarts
    decide
  cases hu : fieldAccess u with
  | none =>
      cases hv : fieldAccess v with
      | none => rfl
      | some path =>
          rw [hu, hv] at h
          exact absurd (hv.trans (congrArg some h.symm)) (hfound v)
  | some path =>
      cases hv : fieldAccess v with
      | none =>
          rw [hu, hv] at h
          exact absurd (hu.trans (congrArg some h)) (hfound u)
      | some path' =>
          rw [hu, hv] at h
          exact congrArg some h

/-- Artificial USRs are injective exactly if member paths of one argument differ within what the buffer
has room for. -/
theorem injectiveAt_iff (a b : ArgName) (u v : CString) : InjectiveAt a.bytes b.bytes u.bytes v.bytes ↔
    (a.bytes = b.bytes → keptAccess a.bytes u.bytes = keptAccess a.bytes v.bytes →
      fieldAccess u.bytes = fieldAccess v.bytes) := by
  rw [InjectiveAt, generateBytes_eq, generateBytes_eq]
  constructor
  · intro h hname hkept
    exact (h.mp (by rw [hkept, hname])).2
  · intro h
    constructor
    · intro heq
      obtain ⟨hname, hkept⟩ := namePart_inj heq
      rw [← hname] at hkept
      exact ⟨hname, h hname hkept⟩
    · rintro ⟨hname, haccess⟩
      rw [hname, keptAccess, keptAccess, haccess]

theorem injectiveAt_of_short (a b : ArgName) (u v : CString)
    (hu : ((fieldAccess u.bytes).getD []).length ≤ 29) (hv : ((fieldAccess v.bytes).getD []).length ≤ 29) :
    InjectiveAt a.bytes b.bytes u.bytes v.bytes := by
  rw [injectiveAt_iff]
  intro _ hkept
  have hroom := (room_spec a.toCString).1
  rw [keptAccess, keptAccess, List.take_of_length_le (by omega), List.take_of_length_le (by omega)] at hkept
  exact getD_fieldAccess_inj hkept

end Generated

/-- Two members of p->session_parameters.retransmission_interval get one USR. -/
theorem longMembers_confused :
    generateBytes (ascii "p") (ascii "c:@p::session_parameters::retransmission_interval::limit_min") =
        generateBytes (ascii "p") (ascii "c:@p::session_parameters::retransmission_interval::limit_max") ∧
      fieldAccess (ascii "c:@p::session_parameters::retransmission_interval::limit_min") ≠
        fieldAccess (ascii "c:@p::session_parameters::retransmission_interval::limit_max") := by
  decide +kernel

end Prongc.ArtificialUsr
