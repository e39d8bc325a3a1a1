import Mathlib.Data.List.TakeWhile
import SocketPlusPlus.Logic.Decimal
import SocketPlusPlus.Protocol.Ftp

/-!
# `sockinetaddr`

An internet address and a port, both in network order. A port can be given as a number or as the
name of a service: `setport` takes a text that starts with a digit for a number.

`atoi` is specified by the C standard for the texts whose number an `int` can hold, and by nothing
for the others. The result says which texts give the port that they name.
-/

namespace Sockstream.Ftp

open Exec Bytes

/-- `atoi` of the C library, for texts that start with a digit. -/
structure Atoi where
  run : List UInt8 → Int
  spec : ∀ s, Decimal.value (s.takeWhile Decimal.isDigit) < 2 ^ 31 →
    run s = Decimal.value (s.takeWhile Decimal.isDigit)

/-- A library that computes modulo `2 ^ 32`. -/
def Atoi.wrapping : Atoi where
  run s := ((Decimal.value (s.takeWhile Decimal.isDigit) : Int) + 2 ^ 31) % 2 ^ 32 - 2 ^ 31
  spec s h := by omega

/-- `getservbyname`: the port of a service, in network order. -/
abbrev Services := List UInt8 → Option (List UInt8) → Option UInt16

/-- `htons` of an `int`. -/
def portOf (e : Endian) (portNo : Int) : UInt16 := UInt16.ofNat (e.htons (portNo % 65536).toNat)

namespace SockInetAddr

/-- `sockinetaddr(unsigned long addr, int port_no)` -/
def ofAddr (e : Endian) (addr : Nat) (portNo : Int) : SockInetAddr :=
  ⟨UInt32.ofNat (e.htonl addr), portOf e portNo⟩

/-- `setport(const char* sn, const char* pn)` -/
def setport (A : Atoi) (S : Services) (e : Endian) (sn : List UInt8) (pn : Option (List UInt8)) :
    EStateM Exc SockInetAddr Unit :=
  if sn.head?.any Decimal.isDigit then modify fun sa => { sa with sinPort := portOf e (A.run sn) }
  else
    match S sn pn with
    | none => throw (.sockerr (.ofOperation EADDRNOTAVAIL "sockinetaddr::setport"))
    | some sPort => modify fun sa => { sa with sinPort := sPort }

/-- `getport()` -/
def getport (e : Endian) (sa : SockInetAddr) : Nat := e.ntohs sa.sinPort.toNat

end SockInetAddr

section Ports

variable (e : Endian)

theorem toNat_portOf (portNo : Int) :
    (portOf e portNo).toNat = e.htons (portNo % 65536).toNat := by
  unfold portOf
  rw [UInt16.toNat_ofNat']
  exact Nat.mod_eq_of_lt (e.htons_lt _)

/-- Only the lowest 16 bits of an `int` become the port. -/
theorem ntohs_portOf (portNo : Int) :
    e.ntohs (portOf e portNo).toNat = (portNo % 65536).toNat := by
  rw [toNat_portOf]
  apply e.ntohs_htons
  show (portNo % 65536).toNat < 65536
  omega

theorem ntohl_ofAddr {addr : Nat} (h : addr < 2 ^ 32) (portNo : Int) :
    e.ntohl (SockInetAddr.ofAddr e addr portNo).sAddr.toNat = addr := by
  show e.ntohl (UInt32.ofNat (e.htonl addr)).toNat = addr
  have hlt : e.htonl addr < 2 ^ 32 := e.htonl_lt addr
  rw [UInt32.toNat_ofNat', Nat.mod_eq_of_lt hlt]
  exact e.ntohl_htonl h

end Ports

/-! ## Numbers as service names

`setport` reads a text that starts with a digit by `atoi`, which stops at the first character that
is none. -/

/-- The text is the decimal number of a port. -/
def NamesPort (sn : List UInt8) : Prop := sn.all Decimal.isDigit = true ∧ Decimal.value sn ≤ 65535

instance (sn : List UInt8) : Decidable (NamesPort sn) := inferInstanceAs (Decidable (_ ∧ _))

/-- What is expected of `setport` and a `getport` behind it: the number, where there is one, and an
exception otherwise. -/
def PortSet (A : Atoi) (S : Services) (e : Endian) (sn : List UInt8) (pn : Option (List UInt8))
    (sa : SockInetAddr) : Prop :=
  wp (SockInetAddr.setport A S e sn pn)
    (fun _ sa' => NamesPort sn ∧ sa'.getport e = Decimal.value sn)
    (fun _ _ => ¬ NamesPort sn) sa

section Setport

variable (A : Atoi) (S : Services) (e : Endian) {sn : List UInt8} (pn : Option (List UInt8))
  (sa : SockInetAddr)

/-- A text that starts with a digit is never refused. -/
theorem setport_digit (h : sn.head?.any Decimal.isDigit = true) :
    SockInetAddr.setport A S e sn pn sa = .ok () { sa with sinPort := portOf e (A.run sn) } := by
  unfold SockInetAddr.setport
  rw [if_pos h]
  rfl

/-- A number of at most 16 bits is read as it is. -/
theorem atoi_of_namesPort (h : NamesPort sn) : A.run sn = Decimal.value sn := by
  have hall : sn.takeWhile Decimal.isDigit = sn :=
    List.takeWhile_eq_self_iff.mpr (List.all_eq_true.mp h.1)
  have hlt : Decimal.value (sn.takeWhile Decimal.isDigit) < 2 ^ 31 := by
    have hle := h.2
    rw [hall]
    omega
  rw [A.spec sn hlt, hall]

/-- **Ports given as numbers.** For a text that starts with a digit, whatever the library does with
numbers beyond `int`, `setport` sets the port that the text names, or throws where it names none,
exactly if the text consists of digits and its value is at most 65535. -/
theorem setport_number_iff (h : sn.head?.any Decimal.isDigit = true) :
    PortSet A S e sn pn sa ↔ NamesPort sn := by
  unfold PortSet
  rw [wp_iff_of_ok (setport_digit A S e pn sa h)]
  constructor
  · exact fun hset => hset.1
  · intro hport
    refine ⟨hport, ?_⟩
    show e.ntohs (portOf e (A.run sn)).toNat = Decimal.value sn
    rw [ntohs_portOf, atoi_of_namesPort A hport]
    have hle := hport.2
    omega

end Setport

/-- The port 080. -/
theorem setport_number_iff_http :
    PortSet .wrapping (fun _ _ => none) .little [48, 56, 48] none ⟨0, 0⟩ ↔
      NamesPort [48, 56, 48] :=
  setport_number_iff .wrapping (fun _ _ => none) .little none ⟨0, 0⟩ (by decide)

/-- `70000` is more than a port can be, `80x` is no number, and the third is beyond `int`: they give
the ports 4464, 80 and 80. -/
theorem setport_takes_other_port :
    (attempt (SockInetAddr.setport .wrapping (fun _ _ => none) .little [55, 48, 48, 48, 48] none)
      ⟨0, 0⟩).2.getport .little = 4464 ∧
    (attempt (SockInetAddr.setport .wrapping (fun _ _ => none) .little [56, 48, 120] none)
      ⟨0, 0⟩).2.getport .little = 80 ∧
    (attempt (SockInetAddr.setport .wrapping (fun _ _ => none) .little
      [52, 50, 57, 52, 57, 54, 55, 51, 55, 54] none) ⟨0, 0⟩).2.getport .little = 80 ∧
    ¬ PortSet .wrapping (fun _ _ => none) .little [55, 48, 48, 48, 48] none ⟨0, 0⟩ ∧
    ¬ PortSet .wrapping (fun _ _ => none) .little [56, 48, 120] none ⟨0, 0⟩ := by
  refine ⟨by decide, by decide, by decide, ?_, ?_⟩
  · intro h
    have hport : NamesPort [55, 48, 48, 48, 48] := h.1
    revert hport
    decide
  · intro h
    have hport : NamesPort [56, 48, 120] := h.1
    revert hport
    decide

end Sockstream.Ftp
