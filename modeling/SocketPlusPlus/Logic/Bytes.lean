import Mathlib.Algebra.Group.Int.Defs
import Mathlib.Algebra.Group.Nat.Defs
import Mathlib.Data.List.Basic

/-!
# Byte orders

How an unsigned integer lies in memory. `Endian.encode n v` is the object representation of `v` in
an integer type of `n` bytes, and `Endian.decode` reads a representation back. `htonl` and `ntohl`
are defined by what they are for: the value whose representation on the host is the big-endian
representation of the argument, and the reverse.

`htonl` and `ntohl` take a 32-bit argument, `htons` and `ntohs` one of 16 bits, so a longer one
loses its higher bytes.
-/

namespace Bytes

/-! ## Positional notation

The lowest digit comes first. A number below `256 ^ n` and its `n` digits determine each other. -/

/-- The `n` lowest digits of `v` to the base 256, lowest first. -/
def digits : Nat → Nat → List UInt8
  | 0, _ => []
  | n + 1, v => UInt8.ofNat (v % 256) :: digits n (v / 256)

def value : List UInt8 → Nat
  | [] => 0
  | b :: bs => b.toNat + 256 * value bs

@[simp] theorem length_digits (n v : Nat) : (digits n v).length = n := by
  induction n generalizing v with
  | zero => rfl
  | succ n ih => rw [digits, List.length_cons, ih]

theorem value_digits {n v : Nat} (h : v < 256 ^ n) : value (digits n v) = v := by
  induction n generalizing v with
  | zero =>
    have hv : v = 0 := by simpa using h
    rw [hv]
    rfl
  | succ n ih =>
    have hrest : v / 256 < 256 ^ n := by
      apply Nat.div_lt_of_lt_mul
      rwa [Nat.pow_succ'] at h
    have hdigit : (UInt8.ofNat (v % 256)).toNat = v % 256 :=
      Nat.mod_eq_of_lt (Nat.mod_lt _ (by decide))
    rw [digits, value, ih hrest, hdigit]
    exact Nat.mod_add_div v 256

theorem value_lt (bs : List UInt8) : value bs < 256 ^ bs.length := by
  induction bs with
  | nil => exact Nat.one_pos
  | cons b bs ih =>
    have hb : b.toNat < 256 := b.toNat_lt
    rw [value, List.length_cons, Nat.pow_succ]
    omega

theorem digits_value (bs : List UInt8) : digits bs.length (value bs) = bs := by
  induction bs with
  | nil => rfl
  | cons b bs ih =>
    have hb : b.toNat < 256 := b.toNat_lt
    have hmod : (b.toNat + 256 * value bs) % 256 = b.toNat := by omega
    have hdiv : (b.toNat + 256 * value bs) / 256 = value bs := by omega
    rw [List.length_cons, digits, value, hmod, hdiv, ih, UInt8.ofNat_toNat]

theorem value_append (as bs : List UInt8) :
    value (as ++ bs) = value as + 256 ^ as.length * value bs := by
  induction as with
  | nil => simp [value]
  | cons a as ih =>
    rw [List.cons_append, value, ih, value, List.length_cons, Nat.pow_succ', Nat.mul_add,
      Nat.mul_assoc, Nat.add_assoc]

theorem value_append_zeros (n : Nat) (bs : List UInt8) :
    value (List.replicate n 0 ++ bs) = 256 ^ n * value bs := by
  induction n with
  | zero => simp
  | succ n ih =>
    rw [List.replicate_succ, List.cons_append, value, ih, Nat.pow_succ']
    simp [Nat.mul_assoc]

theorem digits_zero (n : Nat) : digits n 0 = List.replicate n 0 := by
  induction n with
  | zero => rfl
  | succ n ih =>
    rw [digits, Nat.zero_div, ih]
    rfl

theorem value_digits_mul (n v : Nat) :
    value (digits (n + 1) (256 * v)) = 256 * value (digits n v) := by
  rw [digits, value, Nat.mul_mod_right, Nat.mul_div_cancel_left _ (by decide)]
  simp

theorem digits_mul (n v : Nat) : digits n (256 ^ n * v) = List.replicate n 0 := by
  induction n generalizing v with
  | zero => rfl
  | succ n ih =>
    have hmul : 256 ^ (n + 1) * v = 256 * (256 ^ n * v) := by rw [Nat.pow_succ', Nat.mul_assoc]
    rw [digits, hmul, Nat.mul_mod_right, Nat.mul_div_cancel_left _ (by decide), ih]
    rfl

/-! ## Object representations -/

inductive Endian where
  | little
  | big
deriving DecidableEq, Repr

def Endian.encode : Endian → Nat → Nat → List UInt8
  | .little, n, v => digits n v
  | .big, n, v => (digits n v).reverse

def Endian.decode : Endian → List UInt8 → Nat
  | .little, bs => value bs
  | .big, bs => value bs.reverse

@[simp] theorem Endian.length_encode (e : Endian) (n v : Nat) : (e.encode n v).length = n := by
  cases e with
  | little => exact length_digits n v
  | big => rw [encode, List.length_reverse, length_digits]

theorem Endian.decode_encode (e : Endian) {n v : Nat} (h : v < 256 ^ n) :
    e.decode (e.encode n v) = v := by
  cases e with
  | little => exact value_digits h
  | big => rw [encode, decode, List.reverse_reverse, value_digits h]

theorem Endian.encode_decode (e : Endian) (bs : List UInt8) :
    e.encode bs.length (e.decode bs) = bs := by
  cases e with
  | little => exact digits_value bs
  | big =>
    have h := digits_value bs.reverse
    rw [List.length_reverse] at h
    rw [encode, decode, h, List.reverse_reverse]

theorem Endian.decode_lt (e : Endian) (bs : List UInt8) : e.decode bs < 256 ^ bs.length := by
  cases e with
  | little => exact value_lt bs
  | big =>
    have h := value_lt bs.reverse
    rwa [List.length_reverse] at h

/-! ## Network order

What `htonl` returns is the number whose bytes, on this host, are those of its argument with the
highest first. Of a longer integer it looks at the low four bytes only. -/

def Endian.htonl (e : Endian) (x : Nat) : Nat := e.decode (Endian.big.encode 4 x)

def Endian.ntohl (e : Endian) (x : Nat) : Nat := Endian.big.decode (e.encode 4 x)

def Endian.htons (e : Endian) (x : Nat) : Nat := e.decode (Endian.big.encode 2 x)

def Endian.ntohs (e : Endian) (x : Nat) : Nat := Endian.big.decode (e.encode 2 x)

theorem Endian.htonl_lt (e : Endian) (x : Nat) : e.htonl x < 256 ^ 4 := by
  have h := e.decode_lt (Endian.big.encode 4 x)
  rwa [length_encode] at h

/-- What one host puts in network order another takes out, if it fits 32 bits. -/
theorem Endian.ntohl_htonl (e : Endian) {x : Nat} (h : x < 2 ^ 32) : e.ntohl (e.htonl x) = x := by
  -- in memory `htonl x` is `x` with the highest byte first, on every host
  have hrep : e.encode 4 (e.htonl x) = Endian.big.encode 4 x := by
    have hback := e.encode_decode (Endian.big.encode 4 x)
    rwa [length_encode] at hback
  rw [ntohl, hrep]
  exact Endian.big.decode_encode h

/-- The shortest representations are the same, whatever the order: the network's. -/
theorem Endian.encode_htonl (e : Endian) (x : Nat) : e.encode 4 (e.htonl x) = Endian.big.encode 4 x := by
  have hback := e.encode_decode (Endian.big.encode 4 x)
  rwa [length_encode] at hback

theorem Endian.ntohl_lt (e : Endian) (x : Nat) : e.ntohl x < 2 ^ 32 := by
  have h := Endian.big.decode_lt (e.encode 4 x)
  rwa [length_encode] at h

theorem Endian.htons_lt (e : Endian) (x : Nat) : e.htons x < 256 ^ 2 := by
  have h := e.decode_lt (Endian.big.encode 2 x)
  rwa [length_encode] at h

theorem Endian.ntohs_lt (e : Endian) (x : Nat) : e.ntohs x < 256 ^ 2 := by
  have h := Endian.big.decode_lt (e.encode 2 x)
  rwa [length_encode] at h

theorem Endian.ntohs_htons (e : Endian) {x : Nat} (h : x < 2 ^ 16) : e.ntohs (e.htons x) = x := by
  have hrep : e.encode 2 (e.htons x) = Endian.big.encode 2 x := by
    have hback := e.encode_decode (Endian.big.encode 2 x)
    rwa [length_encode] at hback
  rw [ntohs, hrep]
  exact Endian.big.decode_encode h

end Bytes
