import Mathlib.Data.Nat.Digits.Lemmas

/-!
# Decimal numbers in ASCII

`value` is what a string of digits stands for, whatever is in front of it: leading zeros count for
nothing. `text n` is the shortest such string, as `printf("%d")` writes it, and `number?` reads a
number that is the whole of its string.
-/

namespace Decimal

def isDigit (b : UInt8) : Bool := 48 ≤ b && b ≤ 57

def value (bs : List UInt8) : Nat := bs.foldl (fun n b => 10 * n + (b.toNat - 48)) 0

/-- The characters of the digits `ds`. -/
def chars (ds : List Nat) : List UInt8 := ds.map fun d => 48 + UInt8.ofNat d

def text (n : Nat) : List UInt8 := chars (if n = 0 then [0] else (Nat.digits 10 n).reverse)

/-- A number that is there in full: at least one digit, and nothing but digits. -/
def number? (bs : List UInt8) : Option Nat :=
  if bs ≠ [] ∧ bs.all isDigit then some (value bs) else none

/-- A number that may have a minus in front of it. -/
def int? (bs : List UInt8) : Option Int :=
  if bs.head? = some 45 then (number? bs.tail).map fun n : Nat => -(n : Int)
  else (number? bs).map Int.ofNat

section Chars

variable {ds : List Nat} {d n : Nat}

theorem toNat_char (h : d < 10) : (48 + UInt8.ofNat d).toNat = 48 + d := by
  rw [UInt8.toNat_add, UInt8.toNat_ofNat']
  show (48 + d % 2 ^ 8) % 2 ^ 8 = 48 + d
  omega

theorem isDigit_char (h : d < 10) : isDigit (48 + UInt8.ofNat d) = true := by
  have hnat := toNat_char h
  simp only [isDigit, Bool.and_eq_true, decide_eq_true_eq, UInt8.le_iff_toNat_le, hnat]
  exact ⟨Nat.le_add_right _ _, by show 48 + d ≤ 57; omega⟩

theorem all_isDigit_chars (h : ∀ d ∈ ds, d < 10) : (chars ds).all isDigit = true := by
  rw [List.all_eq_true]
  intro b hb
  obtain ⟨d, hd, rfl⟩ := List.mem_map.mp hb
  exact isDigit_char (h d hd)

/-- The value of the characters is that of the digits. Induction on the digits, the highest first;
`acc` is the value of the digits in front. -/
theorem foldl_chars (h : ∀ d ∈ ds, d < 10) (acc : Nat) :
    (chars ds).foldl (fun n b => 10 * n + (b.toNat - 48)) acc
      = ds.foldl (fun n d => 10 * n + d) acc := by
  induction ds generalizing acc with
  | nil => rfl
  | cons d ds ih =>
    have hd : (48 + UInt8.ofNat d).toNat - 48 = d := by
      rw [toNat_char (h d List.mem_cons_self)]
      omega
    show (chars ds).foldl _ (10 * acc + ((48 + UInt8.ofNat d).toNat - 48)) = _
    rw [hd, ih fun e he => h e (List.mem_cons_of_mem _ he)]
    rfl

theorem foldl_digits (n : Nat) :
    (Nat.digits 10 n).reverse.foldl (fun n d => 10 * n + d) 0 = n := by
  have hvalue := Nat.ofDigits_digits 10 n
  rw [Nat.ofDigits_eq_foldr] at hvalue
  rw [List.foldl_reverse]
  conv_rhs => rw [← hvalue]
  congr 1
  funext d acc
  rw [Nat.cast_id, Nat.add_comm]

end Chars

section Text

variable (n : Nat)

theorem digit_lt {d : Nat} (h : d ∈ if n = 0 then [0] else (Nat.digits 10 n).reverse) :
    d < 10 := by
  split at h
  · rw [List.mem_singleton.mp h]
    decide
  · exact Nat.digits_lt_base (by decide) (List.mem_reverse.mp h)

theorem text_ne_nil : text n ≠ [] := by
  unfold text chars
  rw [Ne, List.map_eq_nil_iff]
  split
  · exact List.cons_ne_nil _ _
  · next hn =>
    rw [List.reverse_eq_nil_iff]
    exact Nat.digits_ne_nil_iff_ne_zero.mpr hn

theorem all_isDigit_text : (text n).all isDigit = true := all_isDigit_chars fun _ => digit_lt n

/-- No other character stands in a number. -/
theorem not_mem_text {b : UInt8} (hb : isDigit b = false) : b ∉ text n := by
  intro hmem
  have hdigit := List.all_eq_true.mp (all_isDigit_text n) b hmem
  rw [hb] at hdigit
  cases hdigit

@[simp] theorem value_text : value (text n) = n := by
  unfold value text
  rw [foldl_chars fun _ => digit_lt n]
  split
  · next hn => rw [hn]; rfl
  · exact foldl_digits n

@[simp] theorem number?_text : number? (text n) = some n := by
  unfold number?
  rw [if_pos ⟨text_ne_nil n, all_isDigit_text n⟩, value_text]

@[simp] theorem int?_text : int? (text n) = some (n : Int) := by
  have hdigit : (text n).head? ≠ some 45 := fun h =>
    not_mem_text n (by decide) (List.mem_of_mem_head? h)
  unfold int?
  rw [if_neg hdigit, number?_text]
  rfl

@[simp] theorem int?_minus : int? (45 :: text n) = some (-(n : Int)) := by
  unfold int?
  rw [if_pos List.head?_cons, List.tail_cons, number?_text]
  rfl

theorem length_text_le {k : Nat} (hk : 0 < k) (h : n < 10 ^ k) : (text n).length ≤ k := by
  unfold text chars
  rw [List.length_map]
  split
  · exact hk
  · rw [List.length_reverse]
    exact (Nat.digits_length_le_iff (by decide) n).mpr h

end Text

end Decimal
