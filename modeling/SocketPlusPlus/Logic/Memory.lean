import Mathlib.Logic.Function.Basic
import Mathlib.Data.List.Basic

/-!
# Arrays as C sees them

A block of memory is a function from cell index to cell content, without a bound: an access past
the end of an array reads whatever lies there, as in C. `slice` is what a pointer and a length
denote, `copyIn` is `memcpy` into the block, and `slide` is the ascending copy loop
`while (pfrom < stop) *pto++ = *pfrom++`.

The lemmas say what a `slice` of a block holds after each operation, so that a proof about code
that fills and drains arrays never looks at single cells.
-/

namespace Memory

variable {α : Type}

/-! ## Slices

A slice is what a block of memory holds between two offsets. -/

/-- The `n` cells from index `a` on. -/
def slice (m : Nat → α) (a n : Nat) : List α := (List.range' a n).map m

@[simp] theorem slice_zero (m : Nat → α) (a : Nat) : slice m a 0 = [] := rfl

@[simp] theorem length_slice (m : Nat → α) (a n : Nat) : (slice m a n).length = n := by
  simp [slice]

theorem slice_succ (m : Nat → α) (a n : Nat) : slice m a (n + 1) = m a :: slice m (a + 1) n := by
  simp [slice, List.range'_succ]

theorem slice_add (m : Nat → α) (a n k : Nat) :
    slice m a (n + k) = slice m a n ++ slice m (a + n) k := by
  unfold slice
  rw [← List.map_append, List.range'_append_1]

theorem slice_succ_last (m : Nat → α) (a n : Nat) :
    slice m a (n + 1) = slice m a n ++ [m (a + n)] := by
  rw [slice_add, slice_succ, slice_zero]

theorem slice_shift (m : Nat → α) (a n : Nat) : slice (fun i => m (a + i)) 0 n = slice m a n := by
  unfold slice
  rw [List.range'_eq_map_range, List.range'_eq_map_range, List.map_map, List.map_map]
  apply List.map_congr_left
  intro i _
  simp

theorem slice_congr {m m' : Nat → α} {a n : Nat} (h : ∀ i, a ≤ i → i < a + n → m i = m' i) :
    slice m a n = slice m' a n := by
  unfold slice
  apply List.map_congr_left
  intro i hi
  have := List.mem_range'_1.mp hi
  exact h i this.1 this.2

theorem take_slice (m : Nat → α) (a : Nat) {n k : Nat} (h : k ≤ n) :
    (slice m a n).take k = slice m a k := by
  rw [show n = k + (n - k) from by omega, slice_add]
  exact List.take_left' (length_slice m a k)

theorem drop_slice (m : Nat → α) (a : Nat) {n k : Nat} (h : k ≤ n) :
    (slice m a n).drop k = slice m (a + k) (n - k) := by
  conv_lhs => rw [show n = k + (n - k) from by omega, slice_add]
  exact List.drop_left' (length_slice m a k)

/-- A pointer moved past the end leaves the empty slice. -/
theorem drop_slice_sub (m : Nat → α) (a b k : Nat) :
    (slice m a (b - a)).drop k = slice m (a + k) (b - (a + k)) := by
  by_cases h : k ≤ b - a
  · rw [drop_slice _ _ h, Nat.sub_add_eq]
  · rw [show b - (a + k) = 0 from by omega, slice_zero]
    exact List.drop_eq_nil_of_le (by rw [length_slice]; omega)

theorem getElem?_slice (m : Nat → α) (a : Nat) {n i : Nat} (h : i < n) :
    (slice m a n)[i]? = some (m (a + i)) := by
  simp [slice, h]

/-- A slice of the block that a list describes from cell `a` on is that list. -/
theorem slice_eq_of_getElem? {m : Nat → α} {a : Nat} {xs : List α}
    (h : ∀ i x, xs[i]? = some x → m (a + i) = x) : slice m a xs.length = xs := by
  induction xs generalizing a with
  | nil => rfl
  | cons x xs ih =>
    rw [List.length_cons, slice_succ, ih]
    · rw [show m a = x from h 0 x rfl]
    · intro i y hy
      rw [show a + 1 + i = a + (i + 1) from by omega]
      exact h (i + 1) y (by simpa using hy)

/-! ## Copying a list into a block -/

/-- `memcpy`: the cells from `a` on become `xs`. -/
def copyIn (m : Nat → α) (a : Nat) (xs : List α) : Nat → α := fun i =>
  if a ≤ i then (xs[i - a]?).getD (m i) else m i

@[simp] theorem copyIn_nil (m : Nat → α) (a : Nat) : copyIn m a [] = m := by
  funext i; simp [copyIn]

/-- Copying one cell and then the rest behind it. -/
theorem copyIn_cons (m : Nat → α) (a : Nat) (x : α) (xs : List α) :
    copyIn m a (x :: xs) = copyIn (Function.update m a x) (a + 1) xs := by
  funext i
  unfold copyIn
  by_cases hlt : i < a
  · rw [if_neg (by omega), if_neg (by omega), Function.update_of_ne (by omega)]
  · by_cases heq : i = a
    · subst heq
      rw [if_pos (Nat.le_refl i), if_neg (Nat.not_succ_le_self i), Function.update_self,
        Nat.sub_self]
      rfl
    · rw [if_pos (by omega), if_pos (by omega), show i - a = (i - (a + 1)) + 1 from by omega,
        List.getElem?_cons_succ, Function.update_of_ne heq]

theorem slice_copyIn (m : Nat → α) (a : Nat) (xs : List α) :
    slice (copyIn m a xs) a xs.length = xs := by
  apply slice_eq_of_getElem?
  intro i x hx
  simp [copyIn, hx]

theorem slice_copyIn_before (m : Nat → α) (xs : List α) {a b n : Nat} (h : b + n ≤ a) :
    slice (copyIn m a xs) b n = slice m b n := by
  apply slice_congr
  intro i _ hi
  unfold copyIn
  rw [if_neg (by omega)]

/-- What an array holds after a copy at its filled end. -/
theorem slice_copyIn_append (m : Nat → α) (n : Nat) (xs : List α) :
    slice (copyIn m n xs) 0 (n + xs.length) = slice m 0 n ++ xs := by
  rw [slice_add, slice_copyIn_before m xs (by omega), Nat.zero_add, slice_copyIn]

/-! ## Sliding cells down

A loop that moves cells down, the lowest first, reads no cell that it has overwritten. -/

/-- `while (pfrom < stop) *pto++ = *pfrom++;` -/
def slide (m : Nat → α) (pto pfrom stop : Nat) : Nat → α :=
  if pfrom < stop then slide (Function.update m pto (m pfrom)) (pto + 1) (pfrom + 1) stop else m
termination_by stop - pfrom

theorem slide_done (m : Nat → α) (pto : Nat) {pfrom stop : Nat} (h : stop ≤ pfrom) :
    slide m pto pfrom stop = m := by
  rw [slide, if_neg (by omega)]

theorem slide_step (m : Nat → α) (pto : Nat) {pfrom stop : Nat} (h : pfrom < stop) :
    slide m pto pfrom stop
      = slide (Function.update m pto (m pfrom)) (pto + 1) (pfrom + 1) stop := by
  conv_lhs => rw [slide, if_pos h]

/-- The loop writes no cell below its destination. -/
theorem slide_below (m : Nat → α) (pto pfrom stop : Nat) {i : Nat} (h : i < pto) :
    slide m pto pfrom stop i = m i := by
  induction hk : stop - pfrom generalizing m pto pfrom with
  | zero => rw [slide_done m pto (by omega)]
  | succ k ih =>
    rw [slide_step m pto (by omega), ih _ _ _ (by omega) (by omega)]
    exact Function.update_of_ne (by omega) _ _

/-- Copied upwards to a destination at or below their place, the cells arrive unchanged: a cell is
read before the loop overwrites it. -/
theorem slice_slide (m : Nat → α) {pto pfrom stop : Nat} (h : pto ≤ pfrom) :
    slice (slide m pto pfrom stop) pto (stop - pfrom) = slice m pfrom (stop - pfrom) := by
  induction hk : stop - pfrom generalizing m pto pfrom with
  | zero => rfl
  | succ k ih =>
    -- the first cell is final: the later rounds write above it
    rw [slide_step m pto (by omega), slice_succ, slice_succ, slide_below _ _ _ _ (by omega),
      ih _ (by omega) (by omega), Function.update_self]
    congr 1
    -- the other cells were not touched by this round
    apply slice_congr
    intro i hi _
    exact Function.update_of_ne (by omega) _ _

end Memory
