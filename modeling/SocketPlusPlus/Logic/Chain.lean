import Mathlib.Data.List.Nodup
import Mathlib.Data.List.Perm.Subperm

/-!
# Intrusive lists

Objects live in numbered cells. The number of a cell is never used again, so that it stands for the
object and not for its storage, and `none` marks the cells whose object is deleted. A type of
objects with a `link` from each object to the next one can form a list: `Chain link cells p l` says
that following the links from `p` leads through the live objects `l` to the null pointer.

`Reach` is the same walk without any promise: it may run into a deleted object or in circles. From
the head of a chain exactly the objects of the chain are reached.
-/

namespace Linked

variable {ν : Type}

/-- The object in the cell `a`, while it lives. -/
def cell? (cells : List (Option ν)) (a : Nat) : Option ν := cells[a]?.join

section Cells

variable {cells : List (Option ν)} {a b : Nat} {n : ν}

theorem lt_of_cell? (h : cell? cells a = some n) : a < cells.length :=
  (List.getElem?_eq_some_iff.mp (Option.join_eq_some_iff.mp h)).1

theorem cell?_set_self (v : Option ν) (h : a < cells.length) : cell? (cells.set a v) a = v := by
  unfold cell?
  rw [List.getElem?_set_self h]
  rfl

theorem cell?_set_ne (v : Option ν) (h : a ≠ b) : cell? (cells.set a v) b = cell? cells b := by
  unfold cell?
  rw [List.getElem?_set_ne h]

theorem cell?_set_none_self : cell? (cells.set a none) a = none := by
  by_cases h : a < cells.length
  · exact cell?_set_self none h
  · unfold cell?
    rw [List.getElem?_eq_none (by rw [List.length_set]; omega)]
    rfl

/-- A new cell gets a new number. -/
theorem cell?_append_self (cells : List (Option ν)) (v : Option ν) :
    cell? (cells ++ [v]) cells.length = v := by
  unfold cell?
  rw [List.getElem?_concat_length]
  rfl

theorem cell?_append_ne (v : Option ν) (h : b ≠ cells.length) :
    cell? (cells ++ [v]) b = cell? cells b := by
  unfold cell?
  rcases Nat.lt_or_gt_of_ne h with hlt | hgt
  · rw [List.getElem?_append_left hlt]
  · rw [List.getElem?_eq_none (by simp; omega), List.getElem?_eq_none (by omega)]

theorem cell?_append_of_some (v : Option ν) (h : cell? cells b = some n) :
    cell? (cells ++ [v]) b = some n := by
  rw [cell?_append_ne v (Nat.ne_of_lt (lt_of_cell? h)), h]

end Cells

/-- Following the links from `p` leads through `l` to the null pointer. -/
inductive Chain (link : ν → Option Nat) (cells : List (Option ν)) :
    Option Nat → List Nat → Prop where
  | nil : Chain link cells none []
  | cons {a : Nat} {n : ν} {l : List Nat} (hcell : cell? cells a = some n)
      (hrest : Chain link cells (link n) l) : Chain link cells (some a) (a :: l)

/-- Following the links from `p` leads to `a`, whether or not it lives. -/
inductive Reach (link : ν → Option Nat) (cells : List (Option ν)) : Option Nat → Nat → Prop where
  | here (a : Nat) : Reach link cells (some a) a
  | there {a b : Nat} {n : ν} (hcell : cell? cells b = some n)
      (hrest : Reach link cells (link n) a) : Reach link cells (some b) a

section Lemmas

variable {link : ν → Option Nat} {cells cells' : List (Option ν)} {p : Option Nat}
  {l l' pre : List Nat} {a b : Nat} {n nb : ν}

theorem Chain.nil_of_none (h : Chain link cells none l) : l = [] := by
  cases h with
  | nil => rfl

theorem Chain.of_cons (h : Chain link cells p (a :: l)) :
    p = some a ∧ ∃ n, cell? cells a = some n ∧ Chain link cells (link n) l := by
  cases h with
  | cons hcell hrest => exact ⟨rfl, _, hcell, hrest⟩

theorem Chain.head (h : Chain link cells p l) : p = l.head? := by
  cases h with
  | nil => rfl
  | cons hcell hrest => rfl

theorem Chain.cell_of_mem (h : Chain link cells p l) (ha : a ∈ l) :
    ∃ n, cell? cells a = some n := by
  induction h with
  | nil => cases ha
  | cons hcell _ ih =>
    rcases List.mem_cons.mp ha with rfl | ha
    · exact ⟨_, hcell⟩
    · exact ih ha

/-- The links decide the list. -/
theorem Chain.unique (h : Chain link cells p l) (h' : Chain link cells p l') : l = l' := by
  induction h generalizing l' with
  | nil => exact h'.nil_of_none.symm
  | cons hcell _ ih =>
    cases h' with
    | cons hcell' hrest' =>
      cases hcell.symm.trans hcell'
      rw [ih hrest']

/-- The walk from the middle of a chain. -/
theorem Chain.suffix (h : Chain link cells p (pre ++ a :: l)) :
    Chain link cells (some a) (a :: l) := by
  induction pre generalizing p with
  | nil =>
    obtain ⟨rfl, -⟩ := h.of_cons
    exact h
  | cons b pre ih =>
    obtain ⟨-, n, -, hrest⟩ := h.of_cons
    exact ih hrest

/-- A chain does not come back to where it was. -/
theorem Chain.nodup (h : Chain link cells p l) : l.Nodup := by
  induction h with
  | nil => exact List.nodup_nil
  | @cons a n l hcell hrest ih =>
    refine List.nodup_cons.mpr ⟨?_, ih⟩
    intro ha
    obtain ⟨l1, l2, rfl⟩ := List.append_of_mem ha
    -- the walk from `a` would be longer than itself
    have hagain := hrest.suffix.unique (Chain.cons hcell hrest)
    have hlen := congrArg List.length hagain
    simp only [List.length_cons, List.length_append] at hlen
    omega

theorem Chain.length_le (h : Chain link cells p l) : l.length ≤ cells.length := by
  have hsub : l ⊆ List.range cells.length := by
    intro a ha
    obtain ⟨n, hn⟩ := h.cell_of_mem ha
    exact List.mem_range.mpr (lt_of_cell? hn)
  have := (List.subperm_of_subset h.nodup hsub).length_le
  rwa [List.length_range] at this

/-- From the head of a chain its objects are reached, and no others. -/
theorem Chain.reach_iff (h : Chain link cells p l) : Reach link cells p a ↔ a ∈ l := by
  induction h with
  | nil =>
    refine iff_of_false ?_ List.not_mem_nil
    intro hreach
    cases hreach
  | @cons b n l hcell hrest ih =>
    constructor
    · intro hreach
      cases hreach with
      | here => exact List.mem_cons_self
      | there hcell' hreach' =>
        cases hcell.symm.trans hcell'
        exact List.mem_cons_of_mem _ (ih.mp hreach')
    · intro ha
      rcases List.mem_cons.mp ha with rfl | ha
      · exact .here a
      · exact .there hcell (ih.mpr ha)

/-- An object deleted where it stands is still reached. -/
theorem Chain.reach_deleted (h : Chain link cells p (pre ++ a :: l)) :
    Reach link (cells.set a none) p a := by
  have hnodup := h.nodup
  induction pre generalizing p with
  | nil =>
    obtain ⟨rfl, -⟩ := h.of_cons
    exact .here a
  | cons b pre ih =>
    obtain ⟨rfl, n, hcell, hrest⟩ := h.of_cons
    obtain ⟨hnot, hnodup'⟩ := List.nodup_cons.mp hnodup
    have hne : a ≠ b := by
      intro hab
      exact hnot (by simp [hab])
    apply Reach.there ((cell?_set_ne none hne).trans hcell)
    exact ih hrest hnodup'

/-! ## What a change does to a chain

A cell that is not in the chain can be written or freed, a new cell can be put in front, and a cell
can be taken out by a change of the one before it. -/

theorem Chain.congr (h : Chain link cells p l)
    (hsame : ∀ b ∈ l, ∀ n, cell? cells b = some n →
      ∃ n', cell? cells' b = some n' ∧ link n' = link n) : Chain link cells' p l := by
  induction h with
  | nil => exact .nil
  | @cons a n l hcell _ ih =>
    obtain ⟨n', hcell', hlink⟩ := hsame a List.mem_cons_self n hcell
    refine .cons hcell' ?_
    rw [hlink]
    exact ih fun b hb => hsame b (List.mem_cons_of_mem _ hb)

/-- A change elsewhere. -/
theorem Chain.set_of_not_mem (h : Chain link cells p l) (ha : a ∉ l) (v : Option ν) :
    Chain link (cells.set a v) p l := by
  refine h.congr fun b hb n hn => ⟨n, ?_, rfl⟩
  have hne : a ≠ b := fun hab => ha (hab ▸ hb)
  rw [cell?_set_ne v hne, hn]

theorem Chain.append (h : Chain link cells p l) (v : Option ν) :
    Chain link (cells ++ [v]) p l :=
  h.congr fun _ _ n hn => ⟨n, cell?_append_of_some v hn, rfl⟩

/-- A new object in front. -/
theorem Chain.push (h : Chain link cells p l) (hcell : cell? cells a = some n)
    (hlink : link n = p) : Chain link cells (some a) (a :: l) :=
  .cons hcell (hlink ▸ h)

/-- The object `a` behind `b` is left out by linking `b` to what follows `a`. -/
theorem Chain.unlink (h : Chain link cells p (pre ++ b :: a :: l)) (ha : cell? cells a = some n)
    (hlink : link nb = link n) :
    Chain link (cells.set b (some nb)) p (pre ++ b :: l) := by
  have hnodup := h.nodup
  induction pre generalizing p with
  | nil =>
    obtain ⟨rfl, n', hb, hrest⟩ := h.of_cons
    obtain ⟨-, na, ha', hl⟩ := hrest.of_cons
    cases ha.symm.trans ha'
    have hnot : b ∉ l := by
      intro hb'
      exact (List.nodup_cons.mp hnodup).1 (List.mem_cons_of_mem _ hb')
    refine .cons (cell?_set_self _ (lt_of_cell? hb)) ?_
    rw [hlink]
    exact hl.set_of_not_mem hnot _
  | cons c pre ih =>
    obtain ⟨rfl, nc, hc, hrest⟩ := h.of_cons
    obtain ⟨hnot, hnodup'⟩ := List.nodup_cons.mp hnodup
    have hne : b ≠ c := by
      intro hbc
      exact hnot (by simp [hbc])
    have hc' : cell? (cells.set b (some nb)) c = some nc := by
      rw [cell?_set_ne _ hne, hc]
    exact .cons hc' (ih hrest hnodup')

end Lemmas

end Linked
