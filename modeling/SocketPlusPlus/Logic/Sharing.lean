import Mathlib.Data.List.Basic

/-!
# Reference counting

A `Pool` is a set of resources, each shared by owners that come and go. What is known about a
resource is the count its owners keep (`none` once it is freed); who owns it, and how often it was
freed, is known to the pool only. The pool is `Exact` if every count is the number of owners, no
resource is freed while it has one, and every resource without owners has been freed once.

`build`, `share` and `drop` are the protocol, and keep the pool exact (`Step.exact`). An owner that
goes without lowering the count (`leave`) is enough to make it inexact.
-/

namespace Sharing

/-- The owners by number, each with its resource while it lives, and the counts of the resources. -/
structure Pool where
  owners : List (Option Nat)
  counts : List (Option Int)
  freed : List Nat

namespace Pool

def sharers (p : Pool) (r : Nat) : Nat := p.owners.count (some r)

/-- A new resource with one owner. -/
def build (p : Pool) : Pool :=
  ⟨p.owners ++ [some p.counts.length], p.counts ++ [some 1], p.freed⟩

/-- One more owner of `r`, whose count is `c`. -/
def share (p : Pool) (r : Nat) (c : Int) : Pool :=
  ⟨p.owners ++ [some r], p.counts.set r (some (c + 1)), p.freed⟩

/-- The `i`-th owner goes, and lowers the count `c` of `r`. The last one frees the resource. -/
def drop (p : Pool) (i r : Nat) (c : Int) : Pool :=
  if c - 1 = 0 then ⟨p.owners.set i none, p.counts.set r none, p.freed ++ [r]⟩
  else ⟨p.owners.set i none, p.counts.set r (some (c - 1)), p.freed⟩

/-- The `i`-th owner goes, and the count stays. -/
def leave (p : Pool) (i : Nat) : Pool := { p with owners := p.owners.set i none }

/-- What must hold between a count, the number of owners and the number of times the resource was
freed; the count of a resource that was never built is missing. -/
def Right : Option (Option Int) → Nat → Nat → Prop
  | some (some c), sharers, freed => c = sharers ∧ 0 < sharers ∧ freed = 0
  | some none, sharers, freed => sharers = 0 ∧ freed = 1
  | none, sharers, freed => sharers = 0 ∧ freed = 0

def Exact (p : Pool) : Prop := ∀ r, Right p.counts[r]? (p.sharers r) (p.freed.count r)

theorem exact_nil : Exact ⟨[], [], []⟩ := fun r => by simp [Right, sharers]

section Steps

variable {p : Pool} {i r : Nat} {c : Int}

theorem sharers_append (owners : List (Option Nat)) (r r' : Nat) :
    (owners ++ [some r]).count (some r') = owners.count (some r') + if r = r' then 1 else 0 := by
  simp [List.count_append, List.count_singleton]

theorem sharers_set_none {owners : List (Option Nat)} (hi : owners[i]? = some (some r)) (r' : Nat) :
    (owners.set i none).count (some r') = owners.count (some r') - if r = r' then 1 else 0 := by
  obtain ⟨hlt, hget⟩ := List.getElem?_eq_some_iff.mp hi
  rw [List.count_set hlt, hget]
  simp

theorem sharers_pos (hi : p.owners[i]? = some (some r)) : 0 < p.sharers r :=
  List.count_pos_iff.mpr (List.mem_of_getElem? hi)

/-- The resource of an owner is there, with the right count. -/
theorem Exact.count_of_owner (hp : p.Exact) (hi : p.owners[i]? = some (some r)) :
    ∃ c : Int, p.counts[r]? = some (some c) ∧ c = p.sharers r ∧ p.freed.count r = 0 := by
  have hpos := sharers_pos hi
  have hr := hp r
  match hc : p.counts[r]? with
  | some (some c) =>
    rw [hc] at hr
    exact ⟨c, rfl, hr.1, hr.2.2⟩
  | some none =>
    rw [hc] at hr
    exact absurd hr.1 (by omega)
  | none =>
    rw [hc] at hr
    exact absurd hr.1 (by omega)

theorem Exact.build (hp : p.Exact) : p.build.Exact := by
  intro r
  have hr := hp r
  show Right (p.counts ++ [some 1])[r]? ((p.owners ++ [some p.counts.length]).count (some r))
    (p.freed.count r)
  rw [sharers_append]
  rcases Nat.lt_trichotomy r p.counts.length with hlt | heq | hgt
  · rw [List.getElem?_append_left hlt, if_neg (by omega)]
    exact hr
  · -- nobody can own what is built only now
    rw [heq, List.getElem?_eq_none (Nat.le_refl _)] at hr
    obtain ⟨hsharers, hfreed⟩ := hr
    rw [heq, List.getElem?_concat_length, if_pos rfl]
    refine ⟨?_, Nat.succ_pos _, hfreed⟩
    show (1 : Int) = ((p.sharers p.counts.length + 1 : Nat) : Int)
    rw [hsharers]
    rfl
  · rw [List.getElem?_eq_none (by omega)] at hr
    rw [List.getElem?_eq_none (by simp; omega), if_neg (by omega)]
    exact hr

theorem Exact.share (hp : p.Exact) (hc : p.counts[r]? = some (some c)) : (p.share r c).Exact := by
  intro r'
  have hr := hp r'
  show Right (p.counts.set r (some (c + 1)))[r']? ((p.owners ++ [some r]).count (some r'))
    (p.freed.count r')
  rw [sharers_append]
  by_cases heq : r = r'
  · subst heq
    obtain ⟨hlt, -⟩ := List.getElem?_eq_some_iff.mp hc
    rw [hc] at hr
    obtain ⟨hcount, hpos, hfreed⟩ := hr
    rw [List.getElem?_set_self hlt, if_pos rfl]
    refine ⟨?_, Nat.succ_pos _, hfreed⟩
    show c + 1 = ((p.sharers r + 1 : Nat) : Int)
    omega
  · rw [List.getElem?_set_ne heq, if_neg heq]
    exact hr

theorem Exact.drop (hp : p.Exact) (hi : p.owners[i]? = some (some r))
    (hc : p.counts[r]? = some (some c)) : (p.drop i r c).Exact := by
  obtain ⟨hlt, -⟩ := List.getElem?_eq_some_iff.mp hc
  obtain ⟨hcount, hpos, hfreed⟩ : c = p.sharers r ∧ 0 < p.sharers r ∧ p.freed.count r = 0 := by
    have hr := hp r
    rw [hc] at hr
    exact hr
  intro r'
  have hr := hp r'
  have hset := sharers_set_none hi r'
  unfold Pool.drop
  split
  · next hlast =>
    -- the last owner
    show Right (p.counts.set r none)[r']? ((p.owners.set i none).count (some r'))
      ((p.freed ++ [r]).count r')
    rw [hset, List.count_append, List.count_singleton]
    by_cases heq : r = r'
    · subst heq
      rw [List.getElem?_set_self hlt, if_pos rfl]
      refine ⟨?_, ?_⟩
      · show p.sharers r - 1 = 0
        omega
      · simp [hfreed]
    · rw [List.getElem?_set_ne heq, if_neg heq]
      simpa [heq, sharers] using hr
  · next hmore =>
    show Right (p.counts.set r (some (c - 1)))[r']? ((p.owners.set i none).count (some r'))
      (p.freed.count r')
    rw [hset]
    by_cases heq : r = r'
    · subst heq
      rw [List.getElem?_set_self hlt, if_pos rfl]
      refine ⟨?_, ?_, hfreed⟩
      · show c - 1 = ((p.sharers r - 1 : Nat) : Int)
        omega
      · show 0 < p.sharers r - 1
        omega
    · rw [List.getElem?_set_ne heq, if_neg heq]
      exact hr

/-- An owner that leaves the count as it is leaves one too high. -/
theorem Exact.count_leave (hp : p.Exact) (hi : p.owners[i]? = some (some r)) :
    ∃ c : Int, (p.leave i).counts[r]? = some (some c) ∧ c = (p.leave i).sharers r + 1 := by
  obtain ⟨c, hc, hcount, -⟩ := hp.count_of_owner hi
  have hpos := sharers_pos hi
  have hset : (p.leave i).sharers r = p.sharers r - 1 := by
    have := sharers_set_none hi r
    rwa [if_pos rfl] at this
  refine ⟨c, hc, ?_⟩
  omega

/-- What the protocol allows. -/
inductive Step : Pool → Pool → Prop where
  | idle (p : Pool) : Step p p
  | build (p : Pool) : Step p p.build
  | share (p : Pool) {r : Nat} {c : Int} (hc : p.counts[r]? = some (some c)) : Step p (p.share r c)
  | drop (p : Pool) {i r : Nat} {c : Int} (hi : p.owners[i]? = some (some r))
      (hc : p.counts[r]? = some (some c)) : Step p (p.drop i r c)

theorem Step.exact {p p' : Pool} (h : Step p p') (hp : p.Exact) : p'.Exact := by
  cases h with
  | idle => exact hp
  | build => exact hp.build
  | share hc => exact hp.share hc
  | drop hi hc => exact hp.drop hi hc

end Steps

end Pool

end Sharing
