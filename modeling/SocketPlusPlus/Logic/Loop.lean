import Mathlib.Logic.Relation
import SocketPlusPlus.Logic.Exec

/-!
# Loops by rounds

A loop that may be left in its middle is given by the program of one round, which ends by going on
(`again`) or by leaving the loop (`leave`). A variable that the rounds hand on is the argument `b`;
everything else is in the state. The loop itself need not end, so `loop` has fuel.

`Turns` is one round that goes on, and `Reaches` any number of them: the moments at which the loop
is at its head. What holds at every such moment is proved with `Reaches.invariant`, that the loop
ends with `loop_returns`, and that it does not with `loop_stuck`.
-/

namespace Exec

/-- How a round ends. -/
inductive Turn (β α : Type) where
  | again (b : β)
  | leave (a : α)
deriving DecidableEq, Repr

section Loop

variable {ε σ α β : Type}

/-- The loop, for at most `fuel` rounds; `e` says that they were not enough. -/
def loop (round : β → EStateM ε σ (Turn β α)) (e : ε) : Nat → β → EStateM ε σ α
  | 0, _ => throw e
  | fuel + 1, b => do
    match ← round b with
    | .again b' => loop round e fuel b'
    | .leave a => pure a

/-- A round leads from the head of the loop at `x` to its head at `y`. -/
def Turns (round : β → EStateM ε σ (Turn β α)) (x y : β × σ) : Prop :=
  round x.1 x.2 = .ok (.again y.1) y.2

/-- The loop comes from `x` to its head at `y`. -/
def Reaches (round : β → EStateM ε σ (Turn β α)) : β × σ → β × σ → Prop :=
  Relation.ReflTransGen (Turns round)

variable {round : β → EStateM ε σ (Turn β α)} {e : ε} {b b' : β} {s s' : σ} {a : α} {fuel : Nat}

theorem loop_again (h : round b s = .ok (.again b') s') :
    loop round e (fuel + 1) b s = loop round e fuel b' s' := by
  rw [loop, bind_ok h]

theorem loop_leave (h : round b s = .ok (.leave a) s') :
    loop round e (fuel + 1) b s = .ok a s' := by
  rw [loop, bind_ok h]
  rfl

/-- More fuel does not change what a loop returns. -/
theorem loop_ok_of_le {fuel' : Nat} (h : loop round e fuel b s = .ok a s') (hle : fuel ≤ fuel') :
    loop round e fuel' b s = .ok a s' := by
  induction fuel generalizing b s fuel' with
  | zero => cases h
  | succ fuel ih =>
    obtain ⟨more, rfl⟩ : ∃ more, fuel' = more + 1 := ⟨fuel' - 1, by omega⟩
    rw [loop] at h
    obtain ⟨turn, s1, hround, hrest⟩ := of_bind_ok h
    cases turn with
    | again b1 =>
      rw [loop_again hround]
      exact ih hrest (by omega)
    | leave a1 =>
      rw [loop_leave hround]
      exact hrest

/-- What every round keeps holds whenever the loop is at its head. -/
theorem Reaches.invariant {I : β × σ → Prop} (hstep : ∀ x y, I x → Turns round x y → I y)
    {x y : β × σ} (h : Reaches round x y) (hx : I x) : I y := by
  induction h with
  | refl => exact hx
  | tail _ hturn ih => exact hstep _ _ ih hturn

/-- The rule of the loop: what every round keeps, and what follows when it is left. -/
theorem wp_loop {I : β → σ → Prop} {Q : α → σ → Prop} {E : ε → σ → Prop}
    (hround : ∀ b s, I b s → wp (round b)
      (fun turn s' => match turn with
        | .again b' => I b' s'
        | .leave a => Q a s') E s)
    (hfuel : ∀ b s, I b s → E e s) (hs : I b s) (fuel : Nat) :
    wp (loop round e fuel b) Q E s := by
  induction fuel generalizing b s with
  | zero => exact hfuel b s hs
  | succ fuel ih =>
    rw [loop, wp_bind]
    refine (hround b s hs).mono ?_ (fun _ _ h => h)
    intro turn s1 h1
    cases turn with
    | again b1 => exact ih h1
    | leave a => exact h1

/-- The rule of the loop for rounds that make `μ` less: more fuel than `μ` is enough. -/
theorem wp_loop_lt {I : β → σ → Prop} {Q : α → σ → Prop} {E : ε → σ → Prop} (μ : β → σ → Nat)
    (hround : ∀ b s, I b s → wp (round b)
      (fun turn s' => match turn with
        | .again b' => I b' s' ∧ μ b' s' < μ b s
        | .leave a => Q a s') E s)
    (hs : I b s) (hfuel : μ b s < fuel) : wp (loop round e fuel b) Q E s := by
  induction fuel generalizing b s with
  | zero => omega
  | succ fuel ih =>
    rw [loop, wp_bind]
    refine (hround b s hs).mono ?_ (fun _ _ h => h)
    intro turn s1 h1
    cases turn with
    | again b1 => exact ih h1.1 (by have := h1.2; omega)
    | leave a => exact h1

/-- What every round leaves alone the loop leaves alone. -/
theorem Within.loop {R : σ → σ → Prop} [IsPreorder σ R] (hround : ∀ b, Within R (round b)) (e : ε)
    (fuel : Nat) (b : β) : Within R (loop round e fuel b) := by
  intro s
  refine wp_loop (I := fun _ => R s) (E := fun _ => R s) (fun b1 s1 h1 => ?_) (fun _ _ h => h)
    (refl_of R s) fuel
  refine (hround b1 s1).mono ?_ (fun _ _ h => trans_of R h1 h)
  intro turn s2 h2
  cases turn with
  | again b2 => exact trans_of R h1 h2
  | leave a => exact trans_of R h1 h2

/-- The rule of the loop for rounds that are known to be reached. -/
theorem wp_loop_reached {I : β → σ → Prop} {Q : α → σ → Prop} {E : ε → σ → Prop} {x : β × σ}
    (hround : ∀ b s, Reaches round x (b, s) → I b s → wp (round b)
      (fun turn s' => match turn with
        | .again b' => I b' s'
        | .leave a => Q a s') E s)
    (hfuel : ∀ b s, I b s → E e s) (hx : I x.1 x.2) (fuel : Nat) :
    wp (loop round e fuel x.1) Q E x.2 := by
  refine wp_loop (I := fun b s => Reaches round x (b, s) ∧ I b s) ?_ ?_ ⟨.refl, hx⟩ fuel
  · intro b s ⟨hreach, hs⟩
    have hwp := hround b s hreach hs
    unfold wp at hwp ⊢
    cases hrun : round b s with
    | error e' s' =>
      rw [hrun] at hwp
      exact hwp
    | ok turn s' =>
      rw [hrun] at hwp
      cases turn with
      | again b' => exact ⟨hreach.tail hrun, hwp⟩
      | leave a => exact hwp
  · intro b s ⟨_, hs⟩
    exact hfuel b s hs

/-- A loop ends if each of its rounds leaves it or makes `μ` less. -/
theorem loop_returns {I : β × σ → Prop} (μ : β × σ → Nat)
    (hround : ∀ x, I x → (∃ a s', round x.1 x.2 = .ok (.leave a) s') ∨
      ∃ y, Turns round x y ∧ I y ∧ μ y < μ x) {x : β × σ} (hx : I x) :
    ∃ fuel a s', loop round e fuel x.1 x.2 = .ok a s' := by
  induction hn : μ x using Nat.strongRecOn generalizing x with
  | _ n ih =>
    cases hround x hx with
    | inl hleave =>
      obtain ⟨a, s', h⟩ := hleave
      exact ⟨1, a, s', loop_leave h⟩
    | inr hagain =>
      obtain ⟨y, hturn, hy, hless⟩ := hagain
      obtain ⟨fuel, a, s', hrun⟩ := ih (μ y) (hn ▸ hless) hy rfl
      exact ⟨fuel + 1, a, s', (loop_again hturn).trans hrun⟩

/-- The rule of a loop that works off a list, one element a round, and is left with the last. -/
theorem loop_along {γ : Type} {I : β → List γ → σ → Prop} {Q : σ → Prop}
    (hround : ∀ b x xs s, I b (x :: xs) s →
      (xs = [] ∧ ∃ s', round b s = .ok (.leave a) s' ∧ Q s') ∨
      (xs ≠ [] ∧ ∃ b' s', round b s = .ok (.again b') s' ∧ I b' xs s'))
    {xs : List γ} (hne : xs ≠ []) (hs : I b xs s) (hfuel : xs.length ≤ fuel) :
    ∃ s', loop round e fuel b s = .ok a s' ∧ Q s' := by
  induction xs generalizing fuel b s with
  | nil => exact absurd rfl hne
  | cons x xs ih =>
    obtain ⟨fuel, rfl⟩ : ∃ n, fuel = n + 1 := ⟨fuel - 1, by simp at hfuel; omega⟩
    rcases hround b x xs s hs with ⟨-, s', hleave, hQ⟩ | ⟨hmore, b', s1, hagain, hI⟩
    · exact ⟨s', loop_leave hleave, hQ⟩
    · obtain ⟨s', hrun, hQ⟩ := ih hmore hI (by simpa using hfuel)
      exact ⟨s', (loop_again hagain).trans hrun, hQ⟩

/-- A loop that comes back to a stuck state every time never ends. -/
theorem loop_stuck {stuck : β × σ → Prop}
    (hround : ∀ x, stuck x → ∃ y, Turns round x y ∧ stuck y) {x : β × σ} (hx : stuck x)
    (fuel : Nat) : wp (loop round e fuel x.1) (fun _ _ => False) (fun e' _ => e' = e) x.2 := by
  induction fuel generalizing x with
  | zero => rfl
  | succ fuel ih =>
    obtain ⟨y, hturn, hy⟩ := hround x hx
    rw [wp_congr (loop_again hturn)]
    exact ih hy

end Loop

end Exec
