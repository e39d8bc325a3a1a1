import Mathlib.Logic.Function.Basic
import SocketPlusPlus.Logic.History

/-!
# Two processes and what is on its way between them

A `Link` has a process at each end, and for each direction the items that were sent and have not
arrived. A process is anything with a `Port`: what it has sent, what its reads were answered, and
whether it will send more. The processes act in any order, each as its own relation says; the
network only carries what was sent, in order, and answers a read with nothing when all has arrived
and the other process is done.

What holds of a process on its own holds of it here too (`run_side`), and the two directions fit
together (`run_sound`).
-/

namespace Duplex

open History

/-- What the network sees of a process. An answer without items is the end of the input, and a
process that is `stopped` sends no more. -/
structure Port (τ β : Type) where
  sent : τ → List β
  answers : τ → List (List β)
  stopped : τ → Prop

structure Link (σ : Bool → Type) (β : Type) where
  ends : ∀ side, σ side
  flight : Bool → List β

/-- Two processes that may stand at the ends of a link. -/
structure System (σ : Bool → Type) (β ι ω : Type) where
  port : ∀ side, Port (σ side) β
  acts : ∀ side, σ side → ι → ω → σ side → Prop

variable {σ : Bool → Type} {β ι ω : Type}

/-- The process of one side has become `s`; meanwhile it has sent `sent`, and of what is on its way
to it `rest` has not arrived. -/
def Link.after (w : Link σ β) (side : Bool) (s : σ side) (sent rest : List β) : Link σ β where
  ends := Function.update w.ends side s
  flight := Function.update (Function.update w.flight (!side) rest) side (w.flight side ++ sent)

/-- A process acts, and hears what the network has for it. -/
inductive System.Step (S : System σ β ι ω) (w : Link σ β) : Bool × ι → ω → Link σ β → Prop where
  | act {side : Bool} {i : ι} {o : ω} {s : σ side} {sent rest : List β} {heard : List (List β)}
      (hact : S.acts side (w.ends side) i o s)
      (hsent : (S.port side).sent s = (S.port side).sent (w.ends side) ++ sent)
      (hheard : (S.port side).answers s = (S.port side).answers (w.ends side) ++ heard)
      (hflight : w.flight (!side) = heard.flatten ++ rest)
      (hend : ∀ pre post, heard = pre ++ [] :: post →
        (S.port (!side)).stopped (w.ends (!side)) ∧ w.flight (!side) = pre.flatten) :
      S.Step w (side, i) o (w.after side s sent rest)

/-- The part of a history that one process has made. -/
def ofSide (side : Bool) (log : List (Entry (Link σ β) (Bool × ι) ω)) :
    List (Entry (σ side) ι ω) :=
  log.filterMap fun e =>
    if e.op.1 = side then some ⟨e.before.ends side, e.op.2, e.outcome, e.after.ends side⟩ else none

theorem forall_ofSide {log : List (Entry (Link σ β) (Bool × ι) ω)}
    {P : ∀ side, Entry (σ side) ι ω → Prop}
    (h : ∀ e ∈ log, P e.op.1 ⟨e.before.ends e.op.1, e.op.2, e.outcome, e.after.ends e.op.1⟩)
    (side : Bool) : ∀ e ∈ ofSide side log, P side e := by
  intro e he
  obtain ⟨d, hd, hsome⟩ := List.mem_filterMap.mp he
  by_cases hside : d.op.1 = side
  · subst hside
    obtain rfl : _ = e := by simpa using hsome
    exact h d hd
  · simp [hside] at hsome

/-- Each direction is in order, and an answer without items comes when all has arrived for good. -/
structure System.Sound (S : System σ β ι ω) (w : Link σ β) : Prop where
  flow : ∀ side, ((S.port (!side)).answers (w.ends (!side))).flatten ++ w.flight side =
    (S.port side).sent (w.ends side)
  final : ∀ side pre post, (S.port (!side)).answers (w.ends (!side)) = pre ++ [] :: post →
    (S.port side).stopped (w.ends side) ∧ pre.flatten = (S.port side).sent (w.ends side)

/-- What is asked of the processes: under an invariant of its own, a process that has stopped stays
so and sends nothing. -/
structure System.Obeys (S : System σ β ι ω) (I : ∀ side, σ side → Prop) : Prop where
  keeps : ∀ side s i o s', I side s → S.acts side s i o s' → I side s'
  stopped : ∀ side s i o s', I side s → S.acts side s i o s' → (S.port side).stopped s →
    (S.port side).stopped s' ∧ (S.port side).sent s' = (S.port side).sent s

section After

variable {w : Link σ β} {side : Bool} {s : σ side} {sent rest : List β}

theorem forall_sides {P : Bool → Prop} (side : Bool) (hself : P side) (hother : P (!side)) :
    ∀ d, P d := by
  intro d
  by_cases hd : d = side
  · rwa [hd]
  · rwa [Bool.eq_not_of_ne hd]

@[simp] theorem Link.after_self : (w.after side s sent rest).ends side = s := by
  simp [Link.after]

@[simp] theorem Link.after_other :
    (w.after side s sent rest).ends (!side) = w.ends (!side) := by
  simp [Link.after]

@[simp] theorem Link.flight_self :
    (w.after side s sent rest).flight side = w.flight side ++ sent := by
  simp [Link.after]

@[simp] theorem Link.flight_other : (w.after side s sent rest).flight (!side) = rest := by
  simp [Link.after]

end After

section Runs

variable {S : System σ β ι ω} {I : ∀ side, σ side → Prop} {w w' start : Link σ β}
  {op : Bool × ι} {o : ω} {log : List (Entry (Link σ β) (Bool × ι) ω)}

/-- A run of the link is a run of each process. -/
theorem run_side (h : Run S.Step start log w) (side : Bool) :
    Run (S.acts side) (start.ends side) (ofSide side log) (w.ends side) := by
  induction h with
  | start => exact .start
  | @step log w w' op o _ hstep ih =>
    obtain @⟨side', i, _, s, sent, rest, heard, hact, -⟩ := hstep
    by_cases hside : side' = side
    · subst hside
      have hlog : ofSide side' (⟨w, (side', i), o, w.after side' s sent rest⟩ :: log) =
          ⟨w.ends side', i, o, s⟩ :: ofSide side' log := by simp [ofSide]
      rw [hlog, Link.after_self]
      exact ih.step hact
    · have hlog : ofSide side (⟨w, (side', i), o, w.after side' s sent rest⟩ :: log) =
          ofSide side log := by simp [ofSide, hside]
      have hends : (w.after side' s sent rest).ends side = w.ends side := by
        simp [Link.after, Ne.symm hside]
      rwa [hlog, hends]

theorem System.Sound.heard_le (hw : S.Sound w) (side : Bool) :
    ((S.port (!side)).answers (w.ends (!side))).flatten <+: (S.port side).sent (w.ends side) :=
  ⟨w.flight side, hw.flow side⟩

/-- Behind an answer without items nothing is heard. -/
theorem System.Sound.heard_all (hw : S.Sound w) (side : Bool) {pre post : List (List β)}
    (h : (S.port (!side)).answers (w.ends (!side)) = pre ++ [] :: post) :
    pre.flatten = (S.port side).sent (w.ends side) ∧
      ((S.port (!side)).answers (w.ends (!side))).flatten = (S.port side).sent (w.ends side) := by
  obtain ⟨-, hall⟩ := hw.final side pre post h
  refine ⟨hall, ?_⟩
  obtain ⟨rest, hrest⟩ := hw.heard_le side
  rw [← hall, h] at hrest ⊢
  have hempty : post.flatten ++ rest = [] := by simpa using hrest
  rw [List.append_eq_nil_iff] at hempty
  simp [hempty.1]

theorem System.Sound.step (hobeys : S.Obeys I) (hI : ∀ side, I side (w.ends side))
    (hw : S.Sound w) (hstep : S.Step w op o w') : S.Sound w' := by
  obtain @⟨side, i, _, s, sent, rest, heard, hact, hsent, hheard, hflight, hend⟩ := hstep
  have hflow := hw.flow (!side)
  have hfinal := hw.final (!side)
  rw [Bool.not_not] at hflow hfinal
  constructor
  · refine forall_sides side ?_ ?_
    · rw [Link.after_self, Link.after_other, Link.flight_self, hsent, ← hw.flow side,
        List.append_assoc]
    · rw [Bool.not_not, Link.after_self, Link.after_other, Link.flight_other, hheard, ← hflow,
        hflight, List.flatten_append, List.append_assoc]
  · refine forall_sides side ?_ ?_
    · -- what comes from the process that acts: if all has arrived it has stopped, and sends nothing
      intro pre post hanswers
      rw [Link.after_other] at hanswers
      obtain ⟨hstopped, hall⟩ := hw.final side pre post hanswers
      obtain ⟨hstopped', hsame⟩ := hobeys.stopped side _ _ _ _ (hI side) hact hstopped
      rw [Link.after_self]
      exact ⟨hstopped', hall.trans hsame.symm⟩
    · -- what comes to it: the answer is an old one or a new one
      intro pre post hanswers
      rw [Bool.not_not, Link.after_self, hheard] at hanswers
      rw [Link.after_other]
      rcases List.append_eq_append_iff.mp hanswers with ⟨mid, hpre, hheard'⟩ | ⟨mid, hold, hpost⟩
      · obtain ⟨hstopped, hwhole⟩ := hend mid post hheard'
        refine ⟨hstopped, ?_⟩
        rw [hpre, List.flatten_append, ← hwhole, hflow]
      · cases mid with
        | nil =>
          obtain ⟨hstopped, hwhole⟩ := hend [] post hpost.symm
          refine ⟨hstopped, ?_⟩
          rw [← hflow, hold, hwhole]
          simp
        | cons a mid =>
          cases hpost
          exact hfinal pre mid hold

theorem run_sound (hobeys : S.Obeys I) (hI : ∀ side, I side (start.ends side))
    (hstart : S.Sound start) (h : Run S.Step start log w) :
    S.Sound w ∧ ∀ side, I side (w.ends side) := by
  have hkept : ∀ side, I side (w.ends side) := fun side =>
    (run_side h side).invariant (hI side) (hobeys.keeps side)
  refine ⟨?_, hkept⟩
  clear hkept
  induction h with
  | start => exact hstart
  | step h hstep ih =>
    have hI' := fun side => (run_side h side).invariant (hI side) (hobeys.keeps side)
    exact ih.step hobeys hI' hstep

end Runs

end Duplex
