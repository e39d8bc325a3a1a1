import SocketPlusPlus.Logic.Exec

/-!
# Runs with their history

A transition system is a relation `R s i o s'`: the operation `i`, started in `s`, may end with the
outcome `o` in `s'`. `Run R s0 log s` is a run from `s0` to `s` with one entry for every step, the
newest first, so that "since" and "the last" are recursions on `log`.

`record` makes such a run of a program that is called again and again, whatever the calls throw. It
is a run of every transition system that the program refines under a view of its state.
-/

namespace History

variable {σ τ ι ω ε α : Type}

structure Entry (σ ι ω : Type) where
  before : σ
  op : ι
  outcome : ω
  after : σ

inductive Run (R : σ → ι → ω → σ → Prop) (s0 : σ) : List (Entry σ ι ω) → σ → Prop where
  | start : Run R s0 [] s0
  | step {log : List (Entry σ ι ω)} {s s' : σ} {i : ι} {o : ω} (h : Run R s0 log s)
      (hstep : R s i o s') : Run R s0 (⟨s, i, o, s'⟩ :: log) s'

section Runs

variable {R : σ → ι → ω → σ → Prop} {s0 s : σ} {log : List (Entry σ ι ω)}

theorem Run.invariant {I : σ → Prop} (h : Run R s0 log s) (h0 : I s0)
    (hI : ∀ s i o s', I s → R s i o s' → I s') : I s := by
  induction h with
  | start => exact h0
  | step _ hstep ih => exact hI _ _ _ _ ih hstep

/-- What every step does under an invariant, every entry of the history shows. -/
theorem Run.forall_entry {I : σ → Prop} {P : Entry σ ι ω → Prop} (h : Run R s0 log s) (h0 : I s0)
    (hI : ∀ s i o s', I s → R s i o s' → I s')
    (hP : ∀ s i o s', I s → R s i o s' → P ⟨s, i, o, s'⟩) : ∀ e ∈ log, P e := by
  induction h with
  | start => simp
  | step h hstep ih =>
    intro e he
    rcases List.mem_cons.mp he with rfl | he
    · exact hP _ _ _ _ (h.invariant h0 hI) hstep
    · exact ih e he

/-- What every step keeps under an invariant, holds between any entry and the end of the run. -/
theorem Run.since {I : σ → Prop} {Q : σ → σ → Prop} [IsPreorder σ Q] (h : Run R s0 log s)
    (h0 : I s0) (hI : ∀ s i o s', I s → R s i o s' → I s')
    (hQ : ∀ s i o s', I s → R s i o s' → Q s s') : ∀ e ∈ log, Q e.after s := by
  induction h with
  | start => simp
  | step h hstep ih =>
    intro e he
    rcases List.mem_cons.mp he with rfl | he
    · exact refl_of Q _
    · exact trans_of Q (ih e he) (hQ _ _ _ _ (h.invariant h0 hI) hstep)

end Runs

/-- Call the programs one after the other; the entries of the calls go on top of `log`. -/
def record (run : ι → EStateM ε τ α) (view : τ → σ) :
    List ι → τ → List (Entry σ ι (Except ε α)) → List (Entry σ ι (Except ε α)) × τ
  | [], t, log => (log, t)
  | i :: is, t, log =>
    let r := Exec.attempt (run i) t
    record run view is r.2 (⟨view t, i, r.1, view r.2⟩ :: log)

/-- A program whose calls are steps of `R` runs as `R` does. -/
theorem record_run {R : σ → ι → Except ε α → σ → Prop} {run : ι → EStateM ε τ α} {view : τ → σ}
    (hstep : ∀ i t, R (view t) i (Exec.attempt (run i) t).1 (view (Exec.attempt (run i) t).2))
    (is : List ι) {s0 : σ} {t : τ} {log : List (Entry σ ι (Except ε α))}
    (h : Run R s0 log (view t)) :
    Run R s0 (record run view is t log).1 (view (record run view is t log).2) := by
  induction is generalizing t log with
  | nil => exact h
  | cons i is ih => exact ih (h.step (hstep i t))

/-- The invariant rule for the calls that meet a condition. The invariant may speak of the
history. -/
theorem record_invariant {run : ι → EStateM ε τ α} {view : τ → σ} {cond : ι → τ → Prop}
    {J : List (Entry σ ι (Except ε α)) → τ → Prop}
    (hstep : ∀ i t log, J log t → cond i t →
      J (⟨view t, i, (Exec.attempt (run i) t).1, view (Exec.attempt (run i) t).2⟩ :: log)
        (Exec.attempt (run i) t).2)
    {is : List ι} {t : τ} {log : List (Entry σ ι (Except ε α))} (h : J log t)
    (hcond : Exec.StepsMeet run cond is t) :
    J (record run view is t log).1 (record run view is t log).2 := by
  induction is generalizing t log with
  | nil => exact h
  | cons i is ih => exact ih (hstep i t log h hcond.1) hcond.2

end History
