import Mathlib.Logic.Basic
import Mathlib.Order.Defs.Unbundled

/-!
# Weakest preconditions for programs with state and exceptions

A program is an `EStateM ε σ α`: it reads and writes a state `σ`, and either returns a value or
leaves by an exception `ε`. The state an exception leaves behind is kept, as in a C++ program whose
object outlives the `throw`. `wp c Q E s` says what `c` guarantees when started in `s`: `Q` if it
returns and `E` if it throws.

* the `wp_*` rules push `wp` through the control structure of a program;
* `wp.mono` and `wp.and` are the structural rules a caller uses on the specification of a callee;
* `Within R c` says that `c` changes the state within a preorder `R`: a frame condition, proved by
  one rule for each control structure;
* `zoom` runs a program of a part of the state inside a larger state;
* `runAll` is a caller that goes on after an exception, with its invariant rule, and `StepsMeet`
  puts a condition on each of its calls.
-/

namespace Exec

variable {ε σ τ α β : Type}

/-- From `s`, the program `c` either returns with `Q` or throws with `E`. -/
def wp (c : EStateM ε σ α) (Q : α → σ → Prop) (E : ε → σ → Prop) (s : σ) : Prop :=
  match c s with
  | .ok a s' => Q a s'
  | .error e s' => E e s'

/-! ## Rules for the control structure

One rule for each way in which a program is put together. All of them are equivalences, so that a
goal can be rewritten step by step. -/

section Rules

variable {c : EStateM ε σ α} {Q : α → σ → Prop} {E : ε → σ → Prop} {s : σ}

@[simp] theorem wp_pure (a : α) : wp (pure a : EStateM ε σ α) Q E s ↔ Q a s := Iff.rfl

@[simp] theorem wp_bind {f : α → EStateM ε σ β} {R : β → σ → Prop} :
    wp (c >>= f) R E s ↔ wp c (fun a => wp (f a) R E) E s := by
  show (match EStateM.bind c f s with | .ok a s' => R a s' | .error e s' => E e s') ↔ _
  unfold EStateM.bind wp
  cases c s <;> rfl

@[simp] theorem wp_map {f : α → β} {R : β → σ → Prop} :
    wp (f <$> c) R E s ↔ wp c (fun a => R (f a)) E s := by
  show (match EStateM.map f c s with | .ok a s' => R a s' | .error e s' => E e s') ↔ _
  unfold EStateM.map wp
  cases c s <;> rfl

@[simp] theorem wp_throw (e : ε) : wp (throw e : EStateM ε σ α) Q E s ↔ E e s := Iff.rfl

@[simp] theorem wp_get {R : σ → σ → Prop} : wp (get : EStateM ε σ σ) R E s ↔ R s s := Iff.rfl

@[simp] theorem wp_modify {f : σ → σ} {R : PUnit → σ → Prop} :
    wp (modify f : EStateM ε σ PUnit) R E s ↔ R ⟨⟩ (f s) := Iff.rfl

@[simp] theorem wp_tryCatch {h : ε → EStateM ε σ α} :
    wp (tryCatch c h) Q E s ↔ wp c Q (fun e => wp (h e) Q E) s := by
  show (match EStateM.tryCatch c h s with | .ok a s' => Q a s' | .error e s' => E e s') ↔ _
  unfold EStateM.tryCatch wp
  cases c s <;> rfl

@[simp] theorem wp_ite {p : Prop} [Decidable p] {d : EStateM ε σ α} :
    wp (if p then c else d) Q E s ↔ if p then wp c Q E s else wp d Q E s := by
  split <;> rfl

/-- Both branches of a test. -/
theorem wp_ite_intro {p : Prop} [Decidable p] {d : EStateM ε σ α} (hc : p → wp c Q E s)
    (hd : ¬ p → wp d Q E s) : wp (if p then c else d) Q E s := by
  split
  · next hp => exact hc hp
  · next hp => exact hd hp

end Rules

/-! ## Structural rules -/

section Structural

variable {c : EStateM ε σ α} {Q Q' : α → σ → Prop} {E E' : ε → σ → Prop} {s : σ}

/-- The rule of consequence: a caller weakens what the callee guarantees. -/
theorem wp.mono (h : wp c Q E s) (hQ : ∀ a s', Q a s' → Q' a s')
    (hE : ∀ e s', E e s' → E' e s') : wp c Q' E' s := by
  unfold wp at h ⊢
  cases hc : c s with
  | ok a s' => rw [hc] at h; exact hQ a s' h
  | error e s' => rw [hc] at h; exact hE e s' h

theorem wp.and (h : wp c Q E s) (h' : wp c Q' E' s) :
    wp c (fun a s' => Q a s' ∧ Q' a s') (fun e s' => E e s' ∧ E' e s') s := by
  unfold wp at h h' ⊢
  cases hc : c s with
  | ok a s' => rw [hc] at h h'; exact ⟨h, h'⟩
  | error e s' => rw [hc] at h h'; exact ⟨h, h'⟩

/-- What holds of every outcome. -/
theorem wp_of_forall (hQ : ∀ a s', Q a s') (hE : ∀ e s', E e s') : wp c Q E s := by
  unfold wp
  cases c s with
  | ok a s' => exact hQ a s'
  | error e s' => exact hE e s'

theorem wp.of_ok {a : α} {s' : σ} (h : wp c Q E s) (hc : c s = .ok a s') : Q a s' := by
  unfold wp at h; rwa [hc] at h

theorem wp.of_error {e : ε} {s' : σ} (h : wp c Q E s) (hc : c s = .error e s') : E e s' := by
  unfold wp at h; rwa [hc] at h

theorem wp.exists_ok (h : wp c Q (fun _ _ => False) s) : ∃ a s', c s = .ok a s' ∧ Q a s' := by
  unfold wp at h
  cases hc : c s with
  | ok a s' => rw [hc] at h; exact ⟨a, s', rfl, h⟩
  | error e s' => rw [hc] at h; exact h.elim

/-- Two programs with the same outcome have the same guarantees. -/
theorem wp_congr {c d : EStateM ε σ α} {s' : σ} (h : c s = d s') : wp c Q E s ↔ wp d Q E s' := by
  unfold wp; rw [h]

/-- A program whose outcome is known. -/
theorem wp_iff_of_ok {a : α} {s' : σ} (h : c s = .ok a s') : wp c Q E s ↔ Q a s' := by
  unfold wp; rw [h]

theorem wp_iff_of_error {e : ε} {s' : σ} (h : c s = .error e s') : wp c Q E s ↔ E e s' := by
  unfold wp; rw [h]

theorem bind_ok {f : α → EStateM ε σ β} {a : α} {s' : σ} (h : c s = .ok a s') :
    (c >>= f) s = f a s' := by
  show EStateM.bind c f s = _
  unfold EStateM.bind; rw [h]

theorem map_ok {f : α → β} {a : α} {s' : σ} (h : c s = .ok a s') :
    (f <$> c) s = .ok (f a) s' := by
  show EStateM.map f c s = _
  unfold EStateM.map; rw [h]

theorem bind_error {f : α → EStateM ε σ β} {e : ε} {s' : σ} (h : c s = .error e s') :
    (c >>= f) s = .error e s' := by
  show EStateM.bind c f s = _
  unfold EStateM.bind; rw [h]

/-- A program that returned has returned from its first step. -/
theorem of_bind_ok {f : α → EStateM ε σ β} {b : β} {s' : σ} (h : (c >>= f) s = .ok b s') :
    ∃ a s1, c s = .ok a s1 ∧ f a s1 = .ok b s' := by
  cases hc : c s with
  | ok a s1 =>
    rw [bind_ok hc] at h
    exact ⟨a, s1, rfl, h⟩
  | error e s1 =>
    rw [bind_error hc] at h
    cases h

/-- A first step whose outcome is known is passed over. -/
theorem wp_bind_of_ok {f : α → EStateM ε σ β} {R : β → σ → Prop} {a : α} {s' : σ}
    (h : c s = .ok a s') : wp (c >>= f) R E s ↔ wp (f a) R E s' := by
  unfold wp; rw [bind_ok h]

theorem wp_bind_of_error {f : α → EStateM ε σ β} {R : β → σ → Prop} {e : ε} {s' : σ}
    (h : c s = .error e s') : wp (c >>= f) R E s ↔ E e s' :=
  wp_iff_of_error (bind_error h)

theorem bind_congr_left {d : EStateM ε σ α} {f : α → EStateM ε σ β} (h : c s = d s) :
    (c >>= f) s = (d >>= f) s := by
  show EStateM.bind c f s = EStateM.bind d f s
  unfold EStateM.bind; rw [h]

/-- Two states in which the first step has the same outcome. -/
theorem bind_congr_start {f : α → EStateM ε σ β} {s' : σ} (h : c s = c s') :
    (c >>= f) s = (c >>= f) s' := by
  show EStateM.bind c f s = EStateM.bind c f s'
  unfold EStateM.bind; rw [h]

/-- Two continuations need only agree where the program can arrive. -/
theorem bind_congr_right {f g : α → EStateM ε σ β}
    (h : ∀ a s', c s = .ok a s' → f a s' = g a s') : (c >>= f) s = (c >>= g) s := by
  cases hc : c s with
  | ok a s' => rw [bind_ok hc, bind_ok hc, h a s' hc]
  | error e s' => rw [bind_error hc, bind_error hc]

end Structural

/-! ## What a program leaves alone

`Within R c` relates every state to the one that `c` leaves behind, whether it returns or throws. It
is proved along the text of the program, without an invariant for its loops. -/

section Within

/-- However `c` ends, the state it leaves is related by `R` to the state it found. -/
def Within (R : σ → σ → Prop) (c : EStateM ε σ α) : Prop :=
  ∀ s, wp c (fun _ => R s) (fun _ => R s) s

variable {R : σ → σ → Prop} [IsPreorder σ R] {c d : EStateM ε σ α}

theorem Within.pure (a : α) : Within R (pure a : EStateM ε σ α) := fun s => refl_of R s

theorem Within.throw (e : ε) : Within R (throw e : EStateM ε σ α) := fun s => refl_of R s

theorem Within.get : Within R (get : EStateM ε σ σ) := fun s => refl_of R s

/-- A program that leaves the state as it was. -/
theorem Within.of_eq (h : Within Eq c) : Within R c := fun s =>
  (h s).mono (fun _ _ h => h ▸ refl_of R s) (fun _ _ h => h ▸ refl_of R s)

omit [IsPreorder σ R] in
theorem Within.modify {f : σ → σ} (h : ∀ s, R s (f s)) :
    Within R (modify f : EStateM ε σ PUnit) := h

theorem Within.bind {f : α → EStateM ε σ β} (hc : Within R c) (hf : ∀ a, Within R (f a)) :
    Within R (c >>= f) := by
  intro s
  rw [wp_bind]
  refine (hc s).mono ?_ (fun _ _ h => h)
  intro a s1 h1
  exact (hf a s1).mono (fun _ _ h => trans_of R h1 h) (fun _ _ h => trans_of R h1 h)

omit [IsPreorder σ R] in
theorem Within.map {f : α → β} (hc : Within R c) : Within R (f <$> c) := fun s => wp_map.mpr (hc s)

theorem Within.tryCatch {h : ε → EStateM ε σ α} (hc : Within R c) (hh : ∀ e, Within R (h e)) :
    Within R (tryCatch c h) := by
  intro s
  rw [wp_tryCatch]
  refine (hc s).mono (fun _ _ h => h) ?_
  intro e s1 h1
  exact (hh e s1).mono (fun _ _ h => trans_of R h1 h) (fun _ _ h => trans_of R h1 h)

omit [IsPreorder σ R] in
theorem Within.ite {p : Prop} [Decidable p] (hc : Within R c) (hd : Within R d) :
    Within R (if p then c else d) := by
  split
  · exact hc
  · exact hd

end Within

/-! ## Running a program on a part of the state -/

/-- Run a program of the part `σ` of a larger state `τ`; the rest of `τ` is carried along. -/
def zoom (part : τ → σ) (put : τ → σ → τ) (c : EStateM ε σ α) : EStateM ε τ α := fun t =>
  match c (part t) with
  | .ok a s => .ok a (put t s)
  | .error e s => .error e (put t s)

theorem zoom_ok {part : τ → σ} {put : τ → σ → τ} {c : EStateM ε σ α} {t : τ} {a : α} {s : σ}
    (h : c (part t) = .ok a s) : zoom part put c t = .ok a (put t s) := by
  unfold zoom; rw [h]

theorem zoom_error {part : τ → σ} {put : τ → σ → τ} {c : EStateM ε σ α} {t : τ} {e : ε} {s : σ}
    (h : c (part t) = .error e s) : zoom part put c t = .error e (put t s) := by
  unfold zoom; rw [h]

@[simp] theorem wp_zoom {part : τ → σ} {put : τ → σ → τ} {c : EStateM ε σ α}
    {Q : α → τ → Prop} {E : ε → τ → Prop} {t : τ} :
    wp (zoom part put c) Q E t ↔
      wp c (fun a s => Q a (put t s)) (fun e s => E e (put t s)) (part t) := by
  unfold wp zoom
  cases c (part t) <;> rfl

/-- A program that moves the part within `S` moves the whole within `R`. -/
theorem Within.zoom {part : τ → σ} {put : τ → σ → τ} {S : σ → σ → Prop} {R : τ → τ → Prop}
    {c : EStateM ε σ α} (hput : ∀ t s, S (part t) s → R t (put t s)) (h : Within S c) :
    Within R (Exec.zoom part put c) := by
  intro t
  rw [wp_zoom]
  exact (h (part t)).mono (fun _ s => hput t s) (fun _ s => hput t s)

/-- A program of a part, where `R` is about the rest. -/
theorem Within.of_rest {part : τ → σ} {put : τ → σ → τ} {R : τ → τ → Prop}
    (hput : ∀ t s, R t (put t s)) (c : EStateM ε σ α) : Within R (Exec.zoom part put c) := by
  intro t
  rw [wp_zoom]
  exact wp_of_forall (fun _ s => hput t s) (fun _ s => hput t s)

/-! ## A caller that goes on after an exception

A run of many calls is that of a program that catches whatever a call throws. A condition on a call
may depend on the state in which it is made. -/

/-- The outcome of one call as its caller sees it, and the state it leaves. -/
def attempt (c : EStateM ε σ α) (s : σ) : Except ε α × σ :=
  match c s with
  | .ok a s' => (.ok a, s')
  | .error e s' => (.error e, s')

/-- Make the calls one after the other, whatever the earlier ones threw. -/
def runAll : List (EStateM ε σ α) → σ → List (Except ε α) × σ
  | [], s => ([], s)
  | c :: cs, s =>
    let r := attempt c s
    let rest := runAll cs r.2
    (r.1 :: rest.1, rest.2)

@[simp] theorem runAll_nil (s : σ) : runAll ([] : List (EStateM ε σ α)) s = ([], s) := rfl

theorem runAll_cons (c : EStateM ε σ α) (cs : List (EStateM ε σ α)) (s : σ) :
    runAll (c :: cs) s =
      ((attempt c s).1 :: (runAll cs (attempt c s).2).1, (runAll cs (attempt c s).2).2) := rfl

theorem of_attempt_ok {c : EStateM ε σ α} {s : σ} {a : α} (h : (attempt c s).1 = .ok a) :
    c s = .ok a (attempt c s).2 := by
  unfold attempt at h ⊢
  cases hc : c s with
  | ok b s' =>
    rw [hc] at h
    cases h
    rfl
  | error e s' =>
    rw [hc] at h
    cases h

/-- A run in which no call throws starts with a call that returns. -/
theorem of_runAll_isOk {c : EStateM ε σ α} {cs : List (EStateM ε σ α)} {s : σ}
    (h : (runAll (c :: cs) s).1.all Except.isOk = true) :
    (∃ a, c s = .ok a (attempt c s).2) ∧
      (runAll cs (attempt c s).2).1.all Except.isOk = true := by
  rw [runAll_cons, List.all_cons, Bool.and_eq_true] at h
  refine ⟨?_, h.2⟩
  cases hc : (attempt c s).1 with
  | ok a => exact ⟨a, of_attempt_ok hc⟩
  | error e =>
    rw [hc] at h
    cases h.1

/-- Every call of the run starts in a state that meets the condition `cond` of that call. -/
def StepsMeet {ι : Type} (run : ι → EStateM ε σ α) (cond : ι → σ → Prop) : List ι → σ → Prop
  | [], _ => True
  | i :: is, s => cond i s ∧ StepsMeet run cond is (attempt (run i) s).2

/-- What a specification says about the state after a call, thrown or not. -/
theorem wp.attempt {I : σ → Prop} {c : EStateM ε σ α} {s : σ}
    (h : wp c (fun _ => I) (fun _ => I) s) : I (attempt c s).2 := by
  unfold wp at h
  unfold Exec.attempt
  cases hc : c s with
  | ok a s' => rw [hc] at h; exact h
  | error e s' => rw [hc] at h; exact h

theorem wp.outcome {P : Except ε α → σ → Prop} {c : EStateM ε σ α} {s : σ}
    (h : wp c (fun a => P (.ok a)) (fun e => P (.error e)) s) :
    P (Exec.attempt c s).1 (Exec.attempt c s).2 := by
  unfold wp at h
  unfold Exec.attempt
  cases hc : c s with
  | ok a s' => rw [hc] at h; exact h
  | error e s' => rw [hc] at h; exact h

/-- Two conditions that agree under an invariant, and keep it, are met by the same runs. -/
theorem stepsMeet_iff {ι : Type} {run : ι → EStateM ε σ α} {cond cond' : ι → σ → Prop}
    {I : σ → Prop} (hiff : ∀ i s, I s → (cond i s ↔ cond' i s))
    (hstep : ∀ i s, I s → cond' i s → wp (run i) (fun _ => I) (fun _ => I) s) (is : List ι) {s : σ}
    (hs : I s) : StepsMeet run cond is s ↔ StepsMeet run cond' is s := by
  induction is generalizing s with
  | nil => exact Iff.rfl
  | cons i is ih =>
    unfold StepsMeet
    rw [hiff i s hs]
    refine and_congr_right fun hi => ?_
    have hnext : I (Exec.attempt (run i) s).2 := (hstep i s hs hi).attempt
    exact ih hnext

theorem stepsMeet_and {ι : Type} {run : ι → EStateM ε σ α} {cond cond' : ι → σ → Prop}
    {is : List ι} {s : σ} :
    StepsMeet run (fun i s => cond i s ∧ cond' i s) is s ↔
      StepsMeet run cond is s ∧ StepsMeet run cond' is s := by
  induction is generalizing s with
  | nil => simp [StepsMeet]
  | cons i is ih =>
    simp only [StepsMeet, ih]
    exact and_and_and_comm

/-- `stepsMeet_iff` for the runs whose calls all lie in the domain `dom`. -/
theorem stepsMeet_iff_on {ι : Type} {run : ι → EStateM ε σ α} {dom cond cond' : ι → σ → Prop}
    {I : σ → Prop} (hiff : ∀ i s, I s → dom i s → (cond i s ↔ cond' i s))
    (hstep : ∀ i s, I s → dom i s → cond' i s → wp (run i) (fun _ => I) (fun _ => I) s)
    (is : List ι) {s : σ} (hs : I s) (hdom : StepsMeet run dom is s) :
    StepsMeet run cond is s ↔ StepsMeet run cond' is s := by
  have hboth : StepsMeet run (fun i s => dom i s ∧ cond i s) is s ↔
      StepsMeet run (fun i s => dom i s ∧ cond' i s) is s :=
    stepsMeet_iff (I := I) (fun i s hs => and_congr_right fun hd => hiff i s hs hd)
      (fun i s hs h => hstep i s hs h.1 h.2) is hs
  rwa [stepsMeet_and, stepsMeet_and, and_iff_right hdom, and_iff_right hdom] at hboth

/-- A run whose calls all meet a condition meets whatever follows from it under an invariant. -/
theorem StepsMeet.of_invariant {ι : Type} {run : ι → EStateM ε σ α} {cond goal : ι → σ → Prop}
    {I : σ → Prop} (hgoal : ∀ i s, I s → cond i s → goal i s)
    (hstep : ∀ i s, I s → cond i s → wp (run i) (fun _ => I) (fun _ => I) s) {is : List ι} {s : σ}
    (hs : I s) (h : StepsMeet run cond is s) : StepsMeet run goal is s := by
  induction is generalizing s with
  | nil => trivial
  | cons i is ih =>
    have hnext : I (Exec.attempt (run i) s).2 := (hstep i s hs h.1).attempt
    exact ⟨hgoal i s hs h.1, ih hnext h.2⟩

/-- The invariant rule: what every call keeps, thrown or not, holds after every run. -/
theorem runAll_invariant {I : σ → Prop} {cs : List (EStateM ε σ α)}
    (hstep : ∀ c ∈ cs, ∀ s, I s → wp c (fun _ => I) (fun _ => I) s) {s : σ} (hs : I s) :
    I (runAll cs s).2 := by
  induction cs generalizing s with
  | nil => exact hs
  | cons c cs ih =>
    rw [runAll_cons]
    have hc : I (Exec.attempt c s).2 := (hstep c (by simp) s hs).attempt
    exact ih (fun d hd => hstep d (List.mem_cons_of_mem _ hd)) hc

end Exec
