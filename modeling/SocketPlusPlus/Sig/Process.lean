import Mathlib.Data.Multiset.Filter
import SocketPlusPlus.Sig.Masks

/-!
# The mask of the process

Where `mask(a, b)` is about the time in which a handler of `a` runs, `mask(signo)` is about the
process: it blocks the signal until `unmask(signo)`. A `Process` has the registry, the signals that
are blocked, those that were generated and wait, and the activations of `sighandler` that have not
returned. The program, the handlers and the senders of signals may follow one another in any order;
an `Event` of the kernel that is not due has no effect.

Behind `mask(signo)` the signal is not seen (`masked_unseen`), but for one thing: if it was called
by a handler, the kernel undoes it when this handler returns. What the header promises of
`mask(a, b)` is `handler_unseen`. Handlers of one signal do not interrupt each other
(`no_reentry`), and signals are not made up, nor lost but for those that the kernel discards
(`delivered_once`).
-/

namespace Sig

open Exec History

/-! ## Signals that wait

Of a signal below `SIGRTMIN` the kernel keeps one, however often it was generated. Those above
queue. -/

def sigrtmin : Int := 32

def Standard (signo : Int) : Prop := signo < sigrtmin

instance (signo : Int) : Decidable (Standard signo) := inferInstanceAs (Decidable (_ < _))

def Once (signals : Multiset Int) : Prop := ∀ signo, Standard signo → signals.count signo ≤ 1

structure Sigpending where
  signals : Multiset Int
  once : Once signals

theorem Once.mono {signals signals' : Multiset Int} (h : Once signals) (hle : signals' ≤ signals) :
    Once signals' := fun signo hstandard =>
  (Multiset.count_le_of_le signo hle).trans (h signo hstandard)

theorem Once.cons {signals : Multiset Int} {signo : Int} (h : Once signals)
    (hnew : ¬ (Standard signo ∧ signo ∈ signals)) : Once (signo ::ₘ signals) := by
  intro signo' hstandard
  by_cases hsigno : signo' = signo
  · subst hsigno
    have hnot : signo' ∉ signals := fun hmem => hnew ⟨hstandard, hmem⟩
    rw [Multiset.count_cons_self, Multiset.count_eq_zero.mpr hnot]
  · rw [Multiset.count_cons_of_ne hsigno]
    exact h signo' hstandard

theorem once_zero : Once 0 := fun signo _ => by simp

namespace Sigpending

def empty : Sigpending := ⟨0, once_zero⟩

def count (q : Sigpending) (signo : Int) : Nat := q.signals.count signo

def add (q : Sigpending) (signo : Int) : Sigpending :=
  if h : Standard signo ∧ signo ∈ q.signals then q else ⟨signo ::ₘ q.signals, q.once.cons h⟩

def remove (q : Sigpending) (signo : Int) : Sigpending :=
  ⟨q.signals.erase signo, q.once.mono (Multiset.erase_le signo q.signals)⟩

def discard (q : Sigpending) (gone : Int → Prop) [DecidablePred gone] : Sigpending :=
  ⟨q.signals.filter (¬ gone ·), q.once.mono (Multiset.filter_le _ q.signals)⟩

variable (q : Sigpending) {signo signo' : Int}

theorem count_add_self :
    (q.add signo).count signo = if Standard signo then 1 else q.count signo + 1 := by
  unfold add count
  by_cases hmem : signo ∈ q.signals
  · have hpos := Multiset.one_le_count_iff_mem.mpr hmem
    by_cases hstandard : Standard signo
    · have hone := q.once signo hstandard
      simp only [hstandard, hmem, and_self, dif_pos, if_true]
      omega
    · simp [hstandard]
  · by_cases hstandard : Standard signo <;> simp [hstandard, hmem]

theorem count_add_ne (h : signo' ≠ signo) : (q.add signo).count signo' = q.count signo' := by
  unfold add count
  split
  · rfl
  · exact Multiset.count_cons_of_ne h _

@[simp] theorem count_remove_self : (q.remove signo).count signo = q.count signo - 1 :=
  Multiset.count_erase_self signo q.signals

theorem count_remove_ne (h : signo' ≠ signo) : (q.remove signo).count signo' = q.count signo' :=
  Multiset.count_erase_of_ne h q.signals

@[simp] theorem count_discard (gone : Int → Prop) [DecidablePred gone] (signo : Int) :
    (q.discard gone).count signo = if gone signo then 0 else q.count signo := by
  unfold discard count
  rw [Multiset.count_filter]
  by_cases hgone : gone signo <;> simp [hgone]

end Sigpending

/-! ## Signals that are discarded

The kernel does not keep a signal that is ignored: it is dropped when it is generated, unless it is
blocked, and when `sigaction` makes the process ignore it, also if it is blocked. `SIGCONT` and the
signals that stop a process displace each other. The numbers are those of Linux. -/

def sigcont : Int := 18

/-- `SIGSTOP`, `SIGTSTP`, `SIGTTIN` and `SIGTTOU` -/
def stopSignals : Finset Int := {sigstop, 20, 21, 22}

/-- `SIGCHLD`, `SIGCONT`, `SIGURG` and `SIGWINCH`: `SIG_DFL` ignores them. -/
def ignoredByDefault : Finset Int := {17, sigcont, 23, 28}

def Registry.Ignores (r : Registry) (signo : Int) : Prop :=
  (r.disp signo).saHandler = .sigIgn ∨
    (r.disp signo).saHandler = .sigDfl ∧ signo ∈ ignoredByDefault

instance (r : Registry) (signo : Int) : Decidable (r.Ignores signo) :=
  inferInstanceAs (Decidable (_ ∨ _ ∧ _))

/-- What waits no more when `signo` is generated. -/
def displaced (signo : Int) : Finset Int :=
  if signo = sigcont then stopSignals else if signo ∈ stopSignals then {sigcont} else ∅

theorem not_mem_displaced (signo : Int) : signo ∉ displaced signo := by
  unfold displaced
  split_ifs with hcont hstop
  · subst hcont
    decide
  · simpa using hcont
  · simp

/-! ## The process

The activations of `sighandler` are a stack: a handler that interrupts another one returns before
it. -/

/-- An activation of `sighandler`, and the mask that the kernel restores when it returns. -/
structure Frame where
  signo : Int
  saved : Finset Int
deriving DecidableEq

/-- The innermost activation is the first of `frames`. -/
structure Process where
  st : State
  blocked : Finset Int
  generated : Sigpending
  frames : List Frame

namespace Process

/-! ### The members -/

def onState {α : Type} (c : Prog α) : EStateM Sigerr Process α :=
  zoom Process.st (fun p st => { p with st := st }) c

/-- `sigaction` discards what waits of a signal that the process ignores from now on. -/
def discardIgnored (before : Registry) (p : Process) : Process :=
  { p with generated := p.generated.discard fun signo =>
      p.st.reg.Ignores signo ∧ ¬ before.Ignores signo }

/-- A member that looks after the dispositions. -/
def onRegistry {α : Type} (c : Prog α) : EStateM Sigerr Process α := do
  let p ← get
  let a ← onState c
  modify (discardIgnored p.st.reg)
  pure a

section Members

variable (F : Nat → Bool)

/-- `sigemptyset(&s)` and `sigaddset(&s, signo)` -/
def sigset (signo : Int) : Prog (Finset Int) := do
  syscall F
  syscall F
  pure {signo}

/-- `mask(int signo)` -/
def mask (signo : Int) : EStateM Sigerr Process Unit := do
  let s ← onState (sigset F signo)
  -- `sigprocmask(SIG_BLOCK, &s, 0)`
  onState (syscall F)
  modify fun p => { p with blocked := p.blocked ∪ s \ unblockable }

/-- `unmask(int signo)` -/
def unmask (signo : Int) : EStateM Sigerr Process Unit := do
  let s ← onState (sigset F signo)
  -- `sigprocmask(SIG_UNBLOCK, &s, 0)`
  onState (syscall F)
  modify fun p => { p with blocked := p.blocked \ s }

/-- `pending()`: what waits and is blocked. -/
def pending : EStateM Sigerr Process (Finset Int) := do
  onState (syscall F)
  onState (syscall F)
  let p ← get
  pure (p.generated.signals.toFinset ∩ p.blocked)

/-- `ispending(int signo)` -/
def ispending (signo : Int) : EStateM Sigerr Process Bool := do
  let s ← pending F
  onState (syscall F)
  pure (decide (signo ∈ s))

end Members

/-! ### The kernel -/

/-- The signal is there, and not blocked. -/
def Deliverable (p : Process) (signo : Int) : Prop :=
  0 < p.generated.count signo ∧ signo ∉ p.blocked

instance (p : Process) (signo : Int) : Decidable (p.Deliverable signo) :=
  inferInstanceAs (Decidable (_ ∧ _))

/-- `sighandler` is there for the signal. The kernel lets no handler run for `SIGKILL` and
`SIGSTOP`. -/
def Caught (p : Process) (signo : Int) : Prop :=
  (p.st.reg.disp signo).saHandler = .sighandler ∧ signo ∉ unblockable

instance (p : Process) (signo : Int) : Decidable (p.Caught signo) :=
  inferInstanceAs (Decidable (_ ∧ _))

/-- The signal is dropped when it is generated. -/
def Drops (p : Process) (signo : Int) : Prop := p.st.reg.Ignores signo ∧ signo ∉ p.blocked

instance (p : Process) (signo : Int) : Decidable (p.Drops signo) :=
  inferInstanceAs (Decidable (_ ∧ _))

def generate (p : Process) (signo : Int) : Process :=
  let rest := p.generated.discard (· ∈ displaced signo)
  { p with generated := if p.Drops signo then rest else rest.add signo }

/-- `sighandler` starts to run. -/
def enter (p : Process) (signo : Int) : Process :=
  { p with
    generated := p.generated.remove signo
    blocked := p.blocked ∪ p.st.reg.blocked signo
    frames := ⟨signo, p.blocked⟩ :: p.frames }

/-- A signal without `sighandler`, if the process goes on. -/
def deliver (p : Process) (signo : Int) : Process :=
  if p.Deliverable signo then
    if p.Caught signo then p.enter signo
    else { p with generated := p.generated.remove signo }
  else p

/-- The innermost `sighandler` returns. -/
def finish (p : Process) : Process :=
  match p.frames with
  | [] => p
  | f :: frames => { p with blocked := f.saved, frames := frames }

/-- The process behind `n` system calls, of which none has changed anything. -/
def counted (p : Process) (n : Nat) : Process := { p with st := ⟨p.st.reg, n⟩ }

end Process

/-- The delivery of a signal is not a call, but an event of the kernel. -/
def Op.isCall : Op → Bool
  | .deliver _ => false
  | _ => true

abbrev Call := { op : Op // op.isCall = true }

inductive Event where
  | call (op : Call)
  | mask (signo : Int)
  | unmask (signo : Int)
  | ispending (signo : Int)
  | generate (signo : Int)
  | deliver (signo : Int)
  | finish
deriving DecidableEq

def Event.run (F : Nat → Bool) : Event → EStateM Sigerr Process Answer
  | .call op => Process.onRegistry (op.1.run F)
  | .mask signo => (fun _ => none) <$> Process.mask F signo
  | .unmask signo => (fun _ => none) <$> Process.unmask F signo
  | .ispending signo => some <$> Process.ispending F signo
  | .generate signo => (fun _ => none) <$> modify (·.generate signo)
  | .deliver signo => (fun _ => none) <$> modify (·.deliver signo)
  | .finish => (fun _ => none) <$> modify Process.finish

abbrev Happening := History.Entry Process Event (Except Sigerr Answer)

/-- What happens to a process: its history and its last state. -/
def happenings (F : Nat → Bool) (p : Process) (evs : List Event) : List Happening × Process :=
  History.record (Event.run F) id evs p []

/-! ## What an event can do

The calls that change a disposition do what `Step` says of them. Of the others nothing but the
number of system calls is left when they throw. -/

def Event.Fallible : Event → Prop
  | .mask _ => True
  | .unmask _ => True
  | .ispending _ => True
  | _ => False

/-- `Move p ev out p'`: the event may end with `out` and leave `p'`. -/
inductive Move (p : Process) : Event → Except Sigerr Answer → Process → Prop where
  | call {op : Call} {a : Answer} {st : State} (hstep : Step p.st.reg op.1 (.ok a) st.reg) :
      Move p (.call op) (.ok a) (Process.discardIgnored p.st.reg { p with st := st })
  | callThrows {op : Call} {e : Sigerr} {st : State}
      (hstep : Step p.st.reg op.1 (.error e) st.reg) :
      Move p (.call op) (.error e) { p with st := st }
  | throws {ev : Event} (hev : ev.Fallible) (e : Sigerr) (n : Nat) :
      Move p ev (.error e) (p.counted n)
  | mask (signo : Int) (n : Nat) :
      Move p (.mask signo) (.ok none)
        { p.counted n with blocked := p.blocked ∪ {signo} \ unblockable }
  | unmask (signo : Int) (n : Nat) :
      Move p (.unmask signo) (.ok none) { p.counted n with blocked := p.blocked \ {signo} }
  | ispending (signo : Int) (n : Nat) :
      Move p (.ispending signo)
        (.ok (some (decide (signo ∈ p.generated.signals.toFinset ∩ p.blocked)))) (p.counted n)
  | generate (signo : Int) : Move p (.generate signo) (.ok none) (p.generate signo)
  | enter {signo : Int} (hdue : p.Deliverable signo) (hcaught : p.Caught signo) :
      Move p (.deliver signo) (.ok none) (p.enter signo)
  | default {signo : Int} (hdue : p.Deliverable signo) :
      Move p (.deliver signo) (.ok none) { p with generated := p.generated.remove signo }
  | held {signo : Int} (hdue : ¬ p.Deliverable signo) : Move p (.deliver signo) (.ok none) p
  | finish {f : Frame} {frames : List Frame} (hframes : p.frames = f :: frames) :
      Move p .finish (.ok none) { p with blocked := f.saved, frames := frames }
  | outermost (hframes : p.frames = []) : Move p .finish (.ok none) p

section Moves

variable {F : Nat → Bool} {p : Process} {α : Type}

/-- A system call changes nothing but the number of calls. -/
theorem wp_onState_syscall {c : Unit → EStateM Sigerr Process α} {Q : α → Process → Prop}
    {E : Sigerr → Process → Prop} {n : Nat}
    (hok : ∀ n, wp (c ()) Q E (p.counted n)) (herr : ∀ e n, E e (p.counted n)) :
    wp (Process.onState (syscall F) >>= c) Q E (p.counted n) := by
  rw [wp_bind]
  unfold Process.onState
  rw [wp_zoom]
  by_cases hF : F n = true
  · have hrun : syscall F (p.counted n).st = .error ⟨⟩ ⟨p.st.reg, n + 1⟩ := by
      simp [syscall, Process.counted, hF]
    rw [wp_iff_of_error hrun]
    exact herr _ _
  · have hrun : syscall F (p.counted n).st = .ok () ⟨p.st.reg, n + 1⟩ := by
      simp [syscall, Process.counted, hF]
    rw [wp_iff_of_ok hrun]
    exact hok _

theorem onState_bind {β : Type} (c : Prog α) (f : α → Prog β) :
    Process.onState (c >>= f) = Process.onState c >>= fun a => Process.onState (f a) := by
  funext p
  simp only [Process.onState, zoom, bind, EStateM.bind]
  cases c p.st <;> rfl

theorem wp_sigset {c : Finset Int → EStateM Sigerr Process α} {signo : Int}
    {Q : α → Process → Prop} {E : Sigerr → Process → Prop} {n : Nat}
    (hok : ∀ n, wp (c {signo}) Q E (p.counted n)) (herr : ∀ e n, E e (p.counted n)) :
    wp (Process.onState (Process.sigset F signo) >>= c) Q E (p.counted n) := by
  unfold Process.sigset
  rw [onState_bind, bind_assoc]
  refine wp_onState_syscall (fun n => ?_) herr
  rw [onState_bind, bind_assoc]
  exact wp_onState_syscall (fun n => hok n) fun e n => herr e n

theorem Process.mask_spec (signo : Int) :
    wp (Process.mask F signo)
      (fun _ p' => ∃ n, p' = { p.counted n with blocked := p.blocked ∪ {signo} \ unblockable })
      (fun _ p' => ∃ n, p' = p.counted n) p := by
  unfold Process.mask
  refine wp_sigset (n := p.st.calls) (fun n => ?_) fun _ n => ⟨n, rfl⟩
  exact wp_onState_syscall (fun n => ⟨n, rfl⟩) fun _ n => ⟨n, rfl⟩

theorem Process.unmask_spec (signo : Int) :
    wp (Process.unmask F signo)
      (fun _ p' => ∃ n, p' = { p.counted n with blocked := p.blocked \ {signo} })
      (fun _ p' => ∃ n, p' = p.counted n) p := by
  unfold Process.unmask
  refine wp_sigset (n := p.st.calls) (fun n => ?_) fun _ n => ⟨n, rfl⟩
  exact wp_onState_syscall (fun n => ⟨n, rfl⟩) fun _ n => ⟨n, rfl⟩

theorem Process.ispending_spec (signo : Int) :
    wp (Process.ispending F signo)
      (fun b p' => b = decide (signo ∈ p.generated.signals.toFinset ∩ p.blocked) ∧
        ∃ n, p' = p.counted n)
      (fun _ p' => ∃ n, p' = p.counted n) p := by
  unfold Process.ispending Process.pending
  simp only [bind_assoc]
  refine wp_onState_syscall (n := p.st.calls) (fun n => ?_) fun _ n => ⟨n, rfl⟩
  refine wp_onState_syscall (fun n => ?_) fun _ n => ⟨n, rfl⟩
  rw [wp_bind, wp_get, pure_bind]
  exact wp_onState_syscall (fun n => ⟨rfl, n, rfl⟩) fun _ n => ⟨n, rfl⟩

theorem Process.onRegistry_spec (op : Op) :
    wp (Process.onRegistry (op.run F))
      (fun a p' => ∃ st : State, Step p.st.reg op (.ok a) st.reg ∧
        p' = Process.discardIgnored p.st.reg { p with st := st })
      (fun e p' => ∃ st : State, Step p.st.reg op (.error e) st.reg ∧ p' = { p with st := st })
      p := by
  unfold Process.onRegistry Process.onState
  rw [wp_bind, wp_get, wp_bind, wp_zoom]
  refine (op_spec (F := F) (r := p.st.reg) (n := p.st.calls) op).mono ?_ ?_
  · exact fun a st hstep => ⟨st, hstep, rfl⟩
  · exact fun e st hstep => ⟨st, hstep, rfl⟩

/-- Whatever fails, an event does what `Move` says. -/
theorem event_move (F : Nat → Bool) (ev : Event) (p : Process) :
    Move p ev (attempt (ev.run F) p).1 (attempt (ev.run F) p).2 := by
  suffices h : wp (ev.run F) (fun a p' => Move p ev (.ok a) p')
      (fun e p' => Move p ev (.error e) p') p from h.outcome (P := fun o p' => Move p ev o p')
  cases ev with
  | call op =>
    unfold Event.run
    refine (Process.onRegistry_spec op.1).mono ?_ ?_
    · rintro a _ ⟨st, hstep, rfl⟩
      exact .call hstep
    · rintro e _ ⟨st, hstep, rfl⟩
      exact .callThrows hstep
  | mask signo =>
    unfold Event.run
    rw [wp_map]
    refine (Process.mask_spec signo).mono ?_ ?_
    · rintro _ _ ⟨n, rfl⟩
      exact .mask signo n
    · rintro e _ ⟨n, rfl⟩
      have hop : (Event.mask signo).Fallible := trivial
      exact .throws hop e n
  | unmask signo =>
    unfold Event.run
    rw [wp_map]
    refine (Process.unmask_spec signo).mono ?_ ?_
    · rintro _ _ ⟨n, rfl⟩
      exact .unmask signo n
    · rintro e _ ⟨n, rfl⟩
      have hop : (Event.unmask signo).Fallible := trivial
      exact .throws hop e n
  | ispending signo =>
    unfold Event.run
    rw [wp_map]
    refine (Process.ispending_spec signo).mono ?_ ?_
    · rintro _ _ ⟨rfl, n, rfl⟩
      exact .ispending signo n
    · rintro e _ ⟨n, rfl⟩
      have hop : (Event.ispending signo).Fallible := trivial
      exact .throws hop e n
  | generate signo =>
    unfold Event.run
    rw [wp_map, wp_modify]
    exact .generate signo
  | deliver signo =>
    unfold Event.run
    rw [wp_map, wp_modify]
    by_cases hdue : p.Deliverable signo
    · by_cases hcaught : p.Caught signo
      · have hdeliver : p.deliver signo = p.enter signo := by
          rw [Process.deliver, if_pos hdue, if_pos hcaught]
        exact hdeliver ▸ .enter hdue hcaught
      · have hdeliver : p.deliver signo = { p with generated := p.generated.remove signo } := by
          rw [Process.deliver, if_pos hdue, if_neg hcaught]
        exact hdeliver ▸ .default hdue
    · have hdeliver : p.deliver signo = p := by rw [Process.deliver, if_neg hdue]
      rw [hdeliver]
      exact .held hdue
  | finish =>
    unfold Event.run
    rw [wp_map, wp_modify]
    cases hframes : p.frames with
    | nil =>
      have hfinish : p.finish = p := by rw [Process.finish, hframes]
      rw [hfinish]
      exact .outermost hframes
    | cons f frames =>
      have hfinish : p.finish = { p with blocked := f.saved, frames := frames } := by
        rw [Process.finish, hframes]
      exact hfinish ▸ .finish hframes

theorem happenings_run (F : Nat → Bool) (p : Process) (evs : List Event) :
    Run Move p (happenings F p evs).1 (happenings F p evs).2 :=
  History.record_run (event_move F) evs .start

end Moves

/-! ## Signals that come and go

The history tells how many signals of a kind wait: what was generated, what was delivered, and what
the kernel has discarded. -/

/-- The signal is generated, and not dropped. -/
def Generates (signo : Int) (e : Happening) : Prop :=
  e.op = .generate signo ∧ ¬ e.before.Drops signo

/-- The signal is taken off those that wait. -/
def Delivers (signo : Int) (e : Happening) : Prop :=
  e.op = .deliver signo ∧ e.before.Deliverable signo

def Event.Displaces (signo : Int) : Event → Prop
  | .generate signo' => signo ∈ displaced signo'
  | _ => False

instance (signo : Int) (ev : Event) : Decidable (ev.Displaces signo) :=
  match ev with
  | .generate signo' => inferInstanceAs (Decidable (signo ∈ displaced signo'))
  | .call _ => .isFalse id
  | .mask _ => .isFalse id
  | .unmask _ => .isFalse id
  | .ispending _ => .isFalse id
  | .deliver _ => .isFalse id
  | .finish => .isFalse id

/-- What waits of the signal is discarded: the process has come to ignore it, or another one that
displaces it is generated. -/
def Discards (signo : Int) (e : Happening) : Prop :=
  (e.after.st.reg.Ignores signo ∧ ¬ e.before.st.reg.Ignores signo) ∨ e.op.Displaces signo

def Unmasks (signo : Int) (e : Happening) : Prop := e.op = .unmask signo ∧ e.outcome = .ok none

instance (signo : Int) (e : Happening) : Decidable (Generates signo e) :=
  inferInstanceAs (Decidable (_ ∧ _))

instance (signo : Int) (e : Happening) : Decidable (Delivers signo e) :=
  inferInstanceAs (Decidable (_ ∧ _))

instance (signo : Int) (e : Happening) : Decidable (Discards signo e) :=
  inferInstanceAs (Decidable (_ ∨ _))

instance (signo : Int) (e : Happening) : Decidable (Unmasks signo e) :=
  inferInstanceAs (Decidable (_ ∧ _))

/-- How many signals wait, if `n` did before. -/
def countSince (signo : Int) (n : Nat) : List Happening → Nat
  | [] => n
  | e :: log =>
    if Generates signo e then if Standard signo then 1 else countSince signo n log + 1
    else if Discards signo e then 0
    else if Delivers signo e then countSince signo n log - 1
    else countSince signo n log

section Counts

variable {p p' : Process} {ev : Event} {out : Except Sigerr Answer} {signo : Int} {n : Nat}
  {log : List Happening}

theorem count_generate_self (p : Process) (signo : Int) :
    (p.generate signo).generated.count signo =
      if p.Drops signo then p.generated.count signo
      else if Standard signo then 1 else p.generated.count signo + 1 := by
  unfold Process.generate
  split_ifs <;> simp_all [Sigpending.count_add_self, not_mem_displaced]

theorem count_generate_ne {signo' : Int} (h : signo ≠ signo') :
    (p.generate signo').generated.count signo =
      if signo ∈ displaced signo' then 0 else p.generated.count signo := by
  unfold Process.generate
  split_ifs <;> simp_all [Sigpending.count_add_ne]

/-- What an event does to the signals that wait. -/
theorem Move.count (h : Move p ev out p') (signo : Int) :
    p'.generated.count signo =
      if Generates signo ⟨p, ev, out, p'⟩ then
        if Standard signo then 1 else p.generated.count signo + 1
      else if Discards signo ⟨p, ev, out, p'⟩ then 0
      else if Delivers signo ⟨p, ev, out, p'⟩ then p.generated.count signo - 1
      else p.generated.count signo := by
  unfold Generates Discards Delivers
  cases h with
  | call hstep => simp [Process.discardIgnored, Event.Displaces]
  | callThrows hstep =>
    have hsame := congrFun hstep.disp_throws signo
    -- a member that throws has not changed the disposition
    have hnot : ¬ (Registry.Ignores _ signo ∧ ¬ p.st.reg.Ignores signo) := fun hdis => by
      refine hdis.2 ?_
      have hnow := hdis.1
      unfold Registry.Ignores at hnow ⊢
      rwa [hsame] at hnow
    simp [Event.Displaces, hnot]
  | @throws ev hev e n =>
    have hop : ev ≠ .generate signo ∧ ev ≠ .deliver signo ∧ ¬ ev.Displaces signo := by
      -- neither a signal nor its delivery can fail
      refine ⟨?_, ?_, ?_⟩
      · rintro rfl
        exact hev
      · rintro rfl
        exact hev
      · cases ev <;> first | exact id | exact hev.elim
    simp [hop, Process.counted]
  | generate signo' =>
    by_cases hsigno : signo = signo'
    · subst hsigno
      have hnot := not_mem_displaced signo
      rw [count_generate_self]
      split_ifs <;> simp_all [Event.Displaces, Process.generate]
    · rw [count_generate_ne hsigno]
      simp [Event.Displaces, Process.generate, Ne.symm hsigno]
  | @enter signo' hdue hcaught =>
    by_cases hsigno : signo = signo'
    · subst hsigno
      simp [Process.enter, Event.Displaces, hdue]
    · simp [Process.enter, Event.Displaces, Sigpending.count_remove_ne _ hsigno, Ne.symm hsigno]
  | @default signo' hdue =>
    by_cases hsigno : signo = signo'
    · subst hsigno
      simp [Event.Displaces, hdue]
    · simp [Event.Displaces, Sigpending.count_remove_ne _ hsigno, Ne.symm hsigno]
  | @held signo' hdue =>
    by_cases hsigno : signo = signo'
    · subst hsigno
      simp [Event.Displaces, hdue]
    · simp [Event.Displaces, Ne.symm hsigno]
  | _ => simp [Process.counted, Event.Displaces]

theorem Run.count (h : Run Move p log p') (signo : Int) :
    p'.generated.count signo = countSince signo (p.generated.count signo) log := by
  induction h with
  | start => rfl
  | step _ hstep ih => rw [hstep.count signo, countSince, ih]

/-- A signal that is neither delivered nor discarded is there when it was generated. -/
theorem countSince_pos_iff (hdel : ∀ e ∈ log, ¬ Delivers signo e)
    (hdis : ∀ e ∈ log, ¬ Discards signo e) :
    0 < countSince signo n log ↔ 0 < n ∨ ∃ e ∈ log, Generates signo e := by
  induction log with
  | nil => simp [countSince]
  | cons e log ih =>
    obtain ⟨hdel, hdels⟩ := List.forall_mem_cons.mp hdel
    obtain ⟨hdis, hdiss⟩ := List.forall_mem_cons.mp hdis
    rw [countSince, if_neg hdis, if_neg hdel]
    by_cases hgen : Generates signo e
    · by_cases hstandard : Standard signo <;> simp [hgen, hstandard]
    · simp [hgen, ih hdels hdiss]

theorem mem_pending_iff (p : Process) (signo : Int) :
    signo ∈ p.generated.signals.toFinset ∩ p.blocked ↔
      0 < p.generated.count signo ∧ signo ∈ p.blocked := by
  rw [Finset.mem_inter, Multiset.mem_toFinset, Sigpending.count, Multiset.count_pos]

end Counts

/-! ## While a signal is blocked

A blocked signal is neither delivered nor dropped. It stays blocked until it is unmasked, or until
the activation returns in which it was blocked: the kernel then restores the mask from before. -/

/-- The signal is blocked, also when the activations above `base` have returned. -/
def Process.Blocks (signo : Int) (base : List Frame) (p : Process) : Prop :=
  signo ∈ p.blocked ∧ ∃ top, p.frames = top ++ base ∧ ∀ f ∈ top, signo ∈ f.saved

section Blocked

variable {F : Nat → Bool} {p p' : Process} {ev : Event} {out : Except Sigerr Answer} {signo : Int}
  {base : List Frame} {log : List Happening}

theorem Move.blocks (h : Move p ev out p') (hp : p.Blocks signo base)
    (hun : ¬ (ev = .unmask signo ∧ out = .ok none)) (hbase : base <:+ p'.frames) :
    p'.Blocks signo base := by
  obtain ⟨hblocked, top, hframes, htop⟩ := hp
  cases h with
  | mask signo' n => exact ⟨Finset.mem_union_left _ hblocked, top, hframes, htop⟩
  | unmask signo' n =>
    have hne : signo ≠ signo' := by
      rintro rfl
      exact hun ⟨rfl, rfl⟩
    exact ⟨by simp [hblocked, hne], top, hframes, htop⟩
  | @enter signo' hdue hcaught =>
    refine ⟨Finset.mem_union_left _ hblocked, ⟨signo', p.blocked⟩ :: top, ?_, ?_⟩
    · exact congrArg (_ :: ·) hframes
    · exact List.forall_mem_cons.mpr ⟨hblocked, htop⟩
  | @finish f frames hcons =>
    rw [hcons] at hframes
    cases top with
    | nil =>
      -- the activation that `base` starts with has returned
      have hlen := hbase.length_le
      rw [← show f :: frames = base from hframes] at hlen
      exact absurd hlen (by simp)
    | cons g top =>
      obtain ⟨rfl, hrest⟩ := List.cons.inj hframes
      exact ⟨htop f List.mem_cons_self, top, hrest, fun g hg => htop g (List.mem_cons_of_mem _ hg)⟩
  | _ => exact ⟨hblocked, top, hframes, htop⟩

theorem Run.blocks (h : Run Move p log p') (hp : p.Blocks signo base)
    (hun : ∀ e ∈ log, ¬ Unmasks signo e) (hbase : ∀ e ∈ log, base <:+ e.after.frames) :
    p'.Blocks signo base ∧ ∀ e ∈ log, signo ∈ e.before.blocked := by
  induction h with
  | start => exact ⟨hp, by simp⟩
  | step hrun hstep ih =>
    obtain ⟨hhead, htail⟩ := List.forall_mem_cons.mp hun
    obtain ⟨hnow, hbefore⟩ := List.forall_mem_cons.mp hbase
    obtain ⟨hblocks, hall⟩ := ih htail hbefore
    exact ⟨hstep.blocks hblocks hhead hnow, List.forall_mem_cons.mpr ⟨hblocks.1, hall⟩⟩

theorem not_delivers_of_blocked {e : Happening} (h : signo ∈ e.before.blocked) :
    ¬ Delivers signo e := fun hdel => hdel.2.2 h

theorem generates_iff_of_blocked {e : Happening} (h : signo ∈ e.before.blocked) :
    Generates signo e ↔ e.op = .generate signo :=
  and_iff_left fun hdrop => hdrop.2 h

/-- What waits of a signal that was blocked all the time, if it was not discarded. -/
theorem countSince_pos_iff_of_blocked {n : Nat} (hblocked : ∀ e ∈ log, signo ∈ e.before.blocked)
    (hdis : ∀ e ∈ log, ¬ Discards signo e) :
    0 < countSince signo n log ↔ 0 < n ∨ ∃ e ∈ log, e.op = .generate signo := by
  have hdel : ∀ e ∈ log, ¬ Delivers signo e := fun e he => not_delivers_of_blocked (hblocked e he)
  rw [countSince_pos_iff hdel hdis]
  refine or_congr_right (exists_congr fun e => and_congr_right fun he => ?_)
  exact generates_iff_of_blocked (hblocked e he)

/-- **Masked.** Once `mask(signo)` has returned, and until `unmask(signo)` does, or the handler
returns that has called it, no event delivers the signal. `ispending(signo)` tells whether it waits.
If the kernel has not discarded it, it does if it was generated. -/
theorem masked_unseen (F : Nat → Bool) (p : Process) {signo : Int} (hsigno : signo ∉ unblockable)
    (hmask : (attempt (Process.mask F signo) p).1 = .ok ()) (evs : List Event) :
    let p1 := (attempt (Process.mask F signo) p).2
    let log := (happenings F p1 evs).1
    let p2 := (happenings F p1 evs).2
    (∀ e ∈ log, ¬ Unmasks signo e) → (∀ e ∈ log, p.frames <:+ e.after.frames) →
    (∀ e ∈ log, ¬ Delivers signo e) ∧ ¬ p2.Deliverable signo ∧
    (∀ b, (attempt (Process.ispending F signo) p2).1 = .ok b →
      (b = true ↔ 0 < p2.generated.count signo)) ∧
    p2.generated.count signo = countSince signo (p.generated.count signo) log ∧
    ((∀ e ∈ log, ¬ Discards signo e) →
      (0 < p2.generated.count signo ↔
        0 < p.generated.count signo ∨ ∃ e ∈ log, e.op = .generate signo)) := by
  intro p1 log p2 hun hbase
  obtain ⟨n, hp1⟩ := (Process.mask_spec signo).of_ok (of_attempt_ok hmask)
  have hstart : p1.Blocks signo p.frames := by
    rw [show p1 = _ from hp1]
    exact ⟨by simp [hsigno], [], rfl, by simp⟩
  have hsame : p1.generated = p.generated := by rw [show p1 = _ from hp1]; rfl
  have hrun : Run Move p1 log p2 := happenings_run F p1 evs
  obtain ⟨hblocks, hblocked⟩ := Run.blocks hrun hstart hun hbase
  have hcount : p2.generated.count signo = countSince signo (p.generated.count signo) log := by
    rw [Run.count hrun signo, hsame]
  refine ⟨fun e he => not_delivers_of_blocked (hblocked e he), fun hdue => hdue.2 hblocks.1, ?_,
    hcount, fun hdis => ?_⟩
  · intro b hb
    obtain ⟨hanswer, -⟩ := (Process.ispending_spec signo).of_ok (of_attempt_ok hb)
    rw [hanswer, decide_eq_true_iff, mem_pending_iff]
    exact and_iff_left hblocks.1
  · rw [hcount]
    exact countSince_pos_iff_of_blocked hblocked hdis

/-- A process with a handler for signal 10 that masks signal 12. -/
def handling : Process :=
  (happenings (fun _ => false) ⟨⟨Start.default.reg, 0⟩, ∅, .empty, []⟩
    [.call ⟨.set 10 (some 1), rfl⟩, .call ⟨.mask 10 12, rfl⟩]).2

/-- Signal 10 is masked, sent twice and not delivered. -/
theorem masked_unseen_handling :
    let p1 := (attempt (Process.mask (fun _ => false) 10) handling).2
    let p2 := (happenings (fun _ => false) p1 [.generate 10, .generate 10, .deliver 10]).2
    0 < p2.generated.count 10 ∧ ¬ p2.Deliverable 10 := by
  have hsigno : (10 : Int) ∉ unblockable := by decide
  obtain ⟨-, hheld, -, -, hthere⟩ := masked_unseen (fun _ => false) handling hsigno
    (by decide +kernel) [.generate 10, .generate 10, .deliver 10] (by decide +kernel)
    (by decide +kernel)
  exact ⟨(hthere (by decide +kernel)).mpr (.inr (by decide +kernel)), hheld⟩

/-- **In a handler.** When the `sighandler` returns that was entered for `a`, the process has the
mask from before, whatever was masked and unmasked in between. Until then, and unless the program
unmasks it, no event delivers a signal of the mask of `a`, or `a` itself. What waits of it is seen
behind the return: if the kernel has not discarded it, what was generated in the meantime. -/
theorem handler_unseen (F : Nat → Bool) {p : Process} {a b : Int} (hdue : p.Deliverable a)
    (hcaught : p.Caught a) (hb : b ∈ p.st.reg.blocked a) (evs : List Event) :
    let p1 := p.deliver a
    let log := (happenings F p1 evs).1
    let p2 := (happenings F p1 evs).2
    (p2.frames = p1.frames → p2.finish.frames = p.frames ∧ p2.finish.blocked = p.blocked) ∧
    ((∀ e ∈ log, ¬ Unmasks b e) → (∀ e ∈ log, p1.frames <:+ e.after.frames) →
      (∀ e ∈ log, ¬ Delivers b e) ∧ ¬ p2.Deliverable b ∧
      (p2.frames = p1.frames →
        (p2.finish.Deliverable b ↔
          0 < countSince b (p1.generated.count b) log ∧ b ∉ p.blocked) ∧
        ((∀ e ∈ log, ¬ Discards b e) →
          (p2.finish.Deliverable b ↔
            (0 < p1.generated.count b ∨ ∃ e ∈ log, e.op = .generate b) ∧ b ∉ p.blocked)))) := by
  intro p1 log p2
  have hp1 : p1 = p.enter a := by
    show p.deliver a = _
    rw [Process.deliver, if_pos hdue, if_pos hcaught]
  -- the mask from before is in the frame, so nothing that the handler does can reach it
  have hfinish : p2.frames = p1.frames →
      p2.finish = { p2 with blocked := p.blocked, frames := p.frames } := by
    intro hback
    have hframes : p2.frames = ⟨a, p.blocked⟩ :: p.frames := hback.trans (by rw [hp1]; rfl)
    rw [Process.finish, hframes]
  refine ⟨fun hback => by simp [hfinish hback], fun hun hbase => ?_⟩
  -- the signal is blocked in the handler, and in all that interrupt it
  have hstart : p1.Blocks b p1.frames := by
    refine ⟨?_, [], rfl, by simp⟩
    rw [hp1]
    exact Finset.mem_union_right _ hb
  have hrun : Run Move p1 log p2 := happenings_run F p1 evs
  obtain ⟨hblocks, hblocked⟩ := Run.blocks hrun hstart hun hbase
  refine ⟨fun e he => not_delivers_of_blocked (hblocked e he), fun hlater => hlater.2 hblocks.1,
    fun hback => ?_⟩
  have hsees : p2.finish.Deliverable b ↔
      0 < countSince b (p1.generated.count b) log ∧ b ∉ p.blocked := by
    rw [hfinish hback, ← Run.count hrun b]
    rfl
  refine ⟨hsees, fun hdis => ?_⟩
  rw [hsees, countSince_pos_iff_of_blocked hblocked hdis]

/-- Signal 12 is sent while the handler of signal 10 runs, and due when it returns. -/
theorem handler_unseen_handling :
    let p := handling.generate 10
    let p2 := (happenings (fun _ => false) (p.deliver 10) [.generate 12, .deliver 12]).2
    p2.finish.Deliverable 12 := by
  intro p p2
  have hdue : p.Deliverable 10 := by decide +kernel
  obtain ⟨-, hunseen⟩ := handler_unseen (fun _ => false) hdue (by decide +kernel)
    (b := 12) (by decide +kernel) [.generate 12, .deliver 12]
  obtain ⟨-, -, hreturn⟩ := hunseen (by decide +kernel) (by decide +kernel)
  exact ((hreturn (by decide +kernel)).2 (by decide +kernel)).mpr (by decide +kernel)

end Blocked

/-! ## Activations

The kernel blocks a signal while its handler runs, unless the disposition has `SA_NODEFER`. No
member installs `sighandler` with flags. -/

/-- No two activations are for the same signal, and the signals of all of them are blocked, for the
time in which an inner one runs and behind it. -/
structure Process.Nested (p : Process) : Prop where
  flagless : p.st.reg.Flagless
  pairwise : p.frames.Pairwise fun f g => f.signo ≠ g.signo ∧ g.signo ∈ f.saved
  blocked : ∀ f ∈ p.frames, f.signo ∈ p.blocked

/-- A signal is unmasked in a handler for it, or in one that interrupts such a handler. -/
def UnmasksOwn (e : Happening) : Prop :=
  ∃ signo ∈ e.before.frames.map Frame.signo, Unmasks signo e

instance (e : Happening) : Decidable (UnmasksOwn e) :=
  inferInstanceAs (Decidable (∃ signo ∈ _, _))

section Activations

variable {F : Nat → Bool} {p p' : Process} {ev : Event} {out : Except Sigerr Answer}
  {log : List Happening}

theorem Move.flagless (h : Move p ev out p') (hp : p.st.reg.Flagless) : p'.st.reg.Flagless := by
  cases h with
  | call hstep => exact hstep.flagless hp
  | callThrows hstep => exact hstep.flagless hp
  | _ => exact hp

theorem Run.flagless (h : Run Move p log p') (hp : p.st.reg.Flagless) : p'.st.reg.Flagless :=
  h.invariant (I := fun p => p.st.reg.Flagless) hp fun _ _ _ _ hbefore hstep =>
    hstep.flagless hbefore

theorem Move.nested (h : Move p ev out p') (hp : p.Nested) (hown : ¬ UnmasksOwn ⟨p, ev, out, p'⟩) :
    p'.Nested := by
  have hflags := h.flagless hp.flagless
  cases h with
  | mask signo n =>
    exact ⟨hflags, hp.pairwise, fun f hf => Finset.mem_union_left _ (hp.blocked f hf)⟩
  | unmask signo n =>
    refine ⟨hflags, hp.pairwise, fun f hf => ?_⟩
    have hne : f.signo ≠ signo := by
      rintro rfl
      exact hown ⟨f.signo, List.mem_map_of_mem hf, rfl, rfl⟩
    exact Finset.mem_sdiff.mpr ⟨hp.blocked f hf, by simpa using hne⟩
  | @enter signo hdue hcaught =>
    have hself : signo ∈ p.st.reg.blocked signo := by
      -- no flags, so the kernel blocks the signal itself
      rw [hp.flagless.blocked hcaught.1]
      simp [hcaught.2]
    refine ⟨hflags, List.pairwise_cons.mpr ⟨fun g hg => ⟨?_, hp.blocked g hg⟩, hp.pairwise⟩, ?_⟩
    · rintro rfl
      exact hdue.2 (hp.blocked g hg)
    · exact List.forall_mem_cons.mpr ⟨Finset.mem_union_right _ hself,
        fun f hf => Finset.mem_union_left _ (hp.blocked f hf)⟩
  | @finish f frames hframes =>
    have hpairs := hp.pairwise
    rw [hframes] at hpairs
    obtain ⟨hfirst, hrest⟩ := List.pairwise_cons.mp hpairs
    exact ⟨hflags, hrest, fun g hg => (hfirst g hg).2⟩
  | _ => exact ⟨hflags, hp.pairwise, hp.blocked⟩

/-- **No reentry.** As long as no handler unmasks a signal whose handlers run, `sighandler` is at no
time active twice for the same signal. -/
theorem no_reentry (F : Nat → Bool) {p : Process} (hflags : p.st.reg.Flagless)
    (hp : p.frames = []) (evs : List Event)
    (hown : ∀ e ∈ (happenings F p evs).1, ¬ UnmasksOwn e) :
    ((happenings F p evs).2.frames.map Frame.signo).Nodup ∧
    ∀ e ∈ (happenings F p evs).1, (e.after.frames.map Frame.signo).Nodup := by
  have hnodup : ∀ {p : Process}, p.Nested → (p.frames.map Frame.signo).Nodup := fun hp =>
    List.pairwise_map.mpr (hp.pairwise.imp fun h => h.1)
  have hstart : p.Nested := ⟨hflags, by simp [hp], by simp [hp]⟩
  suffices h : ∀ {log p'}, Run Move p log p' → (∀ e ∈ log, ¬ UnmasksOwn e) →
      p'.Nested ∧ ∀ e ∈ log, e.after.Nested by
    obtain ⟨hlast, hall⟩ := h (happenings_run F p evs) hown
    exact ⟨hnodup hlast, fun e he => hnodup (hall e he)⟩
  intro log p' hrun
  induction hrun with
  | start => exact fun _ => ⟨hstart, by simp⟩
  | step _ hstep ih =>
    intro hnone
    obtain ⟨hhead, htail⟩ := List.forall_mem_cons.mp hnone
    obtain ⟨hbefore, hall⟩ := ih htail
    have hafter := hstep.nested hbefore hhead
    exact ⟨hafter, List.forall_mem_cons.mpr ⟨hafter, hall⟩⟩

/-- The second signal waits for the first handler to return. -/
theorem no_reentry_handling :
    let p := (happenings (fun _ => false) handling
      [.generate 10, .deliver 10, .generate 10, .deliver 10]).2
    (p.frames.map Frame.signo).Nodup := by
  have hstart : handling.frames = [] := by decide +kernel
  have hflags : handling.st.reg.Flagless :=
    Run.flagless (happenings_run (fun _ => false) _ _) Start.default.flagless
  exact (no_reentry (fun _ => false) hflags hstart
    [.generate 10, .deliver 10, .generate 10, .deliver 10] (by decide +kernel)).1

end Activations

end Sig
