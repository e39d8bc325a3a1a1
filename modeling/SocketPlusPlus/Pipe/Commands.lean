import SocketPlusPlus.Logic.History
import SocketPlusPlus.Pipe.Basic

/-!
# Commands at the other end of a pipe

`createpipestream` makes a socket pair and a child, which becomes a shell command. The child puts
its end of the pair in the place of its standard input and output, and closes what it has not moved
there. It closes the two descriptors of this pair only, and nothing is closed on `execve`: a command
also gets the parent's ends of all pairs that the parent holds when the command is started.

A `Site` is the table of descriptors of the parent, its streams, and the tables of the commands that
run. Any call of the parent may fail. If one of the child's fails, `createpipestream` throws in a
child of `vfork`, which goes on in the memory of its parent, and nothing is said about what follows.
The result tells which processes hold an end of a pair after any other run (`ends_held_iff`).
-/

namespace Pipe

open Exec History

/-- The sides of a pair are written 0 and 1. -/
theorem two_sides : @NeZero Nat Zero.ofOfNat0 2 := Nat.instNeZeroSucc

attribute [local instance] two_sides

/-- What a descriptor can stand for. -/
inductive Thing where
  | other (n : Nat)
  | socket (e : End)
deriving DecidableEq, Repr

abbrev Table := Nat → Option Thing

/-- What ends a call: the exception of the parent, or that of the child of `vfork`. -/
inductive Failure where
  | sockerr
  | astray
deriving DecidableEq, Repr

abbrev TableM := EStateM Failure Table

/-- `ios::in` and `ios::out` -/
structure Mode where
  reads : Bool
  writes : Bool
deriving DecidableEq, Repr

/-- What became of a call of `createpipestream`: it threw, or it made a sockbuf for a descriptor. If
`~sockbuf()` throws, the sockbuf is gone, and its descriptor may be open. -/
inductive Stream where
  | failed
  | opened (fd : Nat)
  | abandoned (fd : Nat)
  | destroyed
deriving DecidableEq, Repr

/-- The descriptor, as long as it is open. -/
def Stream.descriptor : Stream → Option Nat
  | .opened fd => some fd
  | .abandoned fd => some fd
  | _ => none

/-- The calls of `createpipestream` are counted, and so are the pairs; `none` is a command that was
not started, or has ended. -/
structure Site where
  fds : Table
  streams : List Stream
  commands : List (Option Table)

/-- What the kernel makes of `::close` in the parent. When the call fails, the descriptor may be
open or not. -/
inductive Closing where
  | closed
  | fails (released : Bool)
deriving DecidableEq, Repr

def Closing.leaves (c : Closing) (t : Table) (fd : Nat) : Table :=
  if c = .fails false then t else Function.update t fd none

/-! ## The child

A call of the child fails if the kernel wants it to, and for a descriptor that is not open. -/

def closeFd (works : Bool) (fd : Nat) : TableM Unit := fun t =>
  if works = true ∧ t fd ≠ none then .ok () (Function.update t fd none) else .error .astray t

def dup2 (works : Bool) (fd fd' : Nat) : TableM Unit := fun t =>
  match t fd, works with
  | some x, true => .ok () (Function.update t fd' (some x))
  | _, _ => .error .astray t

def execve (works : Bool) : TableM Unit := if works then pure () else throw .astray

/-- The child of `createpipestream`, which becomes the command. `works` tells of its calls, in the
order of the text, whether they succeed. -/
def childSetup (works : Fin 5 → Bool) (mode : Mode) (sockets : Fin 2 → Nat) : TableM Unit := do
  closeFd (works 0) (sockets 1)
  let _ ← (if mode.reads then dup2 (works 1) (sockets 0) 1 else pure ())
  let _ ← (if mode.writes then dup2 (works 2) (sockets 0) 0 else pure ())
  closeFd (works 3) (sockets 0)
  execve (works 4)

/-! ## The parent

What the parent does with its own copies of the two descriptors, and what becomes of them when a
call fails. -/

def Table.paired (t : Table) (pair : Nat) (sockets : Fin 2 → Nat) : Table :=
  Function.update (Function.update t (sockets 0) (some (.socket ⟨pair, 0⟩))) (sockets 1)
    (some (.socket ⟨pair, 1⟩))

def Table.Unused (t : Table) (sockets : Fin 2 → Nat) : Prop :=
  sockets 0 ≠ sockets 1 ∧ t (sockets 0) = none ∧ t (sockets 1) = none

instance (t : Table) (sockets : Fin 2 → Nat) : Decidable (t.Unused sockets) :=
  inferInstanceAs (Decidable (_ ∧ _ ∧ _))

/-- A call that made `command` and left the parent with `fds`. -/
def Site.created (s : Site) (fds : Table) (stream : Stream) (command : Option Table) : Site :=
  ⟨fds, s.streams ++ [stream], s.commands ++ [command]⟩

/-- What the kernel makes of the calls of a `createpipestream`. `stray` is what the parent finds
when its child has thrown. -/
structure Answers where
  socketpair : Option (Fin 2 → Nat)
  vfork : Bool
  child : Fin 5 → Bool
  close : Closing
  shutdown : Bool
  stray : Site

/-- `createpipestream(cmd, mode)` -/
def createpipestream (mode : Mode) (answers : Answers) : EStateM Failure Site Unit := fun s =>
  match answers.socketpair with
  | none => .error .sockerr (s.created s.fds .failed none)
  | some sockets =>
    if s.fds.Unused sockets then
      let fds := s.fds.paired s.streams.length sockets
      if answers.vfork then
        match childSetup answers.child mode sockets fds with
        | .error e _ => .error e answers.stray
        | .ok _ command =>
          let rest := answers.close.leaves fds (sockets 0)
          -- the sockbuf is lost if one of the calls of `shutdown` throws
          if answers.close = .closed ∧ (answers.shutdown ∨ mode.reads ∧ mode.writes) then
            .ok () (s.created rest (.opened (sockets 1)) (some command))
          else .error .sockerr (s.created rest .failed (some command))
      else .error .sockerr (s.created fds .failed none)
    else .error .sockerr (s.created s.fds .failed none)

/-- `delete` of the `k`-th stream: `~sockbuf()` writes what is in the put area and closes the
descriptor, unless the write throws. -/
def destroyStream (k : Nat) (flushes : Bool) (closing : Closing) : EStateM Failure Site Unit :=
  fun s =>
  match s.streams[k]? with
  | some (.opened fd) =>
    if flushes then
      let stream := if closing = .fails false then .abandoned fd else .destroyed
      let s' := { s with fds := closing.leaves s.fds fd, streams := s.streams.set k stream }
      if closing = .closed then .ok () s' else .error .sockerr s'
    else .error .sockerr { s with streams := s.streams.set k (.abandoned fd) }
  | _ => .ok () s

inductive Step where
  | create (mode : Mode) (answers : Answers)
  | destroy (k : Nat) (flushes : Bool) (closing : Closing)
  | exit (j : Nat)

def Step.run : Step → EStateM Failure Site Unit
  | .create mode answers => createpipestream mode answers
  | .destroy k flushes closing => destroyStream k flushes closing
  | .exit j => modify fun s => { s with commands := s.commands.set j none }

abbrev Deed := History.Entry Site Step (Except Failure Unit)

/-- The descriptors of a program when it starts: 0 and 1 are in use, and none is a pair's. -/
structure Standard where
  fds : Table
  input : ∃ n, fds 0 = some (.other n)
  output : ∃ n, fds 1 = some (.other n)
  foreign : ∀ fd e, fds fd ≠ some (.socket e)

def deeds (start : Standard) (steps : List Step) : List Deed × Site :=
  History.record Step.run id steps ⟨start.fds, [], []⟩ []

/-! ## What is expected

An end is held by whoever has a descriptor for it, under whatever number. -/

def Table.Holds (t : Table) (e : End) : Prop := ∃ fd, t fd = some (.socket e)

/-- Some process holds the end. -/
def Site.Held (s : Site) (e : End) : Prop :=
  s.fds.Holds e ∨ ∃ (j : Nat) (t : Table), s.commands[j]? = some (some t) ∧ t.Holds e

def Site.Runs (s : Site) (j : Nat) : Prop := ∃ t, s.commands[j]? = some (some t)

/-- The `k`-th stream has this descriptor. -/
def Site.Has (s : Site) (k fd : Nat) : Prop := ∃ stream ∈ s.streams[k]?, fd ∈ stream.descriptor

/-- The descriptor of the `k`-th stream is open. -/
def Site.Opened (s : Site) (k : Nat) : Prop := ∃ fd, s.Has k fd

/-- The deed is the `j`-th call of `createpipestream`, in the given mode. -/
def Starts (j : Nat) (mode : Mode) (h : Deed) : Prop :=
  h.before.commands.length = j ∧ ∃ answers, h.op = .create mode answers

/-- No child of `vfork` has thrown. -/
def Orderly (log : List Deed) : Prop := ∀ h ∈ log, h.outcome ≠ .error .astray

/-! ## The child's table

The command finds its end of the pair in the place of its output, its input or both, and otherwise
what the parent has, without the pair. -/

section Child

variable {t : Table} {sockets : Fin 2 → Nat} {mode : Mode} {x : Thing}

theorem closeFd_spec (works : Bool) (fd : Nat) :
    wp (closeFd works fd) (fun _ t' => t' = Function.update t fd none)
      (fun e _ => e = .astray) t := by
  by_cases hopen : works = true ∧ t fd ≠ none
  · have hrun : closeFd works fd t = .ok () (Function.update t fd none) := if_pos hopen
    rw [wp_iff_of_ok hrun]
  · have hrun : closeFd works fd t = .error .astray t := if_neg hopen
    rw [wp_iff_of_error hrun]

theorem dup2_spec (works : Bool) {fd : Nat} (fd' : Nat) (h : t fd = some x) :
    wp (dup2 works fd fd') (fun _ t' => t' = Function.update t fd' (some x))
      (fun e _ => e = .astray) t := by
  cases works with
  | true =>
    have hrun : dup2 true fd fd' t = .ok () (Function.update t fd' (some x)) := by simp [dup2, h]
    rw [wp_iff_of_ok hrun]
  | false =>
    have hrun : dup2 false fd fd' t = .error .astray t := by simp [dup2, h]
    rw [wp_iff_of_error hrun]

/-- `if (mode & what && ::dup2(fd, fd') == -1) throw` -/
theorem dup2If_spec (moves works : Bool) {fd : Nat} (fd' : Nat) (h : t fd = some x) :
    wp (if moves then dup2 works fd fd' else pure ())
      (fun _ t' => t' = if moves then Function.update t fd' (some x) else t)
      (fun e _ => e = .astray) t := by
  cases moves with
  | true => exact dup2_spec works fd' h
  | false => exact (wp_pure ()).mpr rfl

theorem execve_spec (works : Bool) :
    wp (execve works) (fun _ t' => t' = t) (fun e _ => e = .astray) t := by
  cases works with
  | true => exact (wp_pure ()).mpr rfl
  | false => exact (wp_throw _).mpr rfl

theorem childSetup_spec (works : Fin 5 → Bool) (hx : t (sockets 0) = some x)
    (hne : sockets 0 ≠ sockets 1) (hplace : 1 < sockets 0) :
    wp (childSetup works mode sockets)
      (fun _ t' => ∀ fd, t' fd =
        if fd = 1 ∧ mode.reads ∨ fd = 0 ∧ mode.writes then some x
        else if fd = sockets 0 ∨ fd = sockets 1 then none
        else t fd)
      (fun e _ => e = .astray) t := by
  unfold childSetup
  rw [wp_bind]
  refine (closeFd_spec (works 0) (sockets 1)).mono ?_ fun _ _ he => he
  rintro _ t1 ht1
  have h1 : t1 (sockets 0) = some x := by simp [ht1, hne, hx]
  rw [wp_bind]
  refine (dup2If_spec mode.reads (works 1) 1 h1).mono ?_ fun _ _ he => he
  rintro _ t2 ht2
  have h2 : t2 (sockets 0) = some x := by
    have hne1 : sockets 0 ≠ 1 := by omega
    rw [ht2]
    split_ifs <;> simp [hne1, h1]
  rw [wp_bind]
  refine (dup2If_spec mode.writes (works 2) 0 h2).mono ?_ fun _ _ he => he
  rintro _ t3 ht3
  rw [wp_bind]
  refine (closeFd_spec (works 3) (sockets 0)).mono ?_ fun _ _ he => he
  rintro _ t4 ht4
  refine (execve_spec (works 4)).mono ?_ fun _ _ he => he
  rintro _ t5 rfl fd
  rw [ht4, ht3, ht2, ht1]
  rcases mode with ⟨reads, writes⟩
  simp only [Function.update_apply]
  cases reads <;> cases writes <;> simp [Function.update_apply] <;> grind

end Child

/-! ## The parent's table

Every end that the parent holds is that of a stream, but for those of a call that threw. -/

structure Site.Sound (s : Site) : Prop where
  lengths : s.commands.length = s.streams.length
  input : ∃ n, s.fds 0 = some (.other n)
  output : ∃ n, s.fds 1 = some (.other n)
  held : ∀ fd e, s.fds fd = some (.socket e) → e.pair < s.streams.length ∧
    (s.streams[e.pair]? = some .failed ∨ e.side = 1 ∧ s.Has e.pair fd)
  opened : ∀ k fd, s.Has k fd → s.fds fd = some (.socket ⟨k, 1⟩)

/-- How a call of `createpipestream` may end, if its child does not throw. -/
inductive Creates (s : Site) (mode : Mode) : Except Failure Unit → Site → Prop where
  | nothing (e : Failure) : Creates s mode (.error e) (s.created s.fds .failed none)
  | alone (e : Failure) {sockets : Fin 2 → Nat} (hunused : s.fds.Unused sockets) :
      Creates s mode (.error e) (s.created (s.fds.paired s.streams.length sockets) .failed none)
  | leaking (e : Failure) {sockets : Fin 2 → Nat} {works : Fin 5 → Bool} {t : Table}
      (closing : Closing) (hunused : s.fds.Unused sockets)
      (ht : childSetup works mode sockets (s.fds.paired s.streams.length sockets) = .ok () t) :
      Creates s mode (.error e) (s.created
        (closing.leaves (s.fds.paired s.streams.length sockets) (sockets 0)) .failed (some t))
  | done {sockets : Fin 2 → Nat} {works : Fin 5 → Bool} {t : Table} (hunused : s.fds.Unused sockets)
      (ht : childSetup works mode sockets (s.fds.paired s.streams.length sockets) = .ok () t) :
      Creates s mode (.ok ()) (s.created
        (Function.update (s.fds.paired s.streams.length sockets) (sockets 0) none)
        (.opened (sockets 1)) (some t))

section Parent

variable {s s' : Site} {mode : Mode} {sockets : Fin 2 → Nat} {t : Table} {e : End}
  {out : Except Failure Unit} {works : Fin 5 → Bool} {k fd : Nat}

theorem Table.Unused.paired_zero (h : s.fds.Unused sockets) (k : Nat) :
    s.fds.paired k sockets (sockets 0) = some (.socket ⟨k, 0⟩) := by
  simp [Table.paired, h.1]

theorem paired_one (k : Nat) :
    s.fds.paired k sockets (sockets 1) = some (.socket ⟨k, 1⟩) := by
  simp [Table.paired]

theorem paired_other (hzero : fd ≠ sockets 0) (hone : fd ≠ sockets 1) (k : Nat) :
    s.fds.paired k sockets fd = s.fds fd := by
  simp [Table.paired, hzero, hone]

/-- A new pair is not put in the place of the standard descriptors. -/
theorem Site.Sound.place (h : s.Sound) (hunused : s.fds.Unused sockets) (side : Fin 2) :
    1 < sockets side := by
  have hfree : s.fds (sockets side) = none := by
    match side with
    | 0 => exact hunused.2.1
    | 1 => exact hunused.2.2
  obtain ⟨n, hinput⟩ := h.input
  obtain ⟨m, houtput⟩ := h.output
  by_contra hle
  obtain hzero | hone : sockets side = 0 ∨ sockets side = 1 := by omega
  · rw [hzero, hinput] at hfree
    cases hfree
  · rw [hone, houtput] at hfree
    cases hfree

theorem childSetup_paired (h : s.Sound) (hunused : s.fds.Unused sockets)
    (ht : childSetup works mode sockets (s.fds.paired s.streams.length sockets) = .ok () t)
    (fd : Nat) : t fd =
      if fd = 1 ∧ mode.reads ∨ fd = 0 ∧ mode.writes then some (.socket ⟨s.streams.length, 0⟩)
      else if fd = sockets 0 ∨ fd = sockets 1 then none
      else s.fds fd := by
  have hfds := (childSetup_spec works (hunused.paired_zero s.streams.length) hunused.1
    (h.place hunused 0)).of_ok ht
  rw [hfds]
  split_ifs with hmoved hpair
  · rfl
  · rfl
  · exact paired_other (fun h => hpair (.inl h)) (fun h => hpair (.inr h)) _

/-- A command holds what the parent held when it was started, and its own end of its pair. -/
theorem childSetup_holds (h : s.Sound) (hunused : s.fds.Unused sockets)
    (ht : childSetup works mode sockets (s.fds.paired s.streams.length sockets) = .ok () t) :
    t.Holds e ↔ s.fds.Holds e ∨ e = ⟨s.streams.length, 0⟩ ∧ (mode.reads ∨ mode.writes) := by
  have hfds := childSetup_paired h hunused ht
  obtain ⟨n, hinput⟩ := h.input
  obtain ⟨m, houtput⟩ := h.output
  constructor
  · rintro ⟨fd, hfd⟩
    rw [hfds] at hfd
    split_ifs at hfd with hmoved hpair
    · cases hfd
      exact .inr ⟨rfl, hmoved.imp (·.2) (·.2)⟩
    · exact .inl ⟨fd, hfd⟩
  · rintro (⟨fd, hfd⟩ | ⟨rfl, hmode⟩)
    · have hstandard : fd ≠ 0 ∧ fd ≠ 1 := by
        constructor <;> rintro rfl
        · rw [hinput] at hfd
          cases hfd
        · rw [houtput] at hfd
          cases hfd
      have hpair : fd ≠ sockets 0 ∧ fd ≠ sockets 1 := by
        constructor <;> rintro rfl
        · rw [hunused.2.1] at hfd
          cases hfd
        · rw [hunused.2.2] at hfd
          cases hfd
      refine ⟨fd, ?_⟩
      rw [hfds]
      simp [hstandard, hpair, hfd]
    · rcases hmode with hreads | hwrites
      · exact ⟨1, by rw [hfds, if_pos (.inl ⟨rfl, hreads⟩)]⟩
      · exact ⟨0, by rw [hfds, if_pos (.inr ⟨rfl, hwrites⟩)]⟩

theorem createpipestream_creates (h : s.Sound) (mode : Mode) (answers : Answers)
    (hastray : (attempt (createpipestream mode answers) s).1 ≠ .error .astray) :
    Creates s mode (attempt (createpipestream mode answers) s).1
      (attempt (createpipestream mode answers) s).2 := by
  unfold attempt createpipestream at hastray ⊢
  cases hpair : answers.socketpair with
  | none => exact .nothing _
  | some sockets =>
    by_cases hunused : s.fds.Unused sockets
    · cases hvfork : answers.vfork with
      | false =>
        simp only [hunused, if_true]
        exact .alone _ hunused
      | true =>
        simp only [hpair, hunused, hvfork, if_true] at hastray ⊢
        cases hchild : childSetup answers.child mode sockets
            (s.fds.paired s.streams.length sockets) with
        | error e t =>
          have he := (childSetup_spec answers.child (hunused.paired_zero s.streams.length) hunused.1
            (h.place hunused 0)).of_error hchild
          simp only [hchild, he, ne_eq, not_true_eq_false] at hastray
        | ok u t =>
          by_cases hgood : answers.close = .closed ∧
              (answers.shutdown = true ∨ mode.reads = true ∧ mode.writes = true)
          · simp only [hgood, and_self, if_true]
            exact .done hunused hchild
          · simp only [hgood, if_false]
            exact .leaking _ answers.close hunused hchild
    · simp only [hunused, if_false]
      exact .nothing _

end Parent

/-! ## What a step can do

A step adds one pair, or takes the end of one stream away, or ends a command. What a command that
runs holds does not change. -/

inductive Moves (s : Site) : Step → Except Failure Unit → Site → Prop where
  | create {mode : Mode} {out : Except Failure Unit} {s' : Site} (answers : Answers)
      (h : Creates s mode out s') : Moves s (.create mode answers) out s'
  | abandon {k fd : Nat} {flushes : Bool} {closing : Closing} (e : Failure)
      (hk : s.streams[k]? = some (.opened fd)) :
      Moves s (.destroy k flushes closing) (.error e)
        { s with streams := s.streams.set k (.abandoned fd) }
  | destroy {k fd : Nat} {flushes : Bool} {closing : Closing} (out : Except Failure Unit)
      (hk : s.streams[k]? = some (.opened fd)) :
      Moves s (.destroy k flushes closing) out
        { s with fds := Function.update s.fds fd none, streams := s.streams.set k .destroyed }
  | destroyed (k : Nat) (flushes : Bool) (closing : Closing) :
      Moves s (.destroy k flushes closing) (.ok ()) s
  | exit (j : Nat) : Moves s (.exit j) (.ok ()) { s with commands := s.commands.set j none }

theorem destroyStream_moves (s : Site) (k : Nat) (flushes : Bool) (closing : Closing) :
    Moves s (.destroy k flushes closing) (attempt (destroyStream k flushes closing) s).1
      (attempt (destroyStream k flushes closing) s).2 := by
  unfold attempt destroyStream
  cases hk : s.streams[k]? with
  | none => exact .destroyed k flushes closing
  | some stream =>
    cases stream with
    | opened fd =>
      cases flushes with
      | false => exact .abandon _ hk
      | true =>
        cases closing with
        | closed => exact .destroy _ hk
        | fails released =>
          cases released with
          | true => exact .destroy _ hk
          | false => exact .abandon _ hk
    | failed | abandoned | destroyed => exact .destroyed k flushes closing

theorem step_moves {s : Site} (h : s.Sound) (step : Step)
    (hastray : (attempt step.run s).1 ≠ .error .astray) :
    Moves s step (attempt step.run s).1 (attempt step.run s).2 := by
  cases step with
  | create mode answers => exact .create answers (createpipestream_creates h mode answers hastray)
  | destroy k flushes closing => exact destroyStream_moves s k flushes closing
  | exit j => exact .exit j

section Invariant

variable {s s' : Site} {step : Step} {mode : Mode} {sockets : Fin 2 → Nat} {fds : Table}
  {stream : Stream} {command : Option Table} {commands : List (Option Table)}
  {out : Except Failure Unit} {e : End} {k k' fd : Nat}

theorem has_iff (hk : s.streams[k]? = some stream) : s.Has k fd ↔ fd ∈ stream.descriptor := by
  simp [Site.Has, hk]

theorem has_created_iff (hk : k < s.streams.length) :
    (s.created fds stream command).Has k fd ↔ s.Has k fd := by
  simp [Site.Has, Site.created, List.getElem?_append_left hk]

theorem has_created_self :
    (s.created fds stream command).Has s.streams.length fd ↔ fd ∈ stream.descriptor :=
  has_iff (by simp [Site.created])

theorem has_set_ne (hk : k ≠ k') :
    (⟨fds, s.streams.set k stream, commands⟩ : Site).Has k' fd ↔ s.Has k' fd := by
  simp [Site.Has, List.getElem?_set_ne hk]

theorem has_set_self (hk : k < s.streams.length) :
    (⟨fds, s.streams.set k stream, commands⟩ : Site).Has k fd ↔ fd ∈ stream.descriptor :=
  has_iff (by simp [hk])

/-- What failed is not a stream, and stays as it is. -/
theorem failed_set (hk : s.streams[k]? = some .failed) (hk' : s.streams[k']? ≠ some .failed) :
    (s.streams.set k' stream)[k]? = some .failed := by
  have hne : k' ≠ k := by
    rintro rfl
    exact hk' hk
  rwa [List.getElem?_set_ne hne]

/-- Of a call, the invariant asks that the ends that are new in the table belong to the new pair,
and that a sockbuf has its own. -/
theorem Site.Sound.created (h : s.Sound)
    (hold : ∀ fd e, s.fds fd ≠ none ∨ e.pair ≠ s.streams.length →
      (fds fd = some (.socket e) ↔ s.fds fd = some (.socket e)))
    (hin : fds 0 = s.fds 0) (hout : fds 1 = s.fds 1)
    (hnew : ∀ fd e, fds fd = some (.socket e) → e.pair = s.streams.length →
      stream = .failed ∨ e.side = 1 ∧ fd ∈ stream.descriptor)
    (hopened : ∀ fd ∈ stream.descriptor, fds fd = some (.socket ⟨s.streams.length, 1⟩)) :
    (s.created fds stream command).Sound where
  lengths := by simp [Site.created, h.lengths]
  input := by simpa [Site.created, hin] using h.input
  output := by simpa [Site.created, hout] using h.output
  held fd e hfd := by
    by_cases hpair : e.pair = s.streams.length
    · have hend := hnew fd e hfd hpair
      rw [hpair, has_created_self]
      simpa [Site.created] using hend
    · obtain ⟨hlt, hend⟩ := h.held fd e ((hold fd e (.inr hpair)).mp hfd)
      rw [has_created_iff hlt]
      refine ⟨by simp [Site.created]; omega, ?_⟩
      simpa [Site.created, List.getElem?_append_left hlt] using hend
  opened k fd hk := by
    obtain hlt | rfl | hgt := Nat.lt_trichotomy k s.streams.length
    · have hfd := h.opened k fd ((has_created_iff hlt).mp hk)
      exact (hold fd ⟨k, 1⟩ (.inl (by simp [hfd]))).mpr hfd
    · exact hopened fd (has_created_self.mp hk)
    · obtain ⟨stream', hstream, -⟩ := hk
      have hlt := (List.getElem?_eq_some_iff.mp (Option.mem_def.mp hstream)).1
      simp [Site.created] at hlt
      omega

theorem Site.Sound.fresh (h : s.Sound) (hfd : s.fds fd = some (.socket e)) :
    e.pair ≠ s.streams.length := by
  have hlt := (h.held fd e hfd).1
  omega

/-- Outside the new pair, the table with the pair is the table. -/
theorem paired_iff (hunused : s.fds.Unused sockets)
    (hold : s.fds fd ≠ none ∨ e.pair ≠ s.streams.length) :
    s.fds.paired s.streams.length sockets fd = some (.socket e) ↔ s.fds fd = some (.socket e) := by
  by_cases hzero : fd = sockets 0
  · subst hzero
    have hpair : e.pair ≠ s.streams.length := hold.resolve_left (by simp [hunused.2.1])
    simp only [hunused.paired_zero, hunused.2.1, Option.some.injEq, Thing.socket.injEq]
    constructor
    · intro he
      exact absurd (congrArg End.pair he).symm hpair
    · intro he
      cases he
  · by_cases hone : fd = sockets 1
    · subst hone
      have hpair : e.pair ≠ s.streams.length := hold.resolve_left (by simp [hunused.2.2])
      simp only [paired_one, hunused.2.2, Option.some.injEq, Thing.socket.injEq]
      constructor
      · intro he
        exact absurd (congrArg End.pair he).symm hpair
      · intro he
        cases he
    · rw [paired_other hzero hone]

theorem Site.Sound.paired_standard (h : s.Sound) (hunused : s.fds.Unused sockets) (hfd : fd < 2) :
    s.fds.paired s.streams.length sockets fd = s.fds fd := by
  have hzero := h.place hunused 0
  have hone := h.place hunused 1
  exact paired_other (by omega) (by omega) _

/-- The parent closes its copy of the command's end, if it does. -/
theorem Site.Sound.leaves (h : s.Sound) (hunused : s.fds.Unused sockets) (closing : Closing)
    (hstream : stream = .failed ∨ closing ≠ .fails false ∧ stream = .opened (sockets 1)) :
    (s.created (closing.leaves (s.fds.paired s.streams.length sockets) (sockets 0)) stream
      command).Sound := by
  have hzero := h.place hunused 0
  have hone := h.place hunused 1
  have hother : ∀ {fd}, fd ≠ sockets 0 →
      closing.leaves (s.fds.paired s.streams.length sockets) (sockets 0) fd =
        s.fds.paired s.streams.length sockets fd := by
    intro fd hfd
    unfold Closing.leaves
    split_ifs
    · rfl
    · simp [hfd]
  have hstandard : ∀ {fd}, fd < 2 →
      closing.leaves (s.fds.paired s.streams.length sockets) (sockets 0) fd = s.fds fd := by
    intro fd hfd
    rw [hother (by omega), h.paired_standard hunused hfd]
  refine h.created ?_ (hstandard (by omega)) (hstandard (by omega)) ?_ ?_
  · intro fd e hold
    by_cases hfd : fd = sockets 0
    · subst hfd
      -- the child's end, which `::close` may have left open
      have hpair : e.pair ≠ s.streams.length := hold.resolve_left (by simp [hunused.2.1])
      unfold Closing.leaves
      split_ifs
      · exact paired_iff hunused hold
      · simp [hunused.2.1]
    · rw [hother hfd]
      exact paired_iff hunused hold
  · intro fd e hfd hpair
    refine hstream.imp_right fun ⟨hclosing, hopened⟩ => ?_
    -- the call did not throw, so its descriptor is that of the stream
    have hne : fd ≠ sockets 0 := by
      rintro rfl
      simp [Closing.leaves, hclosing] at hfd
    rw [hother hne] at hfd
    by_cases hfdone : fd = sockets 1
    · subst hfdone
      rw [paired_one] at hfd
      cases hfd
      exact ⟨rfl, by simp [hopened, Stream.descriptor]⟩
    · rw [paired_other hne hfdone] at hfd
      exact absurd hpair (h.fresh hfd)
  · intro fd hfd
    rcases hstream with rfl | ⟨-, rfl⟩
    · cases hfd
    · cases hfd
      rw [hother hunused.1.symm, paired_one]

theorem Creates.sound (hrun : Creates s mode out s') (h : s.Sound) : s'.Sound := by
  cases hrun with
  | nothing e =>
    exact h.created (fun fd e _ => Iff.rfl) rfl rfl (fun fd e _ _ => .inl rfl) (by
      simp [Stream.descriptor])
  | alone e hunused => exact h.leaves hunused (.fails false) (.inl rfl)
  | leaking e closing hunused _ => exact h.leaves hunused closing (.inl rfl)
  | done hunused ht => exact h.leaves hunused .closed (.inr ⟨by simp, rfl⟩)

/-- What a destructor does that throws before it closes the descriptor. -/
theorem Site.Sound.abandon (h : s.Sound) (hk : s.streams[k]? = some (.opened fd)) :
    Site.Sound { s with streams := s.streams.set k (.abandoned fd) } := by
  have hlt := (List.getElem?_eq_some_iff.mp hk).1
  have hhas : ∀ k' fd', (⟨s.fds, s.streams.set k (.abandoned fd), s.commands⟩ : Site).Has k' fd' ↔
      s.Has k' fd' := by
    intro k' fd'
    by_cases hkk' : k = k'
    · subst hkk'
      rw [has_set_self hlt, has_iff hk]
      rfl
    · exact has_set_ne hkk'
  refine ⟨by simp [h.lengths], h.input, h.output, fun fd' e hfd' => ?_, fun k' fd' hk' => ?_⟩
  · obtain ⟨hpair, hend⟩ := h.held fd' e hfd'
    rw [hhas]
    exact ⟨by simpa using hpair, hend.imp_left fun hfailed => failed_set hfailed (by simp [hk])⟩
  · exact h.opened k' fd' ((hhas k' fd').mp hk')

/-- What a destructor does that closes the descriptor. -/
theorem Site.Sound.destroy (h : s.Sound) (hk : s.streams[k]? = some (.opened fd)) :
    Site.Sound { s with
      fds := Function.update s.fds fd none, streams := s.streams.set k .destroyed } := by
  have hlt := (List.getElem?_eq_some_iff.mp hk).1
  have hown := h.opened k fd ((has_iff hk).mpr rfl)
  obtain ⟨n, hinput⟩ := h.input
  obtain ⟨m, houtput⟩ := h.output
  have hplace : 0 ≠ fd ∧ 1 ≠ fd := by
    -- the pair was not put in the place of the standard descriptors
    constructor <;> rintro rfl
    · rw [hinput] at hown
      cases hown
    · rw [houtput] at hown
      cases hown
  refine ⟨by simp [h.lengths], ⟨n, by simp [hplace.1, hinput]⟩, ⟨m, by simp [hplace.2, houtput]⟩,
    fun fd' e hfd' => ?_, fun k' fd' hk' => ?_⟩
  · have hne : fd' ≠ fd := by
      rintro rfl
      simp at hfd'
    have hfd : s.fds fd' = some (.socket e) := by simpa [hne] using hfd'
    obtain ⟨hpair, hend⟩ := h.held fd' e hfd
    refine ⟨by simpa using hpair, hend.imp (fun hfailed => failed_set hfailed (by simp [hk])) ?_⟩
    rintro ⟨hside, hhas⟩
    have hother : k ≠ e.pair := by
      rintro rfl
      rw [has_iff hk] at hhas
      cases hhas
      exact hne rfl
    exact ⟨hside, (has_set_ne hother).mpr hhas⟩
  · have hother : k ≠ k' := by
      rintro rfl
      rw [has_set_self hlt] at hk'
      cases hk'
    have hown' := h.opened k' fd' ((has_set_ne hother).mp hk')
    have hne : fd' ≠ fd := by
      rintro rfl
      rw [hown] at hown'
      cases hown'
      exact hother rfl
    simp [hne, hown']

theorem Moves.sound (hrun : Moves s step out s') (h : s.Sound) : s'.Sound := by
  cases hrun with
  | create answers hcreates => exact hcreates.sound h
  | abandon e hk => exact h.abandon hk
  | destroy out hk => exact h.destroy hk
  | destroyed k flushes closing => exact h
  | exit j => exact ⟨by simp [h.lengths], h.input, h.output, h.held, h.opened⟩

/-- A call that threw is not made good later. -/
theorem Moves.failed (hrun : Moves s step out s') (hk : s.streams[k]? = some .failed) :
    s'.streams[k]? = some .failed := by
  have hlt := (List.getElem?_eq_some_iff.mp hk).1
  cases hrun with
  | create answers hcreates =>
    cases hcreates <;> simp [Site.created, List.getElem?_append_left hlt, hk]
  | abandon e hk' => exact failed_set hk (by simp [hk'])
  | destroy out hk' => exact failed_set hk (by simp [hk'])
  | destroyed k' flushes closing => exact hk
  | exit j => exact hk

/-- A command that runs after the step ran before it, or the step started it. -/
theorem Moves.command_of {j : Nat} {t : Table} (hrun : Moves s step out s') (h : s.Sound)
    (ht : s'.commands[j]? = some (some t)) :
    s.commands[j]? = some (some t) ∨
      j = s.commands.length ∧ ∃ mode answers, step = .create mode answers ∧
        ∀ e, t.Holds e ↔ s.fds.Holds e ∨ e = ⟨j, 0⟩ ∧ (mode.reads ∨ mode.writes) := by
  cases hrun with
  | abandon e hk => exact .inl ht
  | destroy out hk => exact .inl ht
  | destroyed k flushes closing => exact .inl ht
  | exit j' =>
    by_cases hj : j' = j
    · subst hj
      rw [List.getElem?_set_self'] at ht
      cases hcommand : s.commands[j']? <;> simp [hcommand] at ht
    · exact .inl (by simpa [List.getElem?_set_ne hj] using ht)
  | @create mode out s' answers hcreates =>
    obtain ⟨fds, stream, command, rfl, hcommand⟩ : ∃ fds stream command,
        s' = s.created fds stream command ∧ ∀ t, command = some t →
          ∀ e, t.Holds e ↔
            s.fds.Holds e ∨ e = ⟨s.streams.length, 0⟩ ∧ (mode.reads ∨ mode.writes) := by
      cases hcreates with
      | nothing e => exact ⟨_, _, _, rfl, by simp⟩
      | alone e hunused => exact ⟨_, _, _, rfl, by simp⟩
      | leaking e closing hunused hsetup =>
        refine ⟨_, _, _, rfl, ?_⟩
        rintro t ⟨⟩ e
        exact childSetup_holds h hunused hsetup
      | done hunused hsetup =>
        refine ⟨_, _, _, rfl, ?_⟩
        rintro t ⟨⟩ e
        exact childSetup_holds h hunused hsetup
    rw [← h.lengths] at hcommand
    obtain hlt | rfl | hgt := Nat.lt_trichotomy j s.commands.length
    · exact .inl (by simpa [Site.created, List.getElem?_append_left hlt] using ht)
    · exact .inr ⟨rfl, mode, answers, rfl, hcommand t (by simpa [Site.created] using ht)⟩
    · have hnone : (s.created fds stream command).commands[j]? = none := by
        rw [List.getElem?_eq_none_iff]
        simp [Site.created]
        omega
      rw [hnone] at ht
      cases ht

theorem Moves.commands_length (hrun : Moves s step out s') :
    s.commands.length ≤ s'.commands.length ∧
      ∀ j mode, Starts j mode ⟨s, step, out, s'⟩ → j < s'.commands.length := by
  cases hrun with
  | create answers hcreates =>
    have hlength : s'.commands.length = s.commands.length + 1 := by
      cases hcreates <;> simp [Site.created]
    rw [hlength]
    refine ⟨by omega, fun j mode h => ?_⟩
    have hj : s.commands.length = j := h.1
    omega
  | abandon | destroy | destroyed =>
    refine ⟨Nat.le_refl _, fun j mode h => ?_⟩
    obtain ⟨-, _, hop⟩ := h
    cases hop
  | exit j' =>
    refine ⟨by simp, fun j mode h => ?_⟩
    obtain ⟨-, _, hop⟩ := h
    cases hop

end Invariant

/-! ## Runs

Each command that runs was started by one call, and holds what the parent held then, without the new
pair, and its own end of it. -/

/-- What the history tells about the commands that run: each was started by one call, and holds what
the parent held then and its own end. -/
structure Accounted (log : List Deed) (s : Site) : Prop where
  sound : s.Sound
  past : ∀ h ∈ log, ∀ j mode, Starts j mode h → j < s.commands.length
  started : ∀ j t, s.commands[j]? = some (some t) → ∃ h ∈ log, ∃ mode, Starts j mode h
  holds : ∀ j t, s.commands[j]? = some (some t) → ∀ h ∈ log, ∀ mode, Starts j mode h →
    ∀ e, t.Holds e ↔ h.before.fds.Holds e ∨ e = ⟨j, 0⟩ ∧ (mode.reads ∨ mode.writes)
  before : ∀ h ∈ log, h.before.Sound ∧
    ∀ k : Nat, h.before.streams[k]? = some .failed → s.streams[k]? = some .failed

section Runs

variable {log : List Deed} {s s' : Site} {step : Step} {out : Except Failure Unit}

theorem Accounted.next (h : Accounted log s) (hrun : Moves s step out s') :
    Accounted (⟨s, step, out, s'⟩ :: log) s' := by
  obtain ⟨hle, hnew⟩ := hrun.commands_length
  refine ⟨hrun.sound h.sound, ?_, ?_, ?_, ?_⟩
  · simp only [List.mem_cons, forall_eq_or_imp]
    refine ⟨hnew, fun d hd j mode hstarts => ?_⟩
    have hlt := h.past d hd j mode hstarts
    omega
  · intro j t ht
    rcases hrun.command_of h.sound ht with hold | ⟨rfl, mode, answers, hop, -⟩
    · obtain ⟨d, hd, mode, hstarts⟩ := h.started j t hold
      exact ⟨d, List.mem_cons_of_mem _ hd, mode, hstarts⟩
    · exact ⟨_, List.mem_cons_self .., mode, rfl, answers, hop⟩
  · intro j t ht d hd mode hstarts
    rcases hrun.command_of h.sound ht with hold | ⟨rfl, mode', answers, hop, hholds⟩
    · rcases List.mem_cons.mp hd with rfl | hd
      -- an old command: the last call has started another one
      · have hj : s.commands.length = j := hstarts.1
        have hlt := (List.getElem?_eq_some_iff.mp hold).1
        omega
      · exact h.holds j t hold d hd mode hstarts
    · rcases List.mem_cons.mp hd with rfl | hd
      · obtain ⟨-, _, hop'⟩ := hstarts
        cases hop.symm.trans hop'
        exact hholds
      · have hlt := h.past d hd _ mode hstarts
        omega
  · simp only [List.mem_cons, forall_eq_or_imp]
    refine ⟨⟨h.sound, fun k => hrun.failed⟩, fun d hd => ?_⟩
    exact ⟨(h.before d hd).1, fun k hk => hrun.failed ((h.before d hd).2 k hk)⟩

theorem deeds_accounted (start : Standard) (steps : List Step)
    (horderly : Orderly (deeds start steps).1) :
    Accounted (deeds start steps).1 (deeds start steps).2 := by
  have hrun : Run (fun s step out s' => s.Sound → out ≠ .error .astray → Moves s step out s')
      ⟨start.fds, [], []⟩ (deeds start steps).1 (deeds start steps).2 :=
    History.record_run (fun step s h => step_moves h step) steps .start
  generalize (deeds start steps).1 = log at horderly hrun ⊢
  generalize (deeds start steps).2 = s at hrun ⊢
  induction hrun with
  | start =>
    refine ⟨⟨rfl, start.input, start.output, ?_, by simp [Site.Has]⟩, by simp, by simp, by simp,
      by simp⟩
    intro fd e hfd
    exact absurd hfd (start.foreign fd e)
  | step _ hmoves ih =>
    obtain ⟨hhead, htail⟩ := List.forall_mem_cons.mp horderly
    exact (ih htail).next (hmoves (ih htail).sound hhead)

/-- While its call has not thrown, what the parent holds of a pair is the end of the stream. -/
theorem Site.Sound.holds_iff (h : s.Sound) {k : Nat} (hk : s.streams[k]? ≠ some .failed) (e : End)
    (he : e.pair = k) : s.fds.Holds e ↔ s.Opened k ∧ e.side = 1 := by
  subst he
  constructor
  · rintro ⟨fd, hfd⟩
    obtain ⟨hside, hstream⟩ := (h.held fd e hfd).2.resolve_left hk
    exact ⟨⟨fd, hstream⟩, hside⟩
  · rintro ⟨⟨fd, hstream⟩, hside⟩
    refine ⟨fd, ?_⟩
    rw [h.opened _ fd hstream, ← hside]

def terminal : Standard where
  fds fd := if fd < 3 then some (.other fd) else none
  input := ⟨0, rfl⟩
  output := ⟨1, rfl⟩
  foreign fd e := by
    split <;> simp

/-- A call of which all goes well. -/
def bothWays (sockets : Fin 2 → Nat) : Step :=
  .create ⟨true, true⟩ ⟨some sockets, true, fun _ => true, .closed, true, ⟨fun _ => none, [], []⟩⟩

/-- Two commands to write to and to read from, and the first stream is destroyed. -/
def twoCommands : List Step :=
  [bothWays fun side => 3 + side, bothWays fun side => 3 + 2 * side, .destroy 0 true .closed]

theorem second_starts :
    ∃ h ∈ (deeds terminal twoCommands).1, (∃ mode, Starts 1 mode h) ∧ h.before.Opened 0 := by
  refine ⟨_, .tail _ (.head _), ⟨⟨true, true⟩, rfl, _, rfl⟩, 4, ?_⟩
  exact (@has_iff _ (.opened 4) _ _ rfl).mpr rfl

theorem twoCommands_orderly : Orderly (deeds terminal twoCommands).1 := by
  have houtcomes : (deeds terminal twoCommands).1.map (·.outcome) = [.ok (), .ok (), .ok ()] := rfl
  intro h hh hastray
  have hmem : h.outcome ∈ (deeds terminal twoCommands).1.map (·.outcome) := List.mem_map_of_mem hh
  rw [houtcomes, hastray] at hmem
  simp at hmem

end Runs

end Pipe
