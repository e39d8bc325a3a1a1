import Mathlib.Data.Fin.Basic
import Mathlib.Logic.Function.Basic
import SocketPlusPlus.Logic.Chain
import SocketPlusPlus.Logic.Exec

/-!
# `iopipestream`

A stream built from a socket type has a socket pair and waits in the static list at `head`. `fork`
walks the list in both processes: each closes its one end of every pair, builds a sockbuf on the
other, and takes the stream off the list. The code follows `pipestream.cpp`.

An `Image` is the memory of one process with its table of open descriptors, and a `World` is all
processes. A fork adds an image that starts as a copy. Which pair an open descriptor belongs to, and
which end of it, is the kernel's business.
-/

namespace Pipe

open Exec Linked

/-- `class iopipestream`; `rdbuf` is the descriptor of the sockbuf that `init` was given. -/
structure Iopipestream where
  sp : Fin 2 → Nat
  cpid : Int
  next : Option Nat
  rdbuf : Option Nat

/-- One end of a socket pair. -/
structure End where
  pair : Nat
  side : Fin 2
deriving DecidableEq, Repr

/-- `closed` are the descriptors that `::close` was called for, in order. -/
structure Image where
  streams : List (Option Iopipestream)
  head : Option Nat
  fds : Nat → Option End
  closed : List Nat

inductive Fault where
  | dangling (a : Nat)
  | sockerr
  | noProcess
  | outOfFuel
deriving DecidableEq, Repr

abbrev ImageM := EStateM Fault Image

/-! ## One process

The members as they act in one process. `fork` walks along the list of pending streams and takes
each off it. -/

def deref (a : Nat) : ImageM Iopipestream := fun im =>
  match cell? im.streams a with
  | some s => .ok s im
  | none => .error (.dangling a) im

def store (a : Nat) (s : Iopipestream) : ImageM Unit :=
  modify fun im => { im with streams := im.streams.set a (some s) }

/-- `if (::close(fd) == -1) throw sockerr(errno)`. The call fails if the kernel wants it to, and for
a descriptor that is not open. -/
def close (works : Bool) (fd : Nat) : ImageM Unit := fun im =>
  if works = true ∧ im.fds fd ≠ none then
    .ok () { im with fds := Function.update im.fds fd none, closed := im.closed ++ [fd] }
  else .error .sockerr im

/-- The ends of the pair of number `pair` are open as `sp`. -/
def Image.paired (im : Image) (pair : Nat) (sp : Fin 2 → Nat) : Image :=
  { im with
    fds := Function.update (Function.update im.fds (sp 0) (some ⟨pair, 0⟩)) (sp 1)
      (some ⟨pair, 1⟩) }

/-- Two descriptors that are not in use. -/
def Image.Unused (im : Image) (sp : Fin 2 → Nat) : Prop :=
  sp 0 ≠ sp 1 ∧ im.fds (sp 0) = none ∧ im.fds (sp 1) = none

instance (im : Image) (sp : Fin 2 → Nat) : Decidable (im.Unused sp) :=
  inferInstanceAs (Decidable (_ ∧ _ ∧ _))

/-- `::socketpair` with the descriptors it answers, for the pair of number `pair`. -/
def socketpair (pair : Nat) : Option (Fin 2 → Nat) → ImageM (Fin 2 → Nat)
  | none => throw .sockerr
  | some sp => fun im =>
    if im.Unused sp then .ok sp (im.paired pair sp) else .error .sockerr im

/-- `iopipestream(sockbuf::type, int)` -/
def iopipestream (pair : Nat) (answer : Option (Fin 2 → Nat)) : ImageM Unit := do
  let im ← get
  let sp ← socketpair pair answer
  modify fun im' =>
    { im' with streams := im'.streams ++ [some ⟨sp, -1, im.head, none⟩],
               head := some im.streams.length }

/-- `iopipestream(const char*)`: the child of `vfork` becomes the command. `sp` is what the memory
of the object held before. -/
def iopipestreamCmd (pair : Nat) (answer : Option (Fin 2 → Nat)) (vforks closes : Bool)
    (sp : Fin 2 → Nat) : ImageM Unit := do
  let sockets ← socketpair pair answer
  if vforks = true then
    close closes (sockets 0)
    modify fun im => { im with streams := im.streams ++ [some ⟨sp, -1, none, some (sockets 1)⟩] }
  else throw .sockerr

/-- `~iopipestream()`: `delete rdbuf()` closes the descriptor of the sockbuf. -/
def destroy (a : Nat) : ImageM Unit := do
  let im ← get
  match cell? im.streams a with
  | none => pure ()
  | some s =>
    modify fun im => { im with streams := im.streams.set a none }
    match s.rdbuf with
    | none => pure ()
    | some fd => close true fd

/-- The loop of `fork()`: of every stream of the list the end `keep` is kept and the other one is
closed. The `fail`-th call of `::close` fails. -/
def forkLoop (keep : Fin 2) (cpid : Int) : Nat → Option Nat → ImageM Unit
  | 0, _ => throw .outOfFuel
  | fuel + 1, fail => do
    let im ← get
    match im.head with
    | none => pure ()
    | some a =>
      let s ← deref a
      close (fail ≠ some 0) (s.sp (1 - keep))
      store a { s with cpid := cpid, rdbuf := some (s.sp keep) }
      modify fun im => { im with head := s.next }
      forkLoop keep cpid fuel (fail.map Nat.pred)

/-- `fork()` in the parent. -/
def forkParent (pid : Int) (fail : Option Nat) : ImageM Int := do
  let im ← get
  forkLoop 0 pid (im.streams.length + 1) fail
  pure pid

/-- `fork()` in the child. -/
def forkChild (fail : Option Nat) : ImageM Int := do
  let im ← get
  forkLoop 1 0 (im.streams.length + 1) fail
  pure 0

/-! ## All processes

Pairs are numbered across all processes, so that the two ends of one are recognised in whatever
process they are. -/

/-- The processes, and how many socket pairs were asked for. -/
structure World where
  images : List Image
  pairs : Nat

abbrev WorldM := EStateM Fault World

/-- One process, before the first stream. -/
def World.init : World := ⟨[⟨[], none, fun _ => none, []⟩], 0⟩

/-- A step of the `i`-th process. -/
def onImage {α : Type} (i : Nat) (c : ImageM α) : WorldM Unit := fun w =>
  match w.images[i]? with
  | none => .error .noProcess w
  | some im =>
    match c im with
    | .ok _ im' => .ok () { w with images := w.images.set i im' }
    | .error e im' => .error e { w with images := w.images.set i im' }

/-- Every call of `::socketpair` is about a new pair. -/
def withPair {α : Type} (i : Nat) (c : Nat → ImageM α) : WorldM Unit := do
  let w ← get
  modify fun w => { w with pairs := w.pairs + 1 }
  onImage i (c w.pairs)

/-- How a step of two processes ended. -/
def joined (w : World) : Except Fault Int → Except Fault Int → EStateM.Result Fault World Unit
  | .ok _, .ok _ => .ok () w
  | .error e, _ => .error e w
  | .ok _, .error e => .error e w

/-- `iopipestream::fork()` of the `i`-th process, with the answer of `::fork`. -/
def forkWorld (i : Nat) (answer : Option Int) (failParent failChild : Option Nat) : WorldM Unit :=
  fun w =>
    match w.images[i]?, answer with
    | none, _ => .error .noProcess w
    | some _, none => .error .sockerr w
    | some im, some pid =>
      if 0 < pid then
        let parent := attempt (forkParent pid failParent) im
        let child := attempt (forkChild failChild) im
        joined { w with images := w.images.set i parent.2 ++ [child.2] } parent.1 child.1
      else .error .sockerr w

inductive Op where
  | create (i : Nat) (answer : Option (Fin 2 → Nat))
  | createCmd (i : Nat) (answer : Option (Fin 2 → Nat)) (vforks closes : Bool) (sp : Fin 2 → Nat)
  | destroy (i a : Nat)
  | fork (i : Nat) (answer : Option Int) (failParent failChild : Option Nat)

def Op.run : Op → WorldM Unit
  | .create i answer => withPair i fun pair => iopipestream pair answer
  | .createCmd i answer vforks closes sp =>
    withPair i fun pair => iopipestreamCmd pair answer vforks closes sp
  | .destroy i a => onImage i (Pipe.destroy a)
  | .fork i answer failParent failChild => forkWorld i answer failParent failChild

/-! ## The constructors and the destructor -/

section Members

variable {im : Image} {a : Nat} {s : Iopipestream}

theorem socketpair_spec (pair : Nat) (answer : Option (Fin 2 → Nat)) (im : Image) :
    wp (socketpair pair answer) (fun sp im' => im.Unused sp ∧ im' = im.paired pair sp)
      (fun e im' => e = .sockerr ∧ im' = im) im := by
  cases answer with
  | none => exact ⟨rfl, rfl⟩
  | some sp =>
    by_cases hsp : im.Unused sp
    · have hrun : socketpair pair (some sp) im = .ok sp (im.paired pair sp) := if_pos hsp
      rw [wp_iff_of_ok hrun]
      exact ⟨hsp, rfl⟩
    · have hrun : socketpair pair (some sp) im = .error .sockerr im := if_neg hsp
      rw [wp_iff_of_error hrun]
      exact ⟨rfl, rfl⟩

/-- What is open after `::socketpair`. -/
theorem paired_fds {sp : Fin 2 → Nat} (hsp : im.Unused sp) (pair fd : Nat) (e : End) :
    (im.paired pair sp).fds fd = some e ↔
      (∃ side, fd = sp side ∧ e = ⟨pair, side⟩) ∨ im.fds fd = some e := by
  obtain ⟨hne, h0, h1⟩ := hsp
  simp only [Image.paired, Fin.exists_fin_two]
  by_cases hfd1 : fd = sp 1
  · simp [hfd1, hne.symm, h1, eq_comm]
  · by_cases hfd0 : fd = sp 0
    · simp [hfd0, hne, h0, eq_comm]
    · simp [hfd0, hfd1]

theorem close_ok {works : Bool} {fd : Nat} (hworks : works = true) (hopen : im.fds fd ≠ none) :
    close works fd im
      = .ok () { im with fds := Function.update im.fds fd none, closed := im.closed ++ [fd] } :=
  if_pos ⟨hworks, hopen⟩

theorem close_error {works : Bool} {fd : Nat} (hno : ¬ (works = true ∧ im.fds fd ≠ none)) :
    close works fd im = .error .sockerr im := if_neg hno

theorem close_spec (works : Bool) (fd : Nat) (im : Image) :
    wp (close works fd)
      (fun _ im' => im' = { im with
        fds := Function.update im.fds fd none, closed := im.closed ++ [fd] })
      (fun e im' => e = .sockerr ∧ im' = im) im := by
  by_cases h : works = true ∧ im.fds fd ≠ none
  · rw [wp_iff_of_ok (close_ok h.1 h.2)]
  · rw [wp_iff_of_error (close_error h)]
    exact ⟨rfl, rfl⟩

/-- A new stream is the first of the list. -/
theorem iopipestream_spec (pair : Nat) (answer : Option (Fin 2 → Nat)) (im : Image) :
    wp (iopipestream pair answer)
      (fun _ im' => ∃ sp, im.Unused sp ∧ im' = { im.paired pair sp with
        streams := im.streams ++ [some ⟨sp, -1, im.head, none⟩]
        head := some im.streams.length })
      (fun e im' => e = .sockerr ∧ im' = im) im := by
  unfold iopipestream
  rw [wp_bind, wp_get, wp_bind]
  apply (socketpair_spec pair answer im).mono _ (fun _ _ h => h)
  rintro sp im1 ⟨hsp, rfl⟩
  exact ⟨sp, hsp, rfl⟩

/-- A stream for a command is not in the list. -/
theorem iopipestreamCmd_spec (pair : Nat) (answer : Option (Fin 2 → Nat)) (vforks closes : Bool)
    (junk : Fin 2 → Nat) (im : Image) :
    wp (iopipestreamCmd pair answer vforks closes junk)
      (fun _ im' => ∃ sp, im.Unused sp ∧ im' = { im.paired pair sp with
        streams := im.streams ++ [some ⟨junk, -1, none, some (sp 1)⟩]
        fds := Function.update (im.paired pair sp).fds (sp 0) none
        closed := im.closed ++ [sp 0] })
      (fun e im' => e = .sockerr ∧ (im' = im ∨ ∃ sp, im.Unused sp ∧ im' = im.paired pair sp))
      im := by
  unfold iopipestreamCmd
  rw [wp_bind]
  apply (socketpair_spec pair answer im).mono _ (fun _ _ h => ⟨h.1, .inl h.2⟩)
  rintro sp im1 ⟨hsp, rfl⟩
  apply wp_ite_intro
  · intro _
    rw [wp_bind]
    apply (close_spec closes (sp 0) _).mono
    · rintro _ im2 rfl
      exact ⟨sp, hsp, rfl⟩
    · rintro e im2 ⟨he, rfl⟩
      exact ⟨he, .inr ⟨sp, hsp, rfl⟩⟩
  · intro _
    exact ⟨rfl, .inr ⟨sp, hsp, rfl⟩⟩

theorem destroy_gone (ha : cell? im.streams a = none) : destroy a im = .ok () im := by
  show (match cell? im.streams a with | none => pure () | some s => _ : ImageM Unit) im = _
  rw [ha]
  rfl

theorem destroy_some (ha : cell? im.streams a = some s) :
    destroy a im = (match s.rdbuf with | none => pure () | some fd => close true fd : ImageM Unit)
      { im with streams := im.streams.set a none } := by
  show (match cell? im.streams a with
    | none => pure ()
    | some s => do
      modify fun im => { im with streams := im.streams.set a none }
      match s.rdbuf with
      | none => pure ()
      | some fd => close true fd : ImageM Unit) im = _
  rw [ha]
  rfl

end Members

/-! ## Steps of one process -/

section Steps

variable {α : Type} {c : ImageM α} {w : World} {i : Nat} {im : Image} {Q : Unit → World → Prop}
  {E : Fault → World → Prop}

theorem wp_onImage (hi : w.images[i]? = some im) :
    wp (onImage i c) Q E w ↔
      wp c (fun _ im' => Q () { w with images := w.images.set i im' })
        (fun e im' => E e { w with images := w.images.set i im' }) im := by
  cases hc : c im with
  | ok x im' =>
    have hrun : onImage i c w = .ok () { w with images := w.images.set i im' } := by
      simp only [onImage, hi, hc]
    rw [wp_iff_of_ok hrun, wp_iff_of_ok hc]
  | error e im' =>
    have hrun : onImage i c w = .error e { w with images := w.images.set i im' } := by
      simp only [onImage, hi, hc]
    rw [wp_iff_of_error hrun, wp_iff_of_error hc]

theorem wp_onImage_none (hi : w.images[i]? = none) :
    wp (onImage i c) Q E w ↔ E .noProcess w := by
  have hrun : onImage i c w = .error .noProcess w := by simp only [onImage, hi]
  rw [wp_iff_of_error hrun]

theorem wp_withPair {c : Nat → ImageM α} (hi : w.images[i]? = some im) :
    wp (withPair i c) Q E w ↔
      wp (c w.pairs) (fun _ im' => Q () ⟨w.images.set i im', w.pairs + 1⟩)
        (fun e im' => E e ⟨w.images.set i im', w.pairs + 1⟩) im :=
  wp_onImage (w := ⟨w.images, w.pairs + 1⟩) hi

theorem wp_withPair_none {c : Nat → ImageM α} (hi : w.images[i]? = none) :
    wp (withPair i c) Q E w ↔ E .noProcess ⟨w.images, w.pairs + 1⟩ :=
  wp_onImage_none (w := ⟨w.images, w.pairs + 1⟩) hi

/-- A fork whose `::fork` works: the parent and the child run one after the other. -/
theorem forkWorld_joined {pid : Int} (hi : w.images[i]? = some im) (hpid : 0 < pid)
    (failParent failChild : Option Nat) :
    forkWorld i (some pid) failParent failChild w
      = joined
        { w with
          images := w.images.set i (attempt (forkParent pid failParent) im).2
            ++ [(attempt (forkChild failChild) im).2] }
        (attempt (forkParent pid failParent) im).1 (attempt (forkChild failChild) im).1 := by
  simp only [forkWorld, hi, if_pos hpid]

/-- There is no such process, or `::fork` fails, or it works. -/
theorem wp_forkWorld_intro {answer : Option Int} {failParent failChild : Option Nat}
    (hnone : E .noProcess w) (hfails : E .sockerr w)
    (hworks : ∀ im pid, w.images[i]? = some im → 0 < pid →
      wp (forkWorld i (some pid) failParent failChild) Q E w) :
    wp (forkWorld i answer failParent failChild) Q E w := by
  cases hi : w.images[i]? with
  | none =>
    have hrun : forkWorld i answer failParent failChild w = .error .noProcess w := by
      simp only [forkWorld, hi]
    rwa [wp_iff_of_error hrun]
  | some im =>
    cases answer with
    | none =>
      have hrun : forkWorld i none failParent failChild w = .error .sockerr w := by
        simp only [forkWorld, hi]
      rwa [wp_iff_of_error hrun]
    | some pid =>
      by_cases hpid : 0 < pid
      · exact hworks im pid hi hpid
      · have hrun : forkWorld i (some pid) failParent failChild w = .error .sockerr w := by
          simp only [forkWorld, hi, if_neg hpid]
        rwa [wp_iff_of_error hrun]

end Steps

/-! ## The loop of `fork`

A round closes one end, builds the sockbuf on the other, and goes to the next stream. If a `::close`
fails, the loop is left with the rest of the list as it was. -/

/-- What the loop has done to the streams `l`: each has its number and its sockbuf, its other end is
closed by one call, and nothing else has changed. -/
structure Handled (keep : Fin 2) (cpid : Int) (l : List Nat) (im im' : Image) : Prop where
  done : ∀ a ∈ l, ∀ s, cell? im.streams a = some s →
    cell? im'.streams a = some { s with cpid := cpid, rdbuf := some (s.sp keep) }
  others : ∀ a, a ∉ l → cell? im'.streams a = cell? im.streams a
  gone : ∀ a ∈ l, ∀ s, cell? im.streams a = some s → im'.fds (s.sp (1 - keep)) = none
  stays : ∀ fd, (∀ a ∈ l, ∀ s, cell? im.streams a = some s → s.sp (1 - keep) ≠ fd) →
    im'.fds fd = im.fds fd
  closed : im'.closed
    = im.closed ++ l.filterMap fun a => (cell? im.streams a).map fun s => s.sp (1 - keep)
  length : im'.streams.length = im.streams.length

section Loop

variable {im im' im1 : Image} {keep : Fin 2} {cpid : Int} {l : List Nat} {a : Nat}
  {s : Iopipestream} {fail : Option Nat} {fuel : Nat}

theorem handled_nil (keep : Fin 2) (cpid : Int) (im : Image) : Handled keep cpid [] im im where
  done a ha := by cases ha
  others _ _ := rfl
  gone a ha := by cases ha
  stays _ _ := rfl
  closed := by simp
  length := rfl

/-- The state after one round, for the stream `s` at `a`. -/
def Image.round (im : Image) (keep : Fin 2) (cpid : Int) (a : Nat) (s : Iopipestream) : Image where
  streams := im.streams.set a (some { s with cpid := cpid, rdbuf := some (s.sp keep) })
  head := s.next
  fds := Function.update im.fds (s.sp (1 - keep)) none
  closed := im.closed ++ [s.sp (1 - keep)]

theorem Handled.cons (ha : cell? im.streams a = some s) (hnot : a ∉ l)
    (h : Handled keep cpid l (im.round keep cpid a s) im') : Handled keep cpid (a :: l) im im' := by
  have hsame : ∀ b, b ≠ a → cell? (im.round keep cpid a s).streams b = cell? im.streams b :=
    fun b hb => cell?_set_ne _ (Ne.symm hb)
  have hlist : ∀ b ∈ l, cell? (im.round keep cpid a s).streams b = cell? im.streams b := by
    intro b hb
    apply hsame
    rintro rfl
    exact hnot hb
  constructor
  · intro b hb sb hsb
    rcases List.mem_cons.mp hb with rfl | hb
    · cases ha.symm.trans hsb
      rw [h.others b hnot]
      exact cell?_set_self _ (lt_of_cell? ha)
    · exact h.done b hb sb ((hlist b hb).trans hsb)
  · intro b hb
    rw [List.mem_cons, not_or] at hb
    rw [h.others b hb.2, hsame b hb.1]
  · intro b hb sb hsb
    rcases List.mem_cons.mp hb with rfl | hb
    · cases ha.symm.trans hsb
      -- closed in this round, or once more for a later stream with the same descriptor
      by_cases hagain : ∀ c ∈ l, ∀ sc, cell? (im.round keep cpid b s).streams c = some sc →
          sc.sp (1 - keep) ≠ s.sp (1 - keep)
      · rw [h.stays _ hagain]
        exact Function.update_self ..
      · simp only [not_forall, not_not] at hagain
        obtain ⟨c, hc, sc, hsc, heq⟩ := hagain
        rw [← heq]
        exact h.gone c hc sc hsc
    · exact h.gone b hb sb ((hlist b hb).trans hsb)
  · intro fd hfd
    have hne : fd ≠ s.sp (1 - keep) := (hfd a List.mem_cons_self s ha).symm
    rw [h.stays fd fun b hb sb hsb =>
      hfd b (List.mem_cons_of_mem _ hb) sb ((hlist b hb).symm.trans hsb)]
    exact Function.update_of_ne hne ..
  · have hmap : l.filterMap (fun b => (cell? (im.round keep cpid a s).streams b).map
        fun sb => sb.sp (1 - keep))
        = l.filterMap fun b => (cell? im.streams b).map fun sb => sb.sp (1 - keep) := by
      apply List.filterMap_congr
      intro b hb
      rw [hlist b hb]
    rw [h.closed, hmap]
    simp [Image.round, ha]
  · rw [h.length]
    exact List.length_set

theorem deref_some (ha : cell? im.streams a = some s) : deref a im = .ok s im := by
  simp only [deref, ha]

theorem forkLoop_nil (hhead : im.head = none) :
    forkLoop keep cpid (fuel + 1) fail im = .ok () im := by
  show (match im.head with | none => pure () | some a => _ : ImageM Unit) im = _
  rw [hhead]
  rfl

theorem forkLoop_cons (hhead : im.head = some a) (ha : cell? im.streams a = some s) :
    forkLoop keep cpid (fuel + 1) fail im = (do
      close (fail ≠ some 0) (s.sp (1 - keep))
      store a { s with cpid := cpid, rdbuf := some (s.sp keep) }
      modify fun im => { im with head := s.next }
      forkLoop keep cpid fuel (fail.map Nat.pred) : ImageM Unit) im := by
  show (match im.head with
    | none => pure ()
    | some a => do
      let s ← deref a
      close (fail ≠ some 0) (s.sp (1 - keep))
      store a { s with cpid := cpid, rdbuf := some (s.sp keep) }
      modify fun im => { im with head := s.next }
      forkLoop keep cpid fuel (fail.map Nat.pred) : ImageM Unit) im = _
  rw [hhead]
  exact bind_ok (deref_some ha)

/-- A round in which `::close` works. -/
theorem forkLoop_round (hhead : im.head = some a) (ha : cell? im.streams a = some s)
    (hfail : fail ≠ some 0) (hopen : im.fds (s.sp (1 - keep)) ≠ none) :
    forkLoop keep cpid (fuel + 1) fail im
      = forkLoop keep cpid fuel (fail.map Nat.pred) (im.round keep cpid a s) := by
  rw [forkLoop_cons hhead ha, bind_ok (close_ok (decide_eq_true hfail) hopen)]
  rfl

theorem forkLoop_error (hhead : im.head = some a) (ha : cell? im.streams a = some s)
    (hno : ¬ (fail ≠ some 0 ∧ im.fds (s.sp (1 - keep)) ≠ none)) :
    forkLoop keep cpid (fuel + 1) fail im = .error .sockerr im := by
  rw [forkLoop_cons hhead ha, bind_error (close_error (by simpa using hno))]

/-- The loop takes the streams off the list one by one, and stops at the first `::close` that fails.
Induction on the streams still in the list. -/
theorem forkLoop_spec (h : Chain Iopipestream.next im.streams im.head l) (hfuel : l.length < fuel)
    (fail : Option Nat) :
    wp (forkLoop keep cpid fuel fail)
      (fun _ im' => Handled keep cpid l im im' ∧ im'.head = none)
      (fun e im' => e = .sockerr ∧ ∃ l1 l2, l = l1 ++ l2 ∧ Handled keep cpid l1 im im' ∧
        Chain Iopipestream.next im'.streams im'.head l2) im := by
  induction l generalizing im fuel fail with
  | nil =>
    obtain ⟨fuel, rfl⟩ : ∃ n, fuel = n + 1 := ⟨fuel - 1, by omega⟩
    rw [wp_iff_of_ok (forkLoop_nil h.head)]
    exact ⟨handled_nil keep cpid im, h.head⟩
  | cons a l ih =>
    obtain ⟨fuel, rfl⟩ : ∃ n, fuel = n + 1 := ⟨fuel - 1, by omega⟩
    obtain ⟨hhead, s, ha, hrest⟩ := h.of_cons
    obtain ⟨hnot, -⟩ := List.nodup_cons.mp h.nodup
    by_cases hworks : fail ≠ some 0 ∧ im.fds (s.sp (1 - keep)) ≠ none
    · -- a round changes one stream, and the rest of the list leads past it
      have hchain : Chain Iopipestream.next (im.round keep cpid a s).streams
          (im.round keep cpid a s).head l := hrest.set_of_not_mem hnot _
      rw [wp_congr (forkLoop_round hhead ha hworks.1 hworks.2)]
      apply (ih hchain (by simpa using hfuel) _).mono
      · rintro _ im' ⟨hdone, hnone⟩
        exact ⟨hdone.cons ha hnot, hnone⟩
      · rintro e im' ⟨he, l1, l2, rfl, hdone, hleft⟩
        have hnot1 : a ∉ l1 := fun hin => hnot (List.mem_append_left _ hin)
        exact ⟨he, a :: l1, l2, rfl, hdone.cons ha hnot1, hleft⟩
    · rw [wp_iff_of_error (forkLoop_error hhead ha hworks)]
      exact ⟨rfl, [], a :: l, rfl, handled_nil keep cpid im, h⟩

/-- With the other ends open, all different, and a `::close` that works, nothing stops the loop. -/
theorem forkLoop_returns (h : Chain Iopipestream.next im.streams im.head l)
    (hfuel : l.length < fuel)
    (hopen : ∀ a ∈ l, ∀ s, cell? im.streams a = some s → im.fds (s.sp (1 - keep)) ≠ none)
    (hdistinct : ∀ a ∈ l, ∀ b ∈ l, ∀ s t, cell? im.streams a = some s →
      cell? im.streams b = some t → s.sp (1 - keep) = t.sp (1 - keep) → a = b) :
    wp (forkLoop keep cpid fuel none) (fun _ _ => True) (fun _ _ => False) im := by
  induction l generalizing im fuel with
  | nil =>
    obtain ⟨fuel, rfl⟩ : ∃ n, fuel = n + 1 := ⟨fuel - 1, by omega⟩
    rw [wp_iff_of_ok (forkLoop_nil h.head)]
    trivial
  | cons a l ih =>
    obtain ⟨fuel, rfl⟩ : ∃ n, fuel = n + 1 := ⟨fuel - 1, by omega⟩
    obtain ⟨hhead, s, ha, hrest⟩ := h.of_cons
    obtain ⟨hnot, -⟩ := List.nodup_cons.mp h.nodup
    have hchain : Chain Iopipestream.next (im.round keep cpid a s).streams
        (im.round keep cpid a s).head l := hrest.set_of_not_mem hnot _
    have hsame : ∀ b ∈ l, cell? (im.round keep cpid a s).streams b = cell? im.streams b := by
      intro b hb
      apply cell?_set_ne
      rintro rfl
      exact hnot hb
    have hfirst := hopen a List.mem_cons_self s ha
    rw [wp_congr (forkLoop_round hhead ha (by simp) hfirst)]
    apply ih hchain (by simpa using hfuel)
    · intro b hb t ht
      rw [hsame b hb] at ht
      have hin := List.mem_cons_of_mem a hb
      -- another stream, so another descriptor
      have hne : t.sp (1 - keep) ≠ s.sp (1 - keep) := by
        intro heq
        cases hdistinct a List.mem_cons_self b hin s t ha ht heq.symm
        exact hnot hb
      show Function.update im.fds (s.sp (1 - keep)) none (t.sp (1 - keep)) ≠ none
      rw [Function.update_of_ne hne]
      exact hopen b hin t ht
    · intro b hb c hc t u ht hu heq
      rw [hsame b hb] at ht
      rw [hsame c hc] at hu
      exact hdistinct b (List.mem_cons_of_mem a hb) c (List.mem_cons_of_mem a hc) t u ht hu heq

end Loop

end Pipe
