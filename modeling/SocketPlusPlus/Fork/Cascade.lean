import Mathlib.Algebra.Order.BigOperators.Group.Finset
import SocketPlusPlus.Fork.Children
import SocketPlusPlus.Fork.KillForks

/-!
# A whole family dies

`commit_suicide` deals with the children of one process. A child with `kill_child` gets a `SIGTERM`
and has `commit_suicide` for its handler, so it deals with its own children before it ends; the
others get a `SIGKILL`, and their children are left alone. The parent waits for each child before it
turns to the next.

A `Lineage` is a tree of processes, and a world says what each of them is at. In a schedule they
take turns in any order, and so do the handlers for `SIGCHLD`: all of these processes have
`reaper_nohang`. A handler that runs between the end of the child that its process waits for and the
`waitpid` for it deletes the object that `commit_suicide` is about to delete. Such a process is at
`dangling`, and nothing is said of what it does from then on. A program that masks `SIGCHLD` is safe
from it.

The result is that otherwise the end does not depend on the order: it is reached, whatever the
schedule, after a bounded number of actions, and then just those have ended that are doomed by the
flags (`cascade`). The processes do nothing else in the meantime: they do not fork, do not end by
themselves, and get no other signals.
-/

namespace Fork

open Exec Linked

/-- Processes that were forked by one another. Each but 0 has a parent that is older than itself. -/
structure Lineage where
  size : Nat
  parent : Nat → Nat
  killChild : Nat → Bool
  pos : 0 < size
  older : ∀ c, c ≠ 0 → parent c < c

/-- What a process is at. A process that commits suicide has killed the child it waits for, and has
the children `rest` still before it. -/
inductive Status where
  | running
  | dying (waits : Option Nat) (rest : List Nat)
  | dangling
  | ended (suicide : Bool)
deriving DecidableEq, Repr

def Status.Ended : Status → Prop
  | .ended _ => True
  | _ => False

instance (s : Status) : Decidable s.Ended :=
  match s with
  | .ended _ => .isTrue trivial
  | .running => .isFalse id
  | .dying _ _ => .isFalse id
  | .dangling => .isFalse id

/-- The child that the process waits for. -/
def Status.waits : Status → Option Nat
  | .dying waits _ => waits
  | _ => none

/-- A process goes on, or its handler for `SIGCHLD` runs. -/
inductive Turn where
  | process (p : Nat)
  | sigchld (p : Nat)
deriving DecidableEq, Repr

abbrev World := Nat → Status

namespace Lineage

variable (L : Lineage)

/-- The children of a process, in the order of its list: the youngest first. -/
def kids (p : Nat) : List Nat :=
  ((List.range L.size).filter fun c => c ≠ 0 ∧ L.parent c = p).reverse

/-- What the signal that is sent to a child does: `SIGTERM` starts its handler, once, and `SIGKILL`
ends it. -/
def strike (w : World) (c : Nat) : World :=
  if L.killChild c then
    if w c = .running then Function.update w c (.dying none (L.kids c)) else w
  else if (w c).Ended then w
  else Function.update w c (.ended false)

/-- `reaper_nohang` reaps the child for which `commit_suicide` is about to wait. -/
def Forestalls (w : World) : Turn → Prop
  | .process _ => False
  | .sigchld p => ∃ c ∈ (w p).waits, (w c).Ended

instance (w : World) (t : Turn) : Decidable (Forestalls w t) :=
  match t with
  | .process _ => .isFalse id
  | .sigchld p => inferInstanceAs (Decidable (∃ c ∈ (w p).waits, (w c).Ended))

/-- The next action of a process in `commit_suicide`; `none` if it cannot go on, or is not there. -/
def goOn (w : World) (p : Nat) : Option World :=
  match w p with
  | .dying none (c :: rest) => some (Function.update (L.strike w c) p (.dying (some c) rest))
  | .dying none [] => some (Function.update w p (.ended true))
  | .dying (some c) rest =>
    if (w c).Ended then some (Function.update w p (.dying none rest)) else none
  | _ => none

/-- What a turn does. A handler that has nothing to reap does nothing. -/
def act (w : World) : Turn → Option World
  | .process p => L.goOn w p
  | .sigchld p =>
    if Forestalls w (.sigchld p) then some (Function.update w p .dangling) else none

/-- The signal of `suicide_signal` has reached the process 0. -/
def start : World := Function.update (fun _ => .running) 0 (.dying none (L.kids 0))

/-- The turns are taken in the order of the schedule, as far as they can. -/
def after : World → List Turn → World
  | w, [] => w
  | w, t :: schedule => after ((L.act w t).getD w) schedule

/-- How many of the actions have taken place. -/
def actions : World → List Turn → Nat
  | _, [] => 0
  | w, t :: schedule =>
    (if (L.act w t).isSome then 1 else 0) + actions ((L.act w t).getD w) schedule

/-- No handler forestalls a `waitpid`. -/
def Spared : World → List Turn → Prop
  | _, [] => True
  | w, t :: schedule => ¬ Forestalls w t ∧ Spared ((L.act w t).getD w) schedule

/-! ## What is expected

The flags decide who ends: `kill_child` hands the suicide on, and without it a child is only
killed. -/

/-- Process 0 and the children with `kill_child` of such processes. -/
inductive Suicidal : Nat → Prop where
  | eldest : Suicidal 0
  | child {p c : Nat} (hp : Suicidal p) (hc : c ∈ L.kids p) (hkill : L.killChild c = true) :
      Suicidal c

/-- Process 0 and all children of those that commit suicide. -/
def Doomed (c : Nat) : Prop := c = 0 ∨ ∃ p, L.Suicidal p ∧ c ∈ L.kids p

section Tree

variable {L} {p c : Nat}

theorem mem_kids : c ∈ L.kids p ↔ c < L.size ∧ c ≠ 0 ∧ L.parent c = p := by
  simp [kids]

theorem lt_of_mem_kids (h : c ∈ L.kids p) : p < c := by
  obtain ⟨-, hc, rfl⟩ := mem_kids.mp h
  exact L.older c hc

theorem nodup_kids (L : Lineage) (p : Nat) : (L.kids p).Nodup :=
  List.nodup_reverse.mpr (List.nodup_range.filter _)

theorem Suicidal.doomed (h : L.Suicidal p) : L.Doomed p := by
  cases h with
  | eldest => exact .inl rfl
  | child hp hc _ => exact .inr ⟨_, hp, hc⟩

theorem Suicidal.lt_size (h : L.Suicidal p) : p < L.size := by
  cases h with
  | eldest => exact L.pos
  | child _ hc _ => exact (mem_kids.mp hc).1

end Tree

/-! ## The invariant

Of a process that commits suicide: the children behind it have ended, but for the one it waits for,
and the others are still before it. What has happened is not undone. -/

/-- What is true of a process, by what it is at. -/
def Fine (w : World) (p : Nat) : Prop :=
  match w p with
  | .running => p ≠ 0
  | .dying waits rest =>
    L.Suicidal p ∧ waits.toList ++ rest <:+ L.kids p ∧
      (∀ c ∈ L.kids p, c ∉ rest → w c ≠ .running) ∧
      ∀ c ∈ L.kids p, c ∉ rest → waits ≠ some c → (w c).Ended
  | .dangling => L.Suicidal p
  | .ended true => L.Suicidal p ∧ ∀ c ∈ L.kids p, (w c).Ended
  | .ended false => L.killChild p = false ∧ p ≠ 0 ∧ L.Doomed p

/-- No process starts again. -/
def Later (w w' : World) : Prop :=
  ∀ q, (w q ≠ .running → w' q ≠ .running) ∧ ((w q).Ended → (w' q).Ended)

section Steps

variable {L} {w w' : World} {p c q : Nat} {waits : Option Nat} {rest : List Nat}

theorem Fine.later (h : L.Fine w q) (hlater : Later w w') (hsame : w' q = w q) : L.Fine w' q := by
  unfold Fine at h ⊢
  rw [hsame]
  split at h
  · exact h
  · obtain ⟨hq, hsuffix, hstruck, hended⟩ := h
    exact ⟨hq, hsuffix, fun c hc hrest => (hlater c).1 (hstruck c hc hrest),
      fun c hc hrest hwaits => (hlater c).2 (hended c hc hrest hwaits)⟩
  · exact h
  · exact ⟨h.1, fun c hc => (hlater c).2 (h.2 c hc)⟩
  · exact h

theorem strike_ne (w : World) (h : q ≠ c) : L.strike w c q = w q := by
  unfold strike
  split_ifs <;> simp [h]

/-- Behind the signal the child runs no more. -/
theorem strike_self (L : Lineage) (w : World) (c : Nat) :
    L.strike w c c ≠ .running ∧ ((w c).Ended → (L.strike w c c).Ended) := by
  unfold strike
  split_ifs with hkill hrunning hended
  · simp [hrunning, Status.Ended]
  · exact ⟨hrunning, id⟩
  · refine ⟨?_, id⟩
    intro heq
    rw [heq] at hended
    exact hended
  · simp [Status.Ended]

theorem later_update (w : World) {s : Status} (hs : s ≠ .running)
    (hend : (w p).Ended → s.Ended) : Later w (Function.update w p s) := by
  intro q
  by_cases hq : q = p
  · subst hq
    rw [Function.update_self]
    exact ⟨fun _ => hs, hend⟩
  · simp [hq]

theorem later_strike (L : Lineage) (w : World) (c : Nat) : Later w (L.strike w c) := by
  intro q
  by_cases hq : q = c
  · subst hq
    exact ⟨fun _ => (strike_self L w q).1, (strike_self L w q).2⟩
  · rw [strike_ne w hq]
    exact ⟨id, id⟩

theorem Later.trans {w'' : World} (h : Later w w') (h' : Later w' w'') : Later w w'' :=
  fun q => ⟨fun hq => (h' q).1 ((h q).1 hq), fun hq => (h' q).2 ((h q).2 hq)⟩

/-- A process that has just entered `commit_suicide`. -/
theorem fine_dying (hp : L.Suicidal p) (h : w p = .dying none (L.kids p)) : L.Fine w p := by
  unfold Fine
  rw [h]
  exact ⟨hp, List.suffix_rfl, fun c hc hrest => absurd hc hrest, fun c hc hrest => absurd hc hrest⟩

/-- A child that gets its signal is as it should be. -/
theorem fine_strike (hp : L.Suicidal p) (hc : c ∈ L.kids p) (hfine : L.Fine w c) :
    L.Fine (L.strike w c) c := by
  have hlater := later_strike L w c
  unfold strike at hlater ⊢
  split_ifs at hlater ⊢ with hkill hrunning hended
  · exact fine_dying (.child hp hc hkill) (Function.update_self ..)
  · exact hfine
  · exact hfine
  · unfold Fine
    rw [Function.update_self]
    exact ⟨by simpa using hkill, (mem_kids.mp hc).2.1, .inr ⟨p, hp, hc⟩⟩

/-- The actions. -/
inductive Acts (w : World) : Turn → World → Prop where
  | signal {p c : Nat} {rest : List Nat} (h : w p = .dying none (c :: rest)) :
      Acts w (.process p) (Function.update (L.strike w c) p (.dying (some c) rest))
  | exit {p : Nat} (h : w p = .dying none []) :
      Acts w (.process p) (Function.update w p (.ended true))
  | reap {p c : Nat} {rest : List Nat} (h : w p = .dying (some c) rest) (hc : (w c).Ended) :
      Acts w (.process p) (Function.update w p (.dying none rest))
  | forestall {p c : Nat} {rest : List Nat} (h : w p = .dying (some c) rest) (hc : (w c).Ended) :
      Acts w (.sigchld p) (Function.update w p .dangling)

theorem acts_of_act {t : Turn} (h : L.act w t = some w') : Acts (L := L) w t w' := by
  cases t with
  | process p =>
    rw [act] at h
    unfold goOn at h
    split at h
    · cases h
      exact .signal ‹_›
    · cases h
      exact .exit ‹_›
    · split_ifs at h with hc
      cases h
      exact .reap ‹_› hc
    · cases h
  | sigchld p =>
    rw [act] at h
    split_ifs at h with hforestalls
    cases h
    obtain ⟨c, hwaits, hc⟩ := hforestalls
    cases hstatus : w p with
    | dying waits rest =>
      rw [hstatus] at hwaits
      exact .forestall (hstatus.trans (congrArg (Status.dying · rest) hwaits)) hc
    | running | dangling | ended =>
      rw [hstatus] at hwaits
      cases hwaits

theorem goOn_isSome (h : w p = .dying none rest) : (L.goOn w p).isSome = true := by
  unfold goOn
  rw [h]
  cases rest <;> rfl

/-- An action keeps the invariant. -/
theorem Acts.fine {t : Turn} (h : Acts (L := L) w t w') (hfine : ∀ q, L.Fine w q) :
    ∀ q, L.Fine w' q := by
  intro q
  cases h with
  | @signal p c rest hstatus =>
    have hp := hfine p
    unfold Fine at hp
    rw [hstatus] at hp
    obtain ⟨hsuicidal, hsuffix, hstruck, hended⟩ := hp
    have hc : c ∈ L.kids p := hsuffix.subset (by simp)
    have hne : p ≠ c := Nat.ne_of_lt (lt_of_mem_kids hc)
    have hstrike := later_strike L w c
    have hupdate : Later (L.strike w c)
        (Function.update (L.strike w c) p (.dying (some c) rest)) := by
      refine later_update _ (by simp) fun hend => ?_
      rw [strike_ne w hne, hstatus] at hend
      exact hend.elim
    by_cases hq : q = p
    · subst hq
      unfold Fine
      rw [Function.update_self]
      refine ⟨hsuicidal, by simpa using hsuffix, fun d hd hrest => ?_, fun d hd hrest hwaits => ?_⟩
      -- `c` has its signal now, and is the one that has not ended
      · refine (hupdate d).1 ?_
        by_cases hdc : d = c
        · subst hdc
          exact (strike_self L w d).1
        · exact (hstrike d).1 (hstruck d hd (by simp [hdc, hrest]))
      · have hdc : d ≠ c := fun hdc => hwaits (congrArg some hdc.symm)
        exact (hstrike.trans hupdate d).2 (hended d hd (by simp [hdc, hrest]) (by simp))
    · by_cases hqc : q = c
      · subst hqc
        -- the child that got the signal
        exact (fine_strike hsuicidal hc (hfine q)).later hupdate (by simp [hq])
      · refine (hfine q).later (hstrike.trans hupdate) ?_
        rw [Function.update_of_ne hq, strike_ne w hqc]
  | @exit p hstatus =>
    have hp := hfine p
    unfold Fine at hp
    rw [hstatus] at hp
    obtain ⟨hsuicidal, -, -, hended⟩ := hp
    have hlater : Later w (Function.update w p (.ended true)) :=
      later_update w (by simp) (by simp [Status.Ended])
    by_cases hq : q = p
    · subst hq
      unfold Fine
      rw [Function.update_self]
      exact ⟨hsuicidal, fun d hd => (hlater d).2 (hended d hd (by simp) (by simp))⟩
    · exact (hfine q).later hlater (by simp [hq])
  | @reap p c rest hstatus hcended =>
    have hp := hfine p
    unfold Fine at hp
    rw [hstatus] at hp
    obtain ⟨hsuicidal, hsuffix, hstruck, hended⟩ := hp
    have hlater : Later w (Function.update w p (.dying none rest)) := by
      refine later_update w (by simp) fun hend => ?_
      rw [hstatus] at hend
      exact hend.elim
    by_cases hq : q = p
    · subst hq
      unfold Fine
      rw [Function.update_self]
      refine ⟨hsuicidal, (List.suffix_cons c rest).trans hsuffix,
        fun d hd hrest => (hlater d).1 (hstruck d hd hrest), fun d hd hrest _ => (hlater d).2 ?_⟩
      -- the child that was waited for has ended, and was the only one
      by_cases hdc : d = c
      · subst hdc
        exact hcended
      · exact hended d hd hrest (by simpa using Ne.symm hdc)
    · exact (hfine q).later hlater (by simp [hq])
  | @forestall p c rest hstatus _ =>
    have hp := hfine p
    unfold Fine at hp
    rw [hstatus] at hp
    have hlater : Later w (Function.update w p .dangling) := by
      refine later_update w (by simp) fun hend => ?_
      rw [hstatus] at hend
      exact hend.elim
    by_cases hq : q = p
    · subst hq
      unfold Fine
      rw [Function.update_self]
      exact hp.1
    · exact (hfine q).later hlater (by simp [hq])

theorem fine_start (L : Lineage) : ∀ q, L.Fine L.start q := by
  intro q
  by_cases hq : q = 0
  · subst hq
    exact fine_dying .eldest (Function.update_self ..)
  · simp [Fine, start, hq]

/-- What every action keeps, every turn keeps. -/
theorem fine_turn (hfine : ∀ q, L.Fine w q) (t : Turn) : ∀ q, L.Fine ((L.act w t).getD w) q := by
  cases hact : L.act w t with
  | none => exact hfine
  | some w' => exact (acts_of_act hact).fine hfine

theorem fine_after (hfine : ∀ q, L.Fine w q) (schedule : List Turn) :
    ∀ q, L.Fine (L.after w schedule) q := by
  induction schedule generalizing w with
  | nil => exact hfine
  | cons t schedule ih => exact ih (fine_turn hfine t)

/-! ## The handler

A process comes to `dangling` when its handler forestalls a `waitpid`, and in no other way. It stays
there: those that get a `SIGKILL` are not in `commit_suicide`. -/

theorem strike_dangling_iff (hfine : ∀ q, L.Fine w q) (hstatus : w p = .dying none (c :: rest)) :
    L.strike w c q = .dangling ↔ w q = .dangling := by
  by_cases hqc : q = c
  · subst hqc
    constructor
    · unfold strike
      split_ifs <;> simp
    · intro hq
      have hp := hfine p
      -- a dangling process is in `commit_suicide`, so it has the flag, and the signal does nothing
      have hqfine := hfine q
      unfold Fine at hp hqfine
      rw [hstatus] at hp
      rw [hq] at hqfine
      have hkid : q ∈ L.kids p := hp.2.1.subset (by simp)
      cases hqfine with
      | eldest => exact absurd rfl (mem_kids.mp hkid).2.1
      | child _ _ hkill => simp [strike, hkill, hq]
  · rw [strike_ne w hqc]

theorem update_dangling_iff {s : Status} (hp : w p ≠ .dangling) (hs : s ≠ .dangling) :
    (∃ q, Function.update w p s q = .dangling) ↔ ∃ q, w q = .dangling := by
  refine exists_congr fun q => ?_
  by_cases hq : q = p
  · subst hq
    simp [hp, hs]
  · rw [Function.update_of_ne hq]

theorem Acts.dangling_iff {t : Turn} (h : Acts (L := L) w t w') (hfine : ∀ q, L.Fine w q) :
    (∃ q, w' q = .dangling) ↔ (∃ q, w q = .dangling) ∨ Forestalls w t := by
  cases h with
  | @signal p c rest hstatus =>
    have hstrike : ∀ q, L.strike w c q = .dangling ↔ w q = .dangling := fun q =>
      strike_dangling_iff hfine hstatus
    have hp : L.strike w c p ≠ .dangling := by simp [hstrike, hstatus]
    rw [update_dangling_iff hp (by simp)]
    simp [hstrike, Forestalls]
  | exit hstatus | reap hstatus _ =>
    rw [update_dangling_iff (by simp [hstatus]) (by simp)]
    simp [Forestalls]
  | @forestall p c rest hstatus hc =>
    refine iff_of_true ⟨p, Function.update_self ..⟩ (.inr ⟨c, ?_, hc⟩)
    rw [hstatus]
    rfl

theorem turn_dangling_iff (hfine : ∀ q, L.Fine w q) (t : Turn) :
    (∃ q, ((L.act w t).getD w) q = .dangling) ↔ (∃ q, w q = .dangling) ∨ Forestalls w t := by
  cases hact : L.act w t with
  | some w' => exact (acts_of_act hact).dangling_iff hfine
  | none =>
    have hnot : ¬ Forestalls w t := by
      cases t with
      | process p => exact id
      | sigchld p =>
        intro hforestalls
        rw [act, if_pos hforestalls] at hact
        cases hact
    simp [hnot]

/-- Processes come to `dangling` where a handler forestalls a `waitpid`, and nowhere else. -/
theorem after_dangling_iff (hfine : ∀ q, L.Fine w q) (schedule : List Turn) :
    (∃ q, L.after w schedule q = .dangling) ↔ (∃ q, w q = .dangling) ∨ ¬ L.Spared w schedule := by
  induction schedule generalizing w with
  | nil => simp [after, Spared]
  | cons t schedule ih =>
    rw [after, ih (fine_turn hfine t), turn_dangling_iff hfine t, Spared, or_assoc, not_and_or,
      not_not]

/-! ## The end

A process that waits does so for a younger one, and the youngest that is on the way can go on. So
when nobody can, nobody is on the way. -/

/-- Nobody can go on. -/
def Still (L : Lineage) (w : World) : Prop := ∀ p, L.goOn w p = none

/-- When nobody can go on, nobody is on the way: whoever waits for a child waits for one that is
younger, and is on the way too. -/
theorem Still.not_dying (h : Still L w) (hfine : ∀ q, L.Fine w q) (hnone : ∀ q, w q ≠ .dangling) :
    ∀ p waits rest, w p ≠ .dying waits rest := by
  -- induction from the youngest process upwards
  suffices hall : ∀ n p, L.size ≤ p + n → ∀ waits rest, w p ≠ .dying waits rest from
    fun p => hall L.size p (by omega)
  intro n
  induction n with
  | zero =>
    intro p hp waits rest hstatus
    have hpfine := hfine p
    unfold Fine at hpfine
    rw [hstatus] at hpfine
    have := hpfine.1.lt_size
    omega
  | succ n ih =>
    intro p hp waits rest hstatus
    cases waits with
    | none =>
      have hsome := goOn_isSome (L := L) hstatus
      rw [h p] at hsome
      cases hsome
    | some c =>
      have hpfine := hfine p
      -- it waits for a younger process, which is in the same case
      unfold Fine at hpfine
      rw [hstatus] at hpfine
      obtain ⟨-, hsuffix, hstruck, -⟩ := hpfine
      have hc : c ∈ L.kids p := hsuffix.subset (by simp)
      have hnot : c ∉ rest := (List.nodup_cons.mp (hsuffix.sublist.nodup (nodup_kids L p))).1
      have hblocked : ¬ (w c).Ended := by
        intro hended
        have hact := h p
        unfold goOn at hact
        rw [hstatus] at hact
        simp [hended] at hact
      have hlt := lt_of_mem_kids hc
      cases hcstatus : w c with
      | running => exact hstruck c hc hnot hcstatus
      | ended suicide =>
        rw [hcstatus] at hblocked
        exact hblocked trivial
      | dangling => exact hnone c hcstatus
      | dying waits' rest' => exact ih c (by omega) waits' rest' hcstatus

/-- Who commits suicide has done so. -/
theorem Still.suicidal (h : Still L w) (hfine : ∀ q, L.Fine w q) (hnone : ∀ q, w q ≠ .dangling)
    (hp : L.Suicidal p) : w p = .ended true := by
  have hnot := h.not_dying hfine hnone
  have hkilled : ∀ {q}, w q = .ended false → L.killChild q = false ∧ q ≠ 0 := by
    intro q hq
    have hqfine := hfine q
    unfold Fine at hqfine
    rw [hq] at hqfine
    exact ⟨hqfine.1, hqfine.2.1⟩
  induction hp with
  | eldest =>
    have hzero := hfine 0
    unfold Fine at hzero
    cases hstatus : w 0 with
    | running =>
      rw [hstatus] at hzero
      exact absurd rfl hzero
    | dying waits rest => exact absurd hstatus (hnot 0 waits rest)
    | dangling => exact absurd hstatus (hnone 0)
    | ended suicide =>
      cases suicide with
      | true => rfl
      | false => exact absurd rfl (hkilled hstatus).2
  | @child p c _ hc hkill ih =>
    have hpfine := hfine p
    -- its parent has ended by itself, and has outlived it
    unfold Fine at hpfine
    rw [ih] at hpfine
    have hended := hpfine.2 c hc
    cases hstatus : w c with
    | running =>
      rw [hstatus] at hended
      exact hended.elim
    | dying waits rest => exact absurd hstatus (hnot c waits rest)
    | dangling => exact absurd hstatus (hnone c)
    | ended suicide =>
      cases suicide with
      | true => rfl
      | false =>
        have hflag := (hkilled hstatus).1
        rw [hkill] at hflag
        cases hflag

theorem Fine.doomed (h : L.Fine w c) (hc : w c ≠ .running) : L.Doomed c := by
  unfold Fine at h
  cases hstatus : w c with
  | running => exact absurd hstatus hc
  | dying waits rest =>
    rw [hstatus] at h
    exact h.1.doomed
  | dangling =>
    rw [hstatus] at h
    exact h.doomed
  | ended suicide =>
    rw [hstatus] at h
    cases suicide with
    | true => exact h.1.doomed
    | false => exact h.2.2

theorem Still.ended_iff (h : Still L w) (hfine : ∀ q, L.Fine w q) (hnone : ∀ q, w q ≠ .dangling)
    (c : Nat) : (w c).Ended ↔ L.Doomed c := by
  constructor
  · intro hended
    refine (hfine c).doomed fun hrunning => ?_
    rw [hrunning] at hended
    exact hended
  · rintro (rfl | ⟨p, hp, hc⟩)
    · rw [h.suicidal hfine hnone .eldest]
      trivial
    · have hpfine := hfine p
      unfold Fine at hpfine
      rw [h.suicidal hfine hnone hp] at hpfine
      exact hpfine.2 c hc

/-! ## The number of actions

Each child that is still before a process costs it two actions, the signal and the wait, and the end
costs one. -/

/-- How many actions a process may still have to make. -/
def weight (L : Lineage) (p : Nat) : Status → Nat
  | .running => 2 * (L.kids p).length + 2
  | .dying none rest => 2 * rest.length + 1
  | .dying (some _) rest => 2 * rest.length + 2
  | .dangling => 0
  | .ended _ => 0

def work (L : Lineage) (w : World) : Nat := ∑ p ∈ Finset.range L.size, weight L p (w p)

theorem weight_strike (L : Lineage) (w : World) (c q : Nat) :
    weight L q (L.strike w c q) ≤ weight L q (w q) := by
  by_cases hq : q = c
  · subst hq
    unfold strike
    split_ifs with hkill hrunning hended
    · simp [hrunning, weight]
    · exact Nat.le_refl _
    · exact Nat.le_refl _
    · simp [weight]
  · rw [strike_ne w hq]

/-- An action is the work of one process, and makes none for the others. -/
theorem work_lt_of_update {v : World} {status : Status} (hp : L.Suicidal p)
    (hv : ∀ q, weight L q (v q) ≤ weight L q (w q))
    (hless : weight L p status < weight L p (w p)) :
    work L (Function.update v p status) < work L w := by
  refine Finset.sum_lt_sum (fun q _ => ?_) ⟨p, Finset.mem_range.mpr hp.lt_size, ?_⟩
  · by_cases hq : q = p
    · subst hq
      rw [Function.update_self]
      exact hless.le
    · rw [Function.update_of_ne hq]
      exact hv q
  · rwa [Function.update_self]

theorem Acts.work_lt {t : Turn} (h : Acts (L := L) w t w') (hfine : ∀ q, L.Fine w q) :
    work L w' < work L w := by
  have hsuicidal : ∀ {p waits rest}, w p = .dying waits rest → L.Suicidal p := by
    intro p waits rest hstatus
    have hp := hfine p
    unfold Fine at hp
    rw [hstatus] at hp
    exact hp.1
  cases h with
  | @signal p c rest hstatus =>
    refine work_lt_of_update (hsuicidal hstatus) (weight_strike L w c) ?_
    rw [hstatus]
    simp [weight]
    omega
  | exit hstatus | reap hstatus _ | forestall hstatus _ =>
    exact work_lt_of_update (hsuicidal hstatus) (fun q => Nat.le_refl _) (by simp [hstatus, weight])

theorem actions_le (hfine : ∀ q, L.Fine w q) (schedule : List Turn) :
    L.actions w schedule ≤ work L w := by
  induction schedule generalizing w with
  | nil => exact Nat.zero_le _
  | cons t schedule ih =>
    cases hact : L.act w t with
    | none => simpa [actions, hact] using ih hfine
    | some w' =>
      have hacts := acts_of_act hact
      have hrest := ih (hacts.fine hfine)
      have hless := hacts.work_lt hfine
      simp only [actions, hact, Option.isSome_some, if_true, Option.getD_some]
      omega

end Steps

/-- **A family dies.** Process 0 commits suicide, and the processes and their handlers take turns in
any order. At every time those that have ended, or are about to, are doomed, and who has committed
suicide has outlived its children; and there are no more than so many actions. A process follows a
pointer to a deleted object if and only if a handler forestalls a `waitpid`. If none does, then when
nobody can go on just the doomed have ended, and just those with an unbroken line of `kill_child`
have done it themselves. -/
theorem cascade (L : Lineage) (schedule : List Turn) :
    let w := L.after L.start schedule
    (∀ c, w c ≠ .running → L.Doomed c) ∧
    (∀ p, w p = .ended true → ∀ c ∈ L.kids p, (w c).Ended) ∧
    L.actions L.start schedule ≤ work L L.start ∧
    ((∃ p, w p = .dangling) ↔ ¬ L.Spared L.start schedule) ∧
    (L.Spared L.start schedule → Still L w →
      ∀ c, ((w c).Ended ↔ L.Doomed c) ∧ (w c = .ended true ↔ L.Suicidal c)) := by
  intro w
  have hfine : ∀ q, L.Fine w q := fine_after (fine_start L) schedule
  have hdangling : (∃ p, w p = .dangling) ↔ ¬ L.Spared L.start schedule := by
    have hstart : ¬ ∃ q, L.start q = .dangling := by
      rintro ⟨q, hq⟩
      unfold start Function.update at hq
      split_ifs at hq with hzero
      subst hzero
      cases hq
    rw [after_dangling_iff (fine_start L) schedule, or_iff_right hstart]
  refine ⟨fun c => (hfine c).doomed, fun p hp => ?_, actions_le (fine_start L) schedule, hdangling,
    fun hspared hstill c => ?_⟩
  · have hpfine := hfine p
    unfold Fine at hpfine
    rw [hp] at hpfine
    exact hpfine.2
  · have hnone : ∀ q, w q ≠ .dangling := fun q hq => hdangling.mp ⟨q, hq⟩ hspared
    refine ⟨hstill.ended_iff hfine hnone c, fun hc => ?_, hstill.suicidal hfine hnone⟩
    have hcfine := hfine c
    unfold Fine at hcfine
    rw [hc] at hcfine
    exact hcfine.1

/-- Two children, of which only the first has the flag, and a child of the second. -/
def orphans : Lineage where
  size := 4
  parent c := if c = 3 then 2 else 0
  killChild c := decide (c ≠ 2)
  pos := Nat.succ_pos 3
  older c hc := by split <;> omega

/-- The child of the second is left alone. -/
example : (List.range 4).map (orphans.after orphans.start ([0, 0, 0, 1, 0, 0].map .process))
    = [.ended true, .ended true, .ended false, .running] := by decide

/-- The handler reaps the second child while `commit_suicide` is at it. -/
example : orphans.after orphans.start [.process 0, .sigchld 0] 0 = .dangling := by decide

/-! ## One process of the family

What a process strikes in the lineage is what `commit_suicide` signals, in the same order, and the
child that its handler forestalls is one whose object is gone when `commit_suicide` comes back to
it. -/

/-- The list of the process is that of `p` in the lineage. -/
structure Describes (L : Lineage) (p : Nat) (ms : List Child) (proc : Proc) : Prop where
  pids : ms.map (·.pid) = (L.kids p).map fun c : Nat => (c : Int)
  flags : ∀ m ∈ ms, ∀ c : Nat, m.pid = c → proc.flagged m = L.killChild c

/-- The signal for a child. -/
def signal (L : Lineage) (c : Nat) : Effect := if L.killChild c then .sigterm c else .sigkill c

theorem farewell_signals {proc : Proc} {ms : List Child} {l : List Nat} {L : Lineage}
    (hpid : ∀ m ∈ ms, ∃ n, cell? proc.nodes m.owner = some n ∧ n.pid = m.pid)
    (hpids : ms.map (·.pid) = l.map fun c : Nat => (c : Int))
    (hflags : ∀ m ∈ ms, ∀ c : Nat, m.pid = c → proc.flagged m = L.killChild c) :
    ((ms.map (·.owner)).flatMap proc.farewell).filter (·.signal?.isSome) = l.map L.signal := by
  induction ms generalizing l with
  | nil =>
    rw [List.map_nil, eq_comm, List.map_eq_nil_iff] at hpids
    subst hpids
    rfl
  | cons m ms ih =>
    cases l with
    | nil => cases hpids
    | cons c l =>
      rw [List.map_cons, List.map_cons, List.cons.injEq] at hpids
      obtain ⟨n, hn, hnpid⟩ := hpid m List.mem_cons_self
      have hflag := hflags m List.mem_cons_self c hpids.1
      have hone : (proc.farewell m.owner).filter (·.signal?.isSome) = [L.signal c] := by
        rw [Proc.flagged, hn, Option.any_some] at hflag
        unfold Proc.farewell ForkProcess.parting signal
        simp only [hn, hnpid, hpids.1, hflag]
        cases L.killChild c <;> cases n.reason <;> rfl
      rw [List.map_cons, List.flatMap_cons, List.filter_append, hone,
        ih (fun d hd => hpid d (List.mem_cons_of_mem _ hd)) hpids.2
          (fun d hd => hflags d (List.mem_cons_of_mem _ hd))]
      rfl

/-- `commit_suicide` sends the signals of the lineage, in the order in which the process strikes its
children there, and has waited for all of them when it comes to `exit`. -/
theorem commitSuicide_strikes {L : Lineage} {p : Nat} {ms : List Child} {proc : Proc}
    (h : Keeps ms proc) (hdesc : L.Describes p ms proc) :
    ∃ proc' es, commitSuicide proc = .ok () proc' ∧ proc'.effects = proc.effects ++ es ∧
      es.filter (·.signal?.isSome) = (L.kids p).map L.signal ∧ proc'.children = [] := by
  have hfuel : (ms.map (·.owner)).length ≤ proc.nodes.length + 1 :=
    Nat.le_succ_of_le h.house.family.chain.length_le
  obtain ⟨proc', hloop, hhouse, heffects⟩ := suicideLoop_spec h.house hfuel
  exact ⟨proc', _, hloop, heffects, farewell_signals h.represents.pid hdesc.pids hdesc.flags,
    hhouse.no_children.1⟩

/-- The handler reaps a child, and the next access to the object of the child fails. -/
theorem reaperNohang_forestalls {ms : List Child} {proc : Proc} {c : Child} {pick : Nat}
    (h : Keeps ms proc) (hpick : proc.zombies[pick % proc.zombies.length]? = some c) :
    ∃ proc', reaperNohang pick proc = .ok () proc' ∧
      deref (some c.owner) proc' = .error (.dangling c.owner) proc' := by
  obtain ⟨proc', _, _, -, hrun, hremoved⟩ := h.house.family.reaperNohang hpick nofun
  refine ⟨proc', hrun, ?_⟩
  unfold deref
  simp only [hremoved.gone]

end Lineage

end Fork
