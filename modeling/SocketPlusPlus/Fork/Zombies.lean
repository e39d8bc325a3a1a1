import SocketPlusPlus.Fork.Family

/-!
# Zombies

One process, its children, and the signal `SIGCHLD`, step by step. The kernel keeps one bit for a
pending `SIGCHLD`, so that exits coalesce while it is set; it is not delivered while the handler
runs. The handler calls `waitpid` once. The constructor of `ForkProcess` can be interrupted between
`fork()`, `next = list` and `list = this`.

One call of `waitpid` for each delivery reaps every child as long as every exit gets a delivery of
its own; and the object of a child can be taken out of the list once it is in there. Under these two
conditions no zombie is left whenever the process is at rest.
-/

namespace Fork

open Exec Linked

inductive Handler where
  | idle
  | entered
  | reaped
deriving DecidableEq, Repr

/-- Where the constructor of the object `a` is: behind `fork()`, or behind `next = list`. -/
inductive Building where
  | no
  | forked (a : Nat)
  | linked (a : Nat)
deriving DecidableEq, Repr

structure State where
  proc : Proc
  installed : Bool
  pending : Bool
  handler : Handler
  building : Building
deriving DecidableEq, Repr

abbrev StateM := EStateM Fault State

def State.init : State := ⟨.init, false, false, .idle, .no⟩

def onProc {α : Type} (c : M α) : StateM α := zoom State.proc (fun s p => { s with proc := p }) c

/-- `if (list == 0) sigaction(SIGCHLD, &sa, 0); pid = fork();` and the allocation before it. Without
`answer` the call of `fork()` fails. -/
def State.fork (s : State) (kill giveReason : Bool) (answer : Option Int) : State :=
  let installed := s.installed || s.proc.list.isNone
  match answer with
  | none => { s with proc := s.proc.alloc kill giveReason (-1), installed := installed }
  | some pid =>
    if s.proc.Free pid then
      { s with
        proc := s.proc.allocParent kill giveReason pid
        installed := installed
        building := .forked s.proc.nodes.length }
    else s

/-- What can happen next. An event at the wrong time is none. -/
inductive Event where
  | fork (kill giveReason : Bool) (answer : Option Int)
  | linkNext
  | linkList
  | exit (pick : Nat)
  | deliver
  | reap (pick : Nat)
  | ret
deriving DecidableEq, Repr

def Event.run : Event → StateM Unit
  | .fork kill giveReason answer => modify fun s =>
    if s.building = .no ∧ s.handler = .idle then s.fork kill giveReason answer else s
  | .linkNext => do
    let s ← get
    match s.building, s.handler with
    | .forked a, .idle =>
      onProc (Fork.linkNext a)
      modify fun s => { s with building := .linked a }
    | _, _ => pure ()
  | .linkList => do
    let s ← get
    match s.building, s.handler with
    | .linked a, .idle =>
      onProc (Fork.linkList a)
      modify fun s => { s with building := .no }
    | _, _ => pure ()
  | .exit pick => do
    let s ← get
    if s.proc.running = [] then pure ()
    else
      onProc (exitChild pick)
      modify fun s => { s with pending := s.pending || s.installed }
  | .deliver => modify fun s =>
    if s.pending ∧ s.handler = .idle then { s with pending := false, handler := .entered } else s
  | .reap pick => do
    let s ← get
    if s.handler = .entered then
      onProc (reaperNohang pick)
      modify fun s => { s with handler := .reaped }
    else pure ()
  | .ret => modify fun s => if s.handler = .reaped then { s with handler := .idle } else s

/-! ## What is expected

At rest means that no handler runs and no signal is pending. A zombie is a child that has exited and
was not waited for. -/

/-- No `SIGCHLD` is pending and the handler is not running. -/
def State.Quiet (s : State) : Prop := s.pending = false ∧ s.handler = .idle

/-- Every child that has exited has been waited for, and what is in the list belongs to children
that run. -/
def State.NoZombies (s : State) : Prop :=
  s.proc.zombies = [] ∧
    ∀ a, Reach ForkProcess.next s.proc.nodes s.proc.list a → ∃ c ∈ s.proc.running, c.owner = a

/-- The object that is being built and not in the list yet. -/
def Building.extra : Building → Option Nat
  | .no => none
  | .forked a => some a
  | .linked a => some a

/-- No child exits while a `SIGCHLD` is pending, and the handler reaps neither the child whose
object is being built nor, once the object is linked to it, the child at the head of the list. -/
def Orderly : Event → State → Prop
  | .exit _, s => s.proc.running = [] ∨ s.pending = false
  | .reap pick, s => s.handler = .entered →
      ∀ c, s.proc.zombies[pick % s.proc.zombies.length]? = some c →
        s.building.extra ≠ some c.owner ∧
          ∀ a, s.building = .linked a → ∀ n, cell? s.proc.nodes a = some n → n.next ≠ some c.owner
  | _, _ => True

/-- Between two constructions the handler may reap any child. -/
theorem orderly_reap {s : State} (pick : Nat) (hno : s.building = .no) :
    Orderly (.reap pick) s := by
  intro _ c _
  rw [hno]
  refine ⟨fun h => ?_, fun a h => ?_⟩
  · cases h
  · cases h

/-! ## The invariant

A child that has exited has its signal pending, or the handler for it about to call `waitpid`. -/

/-- The children and the list are a family, and there are no more zombies than runs of the handler
still to come. -/
structure State.Inv (s : State) (l : List Nat) : Prop where
  family : Family s.proc l s.building.extra
  linked : ∀ a, s.building = .linked a → ∃ n, cell? s.proc.nodes a = some n ∧ n.next = s.proc.list
  handled : s.proc.zombies.length ≤ s.pending.toNat + if s.handler = .entered then 1 else 0
  installed : s.proc.children ≠ [] → s.installed = true

section Invariant

variable {s : State} {l : List Nat} {extra : Option Nat}

theorem inv_init : State.Inv .init [] where
  family := family_init
  linked a h := by cases h
  handled := Nat.le_refl _
  installed h := absurd rfl h

theorem State.Inv.family_building (h : s.Inv l) {b : Building} (hb : s.building = b) :
    Family s.proc l b.extra := by
  rw [← hb]
  exact h.family

/-- At rest, nothing is left to be done. -/
theorem State.Inv.noZombies (h : s.Inv l) (hquiet : s.Quiet) : s.NoZombies := by
  have hnone : s.proc.zombies = [] := by
    have hle := h.handled
    rw [hquiet.1, hquiet.2, if_neg (by decide)] at hle
    exact List.eq_nil_of_length_eq_zero (Nat.le_zero.mp hle)
  refine ⟨hnone, ?_⟩
  intro a hreach
  obtain ⟨c, hc, hca⟩ := (h.family.listed a).mpr (.inl (h.family.chain.reach_iff.mp hreach))
  unfold Proc.children at hc
  rw [hnone, List.append_nil] at hc
  exact ⟨c, hc, hca⟩

/-- When the list is not empty, the handler has been installed. -/
theorem State.Inv.installed_of_list (h : s.Inv l) :
    (s.installed || s.proc.list.isNone) = true := by
  rw [Bool.or_eq_true]
  cases hlist : s.proc.list with
  | none => exact .inr rfl
  | some a =>
    refine .inl (h.installed ?_)
    have hhead := h.family.chain.head
    rw [hlist] at hhead
    obtain ⟨c, hc, -⟩ := (h.family.listed a).mpr (.inl (List.mem_of_head? hhead.symm))
    exact List.ne_nil_of_mem hc

theorem inv_fork (h : s.Inv l) (hno : s.building = .no) (kill giveReason : Bool)
    (answer : Option Int) : (s.fork kill giveReason answer).Inv l := by
  have hfamily : Family s.proc l none := h.family_building hno
  unfold State.fork
  cases answer with
  | none =>
    refine ⟨?_, ?_, h.handled, fun _ => h.installed_of_list⟩
    · show Family _ l s.building.extra
      rw [hno]
      exact hfamily.alloc _ _ _
    · intro a ha
      cases hno.symm.trans ha
  | some pid =>
    by_cases hfree : s.proc.Free pid
    · simp only [if_pos hfree]
      refine ⟨hfamily.allocParent hfree _ _, ?_, h.handled, fun _ => h.installed_of_list⟩
      intro a ha
      cases ha
    · simp only [if_neg hfree]
      exact h

theorem inv_linkNext (h : s.Inv l) :
    wp Event.linkNext.run (fun _ s' => s'.Inv l) (fun _ _ => False) s := by
  show wp (match s.building, s.handler with
    | .forked a, .idle => onProc (Fork.linkNext a) >>= fun _ =>
      modify fun s => { s with building := .linked a }
    | _, _ => pure () : StateM Unit) _ _ s
  split
  · next a hb hidle =>
    have hfamily : Family s.proc l (some a) := h.family_building hb
    obtain ⟨p, hrun, hfamily', hrunning, hzombies, hnext, -⟩ := hfamily.linkNext
    unfold onProc
    rw [wp_bind, wp_zoom, wp_iff_of_ok hrun, wp_modify]
    refine ⟨hfamily', ?_, ?_, ?_⟩
    · intro b hb'
      cases hb'
      exact hnext
    · show p.zombies.length ≤ _
      rw [hzombies]
      exact h.handled
    · unfold Proc.children
      rw [hrunning, hzombies]
      exact h.installed
  · exact h

theorem inv_linkList (h : s.Inv l) :
    wp Event.linkList.run (fun _ s' => ∃ l', s'.Inv l') (fun _ _ => False) s := by
  show wp (match s.building, s.handler with
    | .linked a, .idle => onProc (Fork.linkList a) >>= fun _ =>
      modify fun s => { s with building := .no }
    | _, _ => pure () : StateM Unit) _ _ s
  split
  · next a hb hidle =>
    have hfamily : Family s.proc l (some a) := h.family_building hb
    refine ⟨a :: l, hfamily.linkList (h.linked a hb), ?_, h.handled, h.installed⟩
    intro b hb'
    cases hb'
  · exact ⟨l, h⟩

/-- An exit that finds no `SIGCHLD` pending gets a delivery of its own. -/
theorem inv_exit (h : s.Inv l) {pick : Nat} (horderly : Orderly (.exit pick) s) :
    wp (Event.exit pick).run (fun _ s' => s'.Inv l) (fun _ _ => False) s := by
  show wp (if s.proc.running = [] then pure () else onProc (exitChild pick) >>= fun _ =>
    modify fun s => { s with pending := s.pending || s.installed } : StateM Unit) _ _ s
  by_cases hnone : s.proc.running = []
  · rw [if_pos hnone]
    exact h
  · rw [if_neg hnone]
    have hpending : s.pending = false := horderly.resolve_left hnone
    have hinstalled : s.installed = true :=
      h.installed fun hnil => hnone (List.append_eq_nil_iff.mp hnil).1
    unfold onProc
    rw [wp_bind, wp_zoom]
    refine (exitChild_spec s.proc pick).mono ?_ (fun _ _ h => h)
    intro _ p ⟨hnodes, hlist, hperm, hlength⟩
    refine ⟨h.family.of_perm hnodes hlist hperm, ?_, ?_, fun _ => hinstalled⟩
    · show ∀ a, s.building = .linked a → ∃ n, cell? p.nodes a = some n ∧ n.next = p.list
      rw [hnodes, hlist]
      exact h.linked
    · have hle := h.handled
      show p.zombies.length ≤ (s.pending || s.installed).toNat +
        if s.handler = .entered then 1 else 0
      -- one zombie more, and one run of the handler more for it
      rw [hpending] at hle
      rw [hinstalled, Bool.or_true, Bool.toNat_true]
      rw [Bool.toNat_false] at hle
      omega

theorem inv_deliver (h : s.Inv l) :
    wp Event.deliver.run (fun _ s' => s'.Inv l) (fun _ _ => False) s := by
  show State.Inv (if s.pending ∧ s.handler = .idle then _ else s) l
  split
  · next hdeliver =>
    refine ⟨h.family, h.linked, ?_, h.installed⟩
    -- the pending signal becomes the run of the handler
    have hle := h.handled
    rw [hdeliver.1, hdeliver.2, if_neg (by decide)] at hle
    exact hle
  · exact h

/-- A list whose head is not taken out keeps its head. -/
theorem list_of_removed {p p' : Proc} {l1 l2 : List Nat} {a : Nat} {t : Proc}
    (hfamily : Family p (l1 ++ a :: l2) extra) (hremoved : Removed a l1 l2 t p')
    (hhead : p.list ≠ some a) : p'.list = p.list := by
  have hbefore := hfamily.chain.head
  have hafter := hremoved.chain.head
  cases l1 with
  | nil => exact absurd hbefore hhead
  | cons b l1 =>
    rw [hafter, hbefore]
    rfl

/-- A run of the handler reaps one of the zombies, if there is any. -/
theorem inv_reap (h : s.Inv l) {pick : Nat} (horderly : Orderly (.reap pick) s) :
    wp (Event.reap pick).run (fun _ s' => ∃ l', s'.Inv l') (fun _ _ => False) s := by
  show wp (if s.handler = .entered then onProc (reaperNohang pick) >>= fun _ =>
    modify fun s => { s with handler := .reaped } else pure () : StateM Unit) _ _ s
  by_cases hentered : s.handler = .entered
  · have hle := h.handled
    rw [if_pos hentered] at hle
    rw [if_pos hentered]
    unfold onProc
    rw [wp_bind, wp_zoom]
    cases hpick : s.proc.zombies[pick % s.proc.zombies.length]? with
    | none =>
      -- without a zombie `waitpid` returns 0
      have hnone : s.proc.zombies = [] := by
        rw [List.getElem?_eq_none_iff] at hpick
        refine List.eq_nil_of_length_eq_zero (Nat.eq_zero_of_not_pos fun hpos => ?_)
        exact absurd (Nat.mod_lt pick hpos) (by omega)
      rw [wp_iff_of_ok (reaperNohang_idle hpick), wp_modify]
      refine ⟨l, h.family, h.linked, ?_, h.installed⟩
      rw [hnone]
      exact Nat.zero_le _
    | some c =>
      obtain ⟨hextra, hlinked⟩ := horderly hentered c hpick
      have hmem := List.mem_of_getElem? hpick
      obtain ⟨p, l1, l2, rfl, hrun, hremoved⟩ := h.family.reaperNohang hpick hextra
      rw [wp_iff_of_ok hrun, wp_modify]
      refine ⟨l1 ++ l2, h.family.of_removed hmem rfl hextra hremoved, ?_, ?_, ?_⟩
      · -- an object being built is linked to the head, which stays where it is
        intro a ha
        obtain ⟨n, hn, hnext⟩ := h.linked a ha
        have hapart := h.family.apart a (by rw [ha]; rfl)
        have hne : a ≠ c.owner := by
          rintro rfl
          exact hapart (by simp)
        have hout : a ∉ l1 := fun hin => hapart (by simp [hin])
        refine ⟨n, (hremoved.outside a hne hout).trans hn, ?_⟩
        have hhead : s.proc.list ≠ some c.owner := by
          rw [← hnext]
          exact hlinked a ha n hn
        rw [list_of_removed h.family hremoved hhead]
        exact hnext
      · show p.zombies.length ≤ s.pending.toNat + if Handler.reaped = .entered then 1 else 0
        rw [hremoved.zombies, if_neg (by decide), List.length_erase_of_mem hmem]
        omega
      · intro hsome
        refine h.installed fun hnil => ?_
        unfold Proc.children at hnil
        rw [(List.append_eq_nil_iff.mp hnil).2] at hmem
        cases hmem
  · rw [if_neg hentered]
    exact ⟨l, h⟩

theorem inv_ret (h : s.Inv l) :
    wp Event.ret.run (fun _ s' => s'.Inv l) (fun _ _ => False) s := by
  show State.Inv (if s.handler = .reaped then _ else s) l
  split
  · next hreaped =>
    refine ⟨h.family, h.linked, ?_, h.installed⟩
    have hle := h.handled
    rw [hreaped] at hle
    exact hle
  · exact h

/-- One step. -/
theorem inv_step (h : s.Inv l) {e : Event} (horderly : Orderly e s) :
    wp e.run (fun _ s' => ∃ l', s'.Inv l') (fun _ _ => False) s := by
  cases e with
  | fork kill giveReason answer =>
    show ∃ l', State.Inv (if s.building = .no ∧ s.handler = .idle then _ else s) l'
    split
    · next hfork => exact ⟨l, inv_fork h hfork.1 kill giveReason answer⟩
    · exact ⟨l, h⟩
  | linkNext => exact (inv_linkNext h).mono (fun _ _ h' => ⟨l, h'⟩) (fun _ _ h' => h')
  | linkList => exact inv_linkList h
  | exit pick => exact (inv_exit h horderly).mono (fun _ _ h' => ⟨l, h'⟩) (fun _ _ h' => h')
  | deliver => exact (inv_deliver h).mono (fun _ _ h' => ⟨l, h'⟩) (fun _ _ h' => h')
  | reap pick => exact inv_reap h horderly
  | ret => exact (inv_ret h).mono (fun _ _ h' => ⟨l, h'⟩) (fun _ _ h' => h')

end Invariant

/-- **When Fork leaves no zombies.** In every run of a process whose children do not exit while a
`SIGCHLD` is pending, and whose handler does not reap a child that the constructor is linking, no
step follows a dangling pointer, and in every state with no `SIGCHLD` pending and the handler not
running all children that exited have been waited for and are out of the list. -/
theorem orderly_noZombies (events : List Event)
    (horderly : StepsMeet Event.run Orderly events .init) :
    StepsMeet Event.run
      (fun e s => wp e.run (fun _ s' => s'.Quiet → s'.NoZombies) (fun _ _ => False) s) events
      .init := by
  refine horderly.of_invariant (I := fun s => ∃ l, State.Inv s l) ?_ ?_ ⟨[], inv_init⟩
  · intro e s ⟨l, h⟩ he
    refine (inv_step h he).mono ?_ (fun _ _ hf => hf)
    intro _ s' ⟨l', h'⟩ hquiet
    exact h'.noZombies hquiet
  · intro e s ⟨l, h⟩ he
    exact (inv_step h he).mono (fun _ _ h' => h') (fun _ _ hf => hf.elim)

/-- Two children, made one after the other. -/
def twoChildren : List Event :=
  [.fork false false (some 10), .linkNext, .linkList, .fork false true (some 11), .linkNext,
    .linkList]

/-- Two children that exit one after the other, each with a run of the handler of its own. -/
theorem orderly_noZombies_two :
    StepsMeet Event.run
      (fun e s => wp e.run (fun _ s' => s'.Quiet → s'.NoZombies) (fun _ _ => False) s)
      (twoChildren ++ [.exit 0, .deliver, .reap 0, .ret, .exit 0, .deliver, .reap 0, .ret])
      .init := by
  refine orderly_noZombies _ ⟨trivial, trivial, trivial, trivial, trivial, trivial, .inr ?_,
    trivial, orderly_reap 0 ?_, trivial, .inr ?_, trivial, orderly_reap 0 ?_, trivial, trivial⟩
  · decide +kernel
  · decide +kernel
  · decide +kernel
  · decide +kernel

/-- Both exit before `SIGCHLD` is delivered: the handler runs once, and then the process is at rest
with a zombie. -/
theorem coalesced_exits_leave_zombie :
    let s := (runAll ((twoChildren ++ [Event.exit 0, .exit 0, .deliver, .reap 0, .ret]).map
      Event.run) .init).2
    s.Quiet ∧ s.proc.zombies = [⟨11, 1⟩] ∧ ¬ s.NoZombies := by
  intro s
  have hzombie : s.proc.zombies = [⟨11, 1⟩] := by decide +kernel
  refine ⟨⟨by decide +kernel, by decide +kernel⟩, hzombie, ?_⟩
  intro h
  rw [h.1] at hzombie
  cases hzombie

end Fork
