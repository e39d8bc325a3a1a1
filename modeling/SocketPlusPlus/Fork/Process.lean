import SocketPlusPlus.Logic.Chain
import SocketPlusPlus.Logic.Exec

/-!
# `Fork::ForkProcess`

What one process keeps of the children it has made with `Fork`: the `ForkProcess` objects, linked
into the static `list`, and next to it the kernel's table of its children. The code follows
`fork.cpp`. A pointer is a number or null; following a pointer to a deleted object, which the
language leaves undefined, is a fault of the model.

A child is known to the kernel until it has been waited for: it is running, or a zombie. Which
`ForkProcess` was made for it is not the kernel's business, and is recorded for the statements only.
-/

namespace Fork

open Exec Linked

structure ForkProcess where
  pid : Int
  killChild : Bool
  reason : Bool
  next : Option Nat
deriving DecidableEq, Repr

structure Child where
  pid : Int
  owner : Nat
deriving DecidableEq, Repr

/-- What is sent to a child, and what is printed about one. -/
inductive Effect where
  | sigterm (pid : Int)
  | sigkill (pid : Int)
  | infanticideReason (pid : Int)
deriving DecidableEq, Repr

structure Proc where
  nodes : List (Option ForkProcess)
  list : Option Nat
  running : List Child
  zombies : List Child
  effects : List Effect
deriving DecidableEq, Repr

inductive Fault where
  | null
  | dangling (a : Nat)
  | outOfFuel
deriving DecidableEq, Repr

abbrev M := EStateM Fault Proc

/-- A process that has made no child. -/
def Proc.init : Proc := ⟨[], none, [], [], []⟩

def Proc.children (p : Proc) : List Child := p.running ++ p.zombies

/-! ## Memory

An access to an object that was deleted is a fault. -/

/-- The object at `a`. -/
def deref : Option Nat → M ForkProcess
  | none => throw .null
  | some a => fun p =>
    match cell? p.nodes a with
    | some n => .ok n p
    | none => .error (.dangling a) p

def store (a : Nat) (n : ForkProcess) : M Unit :=
  modify fun p => { p with nodes := p.nodes.set a (some n) }

def free (a : Nat) : M Unit := modify fun p => { p with nodes := p.nodes.set a none }

def setList (l : Option Nat) : M Unit := modify fun p => { p with list := l }

def note (e : Effect) : M Unit := modify fun p => { p with effects := p.effects ++ [e] }

def noteIf (b : Bool) (e : Effect) : M Unit := if b then note e else pure ()

/-! ## The kernel

A child is running, or has exited and waits to be waited for. Which of several the kernel picks is a
parameter. -/

/-- One of the running children exits. -/
def exitChild (pick : Nat) : M Unit := modify fun p =>
  match p.running[pick % p.running.length]? with
  | none => p
  | some c => { p with running := p.running.erase c, zombies := p.zombies ++ [c] }

/-- `waitpid(-1, &status, WNOHANG)`: one of the children that have exited, or 0. -/
def waitAny (pick : Nat) : M Int := fun p =>
  match p.zombies[pick % p.zombies.length]? with
  | none => .ok 0 p
  | some c => .ok c.pid { p with zombies := p.zombies.erase c }

/-- `waitpid(pid, &status, 0)`: waits until the child has exited. -/
def waitPid (pid : Int) : M Int := fun p =>
  if p.children.any (·.pid = pid) then
    .ok pid { p with
      running := p.running.filter (·.pid ≠ pid), zombies := p.zombies.filter (·.pid ≠ pid) }
  else .ok (-1) p

/-! ## `ForkProcess` -/

/-- `reap_child()` -/
def reapChild (n : ForkProcess) : M Unit := do
  if 0 < n.pid then
    let wpid ← waitPid n.pid
    noteIf (wpid = n.pid ∧ n.reason) (.infanticideReason n.pid)

/-- `for (ForkProcess* p = list; p; p = p->next) if (p->next == this) { p->next = next; break; }` -/
def unlinkLoop (this : Nat) (next : Option Nat) : Nat → Option Nat → M Unit
  | _, none => pure ()
  | 0, some _ => throw .outOfFuel
  | fuel + 1, some p => do
    let n ← deref (some p)
    if n.next = some this then store p { n with next := next }
    else unlinkLoop this next fuel n.next

/-- `~ForkProcess()` of an object with a positive `pid`. -/
def withdraw (a : Nat) (n : ForkProcess) : M Unit := do
  noteIf n.killChild (.sigterm n.pid)
  reapChild n
  let p ← get
  if p.list = some a then setList n.next
  else unlinkLoop a n.next (p.nodes.length + 1) p.list

/-- `delete` of the object at `a`, with `~ForkProcess()`. -/
def delete (a : Nat) : M Unit := do
  let n ← deref (some a)
  let _ ← (if 0 < n.pid then withdraw a n else pure ())
  free a

/-- `kill_process()` -/
def killProcess (a : Nat) : M Unit := do
  let n ← deref (some a)
  if 0 < n.pid then
    note (.sigkill n.pid)
    reapChild n

/-- One round of the loop of `commit_suicide`; what it returns is `next`. -/
def suicideRound (p : Nat) : M (Option Nat) := do
  let n ← deref (some p)
  noteIf (!n.killChild) (.sigkill n.pid)
  delete p
  pure n.next

def suicideLoop : Nat → Option Nat → M Unit
  | _, none => pure ()
  | 0, some _ => throw .outOfFuel
  | fuel + 1, some p => do
    let next ← suicideRound p
    suicideLoop fuel next

/-- `commit_suicide()`, up to its call of `exit()`. -/
def commitSuicide : M Unit := do
  let p ← get
  suicideLoop (p.nodes.length + 1) p.list

/-- `prev->next = cur->next`, or `list = list->next` without `prev`. -/
def skip : Option Nat → Option Nat → M Unit
  | some b, next => do
    let nb ← deref (some b)
    store b { nb with next := next }
  | none, _ => do
    let p ← get
    let head ← deref p.list
    setList head.next

/-- What `reaper_nohang` does with the object of the child it has waited for. -/
def takeOut (wpid : Int) (prev : Option Nat) (cur : Nat) (n : ForkProcess) : M Unit := do
  store cur { n with pid := -1 }
  skip prev n.next
  noteIf n.reason (.infanticideReason wpid)
  delete cur

/-- The loop of `reaper_nohang` over `prev` and `cur`. -/
def reapLoop (wpid : Int) : Nat → Option Nat → Option Nat → M Unit
  | _, _, none => pure ()
  | 0, _, some _ => throw .outOfFuel
  | fuel + 1, prev, some cur => do
    let n ← deref (some cur)
    if n.pid = wpid then takeOut wpid prev cur n
    else reapLoop wpid fuel (some cur) n.next

/-- `reaper_nohang(SIGCHLD)`; `pick` says which zombie `waitpid` reports. -/
def reaperNohang (pick : Nat) : M Unit := do
  let wpid ← waitAny pick
  if 0 < wpid then
    let p ← get
    reapLoop wpid (p.nodes.length + 1) none p.list

/-- The loop in the child that clears the list. -/
def clearLoop : Nat → Option Nat → M Unit
  | _, none => pure ()
  | 0, some _ => throw .outOfFuel
  | fuel + 1, some p => do
    let n ← deref (some p)
    store p { n with pid := 0 }
    delete p
    clearLoop fuel n.next

/-- `new ForkProcess`, with what `fork()` has returned. -/
def Proc.alloc (p : Proc) (kill giveReason : Bool) (pid : Int) : Proc :=
  { p with nodes := p.nodes ++ [some ⟨pid, kill, giveReason, none⟩] }

/-- The same in the parent of a child that `fork()` has made. -/
def Proc.allocParent (p : Proc) (kill giveReason : Bool) (pid : Int) : Proc :=
  { p.alloc kill giveReason pid with running := p.running ++ [⟨pid, p.nodes.length⟩] }

/-- `next = list` -/
def linkNext (this : Nat) : M Unit := do
  let n ← deref (some this)
  store this { n with next := (← get).list }

/-- `list = this` -/
def linkList (this : Nat) : M Unit := setList (some this)

/-- `fork()` may return `pid` to the parent: a number that none of its children has. -/
def Proc.Free (p : Proc) (pid : Int) : Prop := 0 < pid ∧ ∀ c ∈ p.children, c.pid ≠ pid

instance (p : Proc) (pid : Int) : Decidable (p.Free pid) :=
  inferInstanceAs (Decidable (_ ∧ _))

/-! ## What the operations do

The links of the other objects stay as they are, but for the one that pointed to what is deleted. -/

/-- The pid that a signal goes to. -/
def Effect.signal? : Effect → Option Int
  | .sigterm pid => some pid
  | .sigkill pid => some pid
  | .infanticideReason _ => none

/-- The pids that signals have been sent to, in this order. -/
def Proc.signalled (p : Proc) : List Int := p.effects.filterMap Effect.signal?

/-- What `~ForkProcess()` does about the child of `n`. -/
def ForkProcess.parting (n : ForkProcess) : List Effect :=
  (if n.killChild then [.sigterm n.pid] else []) ++
    if n.reason then [.infanticideReason n.pid] else []

/-- The process after it has waited for the child `pid`. -/
def Proc.waited (p : Proc) (pid : Int) : Proc :=
  { p with running := p.running.filter (·.pid ≠ pid), zombies := p.zombies.filter (·.pid ≠ pid) }

section Specs

variable {s s' : Proc} {a b : Nat} {n nb : ForkProcess} {w : Int} {pre mid post : List Nat}

theorem deref_some (h : cell? s.nodes a = some n) : deref (some a) s = .ok n s := by
  simp only [deref, h]

/-- Deleting an object whose `pid` is not positive only gives its storage back. -/
theorem delete_idle (h : cell? s.nodes a = some n) (hpid : n.pid ≤ 0) :
    delete a s = .ok () { s with nodes := s.nodes.set a none } := by
  unfold delete
  rw [bind_ok (deref_some h), if_neg (by omega)]
  rfl

/-- The object `a` has been taken out of the list, between `l1` and `l2`, and deleted. Of the other
objects only the one in front of it has changed, and only in its link. -/
structure Removed (a : Nat) (l1 l2 : List Nat) (s s' : Proc) : Prop where
  chain : Chain ForkProcess.next s'.nodes s'.list (l1 ++ l2)
  gone : cell? s'.nodes a = none
  others : ∀ b n, b ≠ a → cell? s.nodes b = some n →
    ∃ n', cell? s'.nodes b = some n' ∧ n'.pid = n.pid
  outside : ∀ b, b ≠ a → b ∉ l1 → cell? s'.nodes b = cell? s.nodes b
  running : s'.running = s.running
  zombies : s'.zombies = s.zombies

theorem noteIf_eq (r : Bool) (e : Effect) :
    noteIf r e s = .ok () { s with effects := s.effects ++ if r then [e] else [] } := by
  cases r with
  | false =>
    show EStateM.Result.ok () s = .ok () { s with effects := s.effects ++ [] }
    rw [List.append_nil]
  | true => rfl

/-- To print something about a child sends no signal. -/
theorem signalled_reason (r : Bool) (pid : Int) :
    ({ s with effects := s.effects ++ if r then [.infanticideReason pid] else [] } :
      Proc).signalled = s.signalled := by
  cases r <;> simp [Proc.signalled, Effect.signal?]

/-- The link to the object `a` behind `pre` has been moved on to what follows it. -/
structure Skipped (pre post : List Nat) (s s' : Proc) : Prop where
  chain : Chain ForkProcess.next s'.nodes s'.list (pre ++ post)
  pid : ∀ c m, cell? s.nodes c = some m → ∃ m', cell? s'.nodes c = some m' ∧ m'.pid = m.pid
  outside : ∀ c, c ∉ pre → cell? s'.nodes c = cell? s.nodes c
  running : s'.running = s.running
  zombies : s'.zombies = s.zombies

theorem skipped_head (hchain : Chain ForkProcess.next s.nodes s.list (a :: post))
    (ha : cell? s.nodes a = some n) : Skipped [] post s { s with list := n.next } := by
  obtain ⟨-, n', hn', hrest⟩ := hchain.of_cons
  cases ha.symm.trans hn'
  exact ⟨hrest, fun c m hm => ⟨m, hm, rfl⟩, fun _ _ => rfl, rfl, rfl⟩

theorem skipped_inner (hchain : Chain ForkProcess.next s.nodes s.list (pre ++ b :: a :: post))
    (ha : cell? s.nodes a = some n) (hb : cell? s.nodes b = some nb) :
    Skipped (pre ++ [b]) post s
      { s with nodes := s.nodes.set b (some { nb with next := n.next }) } := by
  refine ⟨?_, ?_, ?_, rfl, rfl⟩
  · rw [List.append_assoc]
    exact hchain.unlink ha rfl
  · intro c m hm
    by_cases hcb : b = c
    · subst hcb
      cases hb.symm.trans hm
      exact ⟨_, cell?_set_self _ (lt_of_cell? hb), rfl⟩
    · exact ⟨m, (cell?_set_ne _ hcb).trans hm, rfl⟩
  · intro c hc
    refine cell?_set_ne _ fun hcb => hc ?_
    rw [hcb]
    simp

theorem skip_spec (hchain : Chain ForkProcess.next s.nodes s.list (pre ++ a :: post))
    (ha : cell? s.nodes a = some n) :
    ∃ s', skip pre.getLast? n.next s = .ok () s' ∧ Skipped pre post s s' ∧
      s'.effects = s.effects := by
  rcases List.eq_nil_or_concat pre with rfl | ⟨pre, b, rfl⟩
  · -- without `prev` the object is the head of the list
    obtain ⟨hlist, -⟩ := hchain.of_cons
    refine ⟨_, ?_, skipped_head hchain ha, rfl⟩
    show (deref s.list >>= _ : M Unit) s = _
    rw [hlist, bind_ok (deref_some ha)]
    rfl
  · rw [List.concat_eq_append, List.append_assoc] at hchain
    obtain ⟨nb, hb⟩ := hchain.cell_of_mem (a := b) (by simp)
    have hlast : (pre.concat b).getLast? = some b := by simp
    rw [hlast, List.concat_eq_append]
    -- with `prev` its link is moved past the object
    refine ⟨_, ?_, skipped_inner hchain ha hb, rfl⟩
    show (deref (some b) >>= _ : M Unit) s = _
    rw [bind_ok (deref_some hb)]
    rfl

/-- The object found is taken out of the list and deleted. -/
theorem takeOut_spec (hchain : Chain ForkProcess.next s.nodes s.list (pre ++ a :: post))
    (ha : cell? s.nodes a = some n) :
    ∃ s', takeOut w pre.getLast? a n s = .ok () s' ∧ Removed a pre post s s' ∧
      s'.signalled = s.signalled := by
  have hlt := lt_of_cell? ha
  have hnodup := hchain.nodup
  have hnot : a ∉ pre ∧ a ∉ post := by
    rw [List.nodup_append, List.nodup_cons] at hnodup
    exact ⟨fun hpre => hnodup.2.2 a hpre a List.mem_cons_self rfl, hnodup.2.1.1⟩
  -- `cur->pid = -1` changes no link
  let n1 : ForkProcess := { n with pid := -1 }
  let s1 : Proc := { s with nodes := s.nodes.set a (some n1) }
  have ha1 : cell? s1.nodes a = some n1 := cell?_set_self _ hlt
  have hne1 : ∀ c, c ≠ a → cell? s1.nodes c = cell? s.nodes c := fun c hc =>
    cell?_set_ne _ (Ne.symm hc)
  have hchain1 : Chain ForkProcess.next s1.nodes s1.list (pre ++ a :: post) := by
    refine hchain.congr fun c _ m hm => ?_
    by_cases hca : c = a
    · subst hca
      cases ha.symm.trans hm
      exact ⟨n1, ha1, rfl⟩
    · exact ⟨m, (hne1 c hca).trans hm, rfl⟩
  obtain ⟨s2, hskip, h2, heffects⟩ := skip_spec hchain1 ha1
  have hnote := noteIf_eq (s := s2) n.reason (.infanticideReason w)
  let s3 : Proc :=
    { s2 with effects := s2.effects ++ if n.reason then [.infanticideReason w] else [] }
  have ha2 : cell? s2.nodes a = some n1 := (h2.outside a hnot.1).trans ha1
  have hminus : n1.pid ≤ 0 := show (-1 : Int) ≤ 0 by decide
  have hdelete := delete_idle (s := s3) ha2 hminus
  have hsilent : s3.signalled = s.signalled := by
    show s3.signalled = s1.signalled
    rw [signalled_reason]
    unfold Proc.signalled
    rw [heffects]
  refine ⟨{ s3 with nodes := s2.nodes.set a none }, ?_,
    ⟨?_, cell?_set_none_self, ?_, ?_, h2.running, h2.zombies⟩, hsilent⟩
  · show (skip pre.getLast? n1.next >>= fun _ => _ : M Unit) s1 = _
    rw [bind_ok hskip, bind_ok hnote, hdelete]
  · refine h2.chain.set_of_not_mem ?_ _
    simp [hnot]
  · intro b m hb hm
    obtain ⟨m', hm', hpid⟩ := h2.pid b m ((hne1 b hb).trans hm)
    exact ⟨m', (cell?_set_ne _ (Ne.symm hb)).trans hm', hpid⟩
  · intro b hb hpre
    exact (cell?_set_ne _ (Ne.symm hb)).trans ((h2.outside b hpre).trans (hne1 b hb))

/-- The walk of the handler, behind `pre`, over objects of other children. Induction on what it has
still to pass. -/
theorem reapLoop_spec {cur : Option Nat} {fuel : Nat}
    (hchain : Chain ForkProcess.next s.nodes s.list (pre ++ mid ++ a :: post))
    (hcur : Chain ForkProcess.next s.nodes cur (mid ++ a :: post))
    (hmid : ∀ b ∈ mid, ∀ n, cell? s.nodes b = some n → n.pid ≠ w)
    (ha : cell? s.nodes a = some n) (hpid : n.pid = w) (hfuel : mid.length < fuel) :
    ∃ s', reapLoop w fuel pre.getLast? cur s = .ok () s' ∧ Removed a (pre ++ mid) post s s' ∧
      s'.signalled = s.signalled := by
  induction mid generalizing pre cur fuel with
  | nil =>
    obtain ⟨rfl, -⟩ := hcur.of_cons
    obtain ⟨fuel, rfl⟩ := Nat.exists_eq_succ_of_ne_zero (Nat.ne_of_gt hfuel)
    rw [List.append_nil] at hchain ⊢
    obtain ⟨s', htake, hremoved, hsilent⟩ := takeOut_spec (w := w) hchain ha
    refine ⟨s', ?_, hremoved, hsilent⟩
    show (deref (some a) >>= _ : M Unit) s = _
    rw [bind_ok (deref_some ha), if_pos hpid, htake]
  | cons b mid ih =>
    obtain ⟨rfl, nb, hb, hrest⟩ := hcur.of_cons
    obtain ⟨fuel, rfl⟩ := Nat.exists_eq_succ_of_ne_zero (Nat.ne_of_gt (Nat.zero_lt_of_lt hfuel))
    have hother : nb.pid ≠ w := hmid b List.mem_cons_self nb hb
    have hsplit : pre ++ [b] ++ mid = pre ++ b :: mid := by simp
    have hchain' : Chain ForkProcess.next s.nodes s.list (pre ++ [b] ++ mid ++ a :: post) := by
      rw [hsplit]
      exact hchain
    have hih := ih hchain' hrest (fun c hc => hmid c (List.mem_cons_of_mem _ hc))
      (by simpa using hfuel)
    rw [hsplit, List.getLast?_concat] at hih
    obtain ⟨s', hloop, hremoved, hsilent⟩ := hih
    refine ⟨s', ?_, hremoved, hsilent⟩
    show (deref (some b) >>= _ : M Unit) s = _
    rw [bind_ok (deref_some hb), if_neg hother, hloop]

/-- The walk of the destructor stops in front of the object. Induction on what it has to pass. -/
theorem unlinkLoop_eq {cur : Option Nat} {fuel : Nat}
    (hcur : Chain ForkProcess.next s.nodes cur (mid ++ b :: a :: post))
    (hb : cell? s.nodes b = some nb) (hfuel : mid.length < fuel) :
    unlinkLoop a n.next fuel cur s
      = .ok () { s with nodes := s.nodes.set b (some { nb with next := n.next }) } := by
  induction mid generalizing cur fuel with
  | nil =>
    obtain ⟨rfl, nb', hb', hrest⟩ := hcur.of_cons
    cases hb.symm.trans hb'
    obtain ⟨fuel, rfl⟩ := Nat.exists_eq_succ_of_ne_zero (Nat.ne_of_gt hfuel)
    show (deref (some b) >>= _ : M Unit) s = _
    rw [bind_ok (deref_some hb), if_pos hrest.of_cons.1]
    rfl
  | cons c mid ih =>
    obtain ⟨rfl, nc, hc, hrest⟩ := hcur.of_cons
    obtain ⟨fuel, rfl⟩ := Nat.exists_eq_succ_of_ne_zero (Nat.ne_of_gt (Nat.zero_lt_of_lt hfuel))
    -- only the object `b` is linked to `a`
    have hother : nc.next ≠ some a := by
      intro hnext
      have hnodup := hrest.nodup
      have hhead := hrest.head
      rw [hnext] at hhead
      cases mid with
      | nil =>
        cases hhead
        exact (List.nodup_cons.mp hnodup).1 List.mem_cons_self
      | cons d mid =>
        cases hhead
        exact (List.nodup_cons.mp hnodup).1 (by simp)
    show (deref (some c) >>= _ : M Unit) s = _
    rw [bind_ok (deref_some hc), if_neg hother]
    exact ih hrest (Nat.le_of_succ_le_succ hfuel)

/-- The end of the destructor: the object leaves the list. -/
theorem unlink_spec (hchain : Chain ForkProcess.next s.nodes s.list (pre ++ a :: post))
    (ha : cell? s.nodes a = some n) :
    ∃ s', (get >>= fun p : Proc => if p.list = some a then setList n.next
        else unlinkLoop a n.next (p.nodes.length + 1) p.list : M Unit) s = .ok () s' ∧
      Skipped pre post s s' ∧ s'.effects = s.effects := by
  rcases List.eq_nil_or_concat pre with rfl | ⟨pre, b, rfl⟩
  · refine ⟨_, ?_, skipped_head hchain ha, rfl⟩
    show (if s.list = some a then setList n.next else _ : M Unit) s = _
    rw [if_pos hchain.of_cons.1]
    rfl
  · have hnodup := hchain.nodup
    rw [List.concat_eq_append, List.append_assoc] at hchain
    obtain ⟨nb, hb⟩ := hchain.cell_of_mem (a := b) (by simp)
    rw [List.concat_eq_append] at hnodup ⊢
    have hhead : s.list ≠ some a := by
      intro hlist
      have hfirst := hchain.head
      rw [hlist] at hfirst
      have hmem : a ∈ pre ++ [b] := by
        cases pre with
        | nil =>
          cases hfirst
          exact List.mem_cons_self
        | cons c pre =>
          cases hfirst
          exact List.mem_cons_self
      exact (List.nodup_append.mp hnodup).2.2 a hmem a List.mem_cons_self rfl
    have hfuel : pre.length < s.nodes.length + 1 := by
      have hlen := hchain.length_le
      simp only [List.length_append, List.length_cons] at hlen
      omega
    refine ⟨_, ?_, skipped_inner hchain ha hb, rfl⟩
    show (if s.list = some a then setList n.next else _ : M Unit) s = _
    rw [if_neg hhead]
    exact unlinkLoop_eq hchain hb hfuel

/-- The child is one that has not been waited for. -/
theorem reapChild_eq (hpos : 0 < n.pid) (hchild : ∃ c ∈ s.children, c.pid = n.pid) :
    reapChild n s = .ok () { s.waited n.pid with
      effects := s.effects ++ if n.reason then [.infanticideReason n.pid] else [] } := by
  have hany : s.children.any (·.pid = n.pid) = true := by
    obtain ⟨c, hc, hpid⟩ := hchild
    exact List.any_eq_true.mpr ⟨c, hc, decide_eq_true hpid⟩
  have hwait : waitPid n.pid s = .ok n.pid (s.waited n.pid) := by
    unfold waitPid
    rw [if_pos hany]
    rfl
  unfold reapChild
  rw [if_pos hpos, bind_ok hwait, noteIf_eq]
  simp only [true_and, Bool.decide_eq_true]
  rfl

/-- `delete` of an object of the list whose child has not been waited for. -/
theorem delete_listed (hchain : Chain ForkProcess.next s.nodes s.list (pre ++ a :: post))
    (ha : cell? s.nodes a = some n) (hpos : 0 < n.pid) (hchild : ∃ c ∈ s.children, c.pid = n.pid) :
    ∃ s', delete a s = .ok () s' ∧ Removed a pre post (s.waited n.pid) s' ∧
      s'.effects = s.effects ++ n.parting := by
  have hnodup := hchain.nodup
  have hnot : a ∉ pre ∧ a ∉ post := by
    rw [List.nodup_append, List.nodup_cons] at hnodup
    exact ⟨fun hpre => hnodup.2.2 a hpre a List.mem_cons_self rfl, hnodup.2.1.1⟩
  -- the signal, and the wait
  let s1 : Proc :=
    { s with effects := s.effects ++ if n.killChild then [.sigterm n.pid] else [] }
  let s2 : Proc :=
    { s1.waited n.pid with
      effects := s1.effects ++ if n.reason then [.infanticideReason n.pid] else [] }
  have hreap : reapChild n s1 = .ok () s2 := reapChild_eq hpos hchild
  obtain ⟨s3, hrun, h3, heffects⟩ := unlink_spec (s := s2) hchain ha
  refine ⟨{ s3 with nodes := s3.nodes.set a none }, ?_,
    ⟨h3.chain.set_of_not_mem ?_ _, cell?_set_none_self, ?_, ?_, h3.running, h3.zombies⟩, ?_⟩
  · have hwithdraw : withdraw a n s = .ok () s3 := by
      unfold withdraw
      rw [bind_ok (noteIf_eq _ _), bind_ok hreap]
      exact hrun
    unfold delete
    rw [bind_ok (deref_some ha), if_pos hpos, bind_ok hwithdraw]
    rfl
  · simp [hnot]
  · intro c m hc hm
    obtain ⟨m', hm', hpid⟩ := h3.pid c m hm
    exact ⟨m', (cell?_set_ne _ (Ne.symm hc)).trans hm', hpid⟩
  · intro c hc hpre
    exact (cell?_set_ne _ (Ne.symm hc)).trans (h3.outside c hpre)
  · show s3.effects = _
    rw [heffects]
    exact List.append_assoc _ _ _

end Specs

end Fork
