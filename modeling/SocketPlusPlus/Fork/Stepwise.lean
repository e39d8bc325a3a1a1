import SocketPlusPlus.Fork.Household

/-!
# The handler between any two steps

The operations of `Fork.Process`, cut where `SIGCHLD` can be delivered: between any two of their
accesses to the list, to an object or to the kernel. `Tick.step` is the next such access, and
`Tick.reap` a run of the handler in front of it.

What the handler deletes is the object of the child it reaps. An operation that is about to follow a
pointer to this object, or that has read a link which the handler changes, goes wrong; `Task.Safe`
says for each place which objects these are. The invariant of a process in which the handler keeps
to this is `Task.Inv`, and `tick_step` that every step keeps it.
-/

namespace Fork.Stepwise

open Exec Linked

/-- Where `~ForkProcess()` is: in front of the test of `pid`, of `kill`, of `reap_child`, of the
test of `list`, of `list = list->next`, of the loop, in the loop at `p`, in front of
`p->next = next`, of `p = p->next`, and of the release of the storage. -/
inductive Point where
  | enter
  | kill
  | reap
  | test
  | head
  | start
  | look (p : Option Nat)
  | link (p : Nat)
  | advance (p : Nat)
  | release
deriving DecidableEq, Repr

/-- Who deletes the object: the program, or `commit_suicide`, which has read `next` already. -/
inductive Caller where
  | program
  | suicide (next : Option Nat)
deriving DecidableEq, Repr

/-- The constructor behind `fork()`, and behind `next = list`; `kill_process` behind `kill`; the
destructor; the loop of `commit_suicide` at `p`, and there behind `next = p->next`. -/
inductive Task where
  | idle
  | forked (a : Nat)
  | linked (a : Nat)
  | killing (a : Nat)
  | destroying (a : Nat) (point : Point) (caller : Caller)
  | suicide (p : Option Nat)
  | parting (p : Nat) (next : Option Nat)
  | exited
deriving DecidableEq, Repr

structure State where
  proc : Proc
  task : Task
deriving DecidableEq, Repr

abbrev StateM := EStateM Fault State

def onProc {α : Type} (c : M α) : StateM α := zoom State.proc (fun s p => { s with proc := p }) c

def setTask (t : Task) : StateM Unit := modify fun s => { s with task := t }

/-- The next step of `~ForkProcess()` of the object `a`, and where it leads. -/
def Point.run (a : Nat) : Point → M (Option Point)
  | .enter => do
    let n ← deref (some a)
    pure (some (if 0 < n.pid then .kill else .release))
  | .kill => do
    let n ← deref (some a)
    noteIf n.killChild (.sigterm n.pid)
    pure (some .reap)
  | .reap => do
    let n ← deref (some a)
    reapChild n
    pure (some .test)
  | .test => do
    let p ← get
    pure (some (if p.list = some a then .head else .start))
  | .head => do
    let p ← get
    let n ← deref p.list
    setList n.next
    pure (some .release)
  | .start => do
    let p ← get
    pure (some (.look p.list))
  | .look none => pure (some .release)
  | .look (some p) => do
    let n ← deref (some p)
    pure (some (if n.next = some a then .link p else .advance p))
  | .link p => do
    let n ← deref (some a)
    let np ← deref (some p)
    store p { np with next := n.next }
    pure (some .release)
  | .advance p => do
    let n ← deref (some p)
    pure (some (.look n.next))
  | .release => do
    let _ ← deref (some a)
    free a
    pure none

/-- What is next behind the destructor. -/
def Caller.task : Caller → Task
  | .program => .idle
  | .suicide next => .suicide next

def Task.step : Task → StateM Unit
  | .idle => pure ()
  | .forked a => do
    onProc (linkNext a)
    setTask (.linked a)
  | .linked a => do
    onProc (linkList a)
    setTask .idle
  | .killing a => do
    let n ← onProc (deref (some a))
    onProc (reapChild n)
    setTask .idle
  | .destroying a point caller => do
    match ← onProc (point.run a) with
    | some point => setTask (.destroying a point caller)
    | none => setTask caller.task
  | .suicide none => setTask .exited
  | .suicide (some p) => do
    let n ← onProc (deref (some p))
    setTask (.parting p n.next)
  | .parting p next => do
    let n ← onProc (deref (some p))
    onProc (noteIf (!n.killChild) (.sigkill n.pid))
    setTask (.destroying p .enter (.suicide next))
  | .exited => pure ()

/-- What happens next: a step of the operation, the exit of a child, or a run of the handler. -/
inductive Tick where
  | step
  | exit (pick : Nat)
  | reap (pick : Nat)
deriving DecidableEq, Repr

def Tick.run : Tick → StateM Unit
  | .step => do
    let s ← get
    s.task.step
  | .exit pick => onProc (exitChild pick)
  | .reap pick => onProc (reaperNohang pick)

/-- What the program can begin when it is idle. A member is called for an object that lives. -/
inductive Call where
  | construct (kill giveReason : Bool) (answer : Option Int)
  | killProcess (a : Nat)
  | destroy (a : Nat)
  | commitSuicide
deriving DecidableEq, Repr

def Call.begin : Call → StateM Unit
  | .construct kill giveReason none =>
    onProc (modify fun p => p.alloc kill giveReason (-1))
  | .construct kill giveReason (some pid) => do
    let s ← get
    if s.proc.Free pid then
      onProc (modify fun p => p.allocParent kill giveReason pid)
      setTask (.forked s.proc.nodes.length)
  | .killProcess a => do
    let s ← get
    match cell? s.proc.nodes a with
    | none => pure ()
    | some n =>
      if 0 < n.pid then
        onProc (note (.sigkill n.pid))
        setTask (.killing a)
  | .destroy a => do
    let s ← get
    if (cell? s.proc.nodes a).isSome then setTask (.destroying a .enter .program)
  | .commitSuicide => do
    let s ← get
    setTask (.suicide s.proc.list)

inductive Event where
  | call (c : Call)
  | tick (t : Tick)
deriving DecidableEq, Repr

def Event.run : Event → StateM Unit
  | .call c => do
    let s ← get
    match s.task with
    | .idle => c.begin
    | _ => pure ()
  | .tick t => t.run

/-! ## Where the handler does no harm

For each place in a task, the objects that the handler must not delete while the task is there:
those it is about to follow a pointer to, or has in a local variable. -/

/-- The link of the object `b`. -/
def nextOf (p : Proc) (b : Nat) : Option Nat := (cell? p.nodes b).bind (·.next)

/-- The destructor of `a` at this place is not harmed when the object `b` is deleted: `b` is neither
`a`, whose child is waited for by the destructor itself, nor the object that it looks at next, nor
the one between that and `a`. -/
def Point.Safe (a : Nat) (p : Proc) (b : Nat) : Point → Prop
  | .enter => b ≠ a
  | .kill => b ≠ a
  | .reap => b ≠ a
  | .test => True
  | .head => True
  | .start => ¬ (p.list = some b ∧ nextOf p b = some a)
  | .look q => q ≠ some b
  | .link d => d ≠ b
  | .advance d => d ≠ b ∧ ¬ (nextOf p d = some b ∧ nextOf p b = some a)
  | .release => True

def Caller.Safe (b : Nat) : Caller → Prop
  | .program => True
  | .suicide next => next ≠ some b

/-- The constructor must not lose the object it links, nor the one it has linked that to. -/
def Task.Safe (p : Proc) (b : Nat) : Task → Prop
  | .idle => True
  | .forked a => a ≠ b
  | .linked a => a ≠ b ∧ nextOf p a ≠ some b
  | .killing _ => True
  | .destroying a point caller => point.Safe a p b ∧ caller.Safe b
  | .suicide q => q ≠ some b
  | .parting d next => d ≠ b ∧ next ≠ some b
  | .exited => True

/-- The handler reaps no child whose object is needed where the process is. -/
def Tick.Safe : Tick → State → Prop
  | .reap pick, s =>
    ∀ c, s.proc.zombies[pick % s.proc.zombies.length]? = some c → s.task.Safe s.proc c.owner
  | _, _ => True

/-- And `kill_process` is not called for a child. -/
def Event.Careful : Event → State → Prop
  | .call (.killProcess a), s => ∀ n, cell? s.proc.nodes a = some n → n.pid ≤ 0
  | .call _, _ => True
  | .tick t, s => t.Safe s

/-! ## The invariant

For each place in a task, what is true of the list: whether the object is still in it, and how far
the walk along it can still be. -/

/-- The object `b` is in the list, with `y` behind it. -/
def Behind (l : List Nat) (b : Nat) (y : List Nat) : Prop := ∃ x, l = x ++ b :: y

/-- The destructor of `a` has waited for the child. With the child put back the rest is a family,
and the object is still in the list. -/
structure Waited (a : Nat) (p : Proc) (l : List Nat) : Prop where
  family : ∃ c, c.owner = a ∧ Family (p.plus [c]) l none
  honest : p.Honest (some a)

/-- The destructor of `a` is at this place, and not more than `k` steps from its end. -/
inductive Inside (a : Nat) (p : Proc) (l : List Nat) : Point → Nat → Prop where
  | enter {k : Nat} {n : ForkProcess} (h : Household p l) (ha : cell? p.nodes a = some n)
      (hk : 2 * l.length + 8 ≤ k) : Inside a p l .enter k
  | kill {k : Nat} (h : Household p l) (ha : a ∈ l) (hk : 2 * l.length + 7 ≤ k) :
      Inside a p l .kill k
  | reap {k : Nat} (h : Household p l) (ha : a ∈ l) (hk : 2 * l.length + 6 ≤ k) :
      Inside a p l .reap k
  | test {k : Nat} (h : Waited a p l) (hk : 2 * l.length + 5 ≤ k) : Inside a p l .test k
  | head {k : Nat} (h : Waited a p l) (hlist : p.list = some a) (hk : 2 ≤ k) :
      Inside a p l .head k
  | start {k : Nat} (h : Waited a p l) (hlist : p.list ≠ some a) (hk : 2 * l.length + 4 ≤ k) :
      Inside a p l .start k
  | look {k b : Nat} {y : List Nat} (h : Waited a p l) (hat : Behind l b y) (ha : a ∈ y)
      (hk : 2 * y.length + 3 ≤ k) : Inside a p l (.look (some b)) k
  | link {k b : Nat} {y : List Nat} (h : Waited a p l) (hat : Behind l b (a :: y)) (hk : 2 ≤ k) :
      Inside a p l (.link b) k
  | advance {k b : Nat} {y : List Nat} (h : Waited a p l) (hat : Behind l b y) (ha : a ∈ y)
      (hnext : y.head? ≠ some a) (hk : 2 * y.length + 2 ≤ k) : Inside a p l (.advance b) k
  | release {k : Nat} {n : ForkProcess} (family : Family p l none) (honest : p.Honest (some a))
      (hout : a ∉ l) (ha : cell? p.nodes a = some n) (hk : 1 ≤ k) : Inside a p l .release k

/-- The object that `commit_suicide` has read is still in the list. -/
def Caller.Waits (a : Nat) (l : List Nat) (caller : Caller) : Prop :=
  ∀ b, caller = .suicide (some b) → b ≠ a ∧ b ∈ l

def Task.Inv (p : Proc) (l : List Nat) : Task → Prop
  | .idle => Household p l
  | .forked a => Family p l (some a) ∧ p.Honest none
  | .linked a => Family p l (some a) ∧ p.Honest none ∧
      ∃ n, cell? p.nodes a = some n ∧ n.next = p.list
  | .killing _ => False
  | .destroying a point caller => (∃ k, Inside a p l point k) ∧ caller.Waits a l
  | .suicide q => Household p l ∧ ∀ b, q = some b → b ∈ l
  | .parting d next => Household p l ∧ d ∈ l ∧ ∀ b, next = some b → b ≠ d ∧ b ∈ l
  | .exited => Household p l

/-- What a step does to the children: signals go to those that have not been waited for, and none
is new; and no object is new or changes its pid. -/
structure Moves (p p' : Proc) : Prop where
  sends : ∃ pids, p'.signalled = p.signalled ++ pids ∧
    ∀ pid ∈ pids, ∃ c ∈ p.children, c.pid = pid
  kept : Kept p p'
  fewer : ∀ c ∈ p'.children, c ∈ p.children

section Steps

variable {p p' : Proc} {l l1 l2 x y : List Nat} {a b d k pick : Nat} {c : Child} {point : Point}
  {n : ForkProcess}

theorem Moves.refl (p : Proc) : Moves p p :=
  ⟨⟨[], (List.append_nil _).symm, fun _ h => by cases h⟩, .of_nodes rfl, fun _ h => h⟩

/-- A step that sends nothing. -/
theorem Moves.silent (heffects : p'.signalled = p.signalled) (hkept : Kept p p')
    (hfewer : ∀ c ∈ p'.children, c ∈ p.children) : Moves p p' := by
  refine ⟨⟨[], ?_, fun _ h => by cases h⟩, hkept, hfewer⟩
  rw [heffects, List.append_nil]

/-- A signal to a child. -/
theorem Moves.noted (hc : c ∈ p.children) (set : Bool) {e : Effect}
    (he : e.signal? = some c.pid) :
    Moves p { p with effects := p.effects ++ if set then [e] else [] } := by
  refine ⟨⟨if set then [c.pid] else [], ?_, ?_⟩, .of_nodes rfl, fun _ h => h⟩
  · unfold Proc.signalled
    rw [List.filterMap_append]
    cases set
    · rfl
    · simp [he]
  · intro pid hpid
    cases set
    · cases hpid
    · exact ⟨c, hc, (List.mem_singleton.mp hpid).symm⟩

/-! ### Places in the list -/

theorem Behind.mem (h : Behind l b y) : b ∈ l := by
  obtain ⟨x, rfl⟩ := h
  simp

theorem Behind.mem_of_mem (h : Behind l b y) (ha : a ∈ y) : a ∈ l := by
  obtain ⟨x, rfl⟩ := h
  simp [ha]

theorem Behind.ne (h : Behind l b y) (hnodup : l.Nodup) (ha : a ∈ y) : b ≠ a := by
  obtain ⟨x, rfl⟩ := h
  rintro rfl
  have hy := (List.nodup_append.mp hnodup).2.1
  exact (List.nodup_cons.mp hy).1 ha

/-- The link of an object leads to the one behind it. -/
theorem Behind.link (h : Behind l b y) {q : Option Nat}
    (hchain : Chain ForkProcess.next p.nodes q l) :
    ∃ n, cell? p.nodes b = some n ∧ n.next = y.head? := by
  obtain ⟨x, rfl⟩ := h
  obtain ⟨-, n, hn, hrest⟩ := hchain.suffix.of_cons
  exact ⟨n, hn, hrest.head⟩

theorem Behind.nextOf (h : Behind l b y) {q : Option Nat}
    (hchain : Chain ForkProcess.next p.nodes q l) : nextOf p b = y.head? := by
  obtain ⟨n, hn, hnext⟩ := h.link hchain
  unfold Stepwise.nextOf
  rw [hn]
  exact hnext

/-- Another object is taken out. -/
theorem Behind.erase (h : Behind l b y) (hnodup : l.Nodup) (hne : d ≠ b) :
    Behind (l.erase d) b (y.erase d) := by
  obtain ⟨x, rfl⟩ := h
  by_cases hx : d ∈ x
  · refine ⟨x.erase d, ?_⟩
    have hy : d ∉ y := by
      intro hy
      exact (List.nodup_append.mp hnodup).2.2 d hx d (List.mem_cons_of_mem _ hy) rfl
    rw [List.erase_append_left _ hx, List.erase_of_not_mem hy]
  · refine ⟨x, ?_⟩
    rw [List.erase_append_right _ hx, List.erase_cons_tail (by simpa using Ne.symm hne)]

theorem erase_split (hnodup : (l1 ++ d :: l2).Nodup) : (l1 ++ d :: l2).erase d = l1 ++ l2 := by
  have hl1 : d ∉ l1 := by
    intro hin
    exact (List.nodup_append.mp hnodup).2.2 d hin d List.mem_cons_self rfl
  rw [List.erase_append_right _ hl1, List.erase_cons_head]

/-! ### The steps of the destructor

From each place the destructor arrives at the next with the invariant of that place, and nearer to
its end. -/

theorem Waited.mem (h : Waited a p l) : a ∈ l := by
  obtain ⟨c, rfl, hfamily⟩ := h.family
  have hc : c ∈ (p.plus [c]).children := List.mem_cons_self
  rcases (hfamily.listed c.owner).mp ⟨c, hc, rfl⟩ with hin | hnone
  · exact hin
  · cases hnone

theorem Waited.chain (h : Waited a p l) : Chain ForkProcess.next p.nodes p.list l := by
  obtain ⟨c, -, hfamily⟩ := h.family
  exact hfamily.chain

/-- The object leaves the list, and the child, which is gone already, the family. -/
theorem Waited.gone (h : Waited a p l) (hl : l = l1 ++ a :: l2)
    (hchain : Chain ForkProcess.next p'.nodes p'.list (l1 ++ l2))
    (hchildren : p'.children = p.children)
    (hothers : ∀ b n, b ≠ a → cell? p.nodes b = some n →
      ∃ n', cell? p'.nodes b = some n' ∧ n'.pid = n.pid) : Family p' (l1 ++ l2) none := by
  obtain ⟨c, rfl, hfamily⟩ := h.family
  refine hfamily.of_gone ?_ hl (Option.some_ne_none _).symm hchain hothers
  rw [hchildren]
  exact .refl _

/-- What the next point has to say. -/
def Arrives (a : Nat) (p' : Proc) (l' : List Nat) (k : Nat) : Option Point → Prop
  | some point => Inside a p' l' point k
  | none => Household p' l' ∧ cell? p'.nodes a = none

/-- One step of the destructor takes it nearer to its end. -/
theorem point_step (h : Inside a p l point (k + 1)) :
    ∃ next p' l', point.run a p = .ok next p' ∧ Arrives a p' l' k next ∧ Moves p p' ∧
      ∀ b ∈ l, b ≠ a → b ∈ l' := by
  cases h with
  | @enter _ n h ha hk =>
    refine ⟨some (if 0 < n.pid then .kill else .release), p, l, ?_, ?_, .refl p, fun _ h _ => h⟩
    · show (deref (some a) >>= _ : M (Option Point)) p = _
      rw [bind_ok (deref_some ha)]
      rfl
    · by_cases hpos : 0 < n.pid
      · rw [if_pos hpos]
        have hchild := h.honest a n (Option.some_ne_none _).symm ha hpos
        rcases (h.family.listed a).mp hchild with hin | hnone
        · exact .kill h hin (by omega)
        · cases hnone
      · rw [if_neg hpos]
        have hnot := h.family.not_listed ha (Int.not_lt.mp hpos)
        exact .release h.family h.honest.mono
          (fun hin => hnot ((h.family.listed a).mpr (.inl hin))) ha (by omega)
  | kill h ha hk =>
    obtain ⟨c, n, hc, rfl, hn, hpid, hpos⟩ := h.family.object ha
    refine ⟨some .reap, _, l, ?_, .reap (h.noted _) ha (by omega),
      Moves.noted hc n.killChild (e := .sigterm n.pid) (congrArg some hpid), fun _ h _ => h⟩
    show (deref (some c.owner) >>= _ : M (Option Point)) p = _
    rw [bind_ok (deref_some hn), bind_ok (noteIf_eq _ _)]
    rfl
  | reap h ha hk =>
    obtain ⟨c, n, hc, rfl, hn, hpid, hpos⟩ := h.family.object ha
    have hreap := reapChild_eq (hpid ▸ hpos) ⟨c, hc, hpid.symm⟩
    have hperm := h.family.perm_waited hc
    rw [← hpid] at hperm
    let p1 : Proc := { p.waited n.pid with
      effects := p.effects ++ if n.reason then [.infanticideReason n.pid] else [] }
    refine ⟨some .test, p1, l, ?_, .test ⟨⟨c, rfl, ?_⟩, ?_⟩ (by omega), ?_, fun _ h _ => h⟩
    · show (deref (some c.owner) >>= _ : M (Option Point)) p = _
      rw [bind_ok (deref_some hn), bind_ok hreap]
      rfl
    · exact h.family.of_perm rfl rfl hperm
    · refine h.honest.mono.of_kept (.of_nodes rfl) fun d hd => ?_
      rcases List.mem_cons.mp (hperm.mem_iff.mpr hd) with rfl | hd
      · exact .inr (.inr rfl)
      · exact .inl hd
    · exact .silent (signalled_reason _ _) (.of_nodes rfl)
        fun d hd => hperm.mem_iff.mp (List.mem_cons_of_mem _ hd)
  | test h hk =>
    refine ⟨some (if p.list = some a then .head else .start), p, l, rfl, ?_, .refl p,
      fun _ h _ => h⟩
    by_cases hlist : p.list = some a
    · rw [if_pos hlist]
      exact .head h hlist (by omega)
    · rw [if_neg hlist]
      exact .start h hlist (by omega)
  | head h hlist hk =>
    -- the object is the first of the list
    have hmem := h.mem
    cases l with
    | nil => cases hmem
    | cons b l2 =>
      obtain ⟨hhead, n, hn, -⟩ := h.chain.of_cons
      cases hlist.symm.trans hhead
      have hskip := skipped_head h.chain hn
      have hsplit : a :: l2 = [] ++ a :: l2 := rfl
      have hfamily := h.gone hsplit hskip.chain rfl (fun b n _ hb => ⟨n, hb, rfl⟩)
      refine ⟨some .release, { p with list := n.next }, l2, ?_, .release hfamily h.honest
        (List.nodup_cons.mp h.chain.nodup).1 hn (by omega),
        .silent rfl (.of_nodes rfl) fun _ h => h, ?_⟩
      · show (deref p.list >>= _ : M (Option Point)) p = _
        rw [hlist, bind_ok (deref_some hn)]
        rfl
      · intro b hb hne
        exact (List.mem_cons.mp hb).resolve_left hne
  | start h hlist hk =>
    have hmem := h.mem
    cases l with
    | nil => cases hmem
    | cons b y =>
      have hhead := h.chain.of_cons.1
      refine ⟨some (.look p.list), p, b :: y, rfl, ?_, .refl p, fun _ h _ => h⟩
      rw [hhead] at hlist ⊢
      have ha : a ∈ y := by
        refine (List.mem_cons.mp hmem).resolve_left ?_
        rintro rfl
        exact hlist rfl
      rw [List.length_cons] at hk
      exact .look h ⟨[], rfl⟩ ha (by omega)
  | @look _ b y h hat ha hk =>
    obtain ⟨n, hn, hnext⟩ := hat.link h.chain
    refine ⟨some (if n.next = some a then .link b else .advance b), p, l, ?_, ?_, .refl p,
      fun _ h _ => h⟩
    · show (deref (some b) >>= _ : M (Option Point)) p = _
      rw [bind_ok (deref_some hn)]
      rfl
    · rw [hnext]
      by_cases hhead : y.head? = some a
      · rw [if_pos hhead]
        cases y with
        | nil => cases ha
        | cons d y =>
          cases hhead
          exact .link h hat (by omega)
      · rw [if_neg hhead]
        exact .advance h hat ha hhead (by omega)
  | @link _ b y h hat hk =>
    obtain ⟨nb, hb, -⟩ := hat.link h.chain
    obtain ⟨n, hn⟩ := h.chain.cell_of_mem h.mem
    have hne : b ≠ a := hat.ne h.chain.nodup List.mem_cons_self
    obtain ⟨x, rfl⟩ := hat
    have hskip := skipped_inner h.chain hn hb
    have hkept : Kept p { p with nodes := p.nodes.set b (some { nb with next := n.next }) } :=
      kept_set hb rfl
    have hsplit : x ++ b :: a :: y = x ++ [b] ++ a :: y := by simp
    have hfamily := h.gone hsplit hskip.chain rfl (fun d m _ hm => hskip.pid d m hm)
    have hnodup : (x ++ [b] ++ a :: y).Nodup := by
      have := h.chain.nodup
      simpa using this
    refine ⟨some .release, _, x ++ [b] ++ y, ?_, .release hfamily
      (h.honest.of_kept hkept fun d hd => .inl hd)
      (List.nodup_cons.mp (List.nodup_middle.mp hnodup)).1 ((cell?_set_ne _ hne).trans hn)
      (by omega), .silent rfl hkept fun _ h => h, ?_⟩
    · show (deref (some a) >>= _ : M (Option Point)) p = _
      rw [bind_ok (deref_some hn), bind_ok (deref_some hb)]
      rfl
    · intro d hd hda
      simp only [List.mem_append, List.mem_cons] at hd ⊢
      tauto
  | @advance _ b y h hat ha hnext hk =>
    obtain ⟨n, hn, hlink⟩ := hat.link h.chain
    cases y with
    | nil => cases ha
    | cons d y =>
      have hat' : Behind l d y := by
        obtain ⟨x, rfl⟩ := hat
        exact ⟨x ++ [b], by simp⟩
      refine ⟨some (.look (some d)), p, l, ?_, .look h hat' ?_ ?_, .refl p, fun _ h _ => h⟩
      · show (deref (some b) >>= _ : M (Option Point)) p = _
        rw [bind_ok (deref_some hn), hlink]
        rfl
      · refine (List.mem_cons.mp ha).resolve_left ?_
        rintro rfl
        exact hnext rfl
      · rw [List.length_cons] at hk
        omega
  | @release _ n family honest hout ha hk =>
    have hnot : ¬ ∃ c ∈ p.children, c.owner = a := by
      intro hchild
      rcases (family.listed a).mp hchild with hin | hnone
      · exact hout hin
      · cases hnone
    refine ⟨none, { p with nodes := p.nodes.set a none }, l, ?_,
      ⟨⟨family.of_delete hnot, ?_⟩, cell?_set_none_self⟩,
      .silent rfl (kept_free a) fun _ h => h, fun _ h _ => h⟩
    · show (deref (some a) >>= _ : M (Option Point)) p = _
      rw [bind_ok (deref_some ha)]
      rfl
    · intro b m _ hb hpos
      have hne : a ≠ b := by
        rintro rfl
        cases cell?_set_none_self.symm.trans hb
      exact honest b m (fun hab => hne (Option.some.inj hab))
        ((cell?_set_ne _ hne).symm.trans hb) hpos

/-! ### An exit, and a run of the handler

An exit changes nothing in memory. The handler takes one object out of the list, and what is behind
another object there stays behind it. -/

theorem Waited.of_perm (h : Waited a p l) (hnodes : p'.nodes = p.nodes)
    (hlist : p'.list = p.list) (hperm : p'.children.Perm p.children) : Waited a p' l where
  family := by
    obtain ⟨c, hc, hfamily⟩ := h.family
    exact ⟨c, hc, hfamily.of_perm hnodes hlist (hperm.cons c)⟩
  honest := h.honest.of_kept (.of_nodes hnodes) fun _ hc => .inl (hperm.mem_iff.mpr hc)

theorem Inside.of_perm (h : Inside a p l point k) (hnodes : p'.nodes = p.nodes)
    (hlist : p'.list = p.list) (hperm : p'.children.Perm p.children) :
    Inside a p' l point k := by
  cases h with
  | enter h ha hk =>
    exact .enter (h.of_perm hnodes hlist hperm) (by rw [hnodes]; exact ha) hk
  | kill h ha hk => exact .kill (h.of_perm hnodes hlist hperm) ha hk
  | reap h ha hk => exact .reap (h.of_perm hnodes hlist hperm) ha hk
  | test h hk => exact .test (h.of_perm hnodes hlist hperm) hk
  | head h hhead hk => exact .head (h.of_perm hnodes hlist hperm) (hlist.trans hhead) hk
  | start h hhead hk =>
    exact .start (h.of_perm hnodes hlist hperm) (fun heq => hhead (hlist.symm.trans heq)) hk
  | look h hat ha hk => exact .look (h.of_perm hnodes hlist hperm) hat ha hk
  | link h hat hk => exact .link (h.of_perm hnodes hlist hperm) hat hk
  | advance h hat ha hnext hk => exact .advance (h.of_perm hnodes hlist hperm) hat ha hnext hk
  | release family honest hout ha hk =>
    have ha' : cell? p'.nodes a = some _ := (congrArg (cell? · a) hnodes).trans ha
    exact .release (family.of_perm hnodes hlist hperm)
      (honest.of_kept (.of_nodes hnodes) fun _ hc => .inl (hperm.mem_iff.mpr hc)) hout ha' hk

/-- What a run of the handler leaves, when the object of the child it reaps is in the list. -/
theorem handler_erase {extra but : Option Nat} {g : List Child}
    (h : Family (p.plus g) l extra) (hhonest : p.Honest but)
    (hpick : p.zombies[pick % p.zombies.length]? = some c) (hlinked : extra ≠ some c.owner) :
    ∃ p', reaperNohang pick p = .ok () p' ∧ Family (p'.plus g) (l.erase c.owner) extra ∧
      p'.Honest but ∧ Moves p p' ∧
      (∀ b n, b ≠ c.owner → cell? p.nodes b = some n →
        ∃ n', cell? p'.nodes b = some n' ∧ n'.pid = n.pid) ∧
      ∀ b, b ∉ l → cell? p'.nodes b = cell? p.nodes b := by
  obtain ⟨p', l1, l2, rfl, hrun, hremoved, hkept, hfamily, hhonest', hsilent⟩ :=
    handler_step h hhonest hpick hlinked
  refine ⟨p', hrun, ?_, hhonest', .silent hsilent hkept ?_, hremoved.others, ?_⟩
  · rw [erase_split h.chain.nodup]
    exact hfamily
  · intro d hd
    unfold Proc.children at hd ⊢
    rw [hremoved.running, hremoved.zombies] at hd
    rcases List.mem_append.mp hd with hd | hd
    · exact List.mem_append_left _ hd
    · exact List.mem_append_right _ (List.mem_of_mem_erase hd)
  · intro b hb
    simp only [List.mem_append, List.mem_cons, not_or] at hb
    exact hremoved.outside b hb.2.1 hb.1

theorem handler_household (h : Household p l)
    (hpick : p.zombies[pick % p.zombies.length]? = some c) :
    ∃ p', reaperNohang pick p = .ok () p' ∧ Household p' (l.erase c.owner) ∧ Moves p p' ∧
      ∀ b n, b ≠ c.owner → cell? p.nodes b = some n →
        ∃ n', cell? p'.nodes b = some n' ∧ n'.pid = n.pid := by
  have hnone : (none : Option Nat) ≠ some c.owner := (Option.some_ne_none _).symm
  obtain ⟨p', hrun, hfamily, hhonest, hmoves, hothers, -⟩ :=
    handler_erase (g := []) h.family h.honest hpick hnone
  exact ⟨p', hrun, ⟨hfamily, hhonest⟩, hmoves, hothers⟩

/-- The child that the destructor has waited for is not reaped again. -/
theorem Waited.owner_ne (h : Waited a p l) (hc : c ∈ p.children) : c.owner ≠ a := by
  obtain ⟨g, rfl, hfamily⟩ := h.family
  intro heq
  have hg : g ∈ (p.plus [g]).children := List.mem_cons_self
  have hc' : c ∈ (p.plus [g]).children := List.mem_cons_of_mem _ hc
  have hsame := hfamily.owner_inj c hc' g hg heq
  exact (List.nodup_cons.mp hfamily.nodup).1 (hsame ▸ hc)

theorem handler_waited (h : Waited a p l)
    (hpick : p.zombies[pick % p.zombies.length]? = some c) :
    ∃ p', reaperNohang pick p = .ok () p' ∧ Waited a p' (l.erase c.owner) ∧ Moves p p' := by
  have hnone : (none : Option Nat) ≠ some c.owner := (Option.some_ne_none _).symm
  obtain ⟨g, hg, hghost⟩ := h.family
  obtain ⟨p', hrun, hfamily, hhonest, hmoves, -⟩ := handler_erase hghost h.honest hpick hnone
  exact ⟨p', hrun, ⟨⟨g, hg, hfamily⟩, hhonest⟩, hmoves⟩

theorem head_erase (h : l.head? ≠ some d) : (l.erase d).head? = l.head? := by
  cases l with
  | nil => rfl
  | cons b l =>
    have hne : b ≠ d := fun hbd => h (congrArg some hbd)
    rw [List.erase_cons_tail (by simpa using hne)]
    rfl

/-- When the link of `b` does not lead to `a`, nor over `d`, it does not without `d`. -/
theorem Behind.head_erase_ne (h : Behind l b y) {q : Option Nat}
    (hchain : Chain ForkProcess.next p.nodes q l) (hnext : y.head? ≠ some a)
    (hover : ¬ (Stepwise.nextOf p b = some d ∧ Stepwise.nextOf p d = some a)) :
    (y.erase d).head? ≠ some a := by
  by_cases hhead : y.head? = some d
  · cases y with
    | nil => cases hhead
    | cons e y =>
      cases hhead
      have hat : Behind l d y := by
        obtain ⟨x, rfl⟩ := h
        exact ⟨x ++ [b], by simp⟩
      rw [List.erase_cons_head]
      intro ha
      exact hover ⟨h.nextOf hchain, (hat.nextOf hchain).trans ha⟩
  · rw [head_erase hhead]
    exact hnext

/-- The handler in the middle of the destructor. -/
theorem handler_inside (h : Inside a p l point k)
    (hpick : p.zombies[pick % p.zombies.length]? = some c) (hsafe : point.Safe a p c.owner) :
    ∃ p', reaperNohang pick p = .ok () p' ∧ Inside a p' (l.erase c.owner) point k ∧
      Moves p p' := by
  have hshort : (l.erase c.owner).length ≤ l.length := List.length_erase_le
  have hmem : c ∈ p.children := List.mem_append.mpr (.inr (List.mem_of_getElem? hpick))
  cases h with
  | enter h ha hk =>
    obtain ⟨p', hrun, hhouse, hmoves, hothers⟩ := handler_household h hpick
    obtain ⟨n', ha', -⟩ := hothers a _ (Ne.symm hsafe) ha
    exact ⟨p', hrun, .enter hhouse ha' (by omega), hmoves⟩
  | kill h ha hk =>
    obtain ⟨p', hrun, hhouse, hmoves, -⟩ := handler_household h hpick
    have ha' := (List.mem_erase_of_ne (Ne.symm hsafe)).mpr ha
    exact ⟨p', hrun, .kill hhouse ha' (by omega), hmoves⟩
  | reap h ha hk =>
    obtain ⟨p', hrun, hhouse, hmoves, -⟩ := handler_household h hpick
    have ha' := (List.mem_erase_of_ne (Ne.symm hsafe)).mpr ha
    exact ⟨p', hrun, .reap hhouse ha' (by omega), hmoves⟩
  | test h hk =>
    obtain ⟨p', hrun, hwaited, hmoves⟩ := handler_waited h hpick
    exact ⟨p', hrun, .test hwaited (by omega), hmoves⟩
  | head h hlist hk =>
    obtain ⟨p', hrun, hwaited, hmoves⟩ := handler_waited h hpick
    have hne := h.owner_ne hmem
    refine ⟨p', hrun, .head hwaited ?_ hk, hmoves⟩
    have hhead : l.head? = some a := h.chain.head.symm.trans hlist
    rw [hwaited.chain.head, head_erase, hhead]
    rw [hhead]
    exact fun heq => hne (Option.some.inj heq).symm
  | start h hlist hk =>
    obtain ⟨p', hrun, hwaited, hmoves⟩ := handler_waited h hpick
    refine ⟨p', hrun, .start hwaited ?_ (by omega), hmoves⟩
    have hhead := h.chain.head
    rw [hhead] at hlist
    rw [hwaited.chain.head]
    by_cases hfirst : l.head? = some c.owner
    · -- the first object is taken out, and is not linked to `a`
      cases l with
      | nil => cases hfirst
      | cons b y =>
        cases hfirst
        have hat : Behind (c.owner :: y) c.owner y := ⟨[], rfl⟩
        rw [List.erase_cons_head]
        intro ha
        exact hsafe ⟨hhead, (hat.nextOf h.chain).trans ha⟩
    · rw [head_erase hfirst]
      exact hlist
  | @look _ b y h hat ha hk =>
    obtain ⟨p', hrun, hwaited, hmoves⟩ := handler_waited h hpick
    have hne : c.owner ≠ b := fun heq => hsafe (congrArg some heq.symm)
    have ha' := (List.mem_erase_of_ne (Ne.symm (h.owner_ne hmem))).mpr ha
    have hless : (y.erase c.owner).length ≤ y.length := List.length_erase_le
    exact ⟨p', hrun, .look hwaited (hat.erase h.chain.nodup hne) ha' (by omega), hmoves⟩
  | @link _ b y h hat hk =>
    obtain ⟨p', hrun, hwaited, hmoves⟩ := handler_waited h hpick
    have hat' := hat.erase h.chain.nodup (Ne.symm hsafe)
    rw [List.erase_cons_tail (by simpa using Ne.symm (h.owner_ne hmem))] at hat'
    exact ⟨p', hrun, .link hwaited hat' hk, hmoves⟩
  | @advance _ b y h hat ha hnext hk =>
    obtain ⟨p', hrun, hwaited, hmoves⟩ := handler_waited h hpick
    have ha' := (List.mem_erase_of_ne (Ne.symm (h.owner_ne hmem))).mpr ha
    have hless : (y.erase c.owner).length ≤ y.length := List.length_erase_le
    exact ⟨p', hrun, .advance hwaited (hat.erase h.chain.nodup (Ne.symm hsafe.1)) ha'
      (hat.head_erase_ne h.chain hnext hsafe.2) (by omega), hmoves⟩
  | release family honest hout ha hk =>
    have hnone : (none : Option Nat) ≠ some c.owner := (Option.some_ne_none _).symm
    obtain ⟨p', hrun, hfamily, hhonest, hmoves, -, hsame⟩ :=
      handler_erase (g := []) family honest hpick hnone
    exact ⟨p', hrun, .release hfamily hhonest (fun hin => hout (List.mem_of_mem_erase hin))
      ((hsame a hout).trans ha) hk, hmoves⟩

end Steps

/-! ### All steps -/

section Ticks

variable {s : State} {p p' : Proc} {l : List Nat} {t : Task} {pick : Nat} {c : Child}

theorem Inside.pos {a k : Nat} {point : Point} (h : Inside a p l point k) : 0 < k := by
  cases h <;> omega

theorem Task.Inv.of_perm (h : t.Inv p l) (hnodes : p'.nodes = p.nodes) (hlist : p'.list = p.list)
    (hperm : p'.children.Perm p.children) : t.Inv p' l := by
  have hhonest : p.Honest none → p'.Honest none := fun honest =>
    honest.of_kept (.of_nodes hnodes) fun _ hc => .inl (hperm.mem_iff.mpr hc)
  cases t with
  | idle => exact h.of_perm hnodes hlist hperm
  | forked a => exact ⟨h.1.of_perm hnodes hlist hperm, hhonest h.2⟩
  | linked a =>
    refine ⟨h.1.of_perm hnodes hlist hperm, hhonest h.2.1, ?_⟩
    rw [hnodes, hlist]
    exact h.2.2
  | killing a => exact h
  | destroying a point caller =>
    obtain ⟨⟨k, hin⟩, hwaits⟩ := h
    exact ⟨⟨k, hin.of_perm hnodes hlist hperm⟩, hwaits⟩
  | suicide q => exact ⟨h.1.of_perm hnodes hlist hperm, h.2⟩
  | parting d next => exact ⟨h.1.of_perm hnodes hlist hperm, h.2⟩
  | exited => exact h.of_perm hnodes hlist hperm

/-- The handler, wherever the process is. -/
theorem handler_task (h : t.Inv p l) (hpick : p.zombies[pick % p.zombies.length]? = some c)
    (hsafe : t.Safe p c.owner) :
    ∃ p', reaperNohang pick p = .ok () p' ∧ t.Inv p' (l.erase c.owner) ∧ Moves p p' := by
  cases t with
  | idle =>
    obtain ⟨p', hrun, hhouse, hmoves, -⟩ := handler_household h hpick
    exact ⟨p', hrun, hhouse, hmoves⟩
  | forked a =>
    obtain ⟨hfamily, hhonest⟩ := h
    have hlinked : some a ≠ some c.owner := fun heq => hsafe (Option.some.inj heq)
    obtain ⟨p', hrun, hfamily', hhonest', hmoves, -⟩ :=
      handler_erase (g := []) hfamily hhonest hpick hlinked
    exact ⟨p', hrun, ⟨hfamily', hhonest'⟩, hmoves⟩
  | linked a =>
    obtain ⟨hfamily, hhonest, n, hn, hnext⟩ := h
    have hlinked : some a ≠ some c.owner := fun heq => hsafe.1 (Option.some.inj heq)
    obtain ⟨p', hrun, hfamily', hhonest', hmoves, -, hsame⟩ :=
      handler_erase (g := []) hfamily hhonest hpick hlinked
    refine ⟨p', hrun, ⟨hfamily', hhonest', n, (hsame a (hfamily.apart a rfl)).trans hn, ?_⟩,
      hmoves⟩
    -- the object is linked to the head of the list, which stays
    have hlink : nextOf p a = n.next := by
      unfold nextOf
      rw [hn]
      rfl
    have hhead : l.head? ≠ some c.owner := by
      have hne := hsafe.2
      rw [hlink, hnext, hfamily.chain.head] at hne
      exact hne
    rw [hnext, hfamily.chain.head, ← head_erase hhead]
    exact hfamily'.chain.head.symm
  | killing a => exact h.elim
  | destroying a point caller =>
    obtain ⟨⟨k, hin⟩, hwaits⟩ := h
    obtain ⟨p', hrun, hin', hmoves⟩ := handler_inside hin hpick hsafe.1
    refine ⟨p', hrun, ⟨⟨k, hin'⟩, ?_⟩, hmoves⟩
    rintro b rfl
    obtain ⟨hne, hb⟩ := hwaits b rfl
    have hstay : b ≠ c.owner := fun heq => hsafe.2 (congrArg some heq)
    exact ⟨hne, (List.mem_erase_of_ne hstay).mpr hb⟩
  | suicide q =>
    obtain ⟨p', hrun, hhouse, hmoves, -⟩ := handler_household h.1 hpick
    refine ⟨p', hrun, ⟨hhouse, ?_⟩, hmoves⟩
    rintro b rfl
    have hstay : b ≠ c.owner := fun heq => hsafe (congrArg some heq)
    exact (List.mem_erase_of_ne hstay).mpr (h.2 b rfl)
  | parting d next =>
    obtain ⟨hhouse, hd, hnext⟩ := h
    obtain ⟨p', hrun, hhouse', hmoves, -⟩ := handler_household hhouse hpick
    refine ⟨p', hrun, ⟨hhouse', (List.mem_erase_of_ne hsafe.1).mpr hd, ?_⟩, hmoves⟩
    rintro b rfl
    obtain ⟨hne, hb⟩ := hnext b rfl
    have hstay : b ≠ c.owner := fun heq => hsafe.2 (congrArg some heq)
    exact ⟨hne, (List.mem_erase_of_ne hstay).mpr hb⟩
  | exited =>
    obtain ⟨p', hrun, hhouse, hmoves, -⟩ := handler_household h hpick
    exact ⟨p', hrun, hhouse, hmoves⟩

/-- The next step of what the process is doing. -/
theorem task_step (h : s.task.Inv s.proc l) :
    wp s.task.step (fun _ s' => (∃ l', s'.task.Inv s'.proc l') ∧ Moves s.proc s'.proc)
      (fun _ _ => False) s := by
  obtain ⟨p, t⟩ := s
  cases t with
  | idle => exact ⟨⟨l, h⟩, .refl p⟩
  | forked a =>
    obtain ⟨hfamily, hhonest⟩ := h
    obtain ⟨p', hrun, hfamily', hhonest', hlink, hkept, hchildren, heffects, -⟩ :=
      linkNext_step hfamily hhonest
    unfold Task.step onProc
    rw [wp_bind, wp_zoom, wp_iff_of_ok hrun]
    refine ⟨⟨l, hfamily', hhonest', hlink⟩, .silent ?_ hkept fun d hd => ?_⟩
    · unfold Proc.signalled
      rw [heffects]
    · rw [← hchildren]
      exact hd
  | linked a =>
    obtain ⟨hfamily, hhonest, hlink⟩ := h
    exact ⟨⟨a :: l, hfamily.linkList hlink, hhonest⟩, .silent rfl (.of_nodes rfl) fun _ hd => hd⟩
  | killing a => exact h.elim
  | destroying a point caller =>
    obtain ⟨⟨k, hin⟩, hwaits⟩ := h
    obtain ⟨k, rfl⟩ := Nat.exists_eq_succ_of_ne_zero (Nat.ne_of_gt hin.pos)
    obtain ⟨next, p', l', hrun, harrives, hmoves, hstay⟩ := point_step hin
    unfold Task.step onProc
    rw [wp_bind, wp_zoom, wp_iff_of_ok hrun]
    cases next with
    | some point =>
      refine ⟨⟨l', ⟨k, harrives⟩, ?_⟩, hmoves⟩
      intro b hb
      obtain ⟨hne, hbl⟩ := hwaits b hb
      exact ⟨hne, hstay b hbl hne⟩
    | none =>
      refine ⟨⟨l', ?_⟩, hmoves⟩
      cases caller with
      | program => exact harrives.1
      | suicide next =>
        refine ⟨harrives.1, ?_⟩
        rintro b rfl
        obtain ⟨hne, hbl⟩ := hwaits b rfl
        exact hstay b hbl hne
  | suicide q =>
    obtain ⟨hhouse, hq⟩ := h
    cases q with
    | none => exact ⟨⟨l, hhouse⟩, .refl p⟩
    | some b =>
      obtain ⟨x, y, hl⟩ := List.append_of_mem (hq b rfl)
      have hat : Behind l b y := ⟨x, hl⟩
      obtain ⟨n, hn, hnext⟩ := hat.link hhouse.family.chain
      unfold Task.step onProc
      rw [wp_bind, wp_zoom, wp_iff_of_ok (deref_some hn)]
      refine ⟨⟨l, hhouse, hat.mem, ?_⟩, .refl p⟩
      intro d hd
      have hdy : d ∈ y := List.mem_of_head? (hnext.symm.trans hd)
      exact ⟨Ne.symm (hat.ne hhouse.family.chain.nodup hdy), hat.mem_of_mem hdy⟩
  | parting b next =>
    obtain ⟨hhouse, hb, hnext⟩ := h
    obtain ⟨c, n, hc, rfl, hn, hpid, -⟩ := hhouse.family.object hb
    unfold Task.step onProc
    rw [wp_bind, wp_zoom, wp_iff_of_ok (deref_some hn), wp_bind, wp_zoom,
      wp_iff_of_ok (noteIf_eq _ _)]
    refine ⟨⟨l, ⟨_, .enter (hhouse.noted _) hn (Nat.le_refl _)⟩, ?_⟩,
      Moves.noted hc (!n.killChild) (e := .sigkill n.pid) (congrArg some hpid)⟩
    rintro d hd
    cases hd
    exact hnext d rfl
  | exited => exact ⟨⟨l, h⟩, .refl p⟩

/-- **One step**, of the process, of a child or of the handler. -/
theorem tick_step (h : s.task.Inv s.proc l) {tick : Tick} (hsafe : tick.Safe s) :
    wp tick.run (fun _ s' => (∃ l', s'.task.Inv s'.proc l') ∧ Moves s.proc s'.proc)
      (fun _ _ => False) s := by
  cases tick with
  | step => exact task_step h
  | exit pick =>
    obtain ⟨p', hrun, hnodes, hlist, heffects, hperm⟩ := exitChild_run s.proc pick
    show wp (onProc (exitChild pick)) _ _ s
    unfold onProc
    rw [wp_zoom, wp_iff_of_ok hrun]
    refine ⟨⟨l, h.of_perm hnodes hlist hperm⟩, .silent ?_ (.of_nodes hnodes) fun d hd => ?_⟩
    · unfold Proc.signalled
      rw [heffects]
    · exact hperm.mem_iff.mp hd
  | reap pick =>
    show wp (onProc (reaperNohang pick)) _ _ s
    unfold onProc
    rw [wp_zoom]
    cases hpick : s.proc.zombies[pick % s.proc.zombies.length]? with
    | none =>
      rw [wp_iff_of_ok (reaperNohang_idle hpick)]
      exact ⟨⟨l, h⟩, .refl s.proc⟩
    | some c =>
      obtain ⟨p', hrun, hinv, hmoves⟩ := handler_task h hpick (hsafe c hpick)
      rw [wp_iff_of_ok hrun]
      exact ⟨⟨_, hinv⟩, hmoves⟩

end Ticks

end Fork.Stepwise
