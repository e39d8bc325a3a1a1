import SocketPlusPlus.Fork.Stepwise

/-!
# Signals to children

A pid is a child's until the child has been waited for, and may be any process's afterwards. That no
signal goes to such a pid needs that no object keeps one. `kill_process` waits for the child and
leaves the pid in the object, and a child that is reaped before its object is linked leaves an
object that enters the list with the pid of nobody. Under the conditions of `Event.Careful` neither
happens.
-/

namespace Fork.Stepwise

open Exec Linked

/-- The signals of a step go to children that have not been waited for. -/
def SendsToChildren (s s' : State) : Prop :=
  ∃ pids, s'.proc.signalled = s.proc.signalled ++ pids ∧
    ∀ pid ∈ pids, ∃ c ∈ s.proc.children, c.pid = pid

/-- Every object of the list with a positive pid is that of a child which has not been waited for,
but for the object that the destructor is just about. -/
def State.Clean (s : State) : Prop :=
  ∀ a n, Reach ForkProcess.next s.proc.nodes s.proc.list a →
    (∀ point caller, s.task ≠ .destroying a point caller) →
    cell? s.proc.nodes a = some n → 0 < n.pid → ∃ c ∈ s.proc.children, c.owner = a ∧ c.pid = n.pid

/-- What is expected of each step. -/
def Event.Upheld (e : Event) (s : State) : Prop :=
  wp e.run (fun _ s' => SendsToChildren s s' ∧ s'.Clean) (fun _ _ => False) s

section Signals

variable {s : State} {l : List Nat}

theorem Task.Inv.clean (h : s.task.Inv s.proc l) : s.Clean := by
  intro a n _ hother ha hpos
  have hnone : (none : Option Nat) ≠ some a := (Option.some_ne_none _).symm
  obtain ⟨p, t⟩ := s
  cases t with
  | idle => exact h.honest.child (g := []) h.family hnone ha hpos
  | forked b => exact h.2.child (g := []) h.1 hnone ha hpos
  | linked b => exact h.2.1.child (g := []) h.1 hnone ha hpos
  | killing b => exact h.elim
  | destroying b point caller =>
    have hne : some b ≠ some a := by
      intro heq
      cases heq
      exact hother point caller rfl
    -- a child that has been waited for is put back, to speak of a family
    have hwaited : Waited b p l → ∃ c ∈ p.children, c.owner = a ∧ c.pid = n.pid := by
      rintro ⟨⟨g, -, hfamily⟩, hhonest⟩
      exact hhonest.child hfamily hne ha hpos
    obtain ⟨⟨k, hin⟩, -⟩ := h
    cases hin with
    | enter h _ _ => exact h.honest.child (g := []) h.family hnone ha hpos
    | kill h _ _ => exact h.honest.child (g := []) h.family hnone ha hpos
    | reap h _ _ => exact h.honest.child (g := []) h.family hnone ha hpos
    | test h _ => exact hwaited h
    | head h _ _ => exact hwaited h
    | start h _ _ => exact hwaited h
    | look h _ _ _ => exact hwaited h
    | link h _ _ => exact hwaited h
    | advance h _ _ _ _ => exact hwaited h
    | release family honest _ _ _ => exact honest.child (g := []) family hne ha hpos
  | suicide q => exact h.1.honest.child (g := []) h.1.family hnone ha hpos
  | parting d next => exact h.1.honest.child (g := []) h.1.family hnone ha hpos
  | exited => exact h.honest.child (g := []) h.family hnone ha hpos

/-- The call, for an object that lives. -/
theorem begin_killing {p : Proc} {a : Nat} {n : ForkProcess} (ha : cell? p.nodes a = some n) :
    (Call.killProcess a).begin ⟨p, .idle⟩ = (if 0 < n.pid then (do
      onProc (note (.sigkill n.pid))
      setTask (.killing a)) else pure () : StateM Unit) ⟨p, .idle⟩ := by
  have hget : (get : StateM State) ⟨p, .idle⟩ = .ok ⟨p, .idle⟩ ⟨p, .idle⟩ := rfl
  rw [Call.begin, bind_ok hget]
  simp only [ha]

/-- Without interruption the call and its step are `kill_process()`. -/
theorem begin_killProcess {p p' : Proc} {a : Nat} {n : ForkProcess}
    (ha : cell? p.nodes a = some n) (hpos : 0 < n.pid) (h : killProcess a p = .ok () p') :
    ∃ s1, (Call.killProcess a).begin ⟨p, .idle⟩ = .ok () s1 ∧
      Tick.step.run s1 = .ok () ⟨p', .idle⟩ := by
  unfold killProcess at h
  rw [bind_ok (deref_some ha), if_pos hpos] at h
  let p1 : Proc := { p with effects := p.effects ++ [.sigkill n.pid] }
  have hderef : onProc (deref (some a)) ⟨p1, .killing a⟩ = .ok n ⟨p1, .killing a⟩ :=
    zoom_ok (deref_some ha)
  have hreap : onProc (reapChild n) ⟨p1, .killing a⟩ = .ok () ⟨p', .killing a⟩ := zoom_ok h
  refine ⟨⟨p1, .killing a⟩, ?_, ?_⟩
  · rw [begin_killing ha, if_pos hpos]
    rfl
  · show (onProc (deref (some a)) >>= _ : StateM Unit) ⟨p1, .killing a⟩ = _
    rw [bind_ok hderef, bind_ok hreap]
    rfl

/-- What the program begins. Nothing is sent yet. -/
theorem begin_step {p : Proc} (h : Household p l) (c : Call)
    (hcareful : Event.Careful (.call c) ⟨p, .idle⟩) :
    wp c.begin (fun _ s' => (∃ l', s'.task.Inv s'.proc l') ∧ s'.proc.signalled = p.signalled)
      (fun _ _ => False) ⟨p, .idle⟩ := by
  cases c with
  | construct kill giveReason answer =>
    cases answer with
    | none => exact ⟨⟨l, h.alloc kill giveReason (by decide)⟩, rfl⟩
    | some pid =>
      show wp (if p.Free pid then _ else pure () : StateM Unit) _ _ _
      by_cases hfree : p.Free pid
      · rw [if_pos hfree]
        exact ⟨⟨l, h.allocParent hfree kill giveReason⟩, rfl⟩
      · rw [if_neg hfree]
        exact ⟨⟨l, h⟩, rfl⟩
  | killProcess a =>
    cases ha : cell? p.nodes a with
    | none =>
      rw [Call.begin, wp_bind, wp_get]
      simp only [ha]
      exact ⟨⟨l, h⟩, rfl⟩
    | some n =>
      have hpid : ¬ 0 < n.pid := Int.not_lt.mpr (hcareful n ha)
      rw [wp_congr (begin_killing ha), if_neg hpid]
      exact ⟨⟨l, h⟩, rfl⟩
  | destroy a =>
    show wp (if (cell? p.nodes a).isSome then setTask (.destroying a .enter .program) else pure () :
      StateM Unit) _ _ _
    cases ha : cell? p.nodes a with
    | none => exact ⟨⟨l, h⟩, rfl⟩
    | some n =>
      refine ⟨⟨l, ⟨_, .enter h ha (Nat.le_refl _)⟩, ?_⟩, rfl⟩
      intro b hb
      cases hb
  | commitSuicide =>
    refine ⟨⟨l, h, ?_⟩, rfl⟩
    intro b hb
    have hhead := h.family.chain.head
    exact List.mem_of_head? (hhead.symm.trans hb)

theorem event_step (h : s.task.Inv s.proc l) {e : Event} (hcareful : e.Careful s) :
    wp e.run (fun _ s' => (∃ l', s'.task.Inv s'.proc l') ∧ SendsToChildren s s')
      (fun _ _ => False) s := by
  cases e with
  | call c =>
    obtain ⟨p, t⟩ := s
    cases t with
    | idle =>
      refine (begin_step h c hcareful).mono ?_ (fun _ _ h => h)
      rintro _ s' ⟨hinv, hsilent⟩
      refine ⟨hinv, [], ?_, fun _ hpid => by cases hpid⟩
      rw [List.append_nil]
      exact hsilent
    | _ => exact ⟨⟨l, h⟩, (Moves.refl p).sends⟩
  | tick t =>
    refine (tick_step h hcareful).mono ?_ (fun _ _ h => h)
    rintro _ s' ⟨hinv, hmoves⟩
    exact ⟨hinv, hmoves.sends⟩

end Signals

/-- **When signals go to children only.** In every run of constructions, destructions, calls of
`kill_process` and of `commit_suicide`, with the handler between any two steps: if `kill_process` is
called for objects without a child only, and the handler reaps no child whose object is needed next
where it interrupts the process, then no step follows a dangling pointer, every signal goes to a
child that has not been waited for, and no object stays in the list with the pid of one that has. -/
theorem signals_to_children {p : Proc} {l : List Nat} (h : Household p l) (events : List Event)
    (hcareful : StepsMeet Event.run Event.Careful events ⟨p, .idle⟩) :
    StepsMeet Event.run Event.Upheld events ⟨p, .idle⟩ := by
  refine hcareful.of_invariant (I := fun s => ∃ l, s.task.Inv s.proc l) ?_ ?_ ⟨l, h⟩
  · rintro e s ⟨l, h⟩ he
    refine (event_step h he).mono ?_ (fun _ _ hf => hf)
    rintro _ s' ⟨⟨l', h'⟩, hsends⟩
    exact ⟨hsends, h'.clean⟩
  · rintro e s ⟨l, h⟩ he
    exact (event_step h he).mono (fun _ _ h' => h'.1) (fun _ _ hf => hf.elim)

/-- A child is made, exits and is reaped; another is made and its object destroyed. -/
theorem signals_to_children_reaped :
    StepsMeet Event.run Event.Upheld
      [.call (.construct true false (some 10)), .tick .step, .tick .step, .tick (.exit 0),
        .tick (.reap 0), .call (.construct true false (some 11)), .tick .step, .tick .step,
        .call (.destroy 1), .tick .step, .tick .step, .tick .step]
      ⟨.init, .idle⟩ := by
  refine signals_to_children household_init _ ⟨trivial, trivial, trivial, trivial, ?_, trivial,
    trivial, trivial, trivial, trivial, trivial, trivial, trivial⟩
  intro c _
  trivial

/-- `kill_process` for the only child. -/
def killed : List Event :=
  [.call (.construct true false (some 10)), .tick .step, .tick .step, .call (.killProcess 0),
    .tick .step]

/-- The only child exits, and is reaped, between `fork()` and `next = list`. -/
def early : List Event :=
  [.call (.construct true false (some 10)), .tick (.exit 0), .tick (.reap 0), .tick .step,
    .tick .step]

/-- `delete` of the object, up to `kill`. -/
def destroyed : List Event := [.call (.destroy 0), .tick .step, .tick .step]

/-- What both leave: the object is in the list, and there is no child. -/
def lastObject (effects : List Effect) : State :=
  ⟨⟨[some ⟨10, true, false, none⟩], some 0, [], [], effects⟩, .idle⟩

theorem lastObject_not_clean (effects : List Effect) : ¬ (lastObject effects).Clean := by
  intro hclean
  obtain ⟨c, hc, -⟩ := hclean 0 _ (.here 0) (fun _ _ h => by cases h) rfl (by decide)
  cases hc

/-- `kill_process` leaves the object in the list with the pid of the child it has waited for, and
the destructor then sends `SIGTERM` to it; so does a child that is reaped between `fork()` and the
linking of its object. -/
theorem signal_to_reaped_pid :
    ¬ StepsMeet Event.run Event.Upheld killed ⟨.init, .idle⟩ ∧
      (runAll ((killed ++ destroyed).map Event.run) ⟨.init, .idle⟩).2.proc.signalled = [10, 10] ∧
      ¬ StepsMeet Event.run Event.Upheld early ⟨.init, .idle⟩ ∧
      (runAll ((early ++ destroyed).map Event.run) ⟨.init, .idle⟩).2.proc.signalled = [10] := by
  refine ⟨?_, by decide +kernel, ?_, by decide +kernel⟩
  · rintro ⟨-, -, -, -, hlast, -⟩
    have hclean : (lastObject [.sigkill 10]).Clean := hlast.2
    exact lastObject_not_clean _ hclean
  · rintro ⟨-, -, -, -, hlast, -⟩
    have hclean : (lastObject []).Clean := hlast.2
    exact lastObject_not_clean _ hclean

end Fork.Stepwise
