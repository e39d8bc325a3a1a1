import SocketPlusPlus.Fork.Stepwise

/-!
# The destructor and `SIGCHLD`

`~ForkProcess()` of an object whose child runs: it makes the child exit, and so the handler run,
before it has waited for the child. If the handler is first, it deletes the object that is being
destroyed. Later it is the list that the handler and the destructor change at the same time.
Between these places the two do not disturb each other: the object is deleted once, its child has
been waited for, and the list holds the other children.
-/

namespace Fork.Stepwise

open Exec Linked

/-- The next `j` steps of what the process does. -/
def steps : Nat → StateM Unit
  | 0 => pure ()
  | j + 1 => do
    Tick.step.run
    steps j

/-- What the destructor of the object of `c`, begun in `p`, leaves in `p'`: the object is gone and
its child has been waited for, each other child of `p` is still one and has its object, or has been
waited for and has lost it, and the list leads through the objects of the children there are. -/
structure Settled (p : Proc) (c : Child) (p' : Proc) : Prop where
  gone : cell? p'.nodes c.owner = none
  waited : c ∉ p'.children
  others : ∀ d ∈ p.children, d ≠ c →
    (d ∈ p'.children ∧ ∃ n, cell? p'.nodes d.owner = some n ∧ n.pid = d.pid) ∨
      (d ∉ p'.children ∧ cell? p'.nodes d.owner = none)
  fewer : ∀ d ∈ p'.children, d ∈ p.children
  list : ∃ l, Chain ForkProcess.next p'.nodes p'.list l ∧ l.Nodup ∧
    ∀ a, a ∈ l ↔ ∃ d ∈ p'.children, d.owner = a

/-- What is expected of each step: the destructor can come to its end, and when it has, everything
is settled. -/
def Tick.Sound (p : Proc) (c : Child) (t : Tick) (s : State) : Prop :=
  wp t.run (fun _ s' => (∃ j p', steps j s' = .ok () ⟨p', .idle⟩) ∧
    (s'.task = .idle → Settled p c s'.proc)) (fun _ _ => False) s

section Destructor

variable {s s1 s2 : State} {p p0 p' : Proc} {l : List Nat} {a j k fuel : Nat} {point : Point}
  {caller : Caller} {c : Child} {n : ForkProcess} {q : Option Nat}

theorem steps_succ (h : Tick.step.run s = .ok () s1) (h' : steps j s1 = .ok () s2) :
    steps (j + 1) s = .ok () s2 := by
  rw [steps, bind_ok h, h']

theorem step_point {next : Point} (h : point.run a p = .ok (some next) p') :
    Tick.step.run ⟨p, .destroying a point caller⟩ = .ok () ⟨p', .destroying a next caller⟩ := by
  show (onProc (point.run a) >>= _ : StateM Unit) _ = _
  unfold onProc
  rw [bind_ok (zoom_ok h)]
  rfl

theorem step_last (h : point.run a p = .ok none p') :
    Tick.step.run ⟨p, .destroying a point caller⟩ = .ok () ⟨p', caller.task⟩ := by
  show (onProc (point.run a) >>= _ : StateM Unit) _ = _
  unfold onProc
  rw [bind_ok (zoom_ok h)]
  rfl

/-- Left alone, the destructor comes to its end. Induction on the steps it still needs. -/
theorem inside_finishes (h : Inside a p l point k) :
    ∃ j p', steps j ⟨p, .destroying a point caller⟩ = .ok () ⟨p', caller.task⟩ := by
  induction k generalizing p l point with
  | zero => exact absurd h.pos (Nat.lt_irrefl 0)
  | succ k ih =>
    obtain ⟨next, p1, l1, hrun, harrives, -⟩ := point_step h
    cases next with
    | none => exact ⟨1, p1, steps_succ (step_last hrun) rfl⟩
    | some next =>
      obtain ⟨j, p', hsteps⟩ := ih harrives
      exact ⟨j + 1, p', steps_succ (step_point hrun) hsteps⟩

/-! ## Without interruption

`~ForkProcess()` step by step does what it does in one go. -/

theorem of_deref_ok {p1 : Proc} (h : deref (some a) p = .ok n p1) :
    p1 = p ∧ cell? p.nodes a = some n := by
  unfold deref at h
  cases ha : cell? p.nodes a with
  | none =>
    simp only [ha] at h
    cases h
  | some m =>
    simp only [ha] at h
    cases h
    exact ⟨rfl, rfl⟩

theorem waitPid_nodes (pid : Int) (p : Proc) :
    wp (waitPid pid) (fun _ p' => p'.nodes = p.nodes) (fun _ _ => True) p := by
  unfold wp waitPid
  by_cases hany : p.children.any (·.pid = pid) = true
  · rw [if_pos hany]
  · rw [if_neg hany]

theorem reapChild_nodes (n : ForkProcess) (p : Proc) :
    wp (reapChild n) (fun _ p' => p'.nodes = p.nodes) (fun _ _ => True) p := by
  unfold reapChild
  refine wp_ite_intro (fun _ => ?_) (fun _ => rfl)
  rw [wp_bind]
  refine (waitPid_nodes n.pid p).mono ?_ (fun _ _ h => h)
  intro wpid p1 h1
  rw [wp_iff_of_ok (noteIf_eq _ _)]
  exact h1

/-- The steps of the loop. Induction on its fuel. -/
theorem steps_unlinkLoop (ha : cell? p.nodes a = some n)
    (h : unlinkLoop a n.next fuel q p = .ok () p') :
    (∃ m, cell? p'.nodes a = some m) ∧ ∀ i s2,
      steps i ⟨p', .destroying a .release caller⟩ = .ok () s2 →
        ∃ j, steps j ⟨p, .destroying a (.look q) caller⟩ = .ok () s2 := by
  induction fuel generalizing q with
  | zero =>
    cases q with
    | some b => cases h
    | none =>
      cases h
      exact ⟨⟨n, ha⟩, fun i s2 hi => ⟨i + 1, steps_succ (step_point rfl) hi⟩⟩
  | succ fuel ih =>
    cases q with
    | none =>
      cases h
      exact ⟨⟨n, ha⟩, fun i s2 hi => ⟨i + 1, steps_succ (step_point rfl) hi⟩⟩
    | some b =>
      obtain ⟨nb, p1, hderef, hrest⟩ := of_bind_ok h
      obtain ⟨rfl, hb⟩ := of_deref_ok hderef
      have hlook : (Point.look (some b)).run a p1
          = .ok (some (if nb.next = some a then .link b else .advance b)) p1 := by
        show (deref (some b) >>= _ : M (Option Point)) p1 = _
        rw [bind_ok hderef]
        rfl
      by_cases hnext : nb.next = some a
      · rw [if_pos hnext] at hrest hlook
        cases hrest
        refine ⟨?_, ?_⟩
        · by_cases hba : b = a
          · subst hba
            exact ⟨_, cell?_set_self _ (lt_of_cell? hb)⟩
          · exact ⟨n, (cell?_set_ne _ hba).trans ha⟩
        · intro i s2 hi
          refine ⟨i + 2, steps_succ (step_point hlook) (steps_succ (step_point ?_) hi)⟩
          show (deref (some a) >>= _ : M (Option Point)) p1 = _
          rw [bind_ok (deref_some ha), bind_ok hderef]
          rfl
      · rw [if_neg hnext] at hrest hlook
        obtain ⟨halive, hsteps⟩ := ih hrest
        refine ⟨halive, ?_⟩
        intro i s2 hi
        obtain ⟨j, hj⟩ := hsteps i s2 hi
        refine ⟨j + 2, steps_succ (step_point hlook) (steps_succ (step_point ?_) hj)⟩
        show (deref (some b) >>= _ : M (Option Point)) p1 = _
        rw [bind_ok hderef]
        rfl

/-- The steps of the destructor, one after the other, are the destructor. -/
theorem steps_delete (h : delete a p = .ok () p') :
    ∃ j, steps j ⟨p, .destroying a .enter caller⟩ = .ok () ⟨p', caller.task⟩ := by
  obtain ⟨n, p1, hderef, hrest⟩ := of_bind_ok h
  obtain ⟨rfl, ha⟩ := of_deref_ok hderef
  have henter : Point.enter.run a p1
      = .ok (some (if 0 < n.pid then .kill else .release)) p1 := by
    show (deref (some a) >>= _ : M (Option Point)) p1 = _
    rw [bind_ok hderef]
    rfl
  -- the storage is given back at the end
  have hlast : ∀ p2 m, cell? p2.nodes a = some m → free a p2 = .ok () p' →
      steps 1 ⟨p2, .destroying a .release caller⟩ = .ok () ⟨p', caller.task⟩ := by
    intro p2 m hm hfree
    refine steps_succ (step_last ?_) rfl
    show (deref (some a) >>= _ : M (Option Point)) p2 = _
    rw [bind_ok (deref_some hm), bind_ok hfree]
    rfl
  by_cases hpos : 0 < n.pid
  · rw [if_pos hpos] at hrest henter
    obtain ⟨_, p4, hwithdraw, hfree⟩ := of_bind_ok hrest
    obtain ⟨_, p2, hnote, hwithdraw⟩ := of_bind_ok hwithdraw
    obtain ⟨_, p3, hreap, hunlink⟩ := of_bind_ok hwithdraw
    have hnodes2 : p2.nodes = p1.nodes := by
      rw [noteIf_eq] at hnote
      cases hnote
      rfl
    have hnodes3 : p3.nodes = p2.nodes := (reapChild_nodes n p2).of_ok hreap
    have ha2 : cell? p2.nodes a = some n := by rw [hnodes2, ha]
    have ha3 : cell? p3.nodes a = some n := by rw [hnodes3, ha2]
    have hkill : Point.kill.run a p1 = .ok (some .reap) p2 := by
      show (deref (some a) >>= _ : M (Option Point)) p1 = _
      rw [bind_ok hderef, bind_ok hnote]
      rfl
    have hwait : Point.reap.run a p2 = .ok (some .test) p3 := by
      show (deref (some a) >>= _ : M (Option Point)) p2 = _
      rw [bind_ok (deref_some ha2), bind_ok hreap]
      rfl
    -- what is left is the walk along the list
    have hwalk : ∃ j, steps j ⟨p3, .destroying a .test caller⟩ = .ok () ⟨p', caller.task⟩ := by
      have htest : Point.test.run a p3
          = .ok (some (if p3.list = some a then .head else .start)) p3 := rfl
      have hbranch : (if p3.list = some a then setList n.next
          else unlinkLoop a n.next (p3.nodes.length + 1) p3.list : M Unit) p3 = .ok () p4 := hunlink
      by_cases hlist : p3.list = some a
      · rw [if_pos hlist] at htest hbranch
        cases hbranch
        refine ⟨3, steps_succ (step_point htest) (steps_succ (step_point ?_)
          (hlast { p3 with list := n.next } n ha3 hfree))⟩
        show (deref p3.list >>= _ : M (Option Point)) p3 = _
        rw [hlist, bind_ok (deref_some ha3)]
        rfl
      · rw [if_neg hlist] at htest hbranch
        obtain ⟨⟨m, hm⟩, hsteps⟩ := steps_unlinkLoop ha3 hbranch
        obtain ⟨j, hj⟩ := hsteps 1 _ (hlast p4 m hm hfree)
        exact ⟨j + 2, steps_succ (step_point htest) (steps_succ (step_point rfl) hj)⟩
    obtain ⟨j, hj⟩ := hwalk
    exact ⟨j + 3, steps_succ (step_point henter)
      (steps_succ (step_point hkill) (steps_succ (step_point hwait) hj))⟩
  · rw [if_neg hpos] at hrest henter
    exact ⟨2, steps_succ (step_point henter) (hlast p1 n ha hrest)⟩

/-! ## With interruptions

An exit or a run of the handler between two steps changes the list that the destructor walks along,
and the objects on it, but not the object that is being destroyed. -/

/-- The destructor of the object of `c`, begun in `p`, is still under way or has come to its end. -/
structure Under (p : Proc) (c : Child) (s : State) : Prop where
  inv : ∃ l, s.task.Inv s.proc l
  kept : Kept p s.proc
  fewer : ∀ d ∈ s.proc.children, d ∈ p.children
  task : (∃ point, s.task = .destroying c.owner point .program) ∨
    s.task = .idle ∧ cell? s.proc.nodes c.owner = none

theorem onProc_task {α : Type} (m : M α) (s : State) :
    wp (onProc m) (fun _ s' => s'.task = s.task) (fun _ _ => True) s := by
  unfold onProc
  rw [wp_zoom]
  exact wp_of_forall (fun _ _ => rfl) fun _ _ => trivial

/-- A step leads from one place of the destructor to another, or to the end. -/
theorem under_step (h : Under p c s) {tick : Tick} (hsafe : tick.Safe s) :
    wp tick.run (fun _ s' => Under p c s') (fun _ _ => False) s := by
  obtain ⟨l, hinv⟩ := h.inv
  obtain ⟨p1, t⟩ := s
  obtain ⟨_, s', hrun, hinv', hmoves⟩ := (tick_step hinv hsafe).exists_ok
  rw [wp_iff_of_ok hrun]
  have hkept : Kept p s'.proc := by
    intro b n' hb
    obtain ⟨m, hm, hpid⟩ := hmoves.kept b n' hb
    obtain ⟨n, hn, hpid'⟩ := h.kept b m hm
    exact ⟨n, hn, hpid'.trans hpid⟩
  refine ⟨hinv', hkept, fun d hd => h.fewer d (hmoves.fewer d hd), ?_⟩
  have hgone : cell? p1.nodes c.owner = none → cell? s'.proc.nodes c.owner = none := by
    intro hnone
    cases hcell : cell? s'.proc.nodes c.owner with
    | none => rfl
    | some n' =>
      obtain ⟨m, hm, -⟩ := hmoves.kept _ _ hcell
      cases hnone.symm.trans hm
  cases tick with
  | step =>
    rcases h.task with ⟨point, rfl⟩ | ⟨rfl, hnone⟩
    · obtain ⟨⟨k, hin⟩, -⟩ := hinv
      obtain ⟨k, rfl⟩ := Nat.exists_eq_succ_of_ne_zero (Nat.ne_of_gt hin.pos)
      obtain ⟨next, p2, l2, hpoint, harrives, -⟩ := point_step hin
      cases next with
      | some next =>
        cases hrun.symm.trans (step_point hpoint)
        exact .inl ⟨next, rfl⟩
      | none =>
        cases hrun.symm.trans (step_last hpoint)
        exact .inr ⟨rfl, harrives.2⟩
    · cases hrun
      exact .inr ⟨rfl, hnone⟩
  | exit pick =>
    have htask : s'.task = t := (onProc_task (exitChild pick) ⟨p1, t⟩).of_ok hrun
    rw [htask]
    exact h.task.imp_right fun hidle => ⟨hidle.1, hgone hidle.2⟩
  | reap pick =>
    have htask : s'.task = t := (onProc_task (reaperNohang pick) ⟨p1, t⟩).of_ok hrun
    rw [htask]
    exact h.task.imp_right fun hidle => ⟨hidle.1, hgone hidle.2⟩

/-- At the end everything is as it should be. -/
theorem Under.settled (hhouse : Household p l) (h : Under p c s) (hidle : s.task = .idle) :
    Settled p c s.proc := by
  obtain ⟨l', hinv⟩ := h.inv
  obtain ⟨p1, t⟩ := s
  cases hidle
  have hhouse' : Household p1 l' := hinv
  have hgone : cell? p1.nodes c.owner = none := by
    rcases h.task with ⟨point, hpoint⟩ | hend
    · cases hpoint
    · exact hend.2
  refine ⟨hgone, ?_, ?_, h.fewer, l', hhouse'.family.chain, hhouse'.family.chain.nodup, ?_⟩
  · intro hc
    obtain ⟨-, n, hn, -⟩ := hhouse'.family.node c hc
    cases hgone.symm.trans hn
  · intro d hd hne
    by_cases hd' : d ∈ p1.children
    · obtain ⟨-, n, hn, hpid⟩ := hhouse'.family.node d hd'
      exact .inl ⟨hd', n, hn, hpid⟩
    · refine .inr ⟨hd', ?_⟩
      cases hcell : cell? p1.nodes d.owner with
      | none => rfl
      | some n' =>
        -- an object that is left has its child still
        obtain ⟨n, hn, hpid⟩ := h.kept _ _ hcell
        obtain ⟨hpos, m, hm, hmpid⟩ := hhouse.family.node d hd
        cases hn.symm.trans hm
        have hpos' : 0 < n'.pid := by omega
        obtain ⟨e, he, heowner⟩ :=
          hhouse'.honest d.owner n' (Option.some_ne_none _).symm hcell hpos'
        have hsame := hhouse.family.owner_inj e (h.fewer e he) d hd heowner
        exact absurd (hsame ▸ he) hd'
  · intro a
    rw [hhouse'.family.listed a]
    simp

end Destructor

/-- **When the destructor and the handler agree.** From `~ForkProcess()` of the object of a running
child on, however its steps, exits of children and runs of the handler alternate: if the handler
never reaps a child whose object the destructor needs next, no step follows a dangling pointer or
frees an object twice, the destructor comes to its end, and then the object is gone, its child has
been waited for, and the list holds exactly the children that are left. -/
theorem destructor_settles {p : Proc} {l : List Nat} {c : Child} (h : Household p l)
    (hc : c ∈ p.running) (ticks : List Tick)
    (hsafe : StepsMeet Tick.run Tick.Safe ticks ⟨p, .destroying c.owner .enter .program⟩) :
    StepsMeet Tick.run (Tick.Sound p c) ticks ⟨p, .destroying c.owner .enter .program⟩ := by
  obtain ⟨-, n, hn, -⟩ := h.family.node c (List.mem_append_left _ hc)
  refine hsafe.of_invariant (I := Under p c) ?_ ?_ ⟨⟨l, ⟨_, .enter h hn (Nat.le_refl _)⟩, ?_⟩,
    .of_nodes rfl, fun _ hd => hd, .inl ⟨_, rfl⟩⟩
  · intro t s hs ht
    refine (under_step hs ht).mono ?_ (fun _ _ hf => hf)
    rintro _ ⟨p1, t1⟩ hunder
    refine ⟨?_, fun hidle => hunder.settled h hidle⟩
    obtain ⟨l1, hinv⟩ := hunder.inv
    rcases hunder.task with ⟨point, rfl⟩ | ⟨rfl, -⟩
    · obtain ⟨⟨k, hin⟩, -⟩ := hinv
      exact inside_finishes hin
    · exact ⟨0, p1, rfl⟩
  · intro t s hs ht
    exact (under_step hs ht).mono (fun _ _ h' => h') (fun _ _ hf => hf.elim)
  · intro b hb
    cases hb

/-- The child exits, and the handler runs when the destructor has waited for the child. -/
theorem destructor_settles_one :
    StepsMeet Tick.run (Tick.Sound (oneChild true) ⟨10, 0⟩)
      [.step, .step, .exit 0, .step, .reap 0, .step, .step, .step]
      ⟨oneChild true, .destroying 0 .enter .program⟩ := by
  refine destructor_settles (household_oneChild true) List.mem_cons_self _
    ⟨trivial, trivial, trivial, trivial, ?_, trivial, trivial, trivial, trivial⟩
  intro c hc
  cases hc

/-- The child exits at the signal of the destructor, and the handler is faster than `reap_child`: it
deletes the object, and the destructor goes on with what it has deleted. -/
theorem handler_deletes_destroyed :
    (runAll ([.step, .step, .exit 0, .reap 0, .step].map Tick.run)
        ⟨oneChild true, .destroying 0 .enter .program⟩).1
      = [.ok (), .ok (), .ok (), .ok (), .error (.dangling 0)] ∧
      ¬ StepsMeet Tick.run (Tick.Sound (oneChild true) ⟨10, 0⟩)
        [.step, .step, .exit 0, .reap 0, .step] ⟨oneChild true, .destroying 0 .enter .program⟩ := by
  refine ⟨by decide +kernel, ?_⟩
  rintro ⟨-, -, -, -, hlast, -⟩
  exact hlast

end Fork.Stepwise
