import SocketPlusPlus.Fork.Handles
import SocketPlusPlus.Fork.Household
import SocketPlusPlus.Logic.History

/-!
# What the list holds

The constructor, the destructor, the handler and `commit_suicide`, each as one step of a process,
in any order, with children that exit in between. `members` says from the history of the calls
alone which children `ForkProcess::list` should hold, and in which order; the result is that it
does, in the process of the program and in every process forked from it.
-/

namespace Fork

open Exec Linked History

/-- `new ForkProcess` in the child: its memory is a copy, and it has no children. -/
def startChild (kill giveReason : Bool) : M Unit := do
  modify fun p => { p.alloc kill giveReason 0 with running := [], zombies := [] }
  let p ← get
  clearLoop (p.nodes.length + 1) p.list
  setList none

/-- `exit()` does not return from `commit_suicide`; that the process ends there is not modelled, so
that a run may go on. -/
inductive Call where
  | construct (kill giveReason : Bool) (answer : Option Int)
  | destroy (a : Nat)
  | reaperNohang (pick : Nat)
  | commitSuicide
  | exit (pick : Nat)
deriving DecidableEq, Repr

/-- The destructor is called for an object that lives. -/
def Call.run : Call → M Unit
  | .construct kill giveReason answer => Fork.construct kill giveReason answer
  | .destroy a => do
    let p ← get
    if (cell? p.nodes a).isSome then delete a
  | .reaperNohang pick => Fork.reaperNohang pick
  | .commitSuicide => Fork.commitSuicide
  | .exit pick => exitChild pick

/-! ## What is expected

The members of the list are read from the history: a child is added by the constructor, and taken
away by whoever waits for it. -/

abbrev Log := List (Entry Proc Call (Except Fault Unit))

/-- The children of which the list should hold the objects after the calls of the history, which is
the newest call first. -/
def members : Log → List Child
  | [] => []
  | e :: log =>
    match e.op with
    | .construct _ _ none => members log
    | .construct _ _ (some pid) =>
      if e.before.Free pid then ⟨pid, e.before.nodes.length⟩ :: members log else members log
    | .destroy a => (members log).filter (·.owner ≠ a)
    | .reaperNohang pick =>
      match e.before.zombies[pick % e.before.zombies.length]? with
      | none => members log
      | some c => (members log).filter (·.pid ≠ c.pid)
    | .commitSuicide => []
    | .exit _ => members log

/-- The list leads through the objects of `ms` to the null pointer, each of them lives and has its
pid, and `ms` are the children that have not been waited for. -/
structure Represents (ms : List Child) (p : Proc) : Prop where
  chain : Chain ForkProcess.next p.nodes p.list (ms.map (·.owner))
  distinct : (ms.map (·.owner)).Nodup
  pid : ∀ m ∈ ms, ∃ n, cell? p.nodes m.owner = some n ∧ n.pid = m.pid
  unreaped : p.children.Perm ms

/-- A process at its start: that of the program, or one forked by a process in the course of its
run. -/
inductive Start : Proc → Prop where
  | program : Start .init
  | child {p q : Proc} {calls : List Call} {kill giveReason : Bool} (h : Start p)
      (hfork : startChild kill giveReason (record Call.run id calls p []).2 = .ok () q) : Start q

/-! ## Two views of the constructor -/

/-- What a `Fork` object does in the child. -/
theorem child_image (im : Image) (kill giveReason : Bool) {q : Proc}
    (h : startChild kill giveReason im.proc = .ok () q) :
    Image.child kill giveReason im = .ok () (im.adopt q) := by
  let p0 : Proc := { im.proc.alloc kill giveReason 0 with running := [], zombies := [] }
  have hclear : (clearLoop (p0.nodes.length + 1) p0.list >>= fun _ => setList none : M Unit) p0
      = .ok () q := h
  obtain ⟨_, p1, hloop, hset⟩ := of_bind_ok hclear
  have hin : inProc (clearLoop (p0.nodes.length + 1) p0.list) (im.adopt p0)
      = .ok () (im.adopt p1) := inProc_ok hloop
  show (inProc (clearLoop (p0.nodes.length + 1) p0.list) >>= fun _ => inProc (setList none) :
    ImageM Unit) (im.adopt p0) = _
  rw [bind_ok hin]
  exact inProc_ok hset

/-- And in the parent. -/
theorem parent_image (im : Image) (kill giveReason : Bool) {pid : Int} {q : Proc}
    (hfree : im.proc.Free pid) (h : construct kill giveReason (some pid) im.proc = .ok () q) :
    Image.parent kill giveReason pid im = .ok () (im.adopt q) := by
  let p0 : Proc := im.proc.allocParent kill giveReason pid
  have hlink : (linkNext im.proc.nodes.length >>= fun _ => linkList im.proc.nodes.length : M Unit)
      p0 = .ok () q := by
    rw [← h]
    show _ = (if im.proc.Free pid then _ else _ : M Unit) im.proc
    rw [if_pos hfree]
    rfl
  obtain ⟨_, p1, hnext, hset⟩ := of_bind_ok hlink
  have hin : inProc (linkNext im.proc.nodes.length) (im.adopt p0) = .ok () (im.adopt p1) :=
    inProc_ok hnext
  show (inProc (linkNext im.proc.nodes.length) >>= fun _ =>
    inProc (linkList im.proc.nodes.length) : ImageM Unit) (im.adopt p0) = _
  rw [bind_ok hin]
  exact inProc_ok hset

/-! ## The steps

Each call keeps the list and the children that the kernel knows of in step. -/

section Steps

variable {p p' : Proc} {l l1 l2 : List Nat} {ms : List Child} {c : Child}

/-- What the history says, and what the operations need. -/
structure Keeps (ms : List Child) (p : Proc) : Prop where
  house : Household p (ms.map (·.owner))
  unreaped : p.children.Perm ms

theorem Keeps.represents (h : Keeps ms p) : Represents ms p where
  chain := h.house.family.chain
  distinct := h.house.family.chain.nodup
  pid m hm := by
    obtain ⟨-, n, hn, hpid⟩ := h.house.family.node m (h.unreaped.mem_iff.mpr hm)
    exact ⟨n, hn, hpid⟩
  unreaped := h.unreaped

/-- One child and its object are gone. -/
theorem Keeps.gone (h : Keeps ms p) (hc : c ∈ p.children)
    (hsplit : ms.map (·.owner) = l1 ++ c.owner :: l2) (hperm : (c :: p'.children).Perm p.children)
    (hhouse : Household p' (l1 ++ l2)) {keep : Child → Bool}
    (hkeep : ∀ d ∈ ms, keep d = true ↔ d ≠ c) : Keeps (ms.filter keep) p' := by
  obtain ⟨m1, m2, rfl, rfl, hm2⟩ := List.map_eq_append_iff.mp hsplit
  obtain ⟨d, m2, rfl, howner, rfl⟩ := List.map_eq_cons_iff.mp hm2
  have hd : d ∈ p.children := h.unreaped.mem_iff.mpr (by simp)
  obtain rfl : d = c := h.house.family.owner_inj d hd c hc howner
  have hnodup : (m1 ++ d :: m2).Nodup := h.unreaped.nodup_iff.mp h.house.family.nodup
  have hnot : d ∉ m1 ++ m2 := (List.nodup_cons.mp (List.nodup_middle.mp hnodup)).1
  have hfilter : (m1 ++ d :: m2).filter keep = m1 ++ m2 := by
    have hdrop : keep d = false := by
      have := hkeep d (by simp)
      simpa using this
    have hstay : ∀ e ∈ m1 ++ m2, keep e = true := by
      intro e he
      refine (hkeep e ?_).mpr ?_
      · simp only [List.mem_append, List.mem_cons] at he ⊢
        tauto
      · rintro rfl
        exact hnot he
    rw [List.filter_append, List.filter_cons_of_neg (by simp [hdrop]), ← List.filter_append,
      List.filter_eq_self.mpr hstay]
  rw [hfilter]
  refine ⟨?_, ?_⟩
  · rw [List.map_append]
    exact hhouse
  · refine List.Perm.cons_inv (a := d) ?_
    exact hperm.trans (h.unreaped.trans List.perm_middle)

theorem construct_step (h : Keeps ms p) (kill giveReason : Bool) (pid : Int) :
    ∃ p', construct kill giveReason (some pid) p = .ok () p' ∧
      Keeps (if p.Free pid then ⟨pid, p.nodes.length⟩ :: ms else ms) p' := by
  by_cases hfree : p.Free pid
  · obtain ⟨p', hrun, hhouse, -, hchildren, -⟩ := h.house.construct hfree kill giveReason
    rw [if_pos hfree]
    refine ⟨p', hrun, hhouse, ?_⟩
    rw [hchildren]
    show ((p.running ++ [(⟨pid, p.nodes.length⟩ : Child)]) ++ p.zombies).Perm _
    rw [List.append_assoc]
    exact List.perm_middle.trans (h.unreaped.cons _)
  · rw [if_neg hfree]
    refine ⟨p, ?_, h⟩
    show (if p.Free pid then _ else pure () : M Unit) p = _
    rw [if_neg hfree]
    rfl

theorem destroy_step (h : Keeps ms p) (a : Nat) :
    ∃ p', (Call.destroy a).run p = .ok () p' ∧ Keeps (ms.filter (·.owner ≠ a)) p' := by
  have hidle : (∀ d ∈ ms, d.owner ≠ a) → ms.filter (·.owner ≠ a) = ms := by
    intro hno
    rw [List.filter_eq_self]
    simpa using hno
  cases ha : cell? p.nodes a with
  | none =>
    -- not an object
    have hrun : (Call.destroy a).run p = .ok () p := by
      show (if (cell? p.nodes a).isSome then delete a else pure () : M Unit) p = _
      rw [ha]
      rfl
    rw [hidle]
    · exact ⟨p, hrun, h⟩
    · rintro d hd rfl
      obtain ⟨n, hn, -⟩ := h.represents.pid d hd
      cases ha.symm.trans hn
  | some n =>
    have hrun : (Call.destroy a).run p = delete a p := by
      show (if (cell? p.nodes a).isSome then delete a else pure () : M Unit) p = _
      rw [ha]
      rfl
    rw [hrun]
    by_cases hpid : n.pid ≤ 0
    · -- one without a child
      rw [hidle]
      · exact ⟨_, delete_idle ha hpid, h.house.free ha hpid, h.unreaped⟩
      · rintro d hd rfl
        exact h.house.family.not_listed ha hpid ⟨d, h.unreaped.mem_iff.mpr hd, rfl⟩
    · have hnone : (none : Option Nat) ≠ some a := (Option.some_ne_none _).symm
      obtain ⟨c, hc, rfl⟩ := h.house.honest a n hnone ha (Int.not_le.mp hpid)
      obtain ⟨p', l1, l2, _, -, -, hsplit, hdelete, -, hperm, hhouse, -⟩ := h.house.delete hc
      refine ⟨p', hdelete, h.gone hc hsplit hperm hhouse fun d hd => ?_⟩
      rw [decide_eq_true_iff]
      have hin := h.unreaped.mem_iff.mpr hd
      exact not_congr ⟨h.house.family.owner_inj d hin c hc, fun hdc => hdc ▸ rfl⟩

theorem reap_step (h : Keeps ms p) (pick : Nat) :
    ∃ p', reaperNohang pick p = .ok () p' ∧
      Keeps (match p.zombies[pick % p.zombies.length]? with
        | none => ms
        | some c => ms.filter (·.pid ≠ c.pid)) p' := by
  cases hpick : p.zombies[pick % p.zombies.length]? with
  | none => exact ⟨p, reaperNohang_idle hpick, h⟩
  | some c =>
    have hnone : (none : Option Nat) ≠ some c.owner := (Option.some_ne_none _).symm
    have hmem := List.mem_of_getElem? hpick
    have hc : c ∈ p.children := List.mem_append.mpr (.inr hmem)
    obtain ⟨p', l1, l2, hsplit, hrun, hremoved, -, hfamily, hhonest, -⟩ :=
      handler_step (g := []) h.house.family h.house.honest hpick hnone
    have hperm : (c :: p'.children).Perm p.children := by
      unfold Proc.children
      rw [hremoved.running, hremoved.zombies]
      refine List.perm_middle.symm.trans ?_
      exact (List.perm_cons_erase hmem).symm.append_left _
    refine ⟨p', hrun, h.gone hc hsplit hperm ⟨hfamily, hhonest⟩ fun d hd => ?_⟩
    rw [decide_eq_true_iff]
    have hin := h.unreaped.mem_iff.mpr hd
    exact not_congr ⟨h.house.family.pid_inj d hin c hc, fun hdc => hdc ▸ rfl⟩

/-- What `commit_suicide` does about the child of the object `a`. -/
def Proc.farewell (p : Proc) (a : Nat) : List Effect :=
  match cell? p.nodes a with
  | none => []
  | some n => (if !n.killChild then [.sigkill n.pid] else []) ++ n.parting

/-- The loop takes the objects one after the other from the head of the list. Induction on the
list. -/
theorem suicideLoop_spec {fuel : Nat} (h : Household p l) (hfuel : l.length ≤ fuel) :
    ∃ p', suicideLoop fuel p.list p = .ok () p' ∧ Household p' [] ∧
      p'.effects = p.effects ++ l.flatMap p.farewell := by
  induction l generalizing p fuel with
  | nil =>
    refine ⟨p, ?_, h, by simp⟩
    rw [h.family.chain.head]
    cases fuel <;> rfl
  | cons a l ih =>
    obtain ⟨fuel, rfl⟩ := Nat.exists_eq_succ_of_ne_zero (Nat.ne_of_gt (Nat.zero_lt_of_lt hfuel))
    obtain ⟨hlist, n, hn, hrest⟩ := h.family.chain.of_cons
    obtain ⟨c, -, hc, rfl, -⟩ := h.family.object (List.mem_cons_self (a := a) (l := l))
    let p1 : Proc :=
      { p with effects := p.effects ++ if !n.killChild then [.sigkill n.pid] else [] }
    obtain ⟨p2, l1, l2, n', hn', -, hsplit, hdelete, hremoved, -, hhouse, heffects⟩ :=
      (h.noted p1.effects).delete hc
    cases hn.symm.trans hn'
    -- it is the head of the list
    obtain ⟨rfl, rfl⟩ : l1 = [] ∧ l2 = l := by
      have hnodup := h.family.chain.nodup
      cases l1 with
      | nil => exact ⟨rfl, (List.cons.inj hsplit).2.symm⟩
      | cons b l1 =>
        obtain ⟨rfl, rfl⟩ := List.cons.inj hsplit
        exact absurd (List.nodup_cons.mp hnodup).1 (by simp)
    have hnext : p2.list = n.next := by
      rw [hremoved.chain.head, hrest.head]
      rfl
    have hsame : l2.flatMap p2.farewell = l2.flatMap p.farewell := by
      have hnot := (List.nodup_cons.mp h.family.chain.nodup).1
      refine List.flatMap_congr fun b hb => ?_
      have hne : b ≠ c.owner := by
        rintro rfl
        exact hnot hb
      unfold Proc.farewell
      rw [hremoved.outside b hne List.not_mem_nil]
      rfl
    obtain ⟨p', hloop, hempty, hrestEffects⟩ := ih hhouse (Nat.le_of_succ_le_succ hfuel)
    refine ⟨p', ?_, hempty, ?_⟩
    · have hround : suicideRound c.owner p = .ok n.next p2 := by
        unfold suicideRound
        rw [bind_ok (deref_some hn), bind_ok (noteIf_eq _ _), bind_ok hdelete]
        rfl
      rw [hlist]
      show (suicideRound c.owner >>= _ : M Unit) p = _
      rw [bind_ok hround, ← hnext, hloop]
    · have hfarewell : p.farewell c.owner
          = (if !n.killChild then [.sigkill n.pid] else []) ++ n.parting := by
        simp only [Proc.farewell, hn]
      rw [hrestEffects, heffects, hsame, List.flatMap_cons, hfarewell]
      simp only [p1, List.append_assoc]

theorem Household.no_children (h : Household p []) : p.children = [] ∧ p.list = none := by
  refine ⟨List.eq_nil_iff_forall_not_mem.mpr fun c hc => ?_, h.family.chain.head⟩
  rcases (h.family.listed c.owner).mp ⟨c, hc, rfl⟩ with hin | hin
  · cases hin
  · cases hin

/-- Every child of the list gets one signal. -/
theorem signals_farewell (h : Represents ms p) :
    ((ms.map (·.owner)).flatMap p.farewell).filterMap Effect.signal? = ms.map (·.pid) := by
  have hpid := h.pid
  clear h
  induction ms with
  | nil => rfl
  | cons m ms ih =>
    obtain ⟨n, hn, hm⟩ := hpid m List.mem_cons_self
    have hone : (p.farewell m.owner).filterMap Effect.signal? = [m.pid] := by
      unfold Proc.farewell ForkProcess.parting
      simp only [hn, ← hm]
      cases n.killChild <;> cases n.reason <;> rfl
    rw [List.map_cons, List.flatMap_cons, List.filterMap_append, hone,
      ih fun d hd => hpid d (List.mem_cons_of_mem _ hd)]
    rfl

theorem commitSuicide_step (h : Keeps ms p) :
    ∃ p', commitSuicide p = .ok () p' ∧ Keeps [] p' ∧
      p'.signalled = p.signalled ++ ms.map (·.pid) := by
  have hfuel : (ms.map (·.owner)).length ≤ p.nodes.length + 1 :=
    Nat.le_succ_of_le h.house.family.chain.length_le
  obtain ⟨p', hloop, hhouse, heffects⟩ := suicideLoop_spec h.house hfuel
  refine ⟨p', hloop, ⟨hhouse, ?_⟩, ?_⟩
  · rw [hhouse.no_children.1]
  · unfold Proc.signalled
    rw [heffects, List.filterMap_append, signals_farewell h.represents]

/-- The child has an empty list, and no object that promises a child. -/
theorem startChild_step (h : Household p l) (kill giveReason : Bool) :
    ∃ q, startChild kill giveReason p = .ok () q ∧ Keeps [] q := by
  let p0 : Proc := { p.alloc kill giveReason 0 with running := [], zombies := [] }
  have hchain : Chain ForkProcess.next p0.nodes p0.list l := h.family.chain.append _
  have hfuel : l.length ≤ p0.nodes.length + 1 := Nat.le_succ_of_le hchain.length_le
  obtain ⟨nodes, hloop, hgone, hsame⟩ := clearLoop_spec hchain hfuel
  refine ⟨{ p0 with nodes := nodes, list := none }, ?_, ⟨family_none _ _, ?_⟩, .refl _⟩
  · show (clearLoop (p0.nodes.length + 1) p0.list >>= fun _ => setList none : M Unit) p0 = _
    rw [bind_ok hloop]
    rfl
  · intro b n hbut hb hpos
    have hbl : b ∉ l := by
      intro hin
      cases (hgone b hin).symm.trans hb
    -- what is left had no child in the parent either
    have hold := (h.alloc kill giveReason (Int.le_refl 0)).honest b n hbut
      ((hsame b hbl).symm.trans hb) hpos
    exact absurd ((h.family.listed b).mp hold) (by simpa using hbl)

end Steps

/-! ## Runs -/

/-- A step keeps what the history says. -/
theorem call_step {p : Proc} {log : Log} (call : Call) (h : Keeps (members log) p) :
    ∃ p', call.run p = .ok () p' ∧ Keeps (members (⟨p, call, .ok (), p'⟩ :: log)) p' := by
  cases call with
  | construct kill giveReason answer =>
    cases answer with
    | none => exact ⟨_, rfl, h.house.alloc kill giveReason (by decide), h.unreaped⟩
    | some pid => exact construct_step h kill giveReason pid
  | destroy a => exact destroy_step h a
  | reaperNohang pick => exact reap_step h pick
  | commitSuicide =>
    obtain ⟨p', hrun, hkeeps, -⟩ := commitSuicide_step h
    exact ⟨p', hrun, hkeeps⟩
  | exit pick =>
    obtain ⟨p', hrun, hnodes, hlist, -, hperm⟩ := exitChild_run p pick
    exact ⟨p', hrun, h.house.of_perm hnodes hlist hperm, hperm.trans h.unreaped⟩

theorem run_keeps {p : Proc} (calls : List Call) {log : Log} (h : Keeps (members log) p)
    (hlog : ∀ e ∈ log, e.outcome = .ok ()) :
    Keeps (members (record Call.run id calls p log).1) (record Call.run id calls p log).2 ∧
      ∀ e ∈ (record Call.run id calls p log).1, e.outcome = .ok () := by
  induction calls generalizing p log with
  | nil => exact ⟨h, hlog⟩
  | cons call calls ih =>
    obtain ⟨p', hrun, hkeeps⟩ := call_step call h
    have hattempt : attempt (call.run) p = (.ok (), p') := by
      unfold attempt
      rw [hrun]
    have hrecord : record Call.run id (call :: calls) p log
        = record Call.run id calls p' (⟨p, call, .ok (), p'⟩ :: log) := by
      rw [record, hattempt]
      rfl
    rw [hrecord]
    refine ih hkeeps ?_
    intro e he
    rcases List.mem_cons.mp he with rfl | he
    · rfl
    · exact hlog e he

theorem Start.keeps {p : Proc} (h : Start p) : Keeps [] p := by
  induction h with
  | program => exact ⟨household_init, .refl _⟩
  | @child p q calls kill giveReason _ hfork ih =>
    obtain ⟨hkeeps, -⟩ := @run_keeps p calls [] ih (fun e he => by cases he)
    obtain ⟨q', hrun, hq'⟩ := startChild_step hkeeps.house kill giveReason
    cases hrun.symm.trans hfork
    exact hq'

/-- **The list of children.** In every run of a process no call follows a dangling pointer, and the
list holds, without repetition, the objects of the children that the history says; what the next
`fork()` leaves in the child is an empty list; and `commit_suicide` sends one signal to each child
of the list and waits for all of them. -/
theorem list_represents {p : Proc} (hstart : Start p) (calls : List Call) :
    (∀ e ∈ (record Call.run id calls p []).1, e.outcome = .ok ()) ∧
      Represents (members (record Call.run id calls p []).1) (record Call.run id calls p []).2 ∧
      (∀ kill giveReason, ∃ q,
        startChild kill giveReason (record Call.run id calls p []).2 = .ok () q ∧
          q.list = none ∧ Start q) ∧
      ∃ q, commitSuicide (record Call.run id calls p []).2 = .ok () q ∧
        q.signalled = (record Call.run id calls p []).2.signalled ++
          (members (record Call.run id calls p []).1).map (·.pid) ∧
        q.children = [] ∧ q.list = none := by
  obtain ⟨hkeeps, hok⟩ := @run_keeps p calls [] hstart.keeps (fun e he => by cases he)
  refine ⟨hok, hkeeps.represents, ?_, ?_⟩
  · intro kill giveReason
    obtain ⟨q, hrun, hq⟩ := startChild_step hkeeps.house kill giveReason
    exact ⟨q, hrun, hq.house.no_children.2, hstart.child hrun⟩
  · obtain ⟨q, hrun, hq, hsignalled⟩ := commitSuicide_step hkeeps
    exact ⟨q, hrun, hsignalled, hq.house.no_children⟩

/-- Two children, of which the first has been reaped. -/
theorem list_represents_two :
    members (record Call.run id [.construct true false (some 10), .construct false true (some 11),
        .exit 0, .reaperNohang 0] .init []).1 = [⟨11, 1⟩] ∧
      Represents
        (members (record Call.run id [.construct true false (some 10),
          .construct false true (some 11), .exit 0, .reaperNohang 0] .init []).1)
        (record Call.run id [.construct true false (some 10), .construct false true (some 11),
          .exit 0, .reaperNohang 0] .init []).2 :=
  ⟨by decide +kernel, (list_represents .program _).2.1⟩

end Fork
