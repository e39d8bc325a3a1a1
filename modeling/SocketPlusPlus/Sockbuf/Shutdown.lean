import SocketPlusPlus.Sockbuf.Lifetime

/-!
# Shutting down and destroying

`shutdown(shut_write)` deletes the put area and then calls `::shutdown`; what was pending in the
area goes with it, without an error. The destructor, by contrast, flushes before it closes.

A `Session` is one sockbuf on its own descriptor from its construction to its destruction, with
what its calls reported as accepted, and the calls of `::shutdown` with what the kernel had been
handed when they were made. In a run without exceptions all accepted bytes reach the kernel in time
exactly if nothing is pending whenever the write side is shut down.
-/

namespace Sockstream

open Exec

/-- `enum shuthow` -/
inductive Shuthow where
  | shutRead
  | shutWrite
  | shutReadwrite
deriving DecidableEq, Repr

/-- A kernel that also answers `::shutdown` and `close`. -/
structure Net extends Kernel where
  shutdown : List Event → List Shuthow → Shuthow → Except Errno Unit
  close : List Event → List Shuthow → Int → Except Errno Unit

structure Session where
  buf : St UInt8
  accepted : List UInt8
  shut : List (Shuthow × List UInt8)

abbrev SessionM := EStateM Exc Session

/-- A member function of the sockbuf. -/
def onSession {α : Type} (c : M UInt8 α) : SessionM α :=
  zoom Session.buf (fun z b => { z with buf := b }) c

/-- The bytes that a call which returned `r` reports as accepted. -/
def PutCall.reported : PutCall → Int → List UInt8
  | .sputc c, r => if r = eof then [] else [c]
  | .overflow c, r => if c = eof ∨ r = eof then [] else [CharType.ofInt c]
  | .xsputn s, r => s.take r.toNat
  | .sync, _ => []
  | .sendtimeout _, _ => []

def Session.call (N : Net) (c : PutCall) : SessionM Unit := do
  let r ← onSession (c.run N.toKernel)
  modify fun z => { z with accepted := z.accepted ++ c.reported r }

/-- `delete[] eback(); setg(0, 0, 0)` -/
def dropGet : M UInt8 Unit := modify fun s => { s with self := { s.self with get := none } }

/-- `delete[] pbase(); setp(0, 0)` -/
def dropPut : M UInt8 Unit := modify fun s => { s with self := { s.self with put := none } }

/-- `::shutdown(rep->sock, sh)` and the throw if it fails. -/
def sysShutdown (N : Net) (sh : Shuthow) : SessionM Unit := fun z =>
  let z' := { z with shut := z.shut ++ [(sh, z.buf.wire)] }
  match N.shutdown z.buf.sys.history (z.shut.map Prod.fst) sh with
  | .ok () => .ok () z'
  | .error e =>
    .error (.sockerr (.ofSpecification e "sockbuf::shutdown" z.buf.self.sockname))
      { z' with buf := { z.buf with sys := { z.buf.sys with errno := e } } }

/-- `shutdown(shut_read)` -/
def shutdownRead (N : Net) : SessionM Unit := do
  onSession dropGet
  sysShutdown N .shutRead

/-- `shutdown(shut_write)` -/
def shutdownWrite (N : Net) : SessionM Unit := do
  onSession dropPut
  sysShutdown N .shutWrite

/-- `shutdown(shuthow sh)`; `shut_readwrite` calls the two others first. -/
def Session.shutdown (N : Net) : Shuthow → SessionM Unit
  | .shutRead => shutdownRead N
  | .shutWrite => shutdownWrite N
  | .shutReadwrite => do
    shutdownRead N
    shutdownWrite N
    sysShutdown N .shutReadwrite

/-- `close(rep->sock)` and the throw if it fails. -/
def closeSock (N : Net) : SessionM Unit := fun z =>
  match N.close z.buf.sys.history (z.shut.map Prod.fst) z.buf.rep.sock with
  | .ok () => .ok () z
  | .error e =>
    .error (.sockerr (.ofSpecification e "sockbuf::~sockbuf" z.buf.self.sockname))
      { z with buf := { z.buf with sys := { z.buf.sys with errno := e } } }

/-- `~basic_sockbuf()` -/
def Session.destroy (N : Net) : SessionM Unit := do
  let last ← onSession (release N.toKernel)
  if last then closeSock N else pure ()

inductive Use where
  | call (c : PutCall)
  | shutdown (sh : Shuthow)

def Use.run (N : Net) : Use → SessionM Unit
  | .call c => Session.call N c
  | .shutdown sh => Session.shutdown N sh

/-- A new sockbuf on a descriptor of its own. -/
def Session.fresh (P : Platform) (sock : Int) (gbuf pbuf : Nat → UInt8) (errno : Errno) : Session :=
  ⟨Sockstream.fresh P sock gbuf pbuf errno, [], []⟩

/-- The uses one after the other, and the destruction. -/
def Session.lifetime (N : Net) (uses : List Use) (z : Session) :
    List (Except Exc Unit) × Session :=
  runAll (uses.map (Use.run N) ++ [Session.destroy N]) z

/-! ## What is expected of a session -/

/-- What was accepted has been handed to the kernel, in order and once, and had been whenever the
write side was shut down. -/
def Session.Delivered (z : Session) : Prop :=
  z.buf.wire = z.accepted ∧ ∀ e ∈ z.shut, e.1 ≠ .shutRead → e.2 = z.accepted

/-- The write side is shut down only while nothing is pending. -/
def NothingPending : Use → Session → Prop
  | .shutdown sh, z => sh ≠ .shutRead → z.buf.self.pending = []
  | .call _, _ => True

/-- The uses that shut the write side down. -/
def Use.ends : Use → Prop
  | .shutdown sh => sh ≠ .shutRead
  | .call _ => False

instance (u : Use) : Decidable u.ends := by
  cases u with
  | call c => exact .isFalse id
  | shutdown sh => exact inferInstanceAs (Decidable (sh ≠ .shutRead))

/-! ## With the write side open

As long as the write side is open, a session is one of `Sockbuf.Put`. It ends with the first
`shutdown` of the write side or with the destructor. -/

/-- The write side is open, and what was accepted went out or is pending. -/
structure Session.Open (z : Session) : Prop where
  putOpen : z.buf.PutOpen
  sent : z.buf.wire ++ z.buf.self.pending = z.accepted
  shut : ∀ e ∈ z.shut, e.1 = .shutRead

/-- From `z` on nothing can be accepted, and nothing has moved since. -/
structure Session.Ended (z z' : Session) : Prop where
  put : z'.buf.self.put = none
  wire : z'.buf.wire = z.buf.wire
  accepted : z'.accepted = z.accepted
  shut : ∀ e ∈ z'.shut, e ∈ z.shut ∨ e.2 = z.buf.wire

section Steps

variable {N : Net} {z z' z'' : Session}

theorem Session.Ended.trans (h : z.Ended z') (h' : z'.Ended z'') : z.Ended z'' where
  put := h'.put
  wire := h'.wire.trans h.wire
  accepted := h'.accepted.trans h.accepted
  shut e he := by
    rcases h'.shut e he with hold | hnew
    · exact h.shut e hold
    · exact .inr (hnew.trans h.wire)

/-- A call that returns has stored what it reports as accepted. -/
theorem PutCall.reported_of_returns (c : PutCall) {r : Int} (h : c.returns r) :
    c.reported r = c.input := by
  cases c with
  | sputc c =>
    have hr : r = CharType.toInt c := h
    have hne : r ≠ eof := by
      rw [hr]
      exact toInt_ne_eof c
    exact if_neg hne
  | overflow c =>
    have hr : r = if c = eof then 0 else c := h
    show (if c = eof ∨ r = eof then [] else _) = if c = eof then [] else _
    by_cases hc : c = eof
    · rw [if_pos (.inl hc), if_pos hc]
    · rw [if_neg hc] at hr
      rw [if_neg hc, hr, if_neg (by simp [hc])]
  | xsputn cs =>
    have hr : r = cs.length := h
    show cs.take r.toNat = cs
    rw [hr, Int.toNat_natCast, List.take_length]
  | sync => rfl
  | sendtimeout wp => rfl

theorem Session.open_call (hz : z.Open) (c : PutCall) :
    wp (Session.call N c) (fun _ z' => z'.Open) (fun _ _ => True) z := by
  unfold Session.call onSession
  rw [wp_bind, wp_zoom]
  refine (c.run_spec N.toKernel hz.putOpen).mono ?_ (fun _ _ _ => trivial)
  intro r s ⟨⟨hopen, hsteps⟩, hreturns, hstored, _⟩
  rw [wp_modify]
  refine ⟨hopen, ?_, hz.shut⟩
  -- the bytes that have entered the buffer are those of the call
  obtain ⟨ds, hds, hsent⟩ := hsteps.grows
  have hinput : c.input = ds := List.append_cancel_left (hstored.symm.trans hds)
  show s.wire ++ s.self.pending = z.accepted ++ c.reported r
  rw [c.reported_of_returns hreturns, hinput, ← hz.sent]
  exact hsent

/-- `::shutdown` moves no byte. -/
theorem sysShutdown_spec (sh : Shuthow) (z : Session) :
    wp (sysShutdown N sh)
      (fun _ z' => z' = { z with shut := z.shut ++ [(sh, z.buf.wire)] }) (fun _ _ => True) z := by
  unfold wp sysShutdown
  cases N.shutdown z.buf.sys.history (z.shut.map Prod.fst) sh with
  | ok _ => rfl
  | error e => trivial

theorem Session.open_shutdownRead (hz : z.Open) :
    wp (shutdownRead N) (fun _ z' => z'.Open ∧ z'.buf.wire = z.buf.wire ∧
      z'.accepted = z.accepted ∧ z'.buf.self.pending = z.buf.self.pending) (fun _ _ => True) z := by
  unfold shutdownRead onSession dropGet
  rw [wp_bind, wp_zoom, wp_modify]
  refine (sysShutdown_spec .shutRead _).mono ?_ (fun _ _ _ => trivial)
  rintro _ z' rfl
  refine ⟨⟨?_, hz.sent, ?_⟩, rfl, rfl, rfl⟩
  · obtain ⟨p, hput, hle, hpend, hpos⟩ := hz.putOpen
    exact ⟨p, hput, hle, hpend, hpos⟩
  · intro e he
    rcases List.mem_append.mp he with he | he
    · exact hz.shut e he
    · rw [List.mem_singleton.mp he]

theorem sysShutdown_ended (sh : Shuthow) (h : z.Ended z') :
    wp (sysShutdown N sh) (fun _ z'' => z.Ended z'') (fun _ _ => True) z' := by
  refine (sysShutdown_spec sh z').mono ?_ (fun _ _ _ => trivial)
  rintro _ z'' rfl
  refine ⟨h.put, h.wire, h.accepted, ?_⟩
  intro e he
  rcases List.mem_append.mp he with he | he
  · exact h.shut e he
  · rw [List.mem_singleton.mp he]
    exact .inr h.wire

theorem Session.ended_shutdownRead (hput : z.buf.self.put = none) :
    wp (shutdownRead N) (fun _ z' => z.Ended z') (fun _ _ => True) z := by
  unfold shutdownRead onSession dropGet
  rw [wp_bind, wp_zoom, wp_modify]
  exact sysShutdown_ended .shutRead ⟨hput, rfl, rfl, fun _ he => .inl he⟩

/-- Whatever was pending, the put area is gone. -/
theorem Session.ended_shutdownWrite (z : Session) :
    wp (shutdownWrite N) (fun _ z' => z.Ended z') (fun _ _ => True) z := by
  unfold shutdownWrite onSession dropPut
  rw [wp_bind, wp_zoom, wp_modify]
  exact sysShutdown_ended .shutWrite ⟨rfl, rfl, rfl, fun _ he => .inl he⟩

/-- On a sockbuf without put area a call accepts nothing and moves nothing. -/
theorem Session.ended_call (hput : z.buf.self.put = none) (c : PutCall) :
    wp (Session.call N c) (fun _ z' => z.Ended z') (fun _ _ => True) z := by
  obtain ⟨r, rep, hrun, hreported⟩ : ∃ r rep,
      c.run N.toKernel z.buf = .ok r { z.buf with rep := rep } ∧ c.reported r = [] := by
    cases c with
    | sputc c => exact ⟨eof, z.buf.rep, sputc_of_shut _ c hput, rfl⟩
    | overflow c =>
      refine ⟨eof, z.buf.rep, overflow_of_shut _ c hput, ?_⟩
      exact if_pos (.inr rfl)
    | xsputn cs =>
      have hxsputn := (xsputn_of_shut N.toKernel cs hput).1
      exact ⟨0, z.buf.rep, map_ok hxsputn, List.take_zero (l := cs)⟩
    | sync => exact ⟨0, z.buf.rep, sync_of_shut _ hput, rfl⟩
    | sendtimeout wp => exact ⟨_, _, rfl, rfl⟩
  unfold Session.call onSession
  rw [wp_bind, wp_zoom, wp_iff_of_ok hrun, wp_modify, hreported, List.append_nil]
  exact ⟨hput, rfl, rfl, fun _ he => .inl he⟩

/-- One use of an open session: the write side stays open, or it ends with what was pending still
there. -/
theorem Session.step_open (hz : z.Open) (u : Use) :
    wp (u.run N) (fun _ z' => if u.ends then ∃ z1 : Session, z1.Open ∧ z1.accepted = z.accepted ∧
        z1.buf.self.pending = z.buf.self.pending ∧ z1.Ended z' else z'.Open)
      (fun _ _ => True) z := by
  cases u with
  | call c => exact Session.open_call hz c
  | shutdown sh =>
    cases sh with
    | shutRead =>
      exact (Session.open_shutdownRead hz).mono (fun _ _ h => h.1) (fun _ _ h => h)
    | shutWrite =>
      refine (Session.ended_shutdownWrite z).mono ?_ (fun _ _ h => h)
      intro _ z' h
      exact ⟨z, hz, rfl, rfl, h⟩
    | shutReadwrite =>
      -- the read side goes first, and takes nothing of the write side along
      show wp (shutdownRead N >>= fun _ => shutdownWrite N >>= fun _ =>
        sysShutdown N .shutReadwrite) _ _ z
      rw [wp_bind]
      refine (Session.open_shutdownRead hz).mono ?_ (fun _ _ h => h)
      intro _ z1 ⟨h1, _, haccepted, hpending⟩
      rw [wp_bind]
      refine (Session.ended_shutdownWrite z1).mono ?_ (fun _ _ h => h)
      intro _ z2 h2
      refine (sysShutdown_ended .shutReadwrite h2).mono ?_ (fun _ _ h => h)
      intro _ z3 h3
      exact ⟨z1, h1, haccepted, hpending, h3⟩

theorem Session.step_ended (hput : z.buf.self.put = none) (u : Use) :
    wp (u.run N) (fun _ z' => z.Ended z') (fun _ _ => True) z := by
  cases u with
  | call c => exact Session.ended_call hput c
  | shutdown sh =>
    cases sh with
    | shutRead => exact Session.ended_shutdownRead hput
    | shutWrite => exact Session.ended_shutdownWrite z
    | shutReadwrite =>
      show wp (shutdownRead N >>= fun _ => shutdownWrite N >>= fun _ =>
        sysShutdown N .shutReadwrite) _ _ z
      rw [wp_bind]
      refine (Session.ended_shutdownRead hput).mono ?_ (fun _ _ h => h)
      intro _ z1 h1
      rw [wp_bind]
      refine (Session.ended_shutdownWrite z1).mono ?_ (fun _ _ h => h)
      intro _ z2 h2
      exact sysShutdown_ended .shutReadwrite (h1.trans h2)

/-- `close` moves no byte. -/
theorem closeSock_spec (z : Session) :
    wp (closeSock N) (fun _ z' => z' = z) (fun _ _ => True) z := by
  unfold wp closeSock
  cases N.close z.buf.sys.history (z.shut.map Prod.fst) z.buf.rep.sock with
  | ok _ => rfl
  | error e => trivial

theorem Session.destroy_after {Q : Session → Prop} (h : wp (release N.toKernel)
    (fun _ s => Q { z with buf := s }) (fun _ _ => True) z.buf) :
    wp (Session.destroy N) (fun _ z' => Q z') (fun _ _ => True) z := by
  unfold Session.destroy onSession
  rw [wp_bind, wp_zoom]
  refine h.mono ?_ (fun _ _ _ => trivial)
  intro last s hs
  refine wp_ite_intro (fun _ => ?_) (fun _ => hs)
  refine (closeSock_spec _).mono ?_ (fun _ _ h => h)
  rintro _ z' rfl
  exact hs

/-- The destructor flushes. -/
theorem Session.destroy_open (hz : z.Open) :
    wp (Session.destroy N) (fun _ z' => z'.Delivered) (fun _ _ => True) z := by
  refine Session.destroy_after ?_
  unfold release
  rw [wp_bind, overflow_eof N.toKernel hz.putOpen]
  refine (sync_spec N.toKernel hz.putOpen).mono ?_ (fun _ _ _ => trivial)
  intro _ s ⟨_, hwrote, hempty⟩
  refine ⟨?_, fun e he hne => absurd (hz.shut e he) hne⟩
  show s.wire = z.accepted
  have hsent := hwrote.sent
  rw [hempty, List.append_nil, List.append_nil] at hsent
  rw [hsent, hz.sent]

theorem Session.destroy_ended (hput : z.buf.self.put = none) :
    wp (Session.destroy N) (fun _ z' => z.Ended z') (fun _ _ => True) z := by
  refine Session.destroy_after ?_
  unfold release
  rw [wp_bind, wp_iff_of_ok (overflow_of_shut N.toKernel eof hput)]
  exact ⟨hput, rfl, rfl, fun _ he => .inl he⟩

end Steps

/-! ## Runs -/

section Runs

variable {N : Net} {z : Session} {uses : List Use}

theorem Session.Ended.delivered_iff {z z' : Session} (h : z.Ended z')
    (hshut : ∀ e ∈ z.shut, e.1 = .shutRead) : z'.Delivered ↔ z.buf.wire = z.accepted := by
  unfold Session.Delivered
  rw [h.wire, h.accepted]
  refine ⟨fun hd => hd.1, fun heq => ⟨heq, ?_⟩⟩
  intro e he hne
  rcases h.shut e he with hold | hnew
  · exact absurd (hshut e hold) hne
  · rw [hnew, heq]

/-- Once the write side is shut down nothing moves any more. Induction on the uses that are left. -/
theorem lifetime_ended (hput : z.buf.self.put = none)
    (hok : (Session.lifetime N uses z).1.all Except.isOk = true) :
    z.Ended (Session.lifetime N uses z).2 ∧ StepsMeet (Use.run N) NothingPending uses z := by
  induction uses generalizing z with
  | nil =>
    obtain ⟨⟨_, hdestroy⟩, -⟩ := of_runAll_isOk hok
    exact ⟨(Session.destroy_ended hput).of_ok hdestroy, trivial⟩
  | cons u us ih =>
    obtain ⟨⟨_, hu⟩, hrest⟩ := of_runAll_isOk hok
    have hended := (Session.step_ended (N := N) hput u).of_ok hu
    obtain ⟨hfinal, hmeet⟩ := ih hended.put hrest
    refine ⟨hended.trans hfinal, ?_, hmeet⟩
    cases u with
    | call c => trivial
    | shutdown sh =>
      intro _
      unfold Streambuf.pending
      rw [hput]

/-- Induction on the uses: the write side stays open, or the first use that shuts it down
decides. -/
theorem lifetime_open (hz : z.Open)
    (hok : (Session.lifetime N uses z).1.all Except.isOk = true) :
    (Session.lifetime N uses z).2.Delivered ↔
      StepsMeet (Use.run N) NothingPending uses z := by
  induction uses generalizing z with
  | nil =>
    obtain ⟨⟨_, hdestroy⟩, -⟩ := of_runAll_isOk hok
    exact iff_of_true ((Session.destroy_open hz).of_ok hdestroy) trivial
  | cons u us ih =>
    obtain ⟨⟨_, hu⟩, hrest⟩ := of_runAll_isOk hok
    have hstep := (Session.step_open (N := N) hz u).of_ok hu
    by_cases hends : u.ends
    · rw [if_pos hends] at hstep
      obtain ⟨z1, h1, haccepted, hpending, hended⟩ := hstep
      -- this use decides: what comes after it moves no byte and meets the condition
      obtain ⟨hfinal, hmeet⟩ := lifetime_ended hended.put hrest
      have hafter : (Session.lifetime N (u :: us) z).2.Delivered ↔ z1.buf.wire = z1.accepted :=
        (hended.trans hfinal).delivered_iff h1.shut
      have hcond : NothingPending u z ↔ z.buf.self.pending = [] := by
        cases u with
        | call c => exact hends.elim
        | shutdown sh => exact ⟨fun h => h hends, fun h _ => h⟩
      have hmeet' : StepsMeet (Use.run N) NothingPending (u :: us) z ↔ NothingPending u z :=
        and_iff_left hmeet
      rw [hafter, hmeet', hcond, ← h1.sent, hpending]
      constructor
      · intro h
        exact List.append_cancel_left (h.symm.trans (List.append_nil _).symm)
      · intro h
        rw [h, List.append_nil]
    · rw [if_neg hends] at hstep
      -- this use meets the condition, so it is left to the others
      have hmeet' : StepsMeet (Use.run N) NothingPending (u :: us) z ↔
          StepsMeet (Use.run N) NothingPending us (attempt (u.run N) z).2 := by
        refine and_iff_right ?_
        cases u with
        | call c => trivial
        | shutdown sh => exact fun hne => absurd hne hends
      rw [hmeet']
      exact ih hstep hrest

end Runs

theorem open_fresh (P : Platform) (sock : Int) (gbuf pbuf : Nat → UInt8) (errno : Errno) :
    (Session.fresh P sock gbuf pbuf errno).Open where
  putOpen := putOpen_fresh P sock gbuf pbuf errno
  sent := rfl
  shut e he := by cases he

/-- **When no accepted byte is lost.** For every run of a narrow sockbuf from its construction to
its destruction in which no call throws: every accepted byte has reached the kernel at the end, and
had whenever the write side was shut down, exactly if nothing was pending at these moments. -/
theorem session_delivered_iff (P : Platform) (N : Net) (sock : Int) (gbuf pbuf : Nat → UInt8)
    (errno : Errno) (uses : List Use)
    (hok : (Session.lifetime N uses (.fresh P sock gbuf pbuf errno)).1.all Except.isOk = true) :
    (Session.lifetime N uses (.fresh P sock gbuf pbuf errno)).2.Delivered ↔
      StepsMeet (Use.run N) NothingPending uses (.fresh P sock gbuf pbuf errno) :=
  lifetime_open (open_fresh P sock gbuf pbuf errno) hok

/-- A peer that takes everything. -/
def Net.sink : Net where
  toKernel := .sink
  shutdown _ _ _ := .ok ()
  close _ _ _ := .ok ()

/-- Two bytes, a flush, and the end of the output: all of it arrives. -/
theorem session_delivered_flushed :
    (Session.lifetime .sink [.call (.xsputn [65, 66]), .call .sync, .shutdown .shutWrite]
      (.fresh ⟨4, by decide⟩ 3 (fun _ => 0) (fun _ => 0) 0)).2.Delivered := by
  refine (session_delivered_iff ⟨4, by decide⟩ .sink 3 (fun _ => 0) (fun _ => 0) 0
    [.call (.xsputn [65, 66]), .call .sync, .shutdown .shutWrite] (by decide +kernel)).mpr ?_
  refine ⟨trivial, trivial, ?_, trivial⟩
  intro _
  decide +kernel

/-- Without the flush no call throws either, and the two accepted bytes are gone. -/
theorem shutdown_drops_pending :
    let r := Session.lifetime .sink [.call (.xsputn [65, 66]), .shutdown .shutWrite]
      (.fresh ⟨4, by decide⟩ 3 (fun _ => 0) (fun _ => 0) 0)
    (r.1.all Except.isOk = true ∧ r.2.accepted = [65, 66] ∧ r.2.buf.wire = []) ∧
      ¬ r.2.Delivered := by
  intro r
  have hrun : r.1.all Except.isOk = true ∧ r.2.accepted = [65, 66] ∧ r.2.buf.wire = [] := by
    decide +kernel
  refine ⟨hrun, ?_⟩
  intro h
  have hwire := h.1
  rw [hrun.2.1, hrun.2.2] at hwire
  cases hwire

end Sockstream
