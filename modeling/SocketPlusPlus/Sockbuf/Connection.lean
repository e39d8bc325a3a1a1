import SocketPlusPlus.Logic.Duplex
import SocketPlusPlus.Sockbuf.Shutdown

/-!
# Two sockbufs on one connection

A `Connection` has a process at each end, and the bytes that are on their way. The processes call
members of their sockbufs in any order, shut a side down or destroy the sockbuf. Of the network it
is asked that it carries the bytes of each direction in order, and answers a `::read` with nothing
only when all has arrived and the sender is done.

A step is a whole call. A call that reads may be waiting while the other process goes on: its place
in the order is that of its return, and the place of a call that writes is that of its start.

The result puts the two halves together (`connection_delivers`): what is handed out at one end is at
any time a prefix of what was stored at the other, and who has met the end of the file has all of
it.
-/

namespace Sockstream

open Exec History

/-! ## The two halves of a sockbuf

A member works on the put area or on the get area, and leaves the other one, and what the history
says about it, as it was. So the invariant of a half is kept by all members of the other. -/

/-- The write side has kept all bytes, or it is shut down. -/
def St.PutKept (s : St UInt8) : Prop :=
  s.PutInv ∨ s.self.put = none ∧ s.wire <+: s.self.stored

/-- The read side has kept all bytes, or it is shut down. -/
def St.GetKept (s : St UInt8) : Prop :=
  s.GetInv ∨ s.self.get = none ∧ s.self.copied <+: s.received

/-- What a member of the write side leaves alone. -/
structure St.WritesOnly (s s' : St UInt8) : Prop where
  gend : s'.rep.gend = s.rep.gend
  get : s'.self.get = s.self.get
  copied : s'.self.copied = s.self.copied
  inputs : s'.inputs = s.inputs

/-- What a member of the read side leaves alone. -/
structure St.ReadsOnly (s s' : St UInt8) : Prop where
  pend : s'.rep.pend = s.rep.pend
  put : s'.self.put = s.self.put
  stored : s'.self.stored = s.self.stored
  wire : s'.wire = s.wire

section Halves

variable {s s' : St UInt8} {cs : List UInt8}

theorem Wrote.writes (h : Wrote cs s s') : s.WritesOnly s' :=
  ⟨by rw [h.rep], h.get, h.copied, h.inputs⟩

theorem Took.reads (h : Took cs s s') : s.ReadsOnly s' :=
  ⟨by rw [h.rep], h.put, h.stored, h.wire⟩

theorem St.PutInv.of_reads (hs : s.PutInv) (h : s.ReadsOnly s') : s'.PutInv := by
  obtain ⟨⟨p, hput, hle, hpend, hpos⟩, q, hq, hrep⟩ := hs
  have hout : s'.out = s.out := by simp [St.out, Streambuf.pending, h.put, h.stored, h.wire]
  exact ⟨⟨p, h.put.trans hput, hle, by rw [h.pend, hpend], by rwa [h.pend]⟩, q, hq, by rwa [hout]⟩

theorem St.GetInv.of_writes (hs : s.GetInv) (h : s.WritesOnly s') : s'.GetInv := by
  obtain ⟨⟨g, hget, hle, hend⟩, q, hq, hpushed, hpopped, hheld⟩ := hs
  refine ⟨⟨g, h.get.trans hget, hle, by rwa [h.gend]⟩, q, hq, ?_, h.copied.trans hpopped, ?_⟩
  · rw [← hpushed, St.received, h.inputs, St.received]
  · rw [← hheld, Streambuf.unread, h.get, Streambuf.unread]

theorem St.PutKept.of_reads (hs : s.PutKept) (h : s.ReadsOnly s') : s'.PutKept := by
  rcases hs with hs | ⟨hput, hwire⟩
  · exact .inl (hs.of_reads h)
  · exact .inr ⟨h.put.trans hput, by rwa [h.wire, h.stored]⟩

theorem St.GetKept.of_writes (hs : s.GetKept) (h : s.WritesOnly s') : s'.GetKept := by
  rcases hs with hs | ⟨hget, hcopied⟩
  · exact .inl (hs.of_writes h)
  · refine .inr ⟨h.get.trans hget, ?_⟩
    rwa [h.copied, St.received, h.inputs]

theorem St.PutKept.wire_le (hs : s.PutKept) : s.wire <+: s.self.stored := by
  rcases hs with hs | ⟨-, hwire⟩
  · exact ⟨s.self.pending, hs.conserves⟩
  · exact hwire

theorem St.GetKept.copied_le (hs : s.GetKept) : s.self.copied <+: s.received := by
  rcases hs with hs | ⟨-, hcopied⟩
  · exact ⟨s.self.unread, hs.conserves⟩
  · exact hcopied

end Halves

/-! ## What a call does

Of a call the connection sees the bytes that it puts on the wire, the answers that its `::read`
gets, and whether it reports the end of the file. -/

/-- What a member of the write side may do. -/
structure St.Sends (s s' : St UInt8) : Prop where
  writes : s.WritesOnly s'
  kept : s'.PutKept
  wire : s.wire <+: s'.wire
  shut : s.self.put = none → s'.self.put = none ∧ s'.wire = s.wire

/-- What a member of the read side may do. -/
structure St.Hears (s s' : St UInt8) : Prop where
  reads : s.ReadsOnly s'
  kept : s'.GetKept
  inputs : s.inputs <+: s'.inputs
  copied : s.self.copied <+: s'.self.copied

/-- The call reports the end of the file. -/
def GetCall.ends : GetCall → Int → Prop
  | .underflow, r => r = eof
  | .uflow, r => r = eof
  | .sbumpc, r => r = eof
  | .xsgetn n, r => r < n
  | _, _ => False

section Calls

variable {s s' : St UInt8} {cs : List UInt8} {K : Kernel}

theorem St.PutInv.sends (hs : s.PutInv) (h : Wrote cs s s') : s.Sends s' := by
  obtain ⟨p, hput, -⟩ := hs.1
  refine ⟨h.writes, .inl (hs.of_steps h.putOpen h.steps), h.steps.wire_prefix, fun hnone => ?_⟩
  rw [hput] at hnone
  cases hnone

theorem St.PutKept.sends_settings (hs : s.PutKept) {rep : Sockcnt} (hrep : s.rep.SameEnds rep) :
    s.Sends { s with rep := rep } := by
  refine ⟨⟨hrep.gend, rfl, rfl, rfl⟩, ?_, List.prefix_rfl, fun hnone => ⟨hnone, rfl⟩⟩
  exact hs.of_reads ⟨hrep.pend, rfl, rfl, rfl⟩

theorem St.GetInv.hears (hs : s.GetInv) (h : Took cs s s')
    (hcopied : s'.self.copied = s.self.copied ++ cs) : s.Hears s' := by
  obtain ⟨ins, hins, -⟩ := h.consumed
  exact ⟨h.reads, .inl (hs.of_took h hcopied), ⟨ins, hins.symm⟩, ⟨cs, hcopied.symm⟩⟩

theorem St.GetKept.hears_settings (hs : s.GetKept) {rep : Sockcnt} (hrep : s.rep.SameEnds rep) :
    s.Hears { s with rep := rep } := by
  refine ⟨⟨hrep.pend, rfl, rfl, rfl⟩, ?_, List.prefix_rfl, List.prefix_rfl⟩
  exact hs.of_writes ⟨hrep.gend, rfl, rfl, rfl⟩

/-- A member of the write side, on an area that is there or not. -/
theorem PutCall.sends (K : Kernel) (c : PutCall) (hs : s.PutKept) :
    wp (c.run K) (fun _ s' => s.Sends s') (fun _ s' => s.Sends s') s := by
  have hsame : s.rep.SameEnds s.rep := ⟨rfl, rfl⟩
  rcases hs with hs | ⟨hput, hwire⟩
  · have hopen := hs.1
    cases c with
    | sputc c =>
      refine (Hands.sputc K c s hopen).mono (fun _ _ h => hs.sends h) ?_
      intro e s' ⟨_, p, _, h⟩
      exact hs.sends h
    | xsputn bytes =>
      refine wp_map.mpr ((Hands.xsputn K bytes s hopen).mono (fun _ _ h => hs.sends h) ?_)
      intro e s' ⟨_, p, _, h⟩
      exact hs.sends h
    | sync => exact (sync_spec K hopen).mono (fun _ _ h => hs.sends h.2.1) fun _ _ h => hs.sends h.2
    | sendtimeout wp => exact St.PutKept.sends_settings (.inl hs) ⟨rfl, rfl⟩
    | overflow c =>
      by_cases hc : c = eof
      · subst hc
        refine (overflow_eof K hopen).mpr ?_
        exact (sync_spec K hopen).mono (fun _ _ h => hs.sends h.2.1) fun _ _ h => hs.sends h.2
      · exact (overflow_spec K hopen hc).mono (fun _ _ h => hs.sends h.2) fun _ _ h => hs.sends h.2
  · have hkept : s.PutKept := .inr ⟨hput, hwire⟩
    have hstay : s.Sends s := hkept.sends_settings hsame
    cases c with
    | sputc c => exact (wp_iff_of_ok (sputc_of_shut K c hput)).mpr hstay
    | xsputn bytes => exact (wp_iff_of_ok (map_ok (xsputn_of_shut K bytes hput).1)).mpr hstay
    | sync => exact (wp_iff_of_ok (sync_of_shut K hput)).mpr hstay
    | sendtimeout wp => exact hkept.sends_settings ⟨rfl, rfl⟩
    | overflow c => exact (wp_iff_of_ok (overflow_of_shut K c hput)).mpr hstay

/-- A caller that keeps the character it is handed. -/
theorem hears_of_byte {call : M UInt8 Int} (hs : s.GetInv)
    (h : wp call
      (fun r s' => s'.self.copied = s.self.copied ∧
        (r = eof ∧ Took [] s s' ∧ MetEnd s s' ∨ ∃ c : UInt8, r = c.toNat ∧ Took [c] s s'))
      (fun e s' => e.IsInputError ∧ Took [] s s' ∧ s'.self.copied = s.self.copied) s) :
    wp (keep call) (fun r s' => s.Hears s' ∧ (r = eof → MetEnd s s' ∧ s'.GetInv))
      (fun _ s' => s.Hears s') s := by
  unfold keep
  rw [wp_bind]
  refine h.mono ?_ ?_
  · rintro r s1 ⟨hcopied, ⟨rfl, h1, hend⟩ | ⟨c, rfl, h1⟩⟩
    · have hnone : s1.self.copied = s.self.copied ++ [] := by simp [hcopied]
      rw [wp_bind, wp_modify, if_pos rfl]
      exact ⟨hs.hears h1 hnone, fun _ => ⟨hend, hs.of_took h1 hnone⟩⟩
    · have hne : (c.toNat : Int) ≠ eof := toInt_ne_eof c
      have hback : (CharType.ofInt c.toNat : UInt8) = c := CharType.ofInt_toInt c
      have htook : Took [c] s
          { s1 with self := { s1.self with copied := s1.self.copied ++ [c] } } :=
        ⟨h1.rep, h1.put, h1.sockname, h1.stored, h1.wire, h1.getOpen, h1.consumed⟩
      have hkept : s1.self.copied ++ [c] = s.self.copied ++ [c] := by rw [hcopied]
      rw [wp_bind, wp_modify, if_neg hne, hback]
      exact ⟨hs.hears htook hkept, fun heof => absurd heof hne⟩
  · intro e s1 ⟨_, h1, hcopied⟩
    exact hs.hears h1 (by simp [hcopied])

/-- A member of the read side, on an area that is there or not. A call that reports the end of the
file on an area that is there has met it. -/
theorem GetCall.hears (K : Kernel) (c : GetCall) (hs : s.GetKept) :
    wp (c.run K)
      (fun r s' => s.Hears s' ∧ (c.ends r → s.self.get ≠ none → MetEnd s s' ∧ s'.GetInv))
      (fun _ s' => s.Hears s') s := by
  rcases hs with hs | ⟨hget, hcopied⟩
  · cases c with
    | underflow =>
      refine (underflow_spec K hs.1).mono ?_ fun _ _ h => hs.hears h.2.1 (by simp [h.2.2])
      intro r s' ⟨h, hcopied, _, hend⟩
      have hnone : s'.self.copied = s.self.copied ++ [] := by simp [hcopied]
      exact ⟨hs.hears h hnone, fun heof _ => ⟨hend heof, hs.of_took h hnone⟩⟩
    | uflow =>
      exact (hears_of_byte hs (uflow_spec K hs.1)).mono
        (fun _ _ h => ⟨h.1, fun heof _ => h.2 heof⟩) fun _ _ h => h
    | sbumpc =>
      exact (hears_of_byte hs (sbumpc_spec K hs.1)).mono
        (fun _ _ h => ⟨h.1, fun heof _ => h.2 heof⟩) fun _ _ h => h
    | xsgetn n =>
      refine wp_map.mpr ((xsgetn_spec K n hs.1).mono ?_ ?_)
      · intro r s' ⟨cs, h, hcopied, _, hcount⟩
        refine ⟨hs.hears h hcopied, fun hfew _ => ?_⟩
        have hlt : r < n := Int.ofNat_lt.mp hfew
        rcases hcount with hall | ⟨-, hend⟩
        · omega
        · exact ⟨hend, hs.of_took h hcopied⟩
      · intro e s' ⟨_, cs, h, hcopied, _⟩
        exact hs.hears h hcopied
    | recvtimeout wp => exact ⟨St.GetKept.hears_settings (.inl hs) ⟨rfl, rfl⟩, False.elim⟩
    | oob b => exact ⟨St.GetKept.hears_settings (.inl hs) ⟨rfl, rfl⟩, False.elim⟩
  · have hkept : s.GetKept := .inr ⟨hget, hcopied⟩
    have hstay : s.Hears s := hkept.hears_settings ⟨rfl, rfl⟩
    have hkeep : ∀ call : M UInt8 Int, call s = .ok eof s → keep call s = .ok eof s := by
      intro call hcall
      unfold keep
      rw [bind_ok hcall]
      rfl
    cases c with
    | underflow =>
      exact (wp_iff_of_ok (underflow_of_shut K hget)).mpr ⟨hstay, fun _ hsome => absurd hget hsome⟩
    | uflow =>
      exact (wp_iff_of_ok (hkeep _ (uflow_of_shut K hget))).mpr
        ⟨hstay, fun _ hsome => absurd hget hsome⟩
    | sbumpc =>
      exact (wp_iff_of_ok (hkeep _ (sbumpc_of_shut K hget))).mpr
        ⟨hstay, fun _ hsome => absurd hget hsome⟩
    | xsgetn n =>
      exact (wp_iff_of_ok (map_ok (xsgetn_of_shut K n hget).1)).mpr
        ⟨hstay, fun _ hsome => absurd hget hsome⟩
    | recvtimeout wp => exact ⟨hkept.hears_settings ⟨rfl, rfl⟩, False.elim⟩
    | oob b => exact ⟨hkept.hears_settings ⟨rfl, rfl⟩, False.elim⟩

end Calls

/-! ## What a process does at its end

An act is a call of a member, a `shutdown` or the destructor. Behind the destructor a sockbuf does
nothing any more. -/

inductive Act where
  | put (c : PutCall)
  | get (c : GetCall)
  | shutdown (sh : Shuthow)
  | destroy

def Act.run (N : Net) : Act → SessionM Int
  | .put c => do
    Session.call N c
    pure 0
  | .get c => onSession (c.run N.toKernel)
  | .shutdown sh => do
    Session.shutdown N sh
    pure 0
  | .destroy => do
    Session.destroy N
    pure 0

/-- What an act may do to the sockbuf. -/
structure Session.Acts (z z' : Session) : Prop where
  put : z'.buf.PutKept
  get : z'.buf.GetKept
  wire : z.buf.wire <+: z'.buf.wire
  inputs : z.buf.inputs <+: z'.buf.inputs
  copied : z.buf.self.copied <+: z'.buf.self.copied
  shut : z.buf.self.put = none → z'.buf.self.put = none ∧ z'.buf.wire = z.buf.wire

/-- An act that reports the end of the file has met it; a destructor that returns has flushed. -/
def Act.Returns (z : Session) : Act → Int → Session → Prop
  | .get c, r, z' => c.ends r → z.buf.self.get ≠ none → MetEnd z.buf z'.buf ∧ z'.buf.GetInv
  | .destroy, _, z' => z.buf.PutOpen → z'.buf.wire = z'.buf.self.stored
  | _, _, _ => True

section Acts

variable {N : Net} {z z' z'' : Session}

theorem Session.Acts.refl (hput : z.buf.PutKept) (hget : z.buf.GetKept) : z.Acts z :=
  ⟨hput, hget, List.prefix_rfl, List.prefix_rfl, List.prefix_rfl, fun hnone => ⟨hnone, rfl⟩⟩

theorem Session.Acts.trans (h : z.Acts z') (h' : z'.Acts z'') : z.Acts z'' where
  put := h'.put
  get := h'.get
  wire := h.wire.trans h'.wire
  inputs := h.inputs.trans h'.inputs
  copied := h.copied.trans h'.copied
  shut hnone := ⟨(h'.shut (h.shut hnone).1).1, (h'.shut (h.shut hnone).1).2.trans (h.shut hnone).2⟩

theorem Session.Acts.of_sends (hget : z.buf.GetKept) (h : z.buf.Sends z'.buf) : z.Acts z' where
  put := h.kept
  get := hget.of_writes h.writes
  wire := h.wire
  inputs := by simp [h.writes.inputs]
  copied := by simp [h.writes.copied]
  shut := h.shut

theorem Session.Acts.of_hears (hput : z.buf.PutKept) (h : z.buf.Hears z'.buf) : z.Acts z' where
  put := hput.of_reads h.reads
  get := h.kept
  wire := by simp [h.reads.wire]
  inputs := h.inputs
  copied := h.copied
  shut hnone := ⟨h.reads.put.trans hnone, h.reads.wire⟩

/-- `::shutdown` and `close` leave the sockbuf alone, but for `errno`. -/
theorem Session.Acts.of_sys (hput : z.buf.PutKept) (hget : z.buf.GetKept)
    (hself : z'.buf.self = z.buf.self) (hrep : z'.buf.rep = z.buf.rep)
    (hhistory : z'.buf.sys.history = z.buf.sys.history) : z.Acts z' := by
  have hwire : z'.buf.wire = z.buf.wire := by rw [St.wire, hhistory, St.wire]
  have hinputs : z'.buf.inputs = z.buf.inputs := by rw [St.inputs, hhistory, St.inputs]
  refine ⟨hput.of_reads ⟨?_, ?_, ?_, hwire⟩, hget.of_writes ⟨?_, ?_, ?_, hinputs⟩, ?_, ?_, ?_, ?_⟩
  · rw [hrep]
  · rw [hself]
  · rw [hself]
  · rw [hrep]
  · rw [hself]
  · rw [hself]
  · simp [hwire]
  · simp [hinputs]
  · simp [hself]
  · intro hnone
    exact ⟨by rw [hself, hnone], hwire⟩

theorem Session.acts_sysShutdown (sh : Shuthow) (hput : z.buf.PutKept) (hget : z.buf.GetKept) :
    wp (sysShutdown N sh) (fun _ z' => z.Acts z') (fun _ z' => z.Acts z') z := by
  unfold wp sysShutdown
  cases N.shutdown z.buf.sys.history (z.shut.map Prod.fst) sh with
  | ok _ => exact .of_sys hput hget rfl rfl rfl
  | error e => exact .of_sys hput hget rfl rfl rfl

theorem Session.acts_shutdownRead (hput : z.buf.PutKept) (hget : z.buf.GetKept) :
    wp (shutdownRead N) (fun _ z' => z.Acts z') (fun _ z' => z.Acts z') z := by
  unfold shutdownRead onSession dropGet
  rw [wp_bind, wp_zoom, wp_modify]
  have hdrop : z.Acts
      { z with buf := { z.buf with self := { z.buf.self with get := none } } } := by
    refine ⟨hput.of_reads ⟨rfl, rfl, rfl, rfl⟩, .inr ⟨rfl, hget.copied_le⟩, List.prefix_rfl,
      List.prefix_rfl, List.prefix_rfl, fun hnone => ⟨hnone, rfl⟩⟩
  exact (Session.acts_sysShutdown .shutRead hdrop.put hdrop.get).mono
    (fun _ _ h => hdrop.trans h) fun _ _ h => hdrop.trans h

theorem Session.acts_shutdownWrite (hput : z.buf.PutKept) (hget : z.buf.GetKept) :
    wp (shutdownWrite N) (fun _ z' => z.Acts z') (fun _ z' => z.Acts z') z := by
  unfold shutdownWrite onSession dropPut
  rw [wp_bind, wp_zoom, wp_modify]
  have hdrop : z.Acts
      { z with buf := { z.buf with self := { z.buf.self with put := none } } } := by
    refine ⟨.inr ⟨rfl, hput.wire_le⟩, hget.of_writes ⟨rfl, rfl, rfl, rfl⟩, List.prefix_rfl,
      List.prefix_rfl, List.prefix_rfl, fun _ => ⟨rfl, rfl⟩⟩
  exact (Session.acts_sysShutdown .shutWrite hdrop.put hdrop.get).mono
    (fun _ _ h => hdrop.trans h) fun _ _ h => hdrop.trans h

/-- A member after another one. -/
theorem Session.acts_bind {α β : Type} {c : SessionM α} {f : α → SessionM β}
    (h : wp c (fun _ z' => z.Acts z') (fun _ z' => z.Acts z') z)
    (hf : ∀ a z', z.Acts z' → wp (f a) (fun _ z'' => z'.Acts z'') (fun _ z'' => z'.Acts z'') z') :
    wp (c >>= f) (fun _ z' => z.Acts z') (fun _ z' => z.Acts z') z := by
  rw [wp_bind]
  refine h.mono (fun a z1 h1 => ?_) fun _ _ h1 => h1
  exact (hf a z1 h1).mono (fun _ _ h2 => h1.trans h2) fun _ _ h2 => h1.trans h2

theorem Session.acts_shutdown (sh : Shuthow) (hput : z.buf.PutKept) (hget : z.buf.GetKept) :
    wp (Session.shutdown N sh) (fun _ z' => z.Acts z') (fun _ z' => z.Acts z') z := by
  cases sh with
  | shutRead => exact acts_shutdownRead hput hget
  | shutWrite => exact acts_shutdownWrite hput hget
  | shutReadwrite =>
    refine acts_bind (acts_shutdownRead hput hget) fun _ z1 h1 => ?_
    refine acts_bind (acts_shutdownWrite h1.put h1.get) fun _ z2 h2 => ?_
    exact acts_sysShutdown .shutReadwrite h2.put h2.get

/-- The flush of the destructor leaves nothing behind. -/
theorem Session.acts_release (hput : z.buf.PutKept) (hget : z.buf.GetKept) :
    wp (onSession (release N.toKernel))
      (fun _ z' => z.Acts z' ∧ (z.buf.PutOpen → z'.buf.wire = z'.buf.self.stored))
      (fun _ z' => z.Acts z') z := by
  unfold onSession release
  rw [wp_zoom, wp_bind]
  have hsends := PutCall.sends N.toKernel (.overflow eof) hput
  have hflush : wp (overflow N.toKernel eof)
      (fun _ s => z.buf.PutOpen → s.PutOpen ∧ s.self.pending = []) (fun _ _ => True) z.buf := by
    by_cases hopen : z.buf.PutOpen
    · refine (overflow_eof N.toKernel hopen).mpr ?_
      exact (sync_spec N.toKernel hopen).mono (fun _ _ h _ => ⟨h.2.1.putOpen, h.2.2⟩)
        fun _ _ _ => trivial
    · exact wp_of_forall (fun _ _ h => absurd h hopen) fun _ _ => trivial
  refine (hsends.and hflush).mono ?_ fun _ s h => .of_sends hget h.1
  intro _ s ⟨h, hempty⟩
  rw [wp_bind, wp_modify, wp_bind, wp_get, wp_pure]
  have hcount : s.Sends { s with rep := { s.rep with cnt := s.rep.cnt - 1 } } :=
    h.kept.sends_settings ⟨rfl, rfl⟩
  have hacts : z.Acts { z with buf := s } := .of_sends hget h
  refine ⟨hacts.trans (.of_sends hacts.get hcount), fun hopen => ?_⟩
  obtain ⟨⟨p, hp, -⟩, hpending⟩ := hempty hopen
  rcases h.kept with hinv | ⟨hnone, -⟩
  · have hall := hinv.conserves
    rw [hpending, List.append_nil] at hall
    exact hall
  · rw [hp] at hnone
    cases hnone

theorem Session.acts_destroy (hput : z.buf.PutKept) (hget : z.buf.GetKept) :
    wp (Session.destroy N)
      (fun _ z' => z.Acts z' ∧ (z.buf.PutOpen → z'.buf.wire = z'.buf.self.stored))
      (fun _ z' => z.Acts z') z := by
  unfold Session.destroy
  rw [wp_bind]
  refine (acts_release hput hget).mono ?_ fun _ _ h => h
  intro last z1 ⟨h1, hflushed⟩
  refine wp_ite_intro (fun _ => ?_) fun _ => ⟨h1, hflushed⟩
  unfold wp closeSock
  cases N.close z1.buf.sys.history (z1.shut.map Prod.fst) z1.buf.rep.sock with
  | ok _ => exact ⟨h1, hflushed⟩
  | error e => exact h1.trans (.of_sys h1.put h1.get rfl rfl rfl)

/-- One act of a process, thrown or not. -/
theorem Act.acts (N : Net) (act : Act) (hput : z.buf.PutKept) (hget : z.buf.GetKept) :
    wp (act.run N) (fun r z' => z.Acts z' ∧ act.Returns z r z') (fun _ z' => z.Acts z') z := by
  cases act with
  | put c =>
    unfold Act.run Session.call onSession
    rw [wp_bind, wp_bind, wp_zoom]
    refine (c.sends N.toKernel hput).mono (fun r s h => ?_) fun _ s h => .of_sends hget h
    rw [wp_modify, wp_pure]
    exact ⟨.of_sends hget h, trivial⟩
  | get c =>
    unfold Act.run onSession
    rw [wp_zoom]
    exact (c.hears N.toKernel hget).mono (fun _ _ h => ⟨.of_hears hput h.1, h.2⟩)
      fun _ _ h => .of_hears hput h
  | shutdown sh =>
    unfold Act.run
    rw [wp_bind]
    refine (Session.acts_shutdown sh hput hget).mono (fun _ z' h => ?_) fun _ _ h => h
    exact ⟨h, trivial⟩
  | destroy =>
    unfold Act.run
    rw [wp_bind]
    refine (Session.acts_destroy hput hget).mono (fun _ _ h => ?_) fun _ _ h => h
    exact h

end Acts

/-! ## The connection

The network between the ends is that of `Logic.Duplex`: what was accepted at one end is on its way
until it is received at the other, and an end of the file is received only when the sender has
closed and nothing is on its way. -/

def Act.destroys : Act → Bool
  | .destroy => true
  | _ => false

/-- A process at one end; `gone` when it has destroyed its sockbuf. -/
structure Holder where
  session : Session
  gone : Bool

/-- What the answers to all reads were, the errors left out. -/
def St.answers (s : St UInt8) : List (List UInt8) := s.inputs.filterMap Except.toOption

/-- Nothing more is sent once `shutdown` has deleted the put area, or the sockbuf is destroyed. -/
def Holder.port : Duplex.Port Holder UInt8 where
  sent h := h.session.buf.wire
  answers h := h.session.buf.answers
  stopped h := h.gone = true ∨ h.session.buf.self.put = none

/-- An act, with any answers of the system. -/
inductive Holder.Acts : Holder → Act → Except Exc Int → Holder → Prop where
  | act {z z' : Session} {act : Act} {out : Except Exc Int} (N : Net)
      (hrun : attempt (act.run N) z = (out, z')) : Acts ⟨z, false⟩ act out ⟨z', act.destroys⟩

abbrev Connection := Duplex.Link (fun _ => Holder) UInt8

def connection : Duplex.System (fun _ => Holder) UInt8 Act (Except Exc Int) where
  port _ := Holder.port
  acts _ := Holder.Acts

def Connection.fresh (P : Platform) (sock : Bool → Int) (gbuf pbuf : Bool → Nat → UInt8)
    (errno : Bool → Errno) : Connection where
  ends side := ⟨.fresh P (sock side) (gbuf side) (pbuf side) (errno side), false⟩
  flight _ := []

abbrev Happens := Entry Holder Act (Except Exc Int)

/-- The call was made on a get area that is there, and reported the end of the file. -/
def MeetsEnd (h : Happens) : Prop :=
  ∃ c r, h.op = .get c ∧ h.outcome = .ok r ∧ c.ends r ∧ h.before.session.buf.self.get ≠ none

/-- The sockbuf was destroyed with its put area there, and its destructor did not throw. -/
def ClosesCleanly (h : Happens) : Prop :=
  ∃ r, h.op = .destroy ∧ h.outcome = .ok r ∧ h.before.session.buf.PutOpen

/-! ## One end

What the acts of one process keep, whatever the other does: both halves are as they should be, and a
sockbuf that was destroyed cleanly has sent all that was stored. -/

/-- Both halves are as they should be. -/
def Holder.Kept (h : Holder) : Prop := h.session.buf.PutKept ∧ h.session.buf.GetKept

/-- What no act takes back; and a sockbuf that is destroyed is left alone. -/
structure Holder.Since (h h' : Holder) : Prop where
  answers : h.session.buf.answers <+: h'.session.buf.answers
  copied : h.session.buf.self.copied <+: h'.session.buf.self.copied
  gone : h.gone = true → h' = h

instance : IsPreorder Holder Holder.Since where
  refl _ := ⟨List.prefix_rfl, List.prefix_rfl, fun _ => rfl⟩
  trans a b c h h' := by
    refine ⟨h.answers.trans h'.answers, h.copied.trans h'.copied, fun hgone => ?_⟩
    obtain rfl := h.gone hgone
    exact h'.gone hgone

section Ends

variable {s s' : St UInt8} {h h' : Holder} {act : Act} {out : Except Exc Int}

theorem St.received_eq (s : St UInt8) : s.received = s.answers.flatten := by
  unfold St.received St.answers
  induction s.inputs with
  | nil => rfl
  | cons a ins ih =>
    cases a with
    | ok bs => exact congrArg (bs ++ ·) ih
    | error e => exact ih

/-- Who was handed as much as was received was handed just that. -/
theorem St.GetKept.copied_eq {bs : List UInt8} (hs : s.GetKept) (hall : s.answers.flatten = bs)
    (hhanded : bs <+: s.self.copied) : s.self.copied = bs := by
  have hcopied : s.self.copied <+: bs := by
    rw [← hall, ← s.received_eq]
    exact hs.copied_le
  exact hcopied.eq_of_length_le hhanded.length_le

theorem St.answers_prefix (hs : s.inputs <+: s'.inputs) : s.answers <+: s'.answers := by
  obtain ⟨ins, hins⟩ := hs
  unfold St.answers
  rw [← hins, List.filterMap_append]
  exact List.prefix_append _ _

theorem MetEnd.answers (hend : MetEnd s s') (hinv : s'.GetInv) :
    ∃ pre, s'.answers = pre ++ [[]] ∧ s'.self.copied = pre.flatten := by
  obtain ⟨hunread, ins, hins⟩ := hend
  have hanswers : s'.answers = (s.inputs ++ ins).filterMap Except.toOption ++ [[]] := by
    rw [St.answers, hins, ← List.append_assoc, List.filterMap_append]
    rfl
  refine ⟨_, hanswers, ?_⟩
  have hall := hinv.conserves
  rw [hunread, List.append_nil, s'.received_eq, hanswers] at hall
  simpa using hall

theorem Holder.Acts.spec (hacts : h.Acts act out h') (hkept : h.Kept) :
    h.session.Acts h'.session ∧ ∀ r, out = .ok r → act.Returns h.session r h'.session := by
  obtain @⟨z, z', act, out, N, hrun⟩ := hacts
  have hspec : wp (act.run N)
      (fun r z' => z.Acts z' ∧ ∀ r', (.ok r : Except Exc Int) = .ok r' → act.Returns z r' z')
      (fun e z' => z.Acts z' ∧ ∀ r', (.error e : Except Exc Int) = .ok r' → act.Returns z r' z')
      z := by
    refine (act.acts N hkept.1 hkept.2).mono ?_ ?_
    · rintro r z' ⟨h, hr⟩
      exact ⟨h, fun r' hr' => by cases hr'; exact hr⟩
    · exact fun e z' h => ⟨h, fun r' hr' => by cases hr'⟩
  have hdone := hspec.outcome (P := fun out z' => z.Acts z' ∧
    ∀ r', out = .ok r' → act.Returns z r' z')
  rwa [hrun] at hdone

theorem Holder.Acts.kept (hacts : h.Acts act out h') (hkept : h.Kept) : h'.Kept :=
  ⟨(hacts.spec hkept).1.put, (hacts.spec hkept).1.get⟩

theorem Holder.Acts.since (hacts : h.Acts act out h') (hkept : h.Kept) : h.Since h' := by
  obtain ⟨hspec, -⟩ := hacts.spec hkept
  refine ⟨St.answers_prefix hspec.inputs, hspec.copied, fun hgone => ?_⟩
  cases hacts
  cases hgone

theorem obeys_kept : connection.Obeys fun _ => Holder.Kept where
  keeps _ _ _ _ _ hkept hacts := hacts.kept hkept
  stopped _ h act out h' hkept hacts hstopped := by
    have hput : h.session.buf.self.put = none := by
      refine hstopped.resolve_left ?_
      cases hacts
      simp
    have hshut := (hacts.spec hkept).1.shut hput
    exact ⟨.inr hshut.1, hshut.2⟩

theorem kept_fresh (P : Platform) (sock : Bool → Int) (gbuf pbuf : Bool → Nat → UInt8)
    (errno : Bool → Errno) (side : Bool) : ((Connection.fresh P sock gbuf pbuf errno).ends side).Kept :=
  ⟨.inl ⟨putOpen_fresh P _ _ _ _, _, .refl, represents_fresh P _ _ _ _⟩,
    .inl (getInv_fresh P _ _ _ _)⟩

section Run

variable {start : Holder} {log : List Happens}

/-- Who has met the end was handed what had been answered before. -/
theorem run_meetsEnd (hrun : Run Holder.Acts start log h) (hkept : start.Kept) :
    ∀ e ∈ log, MeetsEnd e → ∃ pre post, h.session.buf.answers = pre ++ [] :: post ∧
      pre.flatten <+: h.session.buf.self.copied := by
  have hentry : ∀ e ∈ log, MeetsEnd e → ∃ pre, e.after.session.buf.answers = pre ++ [[]] ∧
      e.after.session.buf.self.copied = pre.flatten := by
    refine hrun.forall_entry hkept (fun _ _ _ _ hk hacts => hacts.kept hk) ?_
    rintro s act out s' hk hacts ⟨c, r, hop, hout, hends, hthere⟩
    cases hop
    obtain ⟨hend, hinv⟩ := (hacts.spec hk).2 r hout hends hthere
    exact hend.answers hinv
  intro e he hmeets
  obtain ⟨pre, hanswers, hcopied⟩ := hentry e he hmeets
  have hsince : e.after.Since h :=
    hrun.since hkept (fun _ _ _ _ hk hacts => hacts.kept hk)
      (fun _ _ _ _ hk hacts => hacts.since hk) e he
  obtain ⟨post, hpost⟩ := hsince.answers
  refine ⟨pre, post, ?_, hcopied ▸ hsince.copied⟩
  rw [← hpost, hanswers]
  simp

theorem run_closesCleanly (hrun : Run Holder.Acts start log h) (hkept : start.Kept) :
    ∀ e ∈ log, ClosesCleanly e → h.session.buf.wire = h.session.buf.self.stored := by
  have hentry : ∀ e ∈ log, ClosesCleanly e →
      e.after.gone = true ∧ e.after.session.buf.wire = e.after.session.buf.self.stored := by
    refine hrun.forall_entry hkept (fun _ _ _ _ hk hacts => hacts.kept hk) ?_
    rintro s act out s' hk hacts ⟨r, hop, hout, hopen⟩
    cases hop
    have hflushed := (hacts.spec hk).2 r hout hopen
    refine ⟨?_, hflushed⟩
    cases hacts
    rfl
  intro e he hcloses
  obtain ⟨hgone, hflushed⟩ := hentry e he hcloses
  have hsince : e.after.Since h :=
    hrun.since hkept (fun _ _ _ _ hk hacts => hacts.kept hk)
      (fun _ _ _ _ hk hacts => hacts.since hk) e he
  rwa [hsince.gone hgone]

end Run

end Ends

/-! ## Both ends

The two directions are alike. For each of them, what is known of the sender, of the receiver and of
the bytes on their way is put together. -/

/-- A peer that has sent an `A`. -/
def Net.letter : Net :=
  { Net.sink with
    input := fun _ _ len => if h : 0 < len then .ok ⟨[65], h⟩ else .ok ⟨[], Nat.zero_le _⟩ }

/-- The connection after an act under the given system. -/
def Connection.does (w : Connection) (side : Bool) (act : Act) (N : Net) (sent rest : List UInt8) :
    Connection :=
  w.after side ⟨(attempt (act.run N) (w.ends side).session).2, act.destroys⟩ sent rest

def letterLink : Connection :=
  Connection.fresh .small (fun _ => 3) (fun _ _ => 0) (fun _ _ => 0) fun _ => 0

def letterWritten : Connection := letterLink.does false (.put (.sputc 65)) .sink [] []

def letterSent : Connection := letterWritten.does false .destroy .sink [65] []

def letterTaken : Connection := letterSent.does true (.get .sbumpc) .letter [] []

def letterEnded : Connection := letterTaken.does true (.get .sbumpc) .sink [] []

theorem letter_run : ∃ log, Run connection.Step letterLink log letterEnded ∧
    (∃ e ∈ Duplex.ofSide true log, MeetsEnd e) ∧ ∃ e ∈ Duplex.ofSide false log, ClosesCleanly e := by
  have hput : (attempt ((Act.put (.sputc 65)).run .sink) (letterLink.ends false).session).1 =
      .ok 0 := by decide +kernel
  have hdestroy : (attempt (Act.destroy.run .sink) (letterWritten.ends false).session).1 =
      .ok 0 := by decide +kernel
  have hget : (attempt ((Act.get .sbumpc).run .letter) (letterSent.ends true).session).1 =
      .ok 65 := by decide +kernel
  have heof : (attempt ((Act.get .sbumpc).run .sink) (letterTaken.ends true).session).1 =
      .ok eof := by decide +kernel
  have h1 : connection.Step letterLink (false, .put (.sputc 65)) (.ok 0) letterWritten :=
    @Duplex.System.Step.act _ _ _ _ _ _ false _ _ _ [] [] [] (.act .sink (Prod.ext hput rfl))
      (by decide +kernel) (by decide +kernel) rfl (by simp)
  have h2 : connection.Step letterWritten (false, .destroy) (.ok 0) letterSent :=
    @Duplex.System.Step.act _ _ _ _ _ _ false _ _ _ [65] [] [] (.act .sink (Prod.ext hdestroy rfl))
      (by decide +kernel) (by decide +kernel) rfl (by simp)
  have h3 : connection.Step letterSent (true, .get .sbumpc) (.ok 65) letterTaken := by
    refine @Duplex.System.Step.act _ _ _ _ _ _ true _ _ _ [] [] [[65]]
      (.act .letter (Prod.ext hget rfl)) (by decide +kernel) (by decide +kernel)
      (by decide +kernel) ?_
    intro pre post hheard
    have hmem : ([] : List UInt8) ∈ [[65]] := by simp [hheard]
    simp at hmem
  have h4 : connection.Step letterTaken (true, .get .sbumpc) (.ok eof) letterEnded := by
    refine @Duplex.System.Step.act _ _ _ _ _ _ true _ _ _ [] [] [[]]
      (.act .sink (Prod.ext heof rfl)) (by decide +kernel) (by decide +kernel)
      (by decide +kernel) ?_
    intro pre post hheard
    cases pre with
    | nil => exact ⟨.inl rfl, by decide +kernel⟩
    | cons a pre => simp at hheard
  have hopen : (letterWritten.ends false).session.buf.PutOpen := by
    have hacts : (letterLink.ends false).Acts (.put (.sputc 65)) (.ok 0) (letterWritten.ends false) :=
      .act .sink (Prod.ext hput rfl)
    rcases (hacts.kept (kept_fresh .small _ _ _ _ false)).1 with hinv | ⟨hnone, -⟩
    · exact hinv.1
    · have hsome : (letterWritten.ends false).session.buf.self.put.isSome = true := by
        decide +kernel
      rw [hnone] at hsome
      cases hsome
  refine ⟨_, (((Run.start.step h1).step h2).step h3).step h4, ?_, ?_⟩
  · exact ⟨_, .head _, .sbumpc, eof, rfl, rfl, rfl, by decide +kernel⟩
  · exact ⟨_, .head _, 0, rfl, rfl, hopen⟩

end Sockstream
