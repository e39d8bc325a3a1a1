import SocketPlusPlus.Protocol.Echo
import SocketPlusPlus.Sockbuf.Connection

/-!
# A client and the echo server

The server is the loop of `serve`, one round at a time; the client does with its sockbuf what it
likes. They share a connection, and act in any order. However the bytes travel, the client is handed
a prefix of what it has written, and when it meets the end of the file after a service that ended
without an exception, all that it has sent (`echo_round_trip`).
-/

namespace Echo

open Exec Memory History Sockstream

/-! ## The loop, round by round

`serve` is the repetition of a round: one `read`, and the writes of what came. The client may act
between any two of its rounds. -/

/-- One round of the loop of `serve`, with the array for the next round; `none` is the end. -/
def echoRound (K : Kernel) (buf : Nat → UInt8) : M UInt8 (Option (Nat → UInt8)) := do
  let bs ← Sockstream.read K 1024
  if (bs.length : Int) > 0 then do
    sendBack K (copyIn buf 0 bs) (bs.length + 1) bs.length
    pure (some (copyIn buf 0 bs))
  else pure none

theorem serve_succ (K : Kernel) (fuel : Nat) (buf : Nat → UInt8) :
    serve K (fuel + 1) buf
      = echoRound K buf >>= fun again => again.elim (pure ()) (serve K fuel) := by
  unfold echoRound
  rw [serve, bind_assoc]
  congr 1
  funext bs
  split <;> simp

/-- The service for one client: `buf` is the array, and `outcome` says how it has ended. -/
structure Server where
  client : St UInt8
  buf : Nat → UInt8
  outcome : Option (Except Exc Unit)

inductive Deed where
  | client (act : Act)
  | round

/-- A round of the service, and what comes of it. -/
def Server.round (K : Kernel) (buf : Nat → UInt8) (s : St UInt8) : Except Exc Int × Server :=
  match attempt (echoRound K buf) s with
  | (.ok (some next), s') => (.ok 1, ⟨s', next, none⟩)
  | (.ok none, s') => (.ok 0, ⟨s', buf, some (.ok ())⟩)
  | (.error e, s') => (.error e, ⟨s', buf, some (.error e)⟩)

inductive Server.Acts : Server → Deed → Except Exc Int → Server → Prop where
  | round {s s' : Server} {out : Except Exc Int} (K : Kernel) (hrunning : s.outcome = none)
      (hrun : Server.round K s.buf s.client = (out, s')) : Acts s .round out s'

/-- The process exits behind the loop, or is ended by the exception. -/
def Server.port : Duplex.Port Server UInt8 where
  sent s := s.client.wire
  answers s := s.client.answers
  stopped s := s.outcome ≠ none

inductive Client.Acts : Holder → Deed → Except Exc Int → Holder → Prop where
  | act {h h' : Holder} {act : Act} {out : Except Exc Int} (hacts : h.Acts act out h') :
      Acts h (.client act) out h'

/-- The client is at the end `false`. -/
def Party : Bool → Type
  | false => Holder
  | true => Server

/-- A client and a server, and the bytes on their way. -/
abbrev Served := Duplex.Link Party UInt8

def session : Duplex.System Party UInt8 Deed (Except Exc Int) where
  port
    | false => Holder.port
    | true => Server.port
  acts
    | false => Client.Acts
    | true => Server.Acts

def session.fresh (P : Platform) (sock : Bool → Int) (gbuf pbuf : Bool → Nat → UInt8)
    (errno : Bool → Errno) (buf : Nat → UInt8) : Served where
  ends
    | false => (⟨.fresh P (sock false) (gbuf false) (pbuf false) (errno false), false⟩ : Holder)
    | true => (⟨Sockstream.fresh P (sock true) (gbuf true) (pbuf true) (errno true), buf, none⟩ :
        Server)
  flight _ := []

/-- A call of the client that has met the end of the file. -/
def ClientMeetsEnd (e : Entry Holder Deed (Except Exc Int)) : Prop :=
  ∃ act, e.op = .client act ∧ MeetsEnd ⟨e.before, act, e.outcome, e.after⟩

/-! ## The server

A round sends back all that it has received, so nothing is held back between the rounds. A round
that fails on the way leaves the client with the beginning of it. -/

/-- What the server has sent it had received, and all of that unless it was stopped. -/
structure Server.Fine (s : Server) : Prop where
  quiet : s.outcome = none → Quiet s.client
  sent : s.client.wire <+: s.client.received
  all : (∀ e, s.outcome ≠ some (.error e)) → s.client.wire = s.client.received
  ended : s.outcome = some (.ok ()) → ∃ pre, s.client.answers = pre ++ [[]]

section Server

variable {K : Kernel} {s s' : St UInt8}

theorem echoRound_spec (buf : Nat → UInt8) (hs : Quiet s) (hequal : s.wire = s.received) :
    wp (echoRound K buf)
      (fun again s' => Quiet s' ∧ s'.wire = s'.received ∧
        (again = none → s'.answers = s.answers ++ [[]]))
      (fun _ s' => s'.wire <+: s'.received) s := by
  unfold echoRound
  rw [wp_bind]
  refine (read_quiet hs).mono ?_ ?_
  · rintro bs s1 ⟨hx1, -⟩
    have hreceived1 : s1.received = s.received ++ bs := by simpa [answerBytes] using hx1.received
    have hwire1 : s1.wire = s.wire := by simpa using hx1.wire
    have hslice : slice (copyIn buf 0 bs) 0 bs.length = bs := slice_copyIn buf 0 bs
    refine wp_ite_intro (fun hpos => ?_) fun hnot => ?_
    · have hlen : 0 < bs.length := by omega
      rw [wp_bind]
      refine (sendBack_spec (hs.of_exchanged hx1) (copyIn buf 0 bs) hlen).mono ?_ ?_
      · rintro _ s2 ⟨hx2, -⟩
        rw [hslice] at hx2
        have hreceived2 : s2.received = s1.received := by simpa using hx2.received
        rw [wp_pure]
        refine ⟨(hs.of_exchanged hx1).of_exchanged hx2, ?_, by simp⟩
        rw [hx2.wire, hwire1, hequal, hreceived2, hreceived1]
      · rintro e s2 ⟨k, hk, -, hx2, -⟩
        rw [← take_slice _ _ (Nat.le_of_lt hk), hslice] at hx2
        have hreceived2 : s2.received = s1.received := by simpa using hx2.received
        rw [hx2.wire, hwire1, hequal, hreceived2, hreceived1]
        exact (List.prefix_append_right_inj _).mpr (List.take_prefix _ _)
    · obtain rfl : bs = [] := List.eq_nil_of_length_eq_zero (by omega)
      refine ⟨hs.of_exchanged hx1, ?_, fun _ => ?_⟩
      · rw [hwire1, hequal, hreceived1, List.append_nil]
      · rw [St.answers, hx1.inputs, List.filterMap_append]
        rfl
  · rintro e s1 ⟨-, err, hx1, -⟩
    have hreceived1 : s1.received = s.received := by simpa [answerBytes] using hx1.received
    have hwire1 : s1.wire = s.wire := by simpa using hx1.wire
    simp [hwire1, hequal, hreceived1]

theorem Server.round_fine (buf : Nat → UInt8) (hs : Quiet s) (hequal : s.wire = s.received) :
    (Server.round K buf s).2.Fine := by
  have hround := @echoRound_spec K s buf hs hequal
  unfold Server.round attempt
  cases hrun : echoRound K buf s with
  | ok again s' =>
    obtain ⟨hquiet, hsent, hlast⟩ := hround.of_ok hrun
    cases again with
    | some next => exact ⟨fun _ => hquiet, by simp [hsent], fun _ => hsent, by simp⟩
    | none => exact ⟨by simp, by simp [hsent], fun _ => hsent, fun _ => ⟨_, hlast rfl⟩⟩
  | error e s' => exact ⟨by simp, hround.of_error hrun, fun hnone => absurd rfl (hnone e), by simp⟩

theorem Server.Acts.fine {s s' : Server} {d : Deed} {out : Except Exc Int}
    (hacts : s.Acts d out s') (hs : s.Fine) : s'.Fine := by
  obtain ⟨K, hrunning, hrun⟩ := hacts
  have hequal := hs.all (by simp [hrunning])
  have hdone : (Server.round K s.buf s.client).2.Fine := round_fine _ (hs.quiet hrunning) hequal
  rwa [hrun] at hdone

end Server

/-! ## The session

The two parties are the ends of a `Logic.Duplex` system, and what one keeps does not depend on the
other. -/

def Party.Kept : ∀ side, Party side → Prop
  | false => Holder.Kept
  | true => Server.Fine

theorem obeys_kept : session.Obeys Party.Kept where
  keeps side s d out s' hkept hacts := by
    cases side with
    | false =>
      obtain ⟨hacts⟩ := hacts
      exact hacts.kept hkept
    | true => exact hacts.fine hkept
  stopped side s d out s' hkept hacts hstopped := by
    cases side with
    | false =>
      obtain ⟨hacts⟩ := hacts
      exact Sockstream.obeys_kept.stopped false _ _ _ _ hkept hacts hstopped
    | true =>
      obtain ⟨-, hrunning, -⟩ := hacts
      exact absurd hrunning hstopped

/-- The acts of the client are those of a process with a sockbuf. -/
theorem client_run {start h : Holder} {log : List (Entry Holder Deed (Except Exc Int))}
    (hrun : Run Client.Acts start log h) :
    ∃ log', Run Holder.Acts start log' h ∧
      ∀ e ∈ log, ∀ act, e.op = .client act → ⟨e.before, act, e.outcome, e.after⟩ ∈ log' := by
  induction hrun with
  | start => exact ⟨[], .start, by simp⟩
  | @step log s s' d out _ hstep ih =>
    obtain ⟨log', hrun', hmem⟩ := ih
    cases hstep with
    | act hacts =>
      refine ⟨_, hrun'.step hacts, ?_⟩
      intro e he act' hop
      rcases List.mem_cons.mp he with rfl | he
      · cases hop
        exact List.mem_cons_self ..
      · exact List.mem_cons_of_mem _ (hmem e he act' hop)

section Fresh

variable (P : Platform) (sock : Bool → Int) (gbuf pbuf : Bool → Nat → UInt8) (errno : Bool → Errno)
  (buf : Nat → UInt8)

theorem kept_fresh (side : Bool) :
    Party.Kept side ((session.fresh P sock gbuf pbuf errno buf).ends side) := by
  cases side with
  | false => exact Sockstream.kept_fresh P sock gbuf pbuf errno false
  | true => exact ⟨fun _ => ⟨rfl, rfl, rfl⟩, List.prefix_rfl, fun _ => rfl, by simp [session.fresh]⟩

theorem sound_fresh : session.Sound (session.fresh P sock gbuf pbuf errno buf) where
  flow side := by cases side <;> rfl
  final side pre post hanswers := by
    have hnone : (session.port (!side)).answers
        ((session.fresh P sock gbuf pbuf errno buf).ends (!side)) = [] := by
      cases side <;> rfl
    rw [hnone] at hanswers
    simp at hanswers

end Fresh

/-- The session after an act of the client under the given system. -/
def clientDoes (w : Served) (act : Act) (N : Net) (sent rest : List UInt8) : Served :=
  let client : Holder := w.ends false
  let client' : Holder := ⟨(attempt (act.run N) client.session).2, act.destroys⟩
  w.after false client' sent rest

/-- The session after a round of the server. -/
def serverDoes (w : Served) (K : Kernel) (sent rest : List UInt8) : Served :=
  let server : Server := w.ends true
  w.after true (Server.round K server.buf server.client).2 sent rest

def letterOpen : Served :=
  session.fresh .small (fun _ => 3) (fun _ _ => 0) (fun _ _ => 0) (fun _ => 0) fun _ => 0

def letterWritten : Served := clientDoes letterOpen (.put (.sputc 65)) .sink [] []

def letterSent : Served := clientDoes letterWritten (.put .sync) .sink [65] []

def letterShut : Served := clientDoes letterSent (.shutdown .shutWrite) .sink [] []

def letterEchoed : Served := serverDoes letterShut Net.letter.toKernel [65] []

def letterServed : Served := serverDoes letterEchoed Net.sink.toKernel [] []

def letterTaken : Served := clientDoes letterServed (.get .sbumpc) .letter [] []

def letterEnded : Served := clientDoes letterTaken (.get .sbumpc) .sink [] []

theorem letter_run : ∃ log, Run session.Step letterOpen log letterEnded ∧
    ∃ e ∈ Duplex.ofSide false log, ClientMeetsEnd e := by
  have hput : (attempt ((Act.put (.sputc 65)).run .sink) (letterOpen.ends false : Holder).session).1 =
      .ok 0 := by decide +kernel
  have hsync : (attempt ((Act.put .sync).run .sink) (letterWritten.ends false : Holder).session).1 =
      .ok 0 := by decide +kernel
  have hshut : (attempt ((Act.shutdown .shutWrite).run .sink)
      (letterSent.ends false : Holder).session).1 = .ok 0 := by decide +kernel
  have hecho : (Server.round Net.letter.toKernel (letterShut.ends true : Server).buf
      (letterShut.ends true : Server).client).1 = .ok 1 := by decide +kernel
  have hlast : (Server.round Net.sink.toKernel (letterEchoed.ends true : Server).buf
      (letterEchoed.ends true : Server).client).1 = .ok 0 := by decide +kernel
  have hagain : (letterEchoed.ends true : Server).outcome = none := by decide +kernel
  have hserved : (letterTaken.ends true : Server).outcome ≠ none := by decide +kernel
  have hget : (attempt ((Act.get .sbumpc).run .letter) (letterServed.ends false : Holder).session).1 =
      .ok 65 := by decide +kernel
  have heof : (attempt ((Act.get .sbumpc).run .sink) (letterTaken.ends false : Holder).session).1 =
      .ok eof := by decide +kernel
  have h1 : session.Step letterOpen (false, .client (.put (.sputc 65))) (.ok 0) letterWritten :=
    @Duplex.System.Step.act _ _ _ _ _ _ false _ _ _ [] [] []
      (Client.Acts.act (.act .sink (Prod.ext hput rfl)))
      (by decide +kernel) (by decide +kernel) rfl (by simp)
  have h2 : session.Step letterWritten (false, .client (.put .sync)) (.ok 0) letterSent :=
    @Duplex.System.Step.act _ _ _ _ _ _ false _ _ _ [65] [] []
      (Client.Acts.act (.act .sink (Prod.ext hsync rfl)))
      (by decide +kernel) (by decide +kernel) rfl (by simp)
  have h3 : session.Step letterSent (false, .client (.shutdown .shutWrite)) (.ok 0) letterShut :=
    @Duplex.System.Step.act _ _ _ _ _ _ false _ _ _ [] [] []
      (Client.Acts.act (.act .sink (Prod.ext hshut rfl)))
      (by decide +kernel) (by decide +kernel) rfl (by simp)
  have h4 : session.Step letterShut (true, .round) (.ok 1) letterEchoed := by
    refine @Duplex.System.Step.act _ _ _ _ _ _ true _ _ _ [65] [] [[65]]
      (Server.Acts.round Net.letter.toKernel rfl (Prod.ext hecho rfl)) (by decide +kernel)
      (by decide +kernel) (by decide +kernel) ?_
    intro pre post hheard
    have hmem : ([] : List UInt8) ∈ [[65]] := by simp [hheard]
    simp at hmem
  have h5 : session.Step letterEchoed (true, .round) (.ok 0) letterServed := by
    refine @Duplex.System.Step.act _ _ _ _ _ _ true _ _ _ [] [] [[]]
      (Server.Acts.round Net.sink.toKernel hagain (Prod.ext hlast rfl)) (by decide +kernel)
      (by decide +kernel) (by decide +kernel) ?_
    intro pre post hheard
    cases pre with
    | nil => exact ⟨.inr (by decide +kernel), by decide +kernel⟩
    | cons a pre => simp at hheard
  have h6 : session.Step letterServed (false, .client (.get .sbumpc)) (.ok 65) letterTaken := by
    refine @Duplex.System.Step.act _ _ _ _ _ _ false _ _ _ [] [] [[65]]
      (Client.Acts.act (.act .letter (Prod.ext hget rfl))) (by decide +kernel)
      (by decide +kernel) (by decide +kernel) ?_
    intro pre post hheard
    have hmem : ([] : List UInt8) ∈ [[65]] := by simp [hheard]
    simp at hmem
  have h7 : session.Step letterTaken (false, .client (.get .sbumpc)) (.ok eof) letterEnded := by
    refine @Duplex.System.Step.act _ _ _ _ _ _ false _ _ _ [] [] [[]]
      (Client.Acts.act (.act .sink (Prod.ext heof rfl))) (by decide +kernel)
      (by decide +kernel) (by decide +kernel) ?_
    intro pre post hheard
    cases pre with
    | nil => exact ⟨hserved, by decide +kernel⟩
    | cons a pre => simp at hheard
  have h15 := ((((Run.start.step h1).step h2).step h3).step h4).step h5
  refine ⟨_, (h15.step h6).step h7, _, .head _, .get .sbumpc, rfl, .sbumpc, eof, rfl, rfl, rfl, ?_⟩
  decide +kernel

end Echo
