import SocketPlusPlus.Sockbuf.Connection
import SocketPlusPlus.Sockbuf.Overrun

/-!
# Messages between two hosts

The header of a message is an `unsigned long`, as long as the sender has it and in the order of its
bytes. `htonl` makes the lowest four bytes of it the same on all hosts, but not their place among
the others: two hosts read each other's headers exactly if their `unsigned long` is of one length,
and of four bytes or of one byte order (`readBy_iff`).

Two processes on such hosts exchange messages over a connection, in both directions and in any
order. As long as no call is cut short, every message that was sent has been received or is on its
way whole, in order (`messages_delivered`). A message without bytes is received as if the stream had
ended.
-/

namespace Sockstream

open Exec Memory Bytes History

/-! ## Who reads whose headers

A header is the image of `htonl` of the length, as an `unsigned long` lies in the memory of the
sender. The reader takes as many bytes as an `unsigned long` of its own has. -/

/-- A host with the layout `B` reads the headers of a host with the layout `A`. -/
def Abi.ReadBy (A B : Abi) : Prop :=
  B.sizeofLong = A.sizeofLong ∧ ∀ n < 2 ^ 32, B.size (A.header n) = n

section Abis

variable {A B : Abi}

theorem Abi.size_lt (A : Abi) (hdr : List UInt8) : A.size hdr < 2 ^ 32 :=
  A.endian.ntohl_lt _

theorem Abi.readBy_of_endian (hsize : B.sizeofLong = A.sizeofLong) (h : B.endian = A.endian) :
    A.ReadBy B := by
  refine ⟨hsize, fun n hn => ?_⟩
  have hsame : B.size (A.header n) = A.size (A.header n) := by rw [size, size, h]
  rw [hsame, A.size_header hn]

/-- Four bytes are in network order on every host. -/
theorem Abi.readBy_of_four (hsize : B.sizeofLong = A.sizeofLong) (h : A.sizeofLong = 4) :
    A.ReadBy B := by
  refine ⟨hsize, fun n hn => ?_⟩
  rw [header, h, A.endian.encode_htonl, size, Endian.ntohl]
  have hback := B.endian.encode_decode (Endian.big.encode 4 n)
  rw [Endian.length_encode] at hback
  rw [hback]
  exact Endian.big.decode_encode hn

/-- Of a longer header the bytes that are not zero are at one end or at the other. -/
theorem Abi.not_readBy {k : Nat} (hA : A.sizeofLong = k + 5) (h : B.endian ≠ A.endian) :
    B.size (A.header 1) ≠ 1 := by
  unfold size header
  rw [hA]
  cases hAe : A.endian with
  | little =>
    have hBe : B.endian = .big := by
      cases hBe : B.endian with
      | little => exact absurd (hBe.trans hAe.symm) h
      | big => rfl
    have hheader : Endian.little.encode (k + 5) (Endian.little.htonl 1)
        = (List.replicate (k + 1) (0 : UInt8) ++ [1, 0, 0, 0]).reverse := by
      rw [List.reverse_append, List.reverse_replicate, ← digits_zero]
      rfl
    have hvalue : Endian.big.decode (Endian.little.encode (k + 5) (Endian.little.htonl 1))
        = 256 * 256 ^ k := by
      rw [hheader, Endian.decode, List.reverse_reverse, value_append_zeros, Nat.pow_succ']
      simp [value]
    rw [hBe, hvalue, Endian.ntohl, Endian.encode, Endian.decode, List.reverse_reverse,
      value_digits_mul]
    omega
  | big =>
    have hBe : B.endian = .little := by
      cases hBe : B.endian with
      | little => rfl
      | big => exact absurd (hBe.trans hAe.symm) h
    have hone : Endian.big.htonl 1 = 1 := by decide
    have hheader : Endian.big.encode (k + 5) 1 = List.replicate (k + 4) 0 ++ [1] := by
      have hrest : digits (k + 4) (1 / 256) = List.replicate (k + 4) 0 := digits_zero _
      rw [Endian.encode, digits, List.reverse_cons, hrest, List.reverse_replicate]
      rfl
    have hvalue : Endian.little.decode (Endian.big.encode (k + 5) 1) = 256 ^ 4 * 256 ^ k := by
      rw [hheader, Endian.decode, value_append_zeros, Nat.pow_add]
      simp [value, Nat.mul_comm]
    rw [hBe, hone, hvalue, Endian.ntohl, Endian.encode, digits_mul]
    decide

/-- **Who reads whose headers.** -/
theorem Abi.readBy_iff : A.ReadBy B ↔
    B.sizeofLong = A.sizeofLong ∧ (B.endian = A.endian ∨ A.sizeofLong = 4) := by
  constructor
  · intro ⟨hsize, hreads⟩
    refine ⟨hsize, ?_⟩
    by_cases hfour : A.sizeofLong = 4
    · exact .inr hfour
    · obtain ⟨k, hk⟩ : ∃ k, A.sizeofLong = k + 5 := ⟨A.sizeofLong - 5, by have := A.four_le; omega⟩
      by_contra hnot
      exact not_readBy hk (fun h => hnot (.inl h)) (hreads 1 (by decide))
  · rintro ⟨hsize, h | h⟩
    · exact readBy_of_endian hsize h
    · exact readBy_of_four hsize h

end Abis

/-! ## What is heard

The bytes received fall into the pieces that the calls of `recv` took. A call that was not cut short
took a whole frame. -/

/-- What an input call that asked for something was given. -/
def Event.heard? : Event → Option (List UInt8)
  | .input _ len (.ok bs) => if len = 0 then none else some bs
  | _ => none

def heard (history : List Event) : List (List UInt8) := history.filterMap Event.heard?

@[simp] theorem heard_nil : heard [] = [] := rfl

theorem heard_append (h es : List Event) : heard (h ++ es) = heard h ++ heard es :=
  List.filterMap_append ..

/-- Nothing is heard without an input call. -/
theorem heard_silent {es : List Event} (h : inputs es = []) : heard es = [] := by
  induction es with
  | nil => rfl
  | cons e es ih =>
    cases e with
    | input call len answer => cases h
    | _ => exact ih h

theorem heard_cons_input (call : InCall) {len : Nat} (hlen : len ≠ 0) (bs : List UInt8)
    (es : List Event) : heard (.input call len (.ok bs) :: es) = bs :: heard es := by
  simp [heard, Event.heard?, hlen]

/-- A call that asks for nothing is not told whether the stream has ended. -/
theorem flatten_heard_input (call : InCall) {len : Nat} {bs : List UInt8} (hle : bs.length ≤ len) :
    (heard [.input call len (.ok bs)]).flatten = bs := by
  by_cases hlen : len = 0
  · have hnone : bs = [] := List.eq_nil_of_length_eq_zero (by omega)
    simp [heard, Event.heard?, hlen, hnone]
  · simp [heard_cons_input call hlen]

theorem asInt_eq_zero {n : Nat} (h : n < 2 ^ 32) : asInt n = 0 ↔ n = 0 := by
  unfold asInt
  rw [Int.bmod_def]
  split <;> omega

/-- The system calls behind the tests of `recv(string&)`: one for the header, and one for the body
when the first was given a whole header. -/
inductive RecvEvents (A : Abi) (call : RecvCall) : List Event → Int × List UInt8 → Prop where
  | nothing : RecvEvents A call [.input (.recv call.msgf) A.sizeofLong (.ok [])] (0, call.buf)
  | failed {hdr : List UInt8} (e : Errno) (hhdr : hdr.length = A.sizeofLong) :
      RecvEvents A call [.input (.recv call.msgf) A.sizeofLong (.ok hdr),
        .input (.recv call.msgf) (A.size hdr) (.error e)] (stringBody call.buf (A.size hdr) none)
  | message {hdr body : List UInt8} (hhdr : hdr.length = A.sizeofLong)
      (hbody : body.length ≤ A.size hdr) :
      RecvEvents A call [.input (.recv call.msgf) A.sizeofLong (.ok hdr),
        .input (.recv call.msgf) (A.size hdr) (.ok body)] (stringBody call.buf (A.size hdr) (some body))

theorem awaitReadready_tests (K : Kernel) (operation : String) (s : St UInt8) :
    wp (awaitReadready K operation)
      (fun _ s' => ∃ tests, s'.sys.history = s.sys.history ++ tests ∧ inputs tests = [] ∧
        wire tests = [])
      (fun _ s' => ∃ tests, s'.sys.history = s.sys.history ++ tests ∧ inputs tests = [] ∧
        wire tests = []) s := by
  have hquiet : ∀ s', Exchanged [] [] s s' →
      (∃ es, s'.sys.history = s.sys.history ++ es ∧ inputs es = []) →
      ∃ tests, s'.sys.history = s.sys.history ++ tests ∧ inputs tests = [] ∧ wire tests = [] := by
    intro s' h ⟨es, hes, hinputs⟩
    have hwire := h.wire
    unfold St.wire at hwire
    rw [hes, wire_append] at hwire
    exact ⟨es, hes, hinputs, List.append_cancel_left hwire⟩
  exact ((awaitReadready_spec K operation s).and (awaitReadready_silent K operation s)).mono
    (fun _ s' h => hquiet s' h.1 h.2) fun _ s' h => hquiet s' h.1.2 h.2

/-- The calls of `recv(string&)`. If it throws it has heard nothing, or a part of a header. -/
theorem recvString_events (K : Kernel) (A : Abi) (call : RecvCall) (s : St UInt8) :
    wp (call.run K A)
      (fun r s' => ∃ tests es, s'.sys.history = s.sys.history ++ (tests ++ es) ∧
        inputs tests = [] ∧ wire tests = [] ∧ RecvEvents A call es r)
      (fun _ s' => s'.wire = s.wire ∧
        (s'.received = s.received → heard s'.sys.history = heard s.sys.history)) s := by
  unfold RecvCall.run
  rw [recvString_eq]
  unfold recvFramed
  rw [wp_bind]
  refine (awaitReadready_tests K "sockbuf::recv" s).mono ?_ ?_
  · rintro _ s1 ⟨tests, h1, hinputs, hwire⟩
    rw [wp_bind]
    refine (input_asks (.recv call.msgf) A.sizeofLong s1).mono ?_ fun _ _ h => h.elim
    rintro r s2 ⟨answer, h2, hr⟩
    have hhistory : s2.sys.history = s.sys.history ++
        (tests ++ [.input (.recv call.msgf) A.sizeofLong answer]) := by
      rw [h2, h1, List.append_assoc]
    have hwire2 : s2.wire = s.wire := by
      have hnone : wire [.input (.recv call.msgf) A.sizeofLong answer] = [] := rfl
      simp [St.wire, hhistory, wire_append, hwire, hnone]
    cases r with
    | none =>
      obtain ⟨e, rfl⟩ := hr
      refine wp_throwErrno fun _ _ => ⟨hwire2, fun _ => ?_⟩
      have hnone : heard [.input (.recv call.msgf) A.sizeofLong (.error e)] = [] := rfl
      simp [hhistory, heard_append, heard_silent hinputs, hnone]
    | some hdr =>
      obtain ⟨rfl, -⟩ := hr
      refine wp_ite_intro (fun hempty => ?_) fun hsome => wp_ite_intro (fun hpart => ?_) fun hwhole => ?_
      · obtain rfl := List.eq_nil_of_length_eq_zero hempty
        exact ⟨tests, _, hhistory, hinputs, hwire, .nothing⟩
      · refine wp_throwErrno fun _ _ => ⟨hwire2, fun hreceived => ?_⟩
        have hone : inputs [.input (.recv call.msgf) A.sizeofLong (.ok hdr)] = [.ok hdr] := rfl
        have hpart : hdr = [] := by
          simpa [St.received, St.inputs, hhistory, inputs_append, hinputs, hone, answerBytes] using
            hreceived
        exact absurd (congrArg List.length hpart) hsome
      · have hhdr := not_not.mp hwhole
        rw [wp_bind]
        refine (input_asks (.recv call.msgf) (A.size hdr) s2).mono ?_ fun _ _ h => h.elim
        rintro bs s3 ⟨answer, h3, hbs⟩
        have hboth : s3.sys.history = s.sys.history ++
            (tests ++ [.input (.recv call.msgf) A.sizeofLong (.ok hdr),
              .input (.recv call.msgf) (A.size hdr) answer]) := by simp [h3, hhistory]
        refine ⟨tests, _, hboth, hinputs, hwire, ?_⟩
        cases bs with
        | none =>
          obtain ⟨e, rfl⟩ := hbs
          exact .failed e hhdr
        | some body =>
          obtain ⟨rfl, hbody⟩ := hbs
          exact .message hhdr hbody
  · rintro _ s1 ⟨tests, h1, hinputs, hwire⟩
    refine ⟨by simp [St.wire, h1, wire_append, hwire], fun _ => ?_⟩
    simp [h1, heard_append, heard_silent hinputs]

theorem within_sendFramed (K : Kernel) (A : Abi) (payload : List UInt8) (msgf : Int) :
    Within St.Later (sendFramed K A payload msgf : M UInt8 Int) := by
  refine .bind (within_awaitWriteready K _) fun _ => .bind (within_output K _ _) fun answer => ?_
  cases answer with
  | none => exact .throw _
  | some k => exact .bind (within_outputLoop K _ _ _ _) fun wlen => .pure _

theorem sendFramed_exchanged (K : Kernel) (A : Abi) (payload : List UInt8) (msgf : Int)
    (s : St UInt8) :
    wp (sendFramed K A payload msgf) (fun _ s' => ∃ out, Exchanged out [] s s')
      (fun _ s' => ∃ out, Exchanged out [] s s') s := by
  unfold sendFramed
  rw [wp_bind]
  refine (awaitWriteready_spec K _ s).mono (fun _ s1 h1 => ?_) fun _ _ h => ⟨_, h.2⟩
  rw [wp_bind]
  refine wp_output (fun k s2 h2 => ?_) fun s2 h2 => ⟨_, h1.trans h2⟩
  rw [wp_bind]
  refine (outputLoop_spec K _ _ 0 _ s2).mono ?_ ?_
  · exact fun _ s3 h3 => ⟨_, (h1.trans h2).trans h3.2⟩
  · rintro e s3 ⟨k', -, -, h3⟩
    exact ⟨_, (h1.trans h2).trans h3⟩

/-- A call of `send` hears nothing. -/
theorem send_heard (K : Kernel) (A : Abi) (call : SendCall UInt8) (s : St UInt8) :
    wp (call.run K A) (fun _ s' => heard s'.sys.history = heard s.sys.history)
      (fun _ s' => heard s'.sys.history = heard s.sys.history) s := by
  have hsame : ∀ s', s.Later s' → (∃ out, Exchanged out [] s s') →
      heard s'.sys.history = heard s.sys.history := by
    intro s' hlater ⟨out, hx⟩
    obtain ⟨es, hes⟩ := hlater.history
    have hinputs := hx.inputs
    unfold St.inputs at hinputs
    rw [← hes, inputs_append] at hinputs
    rw [← hes, heard_append, heard_silent (List.append_cancel_left hinputs), List.append_nil]
  rw [SendCall.run_eq]
  exact ((within_sendFramed K A _ _ s).and (sendFramed_exchanged K A _ _ s)).mono
    (fun _ s' h => hsame s' h.1 h.2) fun _ s' h => hsame s' h.1 h.2

/-! ## The processes

A process calls `send` and `recv` in any order until it exits. It keeps the messages that it has
sent and those that it was handed. -/

/-- A process that sends and receives messages: those it has sent, and what `recv` has returned to
it other than 0. -/
structure Caller where
  buf : St UInt8
  sent : List (List UInt8)
  got : List (List UInt8)
  gone : Bool

inductive MessageCall where
  | send (call : SendCall UInt8)
  | recv (call : RecvCall)
  | exit

/-- What a call of `send` leaves. -/
def Caller.posts (c : Caller) (call : SendCall UInt8) :
    Except Exc Int × St UInt8 → Except Exc Int × Caller
  | (.ok n, s) => (.ok n, { c with buf := s, sent := c.sent ++ [call.payload] })
  | (.error e, s) => (.error e, { c with buf := s })

/-- What a call of `recv` leaves. -/
def Caller.gets (c : Caller) : Except Exc (Int × List UInt8) × St UInt8 → Except Exc Int × Caller
  | (.ok (n, text), s) =>
    (.ok n, { c with buf := s, got := if n = 0 then c.got else c.got ++ [text] })
  | (.error e, s) => (.error e, { c with buf := s })

def MessageCall.run (K : Kernel) (A : Abi) : MessageCall → Caller → Except Exc Int × Caller
  | .send call, c => c.posts call (attempt (call.run K A) c.buf)
  | .recv call, c => c.gets (attempt (call.run K A) c.buf)
  | .exit, c => (.ok 0, { c with gone := true })

inductive Caller.Acts (A : Abi) (c : Caller) : MessageCall → Except Exc Int → Caller → Prop where
  | act {call : MessageCall} {out : Except Exc Int} {c' : Caller} (K : Kernel)
      (hhere : c.gone = false) (hrun : call.run K A c = (out, c')) : Acts A c call out c'

def Caller.port : Duplex.Port Caller UInt8 where
  sent c := c.buf.wire
  answers c := heard c.buf.sys.history
  stopped c := c.gone = true

abbrev Mail := Duplex.Link (fun _ => Caller) UInt8

/-- Two processes on hosts with the given layouts. -/
def mail (A : Bool → Abi) : Duplex.System (fun _ => Caller) UInt8 MessageCall (Except Exc Int) where
  port _ := Caller.port
  acts side := Caller.Acts (A side)

def Mail.fresh (P : Platform) (sock : Bool → Int) (gbuf pbuf : Bool → Nat → UInt8)
    (errno : Bool → Errno) : Mail where
  ends side := ⟨Sockstream.fresh P (sock side) (gbuf side) (pbuf side) (errno side), [], [], false⟩
  flight _ := []

abbrev Exchange := Entry Caller MessageCall (Except Exc Int)

/-- The frame went out as a whole, or the call threw and nothing went out. -/
structure SendCall.Uncut (A : Abi) (call : SendCall UInt8) (s : St UInt8) (out : Except Exc Int)
    (s' : St UInt8) : Prop where
  length : call.payload.length < 2 ^ 31
  ok : ∀ n, out = .ok n → s'.wire.length = s.wire.length + A.sizeofLong + call.payload.length
  error : ∀ e, out = .error e → s'.wire = s.wire

/-- A whole message came in, or the end of the stream, or the call threw and nothing came in. -/
structure RecvCall.Uncut (A : Abi) (s : St UInt8) (out : Except Exc Int) (s' : St UInt8) : Prop where
  ok : ∀ n, out = .ok n → s'.inputs = s.inputs ++ [.ok []] ∨
    ∃ hdr body, s'.inputs = s.inputs ++ [.ok hdr, .ok body] ∧ body.length = A.size hdr
  error : ∀ e, out = .error e → s'.received = s.received

/-- The call was not cut short. -/
def MessageCall.Uncut (A : Abi) (s : St UInt8) (out : Except Exc Int) (s' : St UInt8) :
    MessageCall → Prop
  | .send call => call.Uncut A s out s'
  | .recv _ => RecvCall.Uncut A s out s'
  | .exit => True

/-! ## One process

At each end the bytes sent are frames of the messages sent, and the bytes received are frames of the
messages received. -/

/-- Headers and bodies, one behind the other. -/
def joined (parts : List (List UInt8 × List UInt8)) : List UInt8 := parts.flatMap fun p => p.1 ++ p.2

/-- What a process has written are the frames of its messages, and what it has heard divides into
headers and bodies. -/
structure Caller.Parsed (A : Abi) (c : Caller) (parts : List (List UInt8 × List UInt8)) : Prop where
  wire : c.buf.wire = A.frames c.sent
  short : ∀ m ∈ c.sent, m.length < 2 ^ 31
  heard : (heard c.buf.sys.history).flatten = joined parts
  whole : ∀ p ∈ parts, p.1.length = A.sizeofLong ∧ p.2.length = A.size p.1
  got : c.got = (parts.map Prod.snd).filter (· ≠ [])

/-- What a call adds: `more` was received, and 0 was returned at the end or for nothing. -/
structure Caller.Adds (A : Abi) (parts more : List (List UInt8 × List UInt8)) (call : MessageCall)
    (c : Caller) (out : Except Exc Int) (c' : Caller) : Prop where
  parsed : c'.Parsed A (parts ++ more)
  heard : heard c.buf.sys.history <+: heard c'.buf.sys.history
  zero : ∀ r, call = .recv r → out = .ok 0 →
    [] ∈ Sockstream.heard c'.buf.sys.history ∨ [] ∈ more.map Prod.snd

section Caller

variable {A : Abi} {K : Kernel} {c c' : Caller} {parts : List (List UInt8 × List UInt8)}
  {out : Except Exc Int}

theorem Caller.adds_send {call : SendCall UInt8} (hc : c.Parsed A parts)
    (hrun : c.posts call (attempt (call.run K A) c.buf) = (out, c'))
    (huncut : call.Uncut A c.buf out c'.buf) : Caller.Adds A parts [] (.send call) c out c' := by
  have hheard := send_heard K A call c.buf
  have hsame : ∀ s : St UInt8, heard s.sys.history = heard c.buf.sys.history →
      (heard s.sys.history).flatten = joined (parts ++ []) := by
    intro s hs
    rw [hs, hc.heard, List.append_nil]
  unfold attempt at hrun
  cases hcall : call.run K A c.buf with
  | ok n s =>
    rw [hcall] at hrun
    obtain ⟨rfl, rfl⟩ := Prod.mk.inj hrun
    obtain ⟨-, k, hk, -, hwire⟩ := (sendFramed_spec K A call c.buf huncut.length).of_ok hcall
    have hs := hheard.of_ok hcall
    have hlength := huncut.ok n rfl
    have hall : k = A.sizeofLong := by
      simp [hwire, Nat.min_eq_left hk] at hlength
      omega
    refine ⟨⟨?_, ?_, hsame s hs, by simpa using hc.whole, by simpa using hc.got⟩, ?_, by simp⟩
    · have hwhole : (A.header call.payload.length).take k = A.header call.payload.length :=
        List.take_of_length_le (by simp [hall])
      rw [hwire, hwhole, hc.wire]
      simp [Abi.frames, Abi.frame]
    · intro m hm
      rcases List.mem_append.mp hm with hm | hm
      · exact hc.short m hm
      · rw [List.mem_singleton.mp hm]
        exact huncut.length
    · simp [hs]
  | error e s =>
    rw [hcall] at hrun
    obtain ⟨rfl, rfl⟩ := Prod.mk.inj hrun
    have hs := hheard.of_error hcall
    refine ⟨⟨?_, hc.short, hsame s hs, by simpa using hc.whole, by simpa using hc.got⟩, ?_,
      by simp⟩
    · exact (huncut.error e rfl).trans hc.wire
    · simp [hs]

theorem Caller.adds_recv {call : RecvCall} (hc : c.Parsed A parts)
    (hrun : c.gets (attempt (call.run K A) c.buf) = (out, c'))
    (huncut : RecvCall.Uncut A c.buf out c'.buf) :
    ∃ more, Caller.Adds A parts more (.recv call) c out c' := by
  have hevents := recvString_events K A call c.buf
  unfold attempt at hrun
  cases hcall : call.run K A c.buf with
  | ok r s =>
    rw [hcall] at hrun
    obtain ⟨rfl, rfl⟩ := Prod.mk.inj hrun
    obtain ⟨tests, es, hhistory, hinputs, hwire, hes⟩ := hevents.of_ok hcall
    have hin : s.inputs = c.buf.inputs ++ inputs es := by
      simp [St.inputs, hhistory, inputs_append, hinputs]
    have hheard : heard s.sys.history = heard c.buf.sys.history ++ heard es := by
      simp [hhistory, heard_append, heard_silent hinputs]
    have hout : s.wire = c.buf.wire ++ wire es := by
      simp [St.wire, hhistory, wire_append, hwire]
    have hfour := A.four_le
    have hlong : A.sizeofLong ≠ 0 := by omega
    cases hes with
    | nothing =>
      rw [heard_cons_input _ hlong] at hheard
      refine ⟨[], ⟨?_, hc.short, ?_, by simpa using hc.whole, ?_⟩, ⟨_, hheard.symm⟩,
        fun _ _ _ => .inl ?_⟩
      · exact (hout.trans (List.append_nil _)).trans hc.wire
      · simp [hheard, hc.heard]
      · simpa using hc.got
      · simp [hheard]
    | failed err hhdr =>
      -- -1 is returned, and the header is lost
      rcases huncut.ok _ rfl with hend | ⟨hdr', body, hbody, -⟩
      · have := hin.symm.trans hend
        simp [inputs, Event.answer?] at this
      · have := hin.symm.trans hbody
        simp [inputs, Event.answer?] at this
    | @message hdr body hhdr hbody =>
      have hsize : body.length = A.size hdr := by
        rcases huncut.ok _ rfl with hend | ⟨hdr', body', hbody', hsize⟩
        · have := hin.symm.trans hend
          simp [inputs, Event.answer?] at this
        · have := hin.symm.trans hbody'
          simp [inputs, Event.answer?] at this
          rw [this.1, this.2, hsize]
      have hbytes : (heard [.input (.recv call.msgf) A.sizeofLong (.ok hdr),
          .input (.recv call.msgf) (A.size hdr) (.ok body)]).flatten = hdr ++ body := by
        rw [heard_cons_input _ hlong, List.flatten_cons, flatten_heard_input _ hbody]
      have htext : (stringBody call.buf (A.size hdr) (some body)).2 = body := by
        have hdrop : (resize call.buf (A.size hdr)).drop body.length = [] :=
          List.drop_eq_nil_of_le (by simp [length_resize, hsize])
        simp [stringBody, hdrop]
      have hzero : (stringBody call.buf (A.size hdr) (some body)).1 = 0 ↔ body = [] := by
        have hlt : body.length < 2 ^ 32 := by
          rw [hsize]
          exact A.size_lt hdr
        rw [stringBody, asInt_eq_zero hlt, List.length_eq_zero_iff]
      refine ⟨[(hdr, body)], ⟨?_, hc.short, ?_, ?_, ?_⟩, ⟨_, hheard.symm⟩, fun _ _ hnone => .inr ?_⟩
      · exact (hout.trans (List.append_nil _)).trans hc.wire
      · simp [hheard, hc.heard, hbytes, joined]
      · intro p hp
        rcases List.mem_append.mp hp with hp | hp
        · exact hc.whole p hp
        · obtain rfl := List.mem_singleton.mp hp
          exact ⟨hhdr, hsize⟩
      · by_cases hempty : body = []
        · subst hempty
          simp [hzero.mpr rfl, hc.got]
        · simp [htext, hzero, hempty, hc.got]
      · simp [hzero.mp (by simpa using hnone)]
  | error e s =>
    rw [hcall] at hrun
    obtain ⟨rfl, rfl⟩ := Prod.mk.inj hrun
    obtain ⟨hwire, hsame⟩ := hevents.of_error hcall
    have hs := hsame (huncut.error e rfl)
    refine ⟨[], ⟨?_, hc.short, ?_, by simpa using hc.whole, by simpa using hc.got⟩, ?_, by simp⟩
    · exact hwire.trans hc.wire
    · exact (congrArg List.flatten hs).trans (by simpa using hc.heard)
    · simp [hs]

theorem Caller.Acts.adds {call : MessageCall} (hacts : c.Acts A call out c')
    (hc : c.Parsed A parts) (huncut : call.Uncut A c.buf out c'.buf) :
    ∃ more, Caller.Adds A parts more call c out c' := by
  obtain ⟨K, -, hrun⟩ := hacts
  cases call with
  | send call => exact ⟨[], adds_send hc hrun huncut⟩
  | recv call => exact adds_recv hc hrun huncut
  | exit =>
    obtain ⟨rfl, rfl⟩ := Prod.mk.inj hrun
    exact ⟨[], ⟨hc.wire, hc.short, by simpa using hc.heard, by simpa using hc.whole,
      by simpa using hc.got⟩, List.prefix_rfl, by simp⟩

abbrev Called := Entry Caller MessageCall (Except Exc Int)

/-- A run of one process whose calls are not cut short. Induction on the run. -/
theorem Caller.run_parsed {start : Caller} {log : List Called} (hrun : Run (Caller.Acts A) start log c)
    (hstart : start.Parsed A [])
    (huncut : ∀ e ∈ log, e.op.Uncut A e.before.buf e.outcome e.after.buf) :
    ∃ parts, c.Parsed A parts ∧ ∀ e ∈ log, ∀ r, e.op = .recv r → e.outcome = .ok 0 →
      [] ∈ heard c.buf.sys.history ∨ [] ∈ parts.map Prod.snd := by
  induction hrun with
  | start => exact ⟨[], hstart, by simp⟩
  | @step log s s' call out _ hstep ih =>
    obtain ⟨parts, hs, hzero⟩ := ih fun e he => huncut e (List.mem_cons_of_mem _ he)
    obtain ⟨more, hadds⟩ := hstep.adds hs (huncut _ List.mem_cons_self)
    refine ⟨parts ++ more, hadds.parsed, ?_⟩
    intro e he r hop hout
    rw [List.map_append]
    rcases List.mem_cons.mp he with rfl | he
    · exact (hadds.zero r hop hout).imp id (List.mem_append_right _)
    · exact (hzero e he r hop hout).imp (fun h => hadds.heard.subset h) (List.mem_append_left _)

end Caller

/-! ## Both

What a receiver has cut out of the bytes is compared with what the sender has framed. The two begin
alike, so each header is read as it was written and tells where the next one is. -/

/-- What is made of headers and bodies and begins like frames is made of the first of them: the
header says where the next one is. Induction on the parts. -/
theorem Abi.ReadBy.parts_of_frames {A B : Abi} (hread : A.ReadBy B)
    {parts : List (List UInt8 × List UInt8)} {msgs : List (List UInt8)} {rest : List UInt8}
    (hmsgs : ∀ m ∈ msgs, m.length < 2 ^ 31)
    (hwhole : ∀ p ∈ parts, p.1.length = B.sizeofLong ∧ p.2.length = B.size p.1)
    (h : joined parts ++ rest = A.frames msgs) :
    ∃ later, msgs = parts.map Prod.snd ++ later ∧ rest = A.frames later := by
  induction parts generalizing msgs with
  | nil => exact ⟨msgs, rfl, h⟩
  | cons p parts ih =>
    obtain ⟨hhdr, hbody⟩ := hwhole p List.mem_cons_self
    have hsplit : p.1 ++ (p.2 ++ (joined parts ++ rest)) = A.frames msgs := by
      simpa [joined] using h
    cases msgs with
    | nil =>
      have hfour := B.four_le
      have hnone : p.1 = [] := (List.append_eq_nil_iff.mp hsplit).1
      rw [hnone, List.length_nil] at hhdr
      omega
    | cons m msgs =>
      rw [A.frames_cons] at hsplit
      obtain ⟨hheader, hrest⟩ := List.append_inj hsplit (by rw [hhdr, hread.1, A.length_header])
      have hm := hmsgs m List.mem_cons_self
      have hsize : p.2.length = m.length := by
        rw [hbody, hheader]
        exact hread.2 _ (by omega)
      obtain ⟨hsame, hlater⟩ := List.append_inj hrest hsize
      obtain ⟨later, hmsgs', hframes⟩ := ih (fun m' hm' => hmsgs m' (List.mem_cons_of_mem _ hm'))
        (fun p' hp' => hwhole p' (List.mem_cons_of_mem _ hp')) hlater
      exact ⟨later, by simp [hsame, hmsgs'], hframes⟩

theorem mail_obeys (A : Bool → Abi) : (mail A).Obeys fun _ _ => True where
  keeps _ _ _ _ _ _ _ := trivial
  stopped _ c call out c' _ hacts hgone := by
    obtain ⟨K, hhere, -⟩ := hacts
    exact absurd hhere (by simp [show c.gone = true from hgone])

/-- **Messages.** Two processes send and receive messages over a connection, in any order, and no
call is cut short. If the receiver reads the sender's headers, the messages that were sent are those
received and those on their way, whole and in order; `recv` has returned those received, but for
empty ones. If it has returned 0 and none of those received was empty, the sender is gone and
everything was received. -/
theorem messages_delivered {A : Bool → Abi} {P : Platform} {sock : Bool → Int}
    {gbuf pbuf : Bool → Nat → UInt8} {errno : Bool → Errno}
    {log : List (Entry Mail (Bool × MessageCall) (Except Exc Int))} {w : Mail}
    (h : Run (mail A).Step (Mail.fresh P sock gbuf pbuf errno) log w)
    (huncut : ∀ e ∈ log, e.op.2.Uncut (A e.op.1) (e.before.ends e.op.1).buf e.outcome
      (e.after.ends e.op.1).buf)
    (side : Bool) (hread : (A side).ReadBy (A (!side))) :
    ∃ read later, (w.ends side).sent = read ++ later ∧ w.flight side = (A side).frames later ∧
      (w.ends (!side)).got = read.filter (· ≠ []) ∧
      ∀ e ∈ Duplex.ofSide (!side) log, ∀ r, e.op = .recv r → e.outcome = .ok 0 → [] ∉ read →
        (w.ends side).gone = true ∧ later = [] := by
  have hfresh : ∀ d, ((Mail.fresh P sock gbuf pbuf errno).ends d).Parsed (A d) [] := fun d =>
    ⟨rfl, by simp [Mail.fresh], rfl, by simp, rfl⟩
  obtain ⟨hw, -⟩ := Duplex.run_sound (mail_obeys A) (fun _ => trivial)
    ⟨fun _ => rfl, fun _ pre post hnone => by simp [mail, Caller.port, Mail.fresh, fresh] at hnone⟩ h
  have huncut' := fun d => Duplex.forall_ofSide
    (P := fun d (e : Called) => e.op.Uncut (A d) e.before.buf e.outcome e.after.buf) huncut d
  obtain ⟨_, hsender, -⟩ := Caller.run_parsed (Duplex.run_side h side) (hfresh side) (huncut' side)
  obtain ⟨parts, hreceiver, hzero⟩ :=
    Caller.run_parsed (Duplex.run_side h (!side)) (hfresh (!side)) (huncut' (!side))
  have hflow : joined parts ++ w.flight side = (A side).frames (w.ends side).sent := by
    rw [← hreceiver.heard, ← hsender.wire]
    exact hw.flow side
  obtain ⟨later, hsent, hflight⟩ := hread.parts_of_frames hsender.short hreceiver.whole hflow
  refine ⟨parts.map Prod.snd, later, hsent, hflight, hreceiver.got, fun e he r hop hout hnone => ?_⟩
  have hend : [] ∈ heard (w.ends (!side)).buf.sys.history := (hzero e he r hop hout).resolve_right hnone
  obtain ⟨pre, post, hsplit⟩ := List.append_of_mem hend
  obtain ⟨hgone, -⟩ := hw.final side pre post hsplit
  obtain ⟨-, hall⟩ := hw.heard_all side hsplit
  refine ⟨hgone, ?_⟩
  have hempty : w.flight side = [] := by
    have hflow' := hw.flow side
    rw [hall] at hflow'
    exact List.append_right_eq_self.mp hflow'
  cases later with
  | nil => rfl
  | cons m later => exact absurd (hflight.symm.trans hempty) ((A side).frames_ne_nil m later)

/-! ### One message -/

/-- The connection after a call on a host with eight bytes of `unsigned long`, lowest first. -/
def Mail.does (w : Mail) (side : Bool) (call : MessageCall) (K : Kernel) (sent rest : List UInt8) :
    Mail :=
  w.after side (call.run K Abi.lp64 (w.ends side)).2 sent rest

/-- The peer's frame of an `A`. -/
def letterFrame : List UInt8 := Abi.lp64.frames [[65]]

def mailOpen : Mail :=
  Mail.fresh .small (fun _ => 3) (fun _ _ => 0) (fun _ _ => 0) fun _ => 0

def mailSent : Mail :=
  mailOpen.does false (.send (.string [65] 0)) .sink letterFrame []

def mailGone : Mail := mailSent.does false .exit .sink [] []

def mailRead : Mail :=
  mailGone.does true (.recv ⟨[], 0⟩) (Transport.upTo letterFrame 9).toKernel [] []

def mailEnded : Mail := mailRead.does true (.recv ⟨[], 0⟩) .sink [] []

theorem mail_run : ∃ log, Run (mail fun _ => Abi.lp64).Step mailOpen log mailEnded ∧
    (∀ e ∈ log, e.op.2.Uncut Abi.lp64 (e.before.ends e.op.1).buf e.outcome
      (e.after.ends e.op.1).buf) ∧
    ∃ e ∈ Duplex.ofSide true log, ∃ r, e.op = .recv r ∧ e.outcome = .ok 0 := by
  have hsend : (MessageCall.run .sink Abi.lp64 (.send (.string [65] 0)) (mailOpen.ends false)).1 =
      .ok 1 := by decide +kernel
  have hrecv : (MessageCall.run (Transport.upTo letterFrame 9).toKernel Abi.lp64 (.recv ⟨[], 0⟩)
      (mailGone.ends true)).1 = .ok 1 := by decide +kernel
  have hend : (MessageCall.run .sink Abi.lp64 (.recv ⟨[], 0⟩) (mailRead.ends true)).1 =
      .ok 0 := by decide +kernel
  have hgone : (mailRead.ends false).gone = true := by decide +kernel
  have h1 : (mail fun _ => Abi.lp64).Step mailOpen (false, .send (.string [65] 0)) (.ok 1) mailSent :=
    @Duplex.System.Step.act _ _ _ _ _ _ false _ _ _ letterFrame [] []
      (.act .sink (by decide +kernel) (Prod.ext hsend rfl)) (by decide +kernel) (by decide +kernel)
      rfl (by simp)
  have h2 : (mail fun _ => Abi.lp64).Step mailSent (false, .exit) (.ok 0) mailGone :=
    @Duplex.System.Step.act _ _ _ _ _ _ false _ _ _ [] [] []
      (.act .sink (by decide +kernel) rfl) (by decide +kernel) (by decide +kernel) rfl (by simp)
  have h3 : (mail fun _ => Abi.lp64).Step mailGone (true, .recv ⟨[], 0⟩) (.ok 1) mailRead := by
    refine @Duplex.System.Step.act _ _ _ _ _ _ true _ _ _ [] [] [Abi.lp64.header 1, [65]]
      (.act (Transport.upTo letterFrame 9).toKernel (by decide +kernel) (Prod.ext hrecv rfl))
      (by decide +kernel) (by decide +kernel) (by decide +kernel) ?_
    intro pre post hheard
    have hmem : ([] : List UInt8) ∈ [Abi.lp64.header 1, [65]] := by simp [hheard]
    exact absurd hmem (by decide +kernel)
  have h4 : (mail fun _ => Abi.lp64).Step mailRead (true, .recv ⟨[], 0⟩) (.ok 0) mailEnded := by
    refine @Duplex.System.Step.act _ _ _ _ _ _ true _ _ _ [] [] [[]]
      (.act .sink (by decide +kernel) (Prod.ext hend rfl)) (by decide +kernel)
      (by decide +kernel) (by decide +kernel) ?_
    intro pre post hheard
    cases pre with
    | nil => exact ⟨hgone, by decide +kernel⟩
    | cons a pre => simp at hheard
  refine ⟨_, (((Run.start.step h1).step h2).step h3).step h4, ?_, ?_⟩
  · simp only [List.forall_mem_cons]
    refine ⟨⟨fun _ _ => .inl ?_, by simp⟩,
      ⟨fun _ _ => .inr ⟨Abi.lp64.header 1, [65], ?_, ?_⟩, by simp⟩,
      trivial, ⟨by decide, fun _ _ => ?_, by simp⟩, by simp⟩
    · decide +kernel
    · decide +kernel
    · decide +kernel
    · decide +kernel
  · exact ⟨_, .head _, ⟨[], 0⟩, rfl, rfl⟩

/-- The receiver has what the sender has sent. -/
theorem messages_delivered_letter : (mailEnded.ends true).got = (mailEnded.ends false).sent := by
  obtain ⟨log, hrun, huncut, e, he, r, hop, hout⟩ := mail_run
  obtain ⟨read, later, hsent, -, hgot, hend⟩ := messages_delivered hrun huncut false
    (Abi.readBy_of_endian rfl rfl)
  have hletter : (mailEnded.ends false).sent = [[65]] := by decide +kernel
  have hread : [] ∉ read := by
    intro hnone
    have hmem : ([] : List UInt8) ∈ (mailEnded.ends false).sent := by simp [hsent, hnone]
    simp [hletter] at hmem
  obtain ⟨-, rfl⟩ := hend e he r hop hout hread
  rw [List.append_nil] at hsent
  have hall : read.filter (· ≠ []) = read := by
    simp only [List.filter_eq_self, decide_eq_true_eq]
    exact fun m hm hnone => hread (hnone ▸ hm)
  exact hgot.trans (hall.trans hsent.symm)

end Sockstream
