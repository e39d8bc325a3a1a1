import SocketPlusPlus.Sockbuf.Resume
import SocketPlusPlus.Transport

/-!
# The echo server

`serve` accepts one client and sends back what it reads. The inner loop passes the start of `buf`
again with what is left of the length, which is right because `write` sends everything or throws.

The promise is about every moment of a session, so it is stated of the history: `Faithful h` looks
at every prefix of `h`, and at the moments where the next read begins, which is where an iteration
of the outer loop has ended.
-/

namespace Echo

open Exec Memory Sockstream

/-! ## The server -/

/-- `while (rcnt != 0) { .. }` -/
def sendBack (K : Kernel) (buf : Nat → UInt8) : Nat → Int → M UInt8 Unit
  | 0, _ => throw .outOfFuel
  | fuel + 1, rcnt =>
    if rcnt = 0 then pure ()
    else do
      let wcnt ← write K buf rcnt.toNat
      if (wcnt : Int) = -1 then do
        let s ← get
        throw (.sockerr (.ofOperation s.sys.errno ""))
      else sendBack K buf fuel (rcnt - wcnt)

/-- `serve()` from the `accept` on, for the client it returned:
`while ((rcnt = s.read(buf, 1024)) > 0) ..`. What `read` does not overwrite of `buf` stays. -/
def serve (K : Kernel) : Nat → (Nat → UInt8) → M UInt8 Unit
  | 0, _ => throw .outOfFuel
  | fuel + 1, buf => do
    let bs ← Sockstream.read K 1024
    if (bs.length : Int) > 0 then do
      sendBack K (copyIn buf 0 bs) (bs.length + 1) bs.length
      serve K fuel (copyIn buf 0 bs)
    else pure ()

/-! ## What is expected

The server sends back what it has received, byte by byte and in order, as far as writing works. -/

/-- At every moment of the history `h` what was sent is a prefix of what was received, and whenever
a read begins the two are equal. -/
structure Faithful (h : List Event) : Prop where
  sent_prefix : ∀ m, m <+: h → wire m <+: received m
  equal_at_reads : ∀ m e rest, h = m ++ e :: rest → e.answer? ≠ none → wire m = received m

/-- No output call of the history `h` has failed. -/
def WritesWork (h : List Event) : Prop := ∀ call buf err, .output call buf (.error err) ∉ h

/-- The call that ended the service has failed, and no output call before it. Before a failed read
everything was sent back. -/
inductive Ended (e : Exc) (s : St UInt8) : Prop where
  | read (err : Errno) (he : e.IsSockerr)
      (hlast : s.sys.history.getLast? = some (.input .read 1024 (.error err)))
      (hworks : WritesWork s.sys.history) (hequal : s.wire = s.received)
  | write (h : List Event) (buf : List UInt8) (err : Errno) (wlen : Nat) (he : e = .count wlen)
      (hlast : s.sys.history = h ++ [.output .write buf (.error err)]) (hworks : WritesWork h)

/-! ## Histories

All of this is read off the history of the one descriptor that the server has. -/

section Histories

variable {h m es : List Event} {e : Event}

/-- No event is an input call. -/
def Silent (es : List Event) : Prop := ∀ e ∈ es, e.answer? = none

theorem Silent.append {es' : List Event} (h : Silent es) (h' : Silent es') :
    Silent (es ++ es') := by
  intro e he
  rcases List.mem_append.mp he with he | he
  · exact h e he
  · exact h' e he

theorem WritesWork.append {es' : List Event} (h : WritesWork es) (h' : WritesWork es') :
    WritesWork (es ++ es') := by
  intro call buf err hin
  rcases List.mem_append.mp hin with hin | hin
  · exact h call buf err hin
  · exact h' call buf err hin

theorem faithful_nil : Faithful [] where
  sent_prefix m hm := by
    rw [List.prefix_nil.mp hm]
    exact List.prefix_rfl
  equal_at_reads m e rest h := by simp at h

theorem Faithful.snoc (hf : Faithful h) (hsent : wire (h ++ [e]) <+: received (h ++ [e]))
    (hread : e.answer? ≠ none → wire h = received h) : Faithful (h ++ [e]) where
  sent_prefix m hm := by
    rcases List.prefix_concat_iff.mp hm with rfl | hm
    · exact hsent
    · exact hf.sent_prefix m hm
  equal_at_reads m e' rest h' he' := by
    rcases List.eq_nil_or_concat rest with rfl | ⟨rest, last, rfl⟩
    · obtain ⟨rfl, he⟩ := List.append_inj' h' rfl
      cases he
      exact hread he'
    · have hsplit : h ++ [e] = (m ++ e' :: rest) ++ [last] := by simpa using h'
      exact hf.equal_at_reads m e' rest (List.append_inj' hsplit rfl).1 he'

/-- A read that begins when everything was sent back. -/
theorem Faithful.input (hf : Faithful h) (hequal : wire h = received h) (he : e.accepted = []) :
    Faithful (h ++ [e]) := by
  apply hf.snoc _ fun _ => hequal
  rw [wire_append, received_append, hequal]
  simp [wire, he]

/-- Output calls that have sent nothing but what was received. Induction on the calls. -/
theorem Faithful.silent (hf : Faithful h) (hes : Silent es)
    (hsent : wire (h ++ es) <+: received h) :
    Faithful (h ++ es) := by
  induction es generalizing h with
  | nil => simpa using hf
  | cons e es ih =>
    have hsplit : h ++ e :: es = (h ++ [e]) ++ es := by simp
    have hnone : e.answer? = none := hes e (by simp)
    have hreceived : received (h ++ [e]) = received h := by
      simp [received, inputs, hnone]
    rw [hsplit] at hsent ⊢
    apply ih _ (fun e' he' => hes e' (by simp [he'])) (by rwa [hreceived])
    apply hf.snoc _ fun hsome => absurd hnone hsome
    rw [hreceived]
    rw [wire_append] at hsent
    exact (List.prefix_append _ _).trans hsent

end Histories

/-! ## The calls of a session -/

section Calls

variable {K : Kernel} {s : St UInt8}

/-- Nothing but the calls `es` has happened between two states. -/
def Happened (es : List Event) (s s' : St UInt8) : Prop := s'.sys.history = s.sys.history ++ es

/-- No timeouts and no out-of-band data: what a sockbuf starts with and the server leaves. -/
structure Quiet (s : St UInt8) : Prop where
  rtmo : s.rep.rtmo = -1
  stmo : s.rep.stmo = -1
  oob : s.rep.oob = false

theorem Quiet.of_exchanged {out : List UInt8} {ins : List (Except Errno (List UInt8))}
    {s' : St UInt8} (h : Quiet s) (hx : Exchanged out ins s s') : Quiet s' := by
  constructor
  · rw [hx.rep, h.rtmo]
  · rw [hx.rep, h.stmo]
  · rw [hx.rep, h.oob]

theorem read_quiet (hs : Quiet s) :
    wp (Sockstream.read K 1024)
      (fun bs s' => Exchanged [] [.ok bs] s s' ∧ Happened [.input .read 1024 (.ok bs)] s s')
      (fun e s' => e.IsSockerr ∧ ∃ err, Exchanged [] [.error err] s s' ∧
        Happened [.input .read 1024 (.error err)] s s') s := by
  have hawait := awaitReadready_quiet K "sockbuf::read" hs.rtmo hs.oob
  unfold Sockstream.read
  rw [wp_bind_of_ok hawait, wp_bind]
  cases h : K.input s.sys.history .read 1024 with
  | ok bs =>
    have hin : input K .read 1024 s
        = .ok (some bs.1) { s with sys := s.sys.record (.input .read 1024 (.ok bs)) } := by
      simp [input, h]
    rw [wp_iff_of_ok hin]
    exact ⟨exchanged_record s (.input .read 1024 (.ok bs)), rfl⟩
  | error err =>
    have hin : input K .read 1024 s
        = .ok none { s with sys := s.sys.fail (.input .read 1024 (.error err)) err } := by
      simp [input, h]
    rw [wp_iff_of_ok hin]
    apply wp_throwErrno
    intro e he
    exact ⟨he, err, exchanged_fail s (.input .read 1024 (.error err)) err, rfl⟩

/-- A loop that sends makes no input call. -/
theorem Silent.of_resumes {call : OutCall} {buf : Nat → UInt8} {len wlen : Nat} {es : List Event}
    {r : Except Nat Nat} (h : Resumes call buf len wlen es r) : Silent es := by
  induction h with
  | done => simp [Silent]
  | fails _ err => simp [Silent, Event.answer?]
  | takes _ _ _ ih => exact List.forall_mem_cons.mpr ⟨rfl, ih⟩

/-- The loop of `write` makes output calls only, and ends at the first that fails. -/
theorem outputLoop_happened (call : OutCall) (pbuf : Nat → UInt8) (wlen len : Nat) :
    wp (outputLoop K call pbuf wlen len)
      (fun _ s' => ∃ es, Silent es ∧ WritesWork es ∧ Happened es s s')
      (fun _ s' => ∃ es buf err, Silent es ∧ WritesWork es ∧
        Happened (es ++ [.output call buf (.error err)]) s s') s := by
  apply (outputLoop_resumes K call pbuf wlen len s).mono
  · intro r s' ⟨es, hs', h⟩
    obtain ⟨-, -, hworks⟩ := h.of_ok
    exact ⟨es, .of_resumes h, hworks, hs'⟩
  · intro e s' ⟨es, k, hs', _, h⟩
    have hsilent := Silent.of_resumes h
    obtain ⟨-, before, bytes, err, rfl, hworks⟩ := h.of_error
    exact ⟨before, bytes, err, fun e he => hsilent e (List.mem_append_left _ he), hworks, hs'⟩

theorem write_quiet (hs : Quiet s) (buf : Nat → UInt8) (len : Nat) :
    wp (write K buf len)
      (fun r s' => r = len ∧ Exchanged (slice buf 0 len) [] s s' ∧
        ∃ es, Silent es ∧ WritesWork es ∧ Happened es s s')
      (fun e s' => ∃ k, k < len ∧ e = .count k ∧ Exchanged (slice buf 0 k) [] s s' ∧
        ∃ es b err, Silent es ∧ WritesWork es ∧
          Happened (es ++ [.output .write b (.error err)]) s s') s := by
  have hawait := awaitWriteready_quiet K "sockbuf::write" hs.stmo
  unfold write
  rw [wp_bind_of_ok hawait]
  apply ((outputLoop_spec K .write buf 0 len s).and (outputLoop_happened .write buf 0 len)).mono
  · rintro r s' ⟨⟨hr, hx⟩, hes⟩
    exact ⟨by omega, hx, hes⟩
  · rintro e s' ⟨⟨k, hk, he, hx⟩, hes⟩
    exact ⟨k, hk, by simpa using he, hx, hes⟩

end Calls

/-! ## Sessions

Before each `read` the server owes its client nothing. -/

section Sessions

variable {K : Kernel} {s s' : St UInt8} {stream bs : List UInt8} {es : List Event}

/-- One `write` sends all of it, so the inner loop makes one round. -/
theorem sendBack_spec (hs : Quiet s) (buf : Nat → UInt8) {n : Nat} (hn : 0 < n) :
    wp (sendBack K buf (n + 1) n)
      (fun _ s' => Exchanged (slice buf 0 n) [] s s' ∧
        ∃ es, Silent es ∧ WritesWork es ∧ Happened es s s')
      (fun e s' => ∃ k, k < n ∧ e = .count k ∧ Exchanged (slice buf 0 k) [] s s' ∧
        ∃ es b err, Silent es ∧ WritesWork es ∧
          Happened (es ++ [.output .write b (.error err)]) s s') s := by
  obtain ⟨m, rfl⟩ : ∃ m, n = m + 1 := ⟨n - 1, by omega⟩
  have hne : ((m + 1 : Nat) : Int) ≠ 0 := by omega
  unfold sendBack
  rw [if_neg hne, wp_bind, Int.toNat_natCast]
  apply (write_quiet hs buf (m + 1)).mono _ (fun _ _ h => h)
  rintro wcnt s1 ⟨rfl, hx, hes⟩
  have hnot : ¬ ((m + 1 : Nat) : Int) = -1 := by omega
  have hdone : ((m + 1 : Nat) : Int) - (m + 1 : Nat) = 0 := by omega
  rw [if_neg hnot, hdone, sendBack, if_pos rfl]
  exact ⟨hx, hes⟩

/-- The session has been faithful so far, and the bytes `bs` are still to be sent back. -/
structure Owes (stream bs : List UInt8) (s : St UInt8) : Prop where
  quiet : Quiet s
  faithful : Faithful s.sys.history
  owed : s.received = s.wire ++ bs
  isPrefix : s.received <+: stream

theorem Owes.received (h : Owes stream [] s) (hx : Exchanged [] [.ok bs] s s')
    (hh : Happened [.input .read 1024 (.ok bs)] s s')
    (hbs : Delivers stream s.received.length 1024 bs) : Owes stream bs s' := by
  have hequal : s.wire = s.received := by rw [h.owed, List.append_nil]
  have hreceived : s'.received = s.received ++ bs := by simpa [answerBytes] using hx.received
  constructor
  · exact h.quiet.of_exchanged hx
  · rw [hh]
    exact h.faithful.input hequal rfl
  · rw [hreceived, hx.wire, List.append_nil, hequal]
  · rw [hreceived]
    exact hbs.received_prefix h.isPrefix

theorem Owes.sent {out rest : List UInt8} (h : Owes stream (out ++ rest) s)
    (hx : Exchanged out [] s s') (hes : Silent es) (hh : Happened es s s') :
    Owes stream rest s' := by
  have hreceived : s'.received = s.received := by simpa using hx.received
  have howed : s'.received = s'.wire ++ rest := by
    rw [hreceived, h.owed, hx.wire, List.append_assoc]
  constructor
  · exact h.quiet.of_exchanged hx
  · have hsent : wire (s.sys.history ++ es) <+: s.received := by
      rw [← hreceived, howed, ← hh]
      exact List.prefix_append _ _
    rw [hh]
    exact h.faithful.silent hes hsent
  · exact howed
  · rw [hreceived]
    exact h.isPrefix

theorem serve_spec (T : Transport stream) (fuel : Nat) (buf : Nat → UInt8)
    (hs : Owes stream [] s) (hworks : WritesWork s.sys.history)
    (hfuel : stream.length < fuel + s.received.length) :
    wp (serve T.toKernel fuel buf)
      (fun _ s' => Faithful s'.sys.history ∧ WritesWork s'.sys.history ∧ s'.wire = stream)
      (fun e s' => Faithful s'.sys.history ∧ s'.received <+: stream ∧ Ended e s') s := by
  induction fuel generalizing buf s with
  | zero =>
    have := hs.isPrefix.length_le
    omega
  | succ fuel ih =>
    unfold serve
    rw [wp_bind]
    apply ((read_quiet hs.quiet).and (read_delivers T 1024 s)).mono
    · rintro bs s1 ⟨⟨hx1, hh1⟩, hbs⟩
      have h1 : Owes stream bs s1 := hs.received hx1 hh1 hbs
      have hworks1 : WritesWork s1.sys.history := by
        rw [hh1]
        exact hworks.append (by simp [WritesWork])
      have hreceived1 : s1.received = s.received ++ bs := by simpa [answerBytes] using hx1.received
      have hslice : slice (copyIn buf 0 bs) 0 bs.length = bs := slice_copyIn buf 0 bs
      apply wp_ite_intro
      · intro hpos
        have hlen : 0 < bs.length := by omega
        rw [wp_bind]
        apply (sendBack_spec h1.quiet (copyIn buf 0 bs) hlen).mono
        · rintro _ s2 ⟨hx2, es, hes, hwork, hh2⟩
          rw [hslice] at hx2
          have hreceived2 : s2.received = s1.received := by simpa using hx2.received
          have h2 : Owes stream [] s2 := Owes.sent (by simpa using h1) hx2 hes hh2
          have hworks2 : WritesWork s2.sys.history := by
            rw [hh2]
            exact hworks1.append hwork
          apply ih (copyIn buf 0 bs) h2 hworks2
          rw [hreceived2, hreceived1, List.length_append]
          omega
        · -- a call of `write` failed after the first `k` bytes
          rintro e s2 ⟨k, hk, he, hx2, es, b, err, hes, hwork, hh2⟩
          rw [← take_slice _ _ (Nat.le_of_lt hk), hslice] at hx2
          have hfailed : Silent [.output .write b (.error err)] := by simp [Silent, Event.answer?]
          have h2 : Owes stream (bs.drop k) s2 :=
            Owes.sent (by simpa using h1) hx2 (hes.append hfailed) hh2
          have hlast : s2.sys.history
              = (s1.sys.history ++ es) ++ [.output .write b (.error err)] := by
            rw [hh2, List.append_assoc]
          exact ⟨h2.faithful, h2.isPrefix, .write _ b err k he hlast (hworks1.append hwork)⟩
      · intro hnot
        have hnil : bs = [] := List.eq_nil_of_length_eq_zero (by omega)
        subst hnil
        -- the end of the stream: everything was received, and sent back
        have hend : stream.length ≤ s1.received.length := by
          rw [hreceived1, List.append_nil]
          exact (hbs.progress rfl).resolve_left (by omega)
        have hall : s1.received = stream := h1.isPrefix.eq_of_length_le hend
        refine ⟨h1.faithful, hworks1, ?_⟩
        rw [← hall, h1.owed, List.append_nil]
    · rintro e s1 ⟨⟨he, err, hx1, hh1⟩, -⟩
      have hequal : s.wire = s.received := by rw [hs.owed, List.append_nil]
      have hreceived1 : s1.received = s.received := by simpa [answerBytes] using hx1.received
      refine ⟨?_, ?_, .read err he ?_ ?_ ?_⟩
      · rw [hh1]
        exact hs.faithful.input hequal rfl
      · rw [hreceived1]
        exact hs.isPrefix
      · rw [hh1]
        simp
      · rw [hh1]
        exact hworks.append (by simp [WritesWork])
      · rw [hx1.wire, hreceived1, List.append_nil, hequal]

end Sessions

/-- **Echo.** However the transport cuts the client's stream and however many bytes each `::write`
takes: at every moment the server has sent back a prefix of what it has received, and all of it
whenever it reads again. A session that comes to the end of the stream has sent back the stream.
The first `::write` that fails ends the session by an exception, and so does a failed read. -/
theorem echo_faithful {stream : List UInt8} (T : Transport stream) (P : Platform) (sock : Int)
    (gbuf pbuf buf : Nat → UInt8) (errno : Errno) :
    wp (serve T.toKernel (stream.length + 1) buf)
      (fun _ s' => Faithful s'.sys.history ∧ WritesWork s'.sys.history ∧ s'.wire = stream)
      (fun e s' => Faithful s'.sys.history ∧ s'.received <+: stream ∧ Ended e s')
      (fresh P sock gbuf pbuf errno) := by
  apply serve_spec
  · exact ⟨⟨rfl, rfl, rfl⟩, faithful_nil, rfl, List.nil_prefix⟩
  · intro call buf err hin
    cases hin
  · show stream.length < stream.length + 1 + 0
    omega

end Echo
