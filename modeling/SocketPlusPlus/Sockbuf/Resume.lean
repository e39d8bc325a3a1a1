import SocketPlusPlus.Sockbuf.Exchange

/-!
# Sending all of a buffer

`write`, `send` and `sendto` share one loop: it calls again with what the kernel has not taken,
until nothing is left or a call fails. `Resumes` describes the calls it makes, and from it follows
what a caller relies on (`sends_resume`): what was accepted is at every moment the start of the
buffer, each call goes on where the one before stopped, and the count that is thrown is the number
of bytes accepted.
-/

namespace Sockstream

open Exec Memory

/-! ## The calls of the loop

After a short write the loop goes on with what is left. The calls it makes are those of a list that
ends with the first failure or when nothing is left. -/

section Resumes

variable {call : OutCall} {buf : Nat → UInt8} {len wlen r : Nat} {es m : List Event}

/-- The calls that are made when `wlen` of `len` bytes have been accepted, and the number of bytes
accepted at their end: `ok` if that is all of them, `error` if a call failed. -/
inductive Resumes (call : OutCall) (buf : Nat → UInt8) (len : Nat) :
    Nat → List Event → Except Nat Nat → Prop where
  | done : Resumes call buf len len [] (.ok len)
  | fails {wlen : Nat} (hless : wlen < len) (err : Errno) :
      Resumes call buf len wlen [.output call (slice buf wlen (len - wlen)) (.error err)]
        (.error wlen)
  | takes {wlen k : Nat} {es : List Event} {r : Except Nat Nat} (hpos : 0 < k)
      (hle : wlen + k ≤ len) (hrest : Resumes call buf len (wlen + k) es r) :
      Resumes call buf len wlen (.output call (slice buf wlen (len - wlen)) (.ok k) :: es) r

/-- What a call that took `k` bytes adds to the wire. -/
theorem wire_taken {k : Nat} (hle : wlen + k ≤ len) (m : List Event) :
    wire (.output call (slice buf wlen (len - wlen)) (.ok k) :: m)
      = slice buf wlen k ++ wire m := by
  show (slice buf wlen (len - wlen)).take k ++ wire m = _
  rw [take_slice buf wlen (by omega)]

/-- The calls at whose end all bytes are accepted: none of them has failed. -/
theorem Resumes.of_ok (h : Resumes call buf len wlen es (.ok r)) :
    r = len ∧ wire es = slice buf wlen (len - wlen) ∧ ∀ c b err, .output c b (.error err) ∉ es := by
  generalize hr : Except.ok r = result at h
  induction h with
  | done =>
    rw [Nat.sub_self]
    exact ⟨Except.ok.inj hr, rfl, fun _ _ _ h => by cases h⟩
  | fails => cases hr
  | @takes wlen k es _ _ hle _ ih =>
    obtain ⟨hlen, hwire, hnone⟩ := ih hr
    refine ⟨hlen, ?_, fun c b err hin => ?_⟩
    · rw [wire_taken hle, hwire, ← slice_add]
      congr 1
      omega
    · rcases List.mem_cons.mp hin with heq | hin
      · cases heq
      · exact hnone c b err hin

/-- The calls of which one has failed: it is the last, and `r` counts what was accepted. -/
theorem Resumes.of_error (h : Resumes call buf len wlen es (.error r)) :
    r = wlen + (wire es).length ∧ ∃ before bytes err,
      es = before ++ [.output call bytes (.error err)] ∧
      ∀ c b err, .output c b (.error err) ∉ before := by
  generalize hr : Except.error r = result at h
  induction h with
  | done => cases hr
  | fails _ err =>
    cases hr
    exact ⟨rfl, [], _, err, rfl, fun _ _ _ h => by cases h⟩
  | takes _ hle _ ih =>
    obtain ⟨hr', before, bytes, err, rfl, hnone⟩ := ih hr
    refine ⟨?_, _ :: before, bytes, err, rfl, fun c b err hin => ?_⟩
    · rw [wire_taken hle, List.length_append, length_slice, hr', Nat.add_assoc]
    · rcases List.mem_cons.mp hin with heq | hin
      · cases heq
      · exact hnone c b err hin

/-- However many of the calls were made, what was accepted are the bytes behind `buf + wlen`. -/
theorem Resumes.wire_prefix {r : Except Nat Nat} (h : Resumes call buf len wlen es r)
    (hm : m <+: es) : wlen + (wire m).length ≤ len ∧ wire m = slice buf wlen (wire m).length := by
  induction h generalizing m with
  | done =>
    rw [List.prefix_nil.mp hm]
    exact ⟨Nat.le_refl _, rfl⟩
  | fails hless err =>
    have hnil : wire m = [] := by
      rcases List.prefix_cons_iff.mp hm with rfl | ⟨m', rfl, hm'⟩
      · rfl
      · rw [List.prefix_nil.mp hm']
        rfl
    rw [hnil]
    exact ⟨Nat.le_of_lt hless, rfl⟩
  | @takes wlen k es r hpos hle _ ih =>
    rcases List.prefix_cons_iff.mp hm with rfl | ⟨m', rfl, hm'⟩
    · exact ⟨by show wlen + 0 ≤ len; omega, rfl⟩
    · obtain ⟨hfits, hwire⟩ := ih hm'
      rw [wire_taken hle, List.length_append, length_slice, slice_add, ← hwire]
      exact ⟨by omega, rfl⟩

/-- Each call is for the bytes behind those that were accepted before it, up to `buf + len`. -/
theorem Resumes.asks {r : Except Nat Nat} (h : Resumes call buf len wlen es r) {e : Event}
    {rest : List Event} (hes : es = m ++ e :: rest) :
    wlen + (wire m).length < len ∧ ∃ answer, e = .output call
      (slice buf (wlen + (wire m).length) (len - (wlen + (wire m).length))) answer := by
  induction h generalizing m with
  | done => simp at hes
  | fails hless err =>
    cases m with
    | nil =>
      obtain ⟨rfl, -⟩ := List.cons.inj hes
      exact ⟨hless, _, rfl⟩
    | cons e' m' => simp at hes
  | @takes wlen k es r hpos hle _ ih =>
    cases m with
    | nil =>
      obtain ⟨rfl, -⟩ := List.cons.inj hes
      exact ⟨by show wlen + 0 < len; omega, _, rfl⟩
    | cons e' m' =>
      obtain ⟨rfl, hes'⟩ := List.cons.inj hes
      rw [wire_taken hle, List.length_append, length_slice, ← Nat.add_assoc]
      exact ih hes'

end Resumes

/-! ## The members -/

section Members

variable {charT : Type} {K : Kernel} {call : OutCall} {buf : Nat → UInt8} {len : Nat}
  {s : St charT}

/-- The member that sends by `call`. -/
def sendBy (K : Kernel) (buf : Nat → UInt8) (len : Nat) : OutCall → M charT Nat
  | .write => write K buf len
  | .send msgf => send K buf len msgf
  | .sendto sa msgf => sendto K sa buf len msgf

/-- The name of the member in the texts of its errors. -/
def OutCall.operation : OutCall → String
  | .write => "sockbuf::write"
  | .send _ => "sockbuf::send"
  | .sendto _ _ => "sockbuf::sendto"

theorem sendBy_eq (K : Kernel) (buf : Nat → UInt8) (len : Nat) (call : OutCall) :
    (sendBy K buf len call : M charT Nat)
      = (awaitWriteready K call.operation >>= fun _ => outputLoop K call buf 0 len) := by
  cases call <;> rfl

/-- The test before the first call: `select` under a timeout, and else nothing. -/
def St.writeTest (K : Kernel) (s : St charT) : List Event :=
  if s.rep.stmo ≠ -1 then [.writeready s.rep.stmo (K.writeready s.sys.history s.rep.stmo)] else []

/-- The test is passed. -/
def St.Writable (K : Kernel) (s : St charT) : Prop :=
  s.rep.stmo ≠ -1 → K.writeready s.sys.history s.rep.stmo = .ok true

/-- The exception of a test that is not passed: a timeout, or the error of `select`. -/
def St.notWritable (K : Kernel) (operation : String) (s : St charT) : Exc :=
  match K.writeready s.sys.history s.rep.stmo with
  | .ok _ => .sockerr (.ofSpecification ETIMEDOUT operation s.self.sockname)
  | .error e => .sockerr (.ofSpecification e "sockbuf::is_writeready" s.self.sockname)

theorem awaitWriteready_tests (K : Kernel) (operation : String) (s : St charT) :
    wp (awaitWriteready K operation)
      (fun _ s' => s.Writable K ∧ s'.sys.history = s.sys.history ++ s.writeTest K)
      (fun e s' => ¬ s.Writable K ∧ e = s.notWritable K operation ∧
        s'.sys.history = s.sys.history ++ s.writeTest K) s := by
  unfold awaitWriteready St.writeTest St.Writable St.notWritable
  rw [wp_bind, wp_get, wp_bind]
  by_cases hstmo : s.rep.stmo = -1
  · -- no timeout is set
    rw [if_neg (not_not.mpr hstmo), if_neg (not_not.mpr hstmo), List.append_nil]
    exact ⟨fun h => absurd hstmo h, rfl⟩
  · rw [if_pos hstmo, if_pos hstmo]
    refine (query_answers (K.writeready · s.rep.stmo) (.writeready s.rep.stmo)
      "sockbuf::is_writeready" s).mono ?_ ?_
    · intro ready s1 ⟨hready, _, h1⟩
      cases ready with
      | true => exact ⟨fun _ => hready, h1⟩
      | false =>
        refine ⟨fun h => ?_, ?_, h1⟩
        · cases hready.symm.trans (h hstmo)
        · rw [hready]
    · intro e s1 ⟨err, hready, he, h1⟩
      refine ⟨fun h => ?_, ?_, h1⟩
      · cases hready.symm.trans (h hstmo)
      · rw [hready]
        exact he

/-- A round offers what is left, and goes on behind what was taken of it. -/
theorem outputLoop_round {wlen : Nat} (hlen : len ≠ 0) {bytes : List UInt8}
    (hbytes : slice buf wlen len = bytes) (s : St charT) :
    outputLoop K call buf wlen len s =
      match K.output s.sys.history call bytes with
      | .ok k => outputLoop K call buf (wlen + k) (len - k)
          { s with sys := s.sys.record (.output call bytes (.ok k)) }
      | .error e => .error (.count wlen)
          { s with sys := s.sys.fail (.output call bytes (.error e)) e } := by
  subst hbytes
  rw [outputLoop, if_neg hlen]
  cases hanswer : K.output s.sys.history call (slice buf wlen len) with
  | ok k =>
    have hout : output K call (slice buf wlen len) s = .ok (some k)
        { s with sys := s.sys.record (.output call (slice buf wlen len) (.ok k)) } := by
      unfold output
      rw [hanswer]
    exact bind_ok hout
  | error e =>
    have hout : output K call (slice buf wlen len) s = .ok none
        { s with sys := s.sys.fail (.output call (slice buf wlen len) (.error e)) e } := by
      unfold output
      rw [hanswer]
    exact bind_ok hout

/-- The loop makes the calls of `Resumes`. Induction on the bytes still to go. -/
theorem outputLoop_resumes (K : Kernel) (call : OutCall) (buf : Nat → UInt8) (wlen len : Nat)
    (s : St charT) :
    wp (outputLoop K call buf wlen len)
      (fun r s' => ∃ es, s'.sys.history = s.sys.history ++ es ∧
        Resumes call buf (wlen + len) wlen es (.ok r))
      (fun e s' => ∃ es k, s'.sys.history = s.sys.history ++ es ∧ e = .count k ∧
        Resumes call buf (wlen + len) wlen es (.error k)) s := by
  induction len using Nat.strongRecOn generalizing wlen s with
  | _ len ih =>
    by_cases hlen : len = 0
    · subst hlen
      rw [outputLoop]
      exact ⟨[], (List.append_nil _).symm, .done⟩
    have hoffer : slice buf wlen (wlen + len - wlen) = slice buf wlen len := by
      rw [Nat.add_sub_cancel_left]
    unfold wp
    rw [outputLoop_round hlen rfl]
    cases K.output s.sys.history call (slice buf wlen len) with
    | error err =>
      refine ⟨_, wlen, rfl, rfl, ?_⟩
      rw [← hoffer]
      exact .fails (by omega) err
    | ok k =>
      obtain ⟨k, hk⟩ := k
      rw [length_slice] at hk
      have hall : wlen + k + (len - k) = wlen + len := by omega
      -- the call, and those of the rounds behind it
      have hjoin : ∀ {es r}, Resumes call buf (wlen + k + (len - k)) (wlen + k) es r →
          Resumes call buf (wlen + len) wlen (.output call (slice buf wlen len) (.ok k) :: es)
            r := by
        intro es r h
        rw [hall] at h
        rw [← hoffer]
        exact .takes hk.1 (by omega) h
      refine (ih (len - k) (by omega) (wlen + k) _).mono ?_ ?_
      · rintro r s' ⟨es, hs', h⟩
        exact ⟨_, hs'.trans (List.append_assoc ..), hjoin h⟩
      · rintro e s' ⟨es, n, hs', he, h⟩
        exact ⟨_, n, hs'.trans (List.append_assoc ..), he, hjoin h⟩

/-- The loop depends on the memory it is to send, and on no other. -/
theorem outputLoop_congr (K : Kernel) (call : OutCall) {buf buf' : Nat → UInt8} (wlen len : Nat)
    (h : ∀ i, wlen ≤ i → i < wlen + len → buf' i = buf i) (s : St charT) :
    outputLoop K call buf' wlen len s = outputLoop K call buf wlen len s := by
  induction len using Nat.strongRecOn generalizing wlen s with
  | _ len ih =>
    by_cases hlen : len = 0
    · rw [outputLoop, outputLoop, if_pos hlen, if_pos hlen]
    rw [outputLoop_round hlen (slice_congr h), outputLoop_round hlen rfl]
    cases K.output s.sys.history call (slice buf wlen len) with
    | error e => rfl
    | ok k =>
      have hpos : 0 < k.1 := k.2.1
      exact ih (len - k.1) (by omega) (wlen + k.1) (fun i hi hlt => h i (by omega) (by omega)) _

/-- What `s'` has seen since `s`: the test, and calls for bytes of `buf[0..len)`, each for those
behind the bytes that were accepted before it. -/
structure InOrder (K : Kernel) (call : OutCall) (buf : Nat → UInt8) (len : Nat) (es : List Event)
    (s s' : St charT) : Prop where
  history : s'.sys.history = s.sys.history ++ s.writeTest K ++ es
  accepted : ∀ m, m <+: es → wire m <+: slice buf 0 len
  asks : ∀ m e rest, es = m ++ e :: rest → (wire m).length < len ∧ ∃ answer,
    e = .output call (slice buf (wire m).length (len - (wire m).length)) answer

theorem Resumes.inOrder {es : List Event} {r : Except Nat Nat} {s1 s' : St charT}
    (h : Resumes call buf len 0 es r) (h1 : s1.sys.history = s.sys.history ++ s.writeTest K)
    (hs' : s'.sys.history = s1.sys.history ++ es) : InOrder K call buf len es s s' where
  history := hs'.trans (h1 ▸ rfl)
  accepted := by
    intro m hm
    obtain ⟨hle, hwire⟩ := h.wire_prefix hm
    rw [hwire, ← take_slice buf 0 (Nat.zero_add _ ▸ hle)]
    exact List.take_prefix _ _
  asks := by
    intro m e rest hes
    have hasks := h.asks hes
    rwa [Nat.zero_add] at hasks

/-- **The loops that send.** Whichever member sends `buf[0..len)`, and whatever the kernel answers:
what was accepted is at every moment the start of `buf`, and each call is for the bytes behind it.
The member returns `len` if no call fails, and throws the number of bytes accepted if one does. No
call is made if the test before them is not passed. -/
theorem sends_resume (K : Kernel) (call : OutCall) (buf : Nat → UInt8) (len : Nat) (s : St charT) :
    (∀ buf', (∀ i, i < len → buf' i = buf i) →
      sendBy K buf' len call s = sendBy K buf len call s) ∧
    wp (sendBy K buf len call)
      (fun r s' => s.Writable K ∧ r = len ∧ ∃ es, InOrder K call buf len es s s' ∧
        wire es = slice buf 0 len ∧ ∀ c b err, .output c b (.error err) ∉ es)
      (fun e s' =>
        (s.Writable K ∧ ∃ before bytes err,
          InOrder K call buf len (before ++ [.output call bytes (.error err)]) s s' ∧
          e = .count (wire (before ++ [.output call bytes (.error err)])).length ∧
          ∀ c b err, .output c b (.error err) ∉ before) ∨
        ¬ s.Writable K ∧ e = s.notWritable K call.operation ∧
          InOrder K call buf len [] s s') s := by
  refine ⟨fun buf' h => ?_, ?_⟩
  · rw [sendBy_eq, sendBy_eq]
    exact bind_congr_right fun _ s1 _ =>
      outputLoop_congr K call 0 len (fun i _ hi => h i (by omega)) s1
  rw [sendBy_eq, wp_bind]
  refine (awaitWriteready_tests K call.operation s).mono ?_ ?_
  · intro _ s1 ⟨hwritable, h1⟩
    refine (outputLoop_resumes K call buf 0 len s1).mono ?_ ?_
    · intro r s' ⟨es, hs', h⟩
      rw [Nat.zero_add] at h
      obtain ⟨hr, hall, hnone⟩ := h.of_ok
      exact ⟨hwritable, hr, es, h.inOrder h1 hs', hall, hnone⟩
    · intro e s' ⟨es, k, hs', he, h⟩
      rw [Nat.zero_add] at h
      obtain ⟨hk, before, bytes, err, rfl, hnone⟩ := h.of_error
      rw [Nat.zero_add] at hk
      exact .inl ⟨hwritable, before, bytes, err, h.inOrder h1 hs', hk ▸ he, hnone⟩
  · intro e s1 ⟨hnot, he, h1⟩
    refine .inr ⟨hnot, he, h1.trans (List.append_nil _).symm, ?_, ?_⟩
    · intro m hm
      rw [List.prefix_nil.mp hm]
      exact List.nil_prefix
    · intro m e rest hes
      simp at hes

end Members

end Sockstream
