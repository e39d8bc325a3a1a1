import SocketPlusPlus.Sockbuf.Basic

/-!
# What a system call changes

`Exchanged out ins s s'` says that between `s` and `s'` only the kernel's records moved: it
accepted the bytes `out` and gave the answers `ins` to input calls. The rules below give this
relation for every primitive of the model up to `read` and `write`, so the proofs above them
never look at a kernel.
-/

namespace Sockstream

open Exec Memory

variable {charT : Type} {s s' s'' : St charT}

def St.wire (s : St charT) : List UInt8 := Sockstream.wire s.sys.history

def St.inputs (s : St charT) : List (Except Errno (List UInt8)) := Sockstream.inputs s.sys.history

/-- All bytes `::read` and `::recv` have returned. -/
def St.received (s : St charT) : List UInt8 := s.inputs.flatMap answerBytes

structure Exchanged (out : List UInt8) (ins : List (Except Errno (List UInt8)))
    (s s' : St charT) : Prop where
  rep : s'.rep = s.rep
  self : s'.self = s.self
  wire : s'.wire = s.wire ++ out
  inputs : s'.inputs = s.inputs ++ ins

theorem Exchanged.refl (s : St charT) : Exchanged [] [] s s := ⟨rfl, rfl, by simp, by simp⟩

theorem Exchanged.trans {out out' : List UInt8} {ins ins' : List (Except Errno (List UInt8))}
    (h : Exchanged out ins s s') (h' : Exchanged out' ins' s' s'') :
    Exchanged (out ++ out') (ins ++ ins') s s'' where
  rep := h'.rep.trans h.rep
  self := h'.self.trans h.self
  wire := by rw [h'.wire, h.wire, List.append_assoc]
  inputs := by rw [h'.inputs, h.inputs, List.append_assoc]

/-- A call that exchanged nothing, before another. -/
theorem Exchanged.quiet_trans {out : List UInt8} {ins : List (Except Errno (List UInt8))}
    (h : Exchanged [] [] s s') (h' : Exchanged out ins s' s'') : Exchanged out ins s s'' := by
  simpa using h.trans h'

theorem Exchanged.received {out : List UInt8} {ins : List (Except Errno (List UInt8))}
    (h : Exchanged out ins s s') : s'.received = s.received ++ ins.flatMap answerBytes := by
  unfold St.received
  rw [h.inputs, List.flatMap_append]

theorem exchanged_record (s : St charT) (e : Event) :
    Exchanged e.accepted e.answer?.toList s { s with sys := s.sys.record e } where
  rep := rfl
  self := rfl
  wire := by simp [St.wire, Sockstream.wire, Sys.record, List.flatMap_append]
  inputs := by
    cases h : e.answer? <;>
      simp [St.inputs, Sockstream.inputs, Sys.record, List.filterMap_append, h]

theorem exchanged_fail (s : St charT) (e : Event) (err : Errno) :
    Exchanged e.accepted e.answer?.toList s { s with sys := s.sys.fail e err } :=
  let h := exchanged_record s e
  ⟨h.rep, h.self, h.wire, h.inputs⟩

/-! ## Exceptions of the source

What sending and receiving can throw. -/

/-- A `sockerr`. -/
def Exc.IsSockerr (e : Exc) : Prop := ∃ err, e = .sockerr err

/-- An exception the input members throw: a `sockerr` or a `sockoob`. -/
def Exc.IsInputError (e : Exc) : Prop := e.IsSockerr ∨ e = .sockoob

@[simp] theorem Exc.isSockerr_sockerr (err : Sockerr) : (Exc.sockerr err).IsSockerr := ⟨err, rfl⟩

/-! ## Rules for the system calls

`Exchanged outs ins s s'` says which bytes went out and which answers came in between two states,
and that the rest is as it was. Every system call is such a step. -/

section Calls

variable {K : Kernel} {α : Type} {Q : α → St charT → Prop} {E : Exc → St charT → Prop}

theorem output_ok {call : OutCall} {buf : List UInt8} {k : Accepted buf.length}
    (h : K.output s.sys.history call buf = .ok k) :
    ∃ s', output K call buf s = .ok (some k) s' ∧ Exchanged (buf.take k) [] s s' := by
  unfold output
  rw [h]
  exact ⟨_, rfl, exchanged_record s (.output call buf (.ok k))⟩

theorem output_error {call : OutCall} {buf : List UInt8} {e : Errno}
    (h : K.output s.sys.history call buf = .error e) :
    ∃ s', output K call buf s = .ok none s' ∧ Exchanged [] [] s s' := by
  unfold output
  rw [h]
  exact ⟨_, rfl, exchanged_fail s (.output call buf (.error e)) e⟩

theorem input_ok {call : InCall} {len : Nat} {bs : Received len}
    (h : K.input s.sys.history call len = .ok bs) :
    ∃ s', input K call len s = .ok (some bs.1) s' ∧ Exchanged [] [.ok bs.1] s s' := by
  unfold input
  rw [h]
  exact ⟨_, rfl, exchanged_record s (.input call len (.ok bs))⟩

theorem input_error {call : InCall} {len : Nat} {e : Errno}
    (h : K.input s.sys.history call len = .error e) :
    ∃ s', input K call len s = .ok none s' ∧ Exchanged [] [.error e] s s' := by
  unfold input
  rw [h]
  exact ⟨_, rfl, exchanged_fail s (.input call len (.error e)) e⟩

theorem wp_output {call : OutCall} {buf : List UInt8}
    {Q : Option (Accepted buf.length) → St charT → Prop}
    (hok : ∀ (k : Accepted buf.length) s', Exchanged (buf.take k) [] s s' → Q (some k) s')
    (herr : ∀ s', Exchanged [] [] s s' → Q none s') :
    wp (output K call buf) Q E s := by
  cases h : K.output s.sys.history call buf with
  | ok k =>
    obtain ⟨s', hs', h'⟩ := output_ok h
    exact (wp_iff_of_ok hs').mpr (hok k s' h')
  | error e =>
    obtain ⟨s', hs', h'⟩ := output_error h
    exact (wp_iff_of_ok hs').mpr (herr s' h')

theorem wp_input {call : InCall} {len : Nat} {Q : Option (List UInt8) → St charT → Prop}
    (hok : ∀ (bs : List UInt8) s', bs.length ≤ len → Exchanged [] [.ok bs] s s' → Q (some bs) s')
    (herr : ∀ e s', Exchanged [] [.error e] s s' → Q none s') :
    wp (input K call len) Q E s := by
  cases h : K.input s.sys.history call len with
  | ok bs =>
    obtain ⟨s', hs', h'⟩ := input_ok h
    exact (wp_iff_of_ok hs').mpr (hok bs.1 s' bs.2 h')
  | error e =>
    obtain ⟨s', hs', h'⟩ := input_error h
    exact (wp_iff_of_ok hs').mpr (herr e s' h')

theorem wp_throwErrno {operation : String}
    (h : ∀ e : Exc, e.IsSockerr → E e s) :
    wp (throwErrno operation : M charT α) Q E s := by
  simp only [throwErrno, wp_bind, wp_get, wp_throw]
  exact h _ (Exc.isSockerr_sockerr _)

/-- A test asks once: it returns the answer or throws the error, and the history has both. -/
theorem query_answers (ask : List Event → Except Errno Bool) (note : Except Errno Bool → Event)
    (operation : String) (s : St charT) :
    wp (query ask note operation)
      (fun b s' => ask s.sys.history = .ok b ∧ s'.rep = s.rep ∧
        s'.sys.history = s.sys.history ++ [note (ask s.sys.history)])
      (fun e s' => ∃ err, ask s.sys.history = .error err ∧
        e = .sockerr (.ofSpecification err operation s.self.sockname) ∧
        s'.sys.history = s.sys.history ++ [note (ask s.sys.history)]) s := by
  unfold wp query
  cases ask s.sys.history with
  | ok b => exact ⟨rfl, rfl, rfl⟩
  | error err => exact ⟨err, rfl, rfl, rfl⟩

theorem query_spec (ask : List Event → Except Errno Bool) (note : Except Errno Bool → Event)
    (operation : String) (hnote : ∀ a, (note a).accepted = [] ∧ (note a).answer? = none)
    (s : St charT) :
    wp (query ask note operation) (fun _ s' => Exchanged [] [] s s')
      (fun e s' => e.IsSockerr ∧ Exchanged [] [] s s') s := by
  have hquiet : ∀ a, Exchanged [] [] s { s with sys := s.sys.record (note a) } := by
    intro a
    have h := exchanged_record s (note a)
    rwa [(hnote a).1, (hnote a).2] at h
  unfold wp query
  cases h : ask s.sys.history with
  | ok b => exact hquiet (.ok b)
  | error e =>
    have hs := hquiet (.error e)
    exact ⟨Exc.isSockerr_sockerr _, hs.rep, hs.self, hs.wire, hs.inputs⟩

theorem query_ok {ask : List Event → Except Errno Bool} {note : Except Errno Bool → Event}
    {operation : String} (hnote : ∀ a, (note a).accepted = [] ∧ (note a).answer? = none) {b : Bool}
    (h : ask s.sys.history = .ok b) :
    ∃ s', query ask note operation s = .ok b s' ∧ Exchanged [] [] s s' := by
  have hquiet := exchanged_record s (note (.ok b))
  rw [(hnote _).1, (hnote _).2] at hquiet
  unfold query
  rw [h]
  exact ⟨_, rfl, hquiet⟩

/-! ## The tests before a transfer -/

theorem isReadready_spec (K : Kernel) (wpSec : Int) (s : St charT) :
    wp (isReadready K wpSec) (fun _ s' => Exchanged [] [] s s')
      (fun e s' => e.IsSockerr ∧ Exchanged [] [] s s') s :=
  query_spec _ _ _ (fun _ => ⟨rfl, rfl⟩) s

theorem isWriteready_spec (K : Kernel) (wpSec : Int) (s : St charT) :
    wp (isWriteready K wpSec) (fun _ s' => Exchanged [] [] s s')
      (fun e s' => e.IsSockerr ∧ Exchanged [] [] s s') s :=
  query_spec _ _ _ (fun _ => ⟨rfl, rfl⟩) s

theorem atmark_spec (K : Kernel) (s : St charT) :
    wp (atmark K) (fun _ s' => Exchanged [] [] s s')
      (fun e s' => e.IsSockerr ∧ Exchanged [] [] s s') s :=
  query_spec _ _ _ (fun _ => ⟨rfl, rfl⟩) s

/-- A test that is made only under a condition, as every readiness test is. -/
theorem guarded_spec {p : Prop} [Decidable p] {c : M charT Bool} {b : Bool} {s : St charT}
    (h : wp c (fun _ s' => Exchanged [] [] s s')
      (fun e s' => e.IsSockerr ∧ Exchanged [] [] s s') s) :
    wp (if p then c else pure b) (fun _ s' => Exchanged [] [] s s')
      (fun e s' => e.IsSockerr ∧ Exchanged [] [] s s') s := by
  by_cases hp : p
  · rwa [if_pos hp]
  · rw [if_neg hp]
    exact .refl s

theorem awaitReadready_spec (K : Kernel) (operation : String) (s : St charT) :
    wp (awaitReadready K operation) (fun _ s' => Exchanged [] [] s s')
      (fun e s' => e.IsInputError ∧ Exchanged [] [] s s') s := by
  unfold awaitReadready
  rw [wp_bind, wp_get, wp_bind]
  refine (guarded_spec (isReadready_spec K _ s)).mono ?_ (fun e s1 h => ⟨.inl h.1, h.2⟩)
  intro ready s1 h1
  cases ready with
  | false =>
    -- `select` timed out
    exact ⟨.inl (Exc.isSockerr_sockerr _), h1⟩
  | true =>
    rw [if_pos rfl, wp_bind]
    refine (guarded_spec (atmark_spec K s1)).mono ?_
      (fun e s2 h => ⟨.inl h.1, h1.quiet_trans h.2⟩)
    intro mark s2 h2
    cases mark with
    | true =>
      -- `throw sockoob()`
      exact ⟨.inr rfl, h1.quiet_trans h2⟩
    | false => exact h1.quiet_trans h2

/-- Without a timeout and without out-of-band data there is no test to fail. -/
theorem awaitReadready_quiet (K : Kernel) (operation : String) {s : St charT}
    (hrtmo : s.rep.rtmo = -1) (hoob : s.rep.oob = false) :
    awaitReadready K operation s = .ok () s := by
  obtain ⟨⟨sock, cnt, stmo, rtmo, oob, gend, pend⟩, self, sys⟩ := s
  cases hrtmo
  cases hoob
  rfl

/-- If the kernel always finds the descriptor readable and never a mark, the test is passed. -/
theorem awaitReadready_ready (hready : ∀ history sec, K.readready history sec = .ok true)
    (hmark : ∀ history, K.atmark history = .ok false) (operation : String) (s : St charT) :
    ∃ s', awaitReadready K operation s = .ok () s' ∧ Exchanged [] [] s s' := by
  have hquery : ∀ (p : Prop) [Decidable p] (c : M charT Bool) (b : Bool) (s : St charT),
      (∃ s', c s = .ok b s' ∧ Exchanged [] [] s s') →
      ∃ s', (if p then c else pure b) s = .ok b s' ∧ Exchanged [] [] s s' := by
    intro p _ c b s hc
    by_cases hp : p
    · rwa [if_pos hp]
    · rw [if_neg hp]
      exact ⟨s, rfl, .refl s⟩
  obtain ⟨s1, hs1, h1⟩ := hquery (s.rep.rtmo ≠ -1) (isReadready K s.rep.rtmo) true s
    (query_ok (fun _ => ⟨rfl, rfl⟩) (hready _ _))
  obtain ⟨s2, hs2, h2⟩ := hquery (s.rep.oob = true) (atmark K) false s1
    (query_ok (fun _ => ⟨rfl, rfl⟩) (hmark _))
  have hget : (get : M charT (St charT)) s = .ok s s := rfl
  refine ⟨s2, ?_, h1.quiet_trans h2⟩
  unfold awaitReadready
  rw [bind_ok hget, bind_ok hs1, if_pos rfl, bind_ok hs2]
  rfl

theorem awaitWriteready_spec (K : Kernel) (operation : String) (s : St charT) :
    wp (awaitWriteready K operation) (fun _ s' => Exchanged [] [] s s')
      (fun e s' => e.IsSockerr ∧ Exchanged [] [] s s') s := by
  unfold awaitWriteready
  rw [wp_bind, wp_get, wp_bind]
  refine (guarded_spec (isWriteready_spec K _ s)).mono ?_ (fun e s1 h => h)
  intro ready s1 h1
  cases ready with
  | true => exact h1
  | false => exact ⟨Exc.isSockerr_sockerr _, h1⟩

/-- Without a send timeout there is no test to fail. -/
theorem awaitWriteready_quiet (K : Kernel) (operation : String) {s : St charT}
    (hstmo : s.rep.stmo = -1) : awaitWriteready K operation s = .ok () s := by
  obtain ⟨⟨sock, cnt, stmo, rtmo, oob, gend, pend⟩, self, sys⟩ := s
  cases hstmo
  rfl

/-! ## `read` and `write`

A `read` has one answer of the kernel. A `write` may take several calls, and when it throws some of
its bytes may have gone out. -/

/-- `read` returns the bytes of one `::read`; if it throws, no byte has been read. -/
theorem read_spec (K : Kernel) (len : Nat) (s : St charT) :
    wp (read K len) (fun bs s' => bs.length ≤ len ∧ Exchanged [] [.ok bs] s s')
      (fun e s' => e.IsInputError ∧
        ∃ ins, ins.flatMap answerBytes = [] ∧ Exchanged [] ins s s') s := by
  unfold read
  rw [wp_bind]
  refine (awaitReadready_spec K _ s).mono ?_ (fun e s1 h => ⟨h.1, [], rfl, h.2⟩)
  intro _ s1 h1
  rw [wp_bind]
  refine wp_input ?_ ?_
  · intro bs s2 hlen h2
    exact ⟨hlen, h1.quiet_trans h2⟩
  · intro err s2 h2
    exact wp_throwErrno fun e he => ⟨.inl he, [.error err], rfl, h1.quiet_trans h2⟩

/-- The loop of `write` and `send` hands over its bytes from the front: all of them if it returns,
and exactly the first `k` if it throws the count `wlen + k`. Induction on the bytes still to go. -/
theorem outputLoop_spec (K : Kernel) (call : OutCall) (pbuf : Nat → UInt8) (wlen len : Nat)
    (s : St charT) :
    wp (outputLoop K call pbuf wlen len)
      (fun r s' => r = wlen + len ∧ Exchanged (slice pbuf wlen len) [] s s')
      (fun e s' => ∃ k, k < len ∧ e = .count (wlen + k) ∧ Exchanged (slice pbuf wlen k) [] s s')
      s := by
  induction len using Nat.strongRecOn generalizing wlen s with
  | _ len ih =>
    rw [outputLoop]
    by_cases hlen : len = 0
    · subst hlen
      simpa using Exchanged.refl s
    rw [if_neg hlen, wp_bind]
    refine wp_output ?_ ?_
    · intro k s1 h1
      have hk0 := k.2.1
      have hk : k.1 ≤ len := by simpa using k.2.2
      rw [take_slice _ _ hk] at h1
      -- the bytes of this call, then those of the remaining rounds
      have hjoin : ∀ {n s2}, Exchanged (slice pbuf (wlen + k) n) [] s1 s2 →
          Exchanged (slice pbuf wlen (k + n)) [] s s2 := by
        intro n s2 h2
        rw [slice_add]
        exact h1.trans h2
      refine (ih (len - k) (by omega) (wlen + k) s1).mono ?_ ?_
      · rintro r s2 ⟨rfl, h2⟩
        refine ⟨by omega, ?_⟩
        have := hjoin h2
        rwa [show k.1 + (len - k) = len from by omega] at this
      · rintro e s2 ⟨j, hj, rfl, h2⟩
        exact ⟨k + j, by omega, by rw [Nat.add_assoc], hjoin h2⟩
    · -- the call failed, after `wlen` bytes in all
      intro s1 h1
      exact ⟨0, by omega, rfl, h1⟩

theorem write_spec (K : Kernel) (buf : Nat → UInt8) (len : Nat) (s : St charT) :
    wp (write K buf len) (fun r s' => r = len ∧ Exchanged (slice buf 0 len) [] s s')
      (fun e s' =>
        (∃ k, k < len ∧ e = .count k ∧ Exchanged (slice buf 0 k) [] s s') ∨
        (e.IsSockerr ∧ Exchanged [] [] s s')) s := by
  unfold write
  rw [wp_bind]
  refine (awaitWriteready_spec K _ s).mono ?_ (fun e s1 h => .inr h)
  intro _ s1 h1
  refine (outputLoop_spec K .write buf 0 len s1).mono ?_ ?_
  · intro r s2 ⟨hr, h2⟩
    exact ⟨by omega, h1.quiet_trans h2⟩
  · intro e s2 ⟨k, hk, he, h2⟩
    refine .inl ⟨k, hk, ?_, h1.quiet_trans h2⟩
    rwa [Nat.zero_add] at he

end Calls

/-! ## Frames of the read side -/

section Reading

variable {R : St charT → St charT → Prop} [IsPreorder (St charT) R]

omit [IsPreorder (St charT) R] in
theorem within_gbump_of (hget : ∀ s get, R s { s with self := { s.self with get := get } })
    (n : Nat) : Within R (gbump n : M charT Unit) := by
  refine .modify fun s => ?_
  cases hs : s.self.get with
  | none => exact hget s s.self.get
  | some g => exact hget s _

/-- `underflow` reads and moves pointers of the get area. -/
theorem within_underflow_of [CharType charT] (K : Kernel)
    (hread : ∀ len, Within R (read K len : M charT (List UInt8)))
    (hget : ∀ s get, R s { s with self := { s.self with get := get } }) :
    Within R (underflow K : M charT Int) := by
  refine .bind .get fun s => ?_
  cases s.self.get with
  | none => exact .pure eof
  | some g =>
    refine .ite (.pure _) (.bind (hread _) fun bs => .ite (.pure _) ?_)
    exact .bind (.modify fun s1 => hget s1 _) fun _ => .pure _

end Reading

end Sockstream
