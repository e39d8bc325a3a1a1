import SocketPlusPlus.Sockbuf.Exchange

/-!
# Reading a byte stream

A `Transport stream` is a kernel whose input calls hand out the bytes of `stream`: in order, each
once, cut wherever the kernel likes. A call may fail, and it returns no byte only if it asked for
none or the stream is at its end. What a reader has got so far is read off its history, so a
transport is one kernel for a whole run.

`Transport.upTo stream k` is the transport that hands out at most `k` bytes at a time.
-/

namespace Sockstream

open Exec

/-- What an input call for `len` bytes may return when `n` bytes of the stream are gone. -/
structure Delivers (stream : List UInt8) (n len : Nat) (bs : List UInt8) : Prop where
  isPrefix : bs <+: stream.drop n
  progress : bs = [] → len = 0 ∨ stream.length ≤ n

structure Transport (stream : List UInt8) extends Kernel where
  delivers : ∀ h call len (bs : Received len), input h call len = .ok bs →
    Delivers stream (received h).length len bs

/-- No input call fails. -/
def Transport.Lossless {stream : List UInt8} (T : Transport stream) : Prop :=
  ∀ h call len, ∃ bs, T.input h call len = .ok bs

/-- At most `k + 1` bytes at a time; everything else as for `Kernel.sink`. -/
def Transport.upTo (stream : List UInt8) (k : Nat) : Transport stream where
  toKernel := { Kernel.sink with
    input := fun h _ len => .ok ⟨(stream.drop (received h).length).take (min len (k + 1)),
      Nat.le_trans (List.length_take_le _ _) (Nat.min_le_left _ _)⟩ }
  delivers := by
    intro h call len bs hbs
    cases hbs
    refine ⟨List.take_prefix _ _, fun hnil => ?_⟩
    rcases List.take_eq_nil_iff.mp hnil with hmin | hdrop
    · exact .inl (by omega)
    · exact .inr (List.drop_eq_nil_iff.mp hdrop)

section Rules

variable {charT : Type} {stream : List UInt8} {s s' : St charT}

/-- What was received is a prefix of the stream, and stays one. -/
theorem Delivers.received_prefix {len : Nat} {bs : List UInt8}
    (h : Delivers stream s.received.length len bs) (hs : s.received <+: stream) :
    s.received ++ bs <+: stream := by
  obtain ⟨rest, hrest⟩ := hs
  obtain ⟨later, hlater⟩ := h.isPrefix
  rw [← hrest, List.drop_left] at hlater
  exact ⟨later, by rw [← hrest, ← hlater, List.append_assoc]⟩

theorem input_delivers (T : Transport stream) (call : InCall) (len : Nat) (s : St charT) :
    wp (input T.toKernel call len)
      (fun r _ => ∀ bs, r = some bs → Delivers stream s.received.length len bs)
      (fun _ _ => False) s := by
  unfold wp input
  cases h : T.input s.sys.history call len with
  | ok bs =>
    rintro bs' ⟨rfl⟩
    exact T.delivers _ _ _ bs h
  | error e =>
    intro bs' hnone
    cases hnone

theorem read_delivers (T : Transport stream) (len : Nat) (s : St charT) :
    wp (read T.toKernel len) (fun bs _ => Delivers stream s.received.length len bs)
      (fun _ _ => True) s := by
  unfold read
  rw [wp_bind]
  refine (awaitReadready_spec T.toKernel _ s).mono ?_ (fun _ _ _ => trivial)
  intro _ s1 h1
  have hreceived : s1.received = s.received := by simpa using h1.received
  rw [wp_bind]
  refine (input_delivers T .read len s1).mono ?_ (fun _ _ h => h.elim)
  intro r s2 h2
  cases r with
  | none => exact wp_throwErrno fun _ _ => trivial
  | some bs =>
    have hbs := h2 bs rfl
    rwa [hreceived] at hbs

/-- Without a timeout and without out-of-band data a read from a lossless transport returns. -/
theorem read_lossless {T : Transport stream} (hT : T.Lossless) (len : Nat)
    (hrtmo : s.rep.rtmo = -1) (hoob : s.rep.oob = false) :
    wp (read T.toKernel len) (fun _ _ => True) (fun _ _ => False) s := by
  have hawait := awaitReadready_quiet T.toKernel "sockbuf::read" hrtmo hoob
  obtain ⟨bs, hbs⟩ := hT s.sys.history .read len
  unfold read
  rw [wp_bind_of_ok hawait, wp_bind]
  unfold wp input
  rw [hbs]
  trivial

end Rules

end Sockstream
