import SocketPlusPlus.Protocol.Data
import SocketPlusPlus.Sockbuf.Willing

/-!
# One byte too far

`send_buf(buf, len)` looks behind every line feed for a dot, also behind a line feed that is the
last of the `len` bytes. What it emits then depends on `buf[len]`, and in every other case it
depends on its arguments alone (`sendBuf_depends_iff`).
-/

namespace Sockstream

open Exec Memory

namespace Smtp

/-- The two memories agree on `buf[0..len)`. -/
def Agree (p p' : Nat → UInt8) (len : Int) : Prop := ∀ i : Nat, (i : Int) < len → p' i = p i

/-- The bytes behind a call: those that have gone out, and those that are pending. -/
def emitted (K : Kernel) (p : Nat → UInt8) (len : Int) (s : St UInt8) : List UInt8 :=
  let s' := (attempt (sendBuf K (some p) len) s).2
  s'.wire ++ s'.self.pending

section Depends

variable {K : Kernel} {p p' : Nat → UInt8} {len : Int} {s : St UInt8}

/-- The loop looks at the bytes that are left, and behind the last of them only if this is a line
feed. Induction on these bytes. -/
theorem sendBufLoop_congr (K : Kernel) {i n : Nat} (h : ∀ j, i ≤ j → j < i + n → p' j = p j)
    (hlast : 0 < n → p (i + n - 1) ≠ 10) : sendBufLoop K p' i n = sendBufLoop K p i n := by
  induction n generalizing i with
  | zero => rfl
  | succ n ih =>
    have hhere : p' i = p i := h i (Nat.le_refl i) (by omega)
    have hrest : sendBufLoop K p' (i + 1) n = sendBufLoop K p (i + 1) n := by
      refine ih (fun j hj hlt => h j (by omega) (by omega)) fun hpos => ?_
      have hsame : i + 1 + n - 1 = i + (n + 1) - 1 := by omega
      rw [hsame]
      exact hlast (by omega)
    rw [sendBufLoop, sendBufLoop, hhere, hrest]
    by_cases hfeed : p i = 10
    · -- a line feed is not the last byte, so the next one is seen by both
      have hmore : 0 < n := by
        refine Nat.pos_of_ne_zero fun hzero => hlast (Nat.succ_pos n) ?_
        rw [hzero]
        exact hfeed
      rw [h (i + 1) (by omega) (by omega)]
    · rw [if_neg hfeed, if_neg hfeed]

theorem sendBuf_congr (K : Kernel) (h : Agree p p' len) (hlast : 0 < len → p (len.toNat - 1) ≠ 10) :
    sendBuf K (some p') len = sendBuf K (some p) len := by
  unfold sendBuf
  by_cases hlen : len ≤ 0
  · simp only [if_pos hlen]
  · have hloop : sendBufLoop K p' 0 len.toNat = sendBufLoop K p 0 len.toNat :=
      sendBufLoop_congr K (fun j _ hj => h j (by omega))
        (fun _ => by rw [Nat.zero_add]; exact hlast (by omega))
    simp only [if_neg hlen, h 0 (by omega), hloop]

theorem returns_sendBufLoop (hK : Willing K) (p : Nat → UInt8) (i n : Nat) :
    Returns (sendBufLoop K p i n) := by
  induction n generalizing i with
  | zero => exact .pure ()
  | succ n ih =>
    have hdot : Returns (if p (i + 1) = 46 then sputc K 46 else pure 0) :=
      .ite (.sputc hK 46) (.pure 0)
    refine .ite ?_ (.bind (.sputc hK _) fun _ => ih _)
    exact .bind (.sputc hK 13) fun _ => .bind (.sputc hK _) fun _ => .bind hdot fun _ => ih _

theorem returns_sendBuf (hK : Willing K) (p : Nat → UInt8) (len : Int) :
    Returns (sendBuf K (some p) len) :=
  .ite (.pure ()) (.bind (.ite (.sputc hK 46) (.pure 0)) fun _ => returns_sendBufLoop hK p 0 _)

theorem emitted_eq (hK : Willing K) (p : Nat → UInt8) (n : Nat) (hs : s.PutOpen)
    (hstmo : s.rep.stmo = -1) :
    emitted K p n s = s.wire ++ s.self.pending ++ sendBufBytes p n := by
  obtain ⟨_, s', hrun, hwrote, _⟩ := (((hands_sendBuf K p n s hs).and
    (returns_sendBuf hK p n s hs hstmo)).mono (fun _ _ h => h) (fun _ _ h => h.2)).exists_ok
  unfold emitted attempt
  rw [hrun]
  exact hwrote.sent

/-- **What `send_buf` depends on.** It emits the same bytes whatever lies behind `buf[0..len)`
exactly if the last of these bytes is not a line feed, and then it does the same altogether. -/
theorem sendBuf_depends_iff (p : Nat → UInt8) (len : Int) :
    ((∀ K s p', Agree p p' len → emitted K p' len s = emitted K p len s) ↔
      (0 < len → p (len.toNat - 1) ≠ 10)) ∧
    ((0 < len → p (len.toNat - 1) ≠ 10) → ∀ K p', Agree p p' len →
      sendBuf K (some p') len = sendBuf K (some p) len) := by
  refine ⟨⟨fun hsame hlen hfeed => ?_, fun hlast K s p' h => ?_⟩,
    fun hlast K p' h => sendBuf_congr K h hlast⟩
  · obtain ⟨n, rfl⟩ : ∃ n : Nat, len = (n + 1 : Nat) := ⟨len.toNat - 1, by omega⟩
    let s : St UInt8 := fresh ⟨1, by decide⟩ 3 (fun _ => 0) (fun _ => 0) 0
    -- the memory with `b` behind the bytes
    let behind (b : UInt8) : Nat → UInt8 := fun i => if i = n + 1 then b else p i
    have hagree : ∀ b, Agree p (behind b) (n + 1 : Nat) := fun b i hi => if_neg (by omega)
    have hbytes : ∀ b, emitted Kernel.sink (behind b) (n + 1 : Nat) s
        = ascii.encodeFrom true (slice p 0 (n + 1)) ++ lookAhead (slice p 0 (n + 1)) b := by
      intro b
      have hslice : slice (behind b) 0 (n + 1) = slice p 0 (n + 1) :=
        slice_congr fun i _ hi => hagree b i (by omega)
      have hnext : behind b (n + 1) = b := if_pos rfl
      rw [emitted_eq willing_sink _ _ (putOpen_fresh _ _ _ _ _) rfl, sendBufBytes_eq, hslice, hnext]
      rfl
    have hends : (slice p 0 (n + 1)).getLast? = some 10 := by
      rw [slice_succ_last, List.getLast?_concat, Nat.zero_add]
      exact congrArg some hfeed
    have hdot := (hbytes 46).symm.trans ((hsame Kernel.sink s _ (hagree 46)).trans
      ((hsame Kernel.sink s _ (hagree 0)).symm.trans (hbytes 0)))
    have hlook := List.append_cancel_left hdot
    unfold lookAhead at hlook
    rw [if_pos ⟨hends, rfl⟩, if_neg (fun h => absurd h.2 (by decide))] at hlook
    cases hlook
  · unfold emitted
    rw [sendBuf_congr K h hlast]

/-- One line feed, with a dot or with a zero behind it. -/
theorem sendBuf_sees_behind :
    let s : St UInt8 := fresh ⟨4, by decide⟩ 3 (fun _ => 0) (fun _ => 0) 0
    let dot := copyIn (fun _ => 46) 0 [10]
    let zero := copyIn (fun _ => 0) 0 [10]
    Agree dot zero 1 ∧ emitted Kernel.sink dot 1 s = [13, 10, 46] ∧
      emitted Kernel.sink zero 1 s = [13, 10] ∧
      emitted Kernel.sink dot 1 s ≠ emitted Kernel.sink zero 1 s := by
  refine ⟨fun i hi => ?_, by decide +kernel, by decide +kernel, by decide +kernel⟩
  obtain rfl : i = 0 := by omega
  rfl

end Depends

end Smtp

end Sockstream
