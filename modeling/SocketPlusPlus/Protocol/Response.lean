import SocketPlusPlus.Sockbuf.Get

/-!
# Reading a reply

`ftpbuf::get_response` and `smtpbuf::get_response`. Both look at the get area directly: they call
`underflow`, take `in_avail()` for the number of bytes they may look at, search the area for a CRLF,
send the line to the stream `o` and step over it with `gbump`.

A `Client` is the object: the sockbuf it derives from, the stream `o`, and what the class adds of
its own. Only the bytes that `o` has been sent are kept of it; `none` is the null pointer.

The loops of the source need not end, so the model runs them for a number of rounds and throws
`outOfFuel` when these are used up.
-/

namespace Sockstream

open Exec Memory

/-- A protocol client: `own` is the part of its state that the two classes do not share. -/
structure Client (ρ : Type) where
  buf : St UInt8
  o : Option (List UInt8)
  own : ρ

abbrev ClientM (ρ : Type) := EStateM Exc (Client ρ)

section Client

variable {ρ α : Type}

/-- A member function of the sockbuf. -/
def onBuf (c : M UInt8 α) : ClientM ρ α := zoom Client.buf (fun t b => { t with buf := b }) c

/-- `if (o) o->write(..)` -/
def Client.write (bytes : List UInt8) : ClientM ρ Unit :=
  modify fun t => { t with o := t.o.map (· ++ bytes) }

theorem onBuf_ok {c : M UInt8 α} {t : Client ρ} {a : α} {s : St UInt8}
    (h : c t.buf = .ok a s) : onBuf c t = .ok a { t with buf := s } := zoom_ok h

theorem onBuf_error {c : M UInt8 α} {t : Client ρ} {e : Exc} {s : St UInt8}
    (h : c t.buf = .error e s) : onBuf c t = .error e { t with buf := s } := zoom_error h

theorem onBuf_bind {β : Type} (c : M UInt8 α) (f : α → M UInt8 β) :
    (onBuf (c >>= f) : ClientM ρ β) = onBuf c >>= fun a => onBuf (f a) := by
  funext t
  cases hc : c t.buf with
  | ok a s =>
    rw [bind_ok (onBuf_ok hc)]
    unfold onBuf zoom
    rw [bind_ok hc]
  | error e s =>
    rw [bind_error (onBuf_error hc)]
    exact onBuf_error (bind_error hc)

end Client

/-- The bytes from `gptr()` on, as far as anyone cares to look. -/
def Streambuf.atGptr (b : Streambuf UInt8) : Nat → UInt8 := fun i =>
  match b.get with
  | none => 0
  | some g => g.mem (g.gptr + i)

/-- `for (; k > 0; i++, p++, k--) if (*p == '\r' && *(p + 1) == '\n') break;`, the final `i`. -/
def zapLine (q : Nat → UInt8) (p i : Nat) : Nat → Nat
  | 0 => i
  | k + 1 => if q p = 13 ∧ q (p + 1) = 10 then i else zapLine q (p + 1) (i + 1) k

/-- The characters of a C string of which at most `n` are looked at. -/
def cstring (n : Nat) (bytes : List UInt8) : List UInt8 := (bytes.take n).takeWhile (· ≠ 0)

/-- The `n` characters that `strncpy` stores. -/
def strncpy (n : Nat) (bytes : List UInt8) : List UInt8 :=
  cstring n bytes ++ List.replicate (n - (cstring n bytes).length) 0

/-! ## FTP -/

namespace Ftp

/-- The loop of `get_response()`. The state `own` is `replycode`, without its terminating zero. -/
def responseLoop (K : Kernel) : Nat → Bool → ClientM (List UInt8) Unit
  | 0, _ => throw .outOfFuel
  | fuel + 1, firstline => do
    let c ← onBuf (underflow K)
    if c = eof then pure ()
    else
      let t ← get
      let n := t.buf.self.showmanyc
      if n < 5 then responseLoop K fuel firstline
      else
        let q := t.buf.self.atGptr
        let i := zapLine q 0 2 (n - 1)
        Client.write (slice q 0 i)
        onBuf (gbump i)
        if firstline then
          modify fun t => { t with own := strncpy 3 (slice q 0 3) ++ [32] }
          if q 3 = 32 then pure () else responseLoop K fuel false
        else if cstring 4 (slice q 0 4) = cstring 4 t.own then pure ()
        else responseLoop K fuel false

/-- `get_response()`, with at most `fuel` rounds of its loop. -/
def getResponse (K : Kernel) (fuel : Nat) : ClientM (List UInt8) (Option UInt8) := do
  responseLoop K fuel true
  let t ← get
  pure t.own.head?

end Ftp

/-! ## SMTP -/

namespace Smtp

/-- The loop of `get_response()`. -/
def responseLoop (K : Kernel) : Nat → ClientM Unit Unit
  | 0 => throw .outOfFuel
  | fuel + 1 => do
    let c ← onBuf (underflow K)
    if c = eof then pure ()
    else
      let t ← get
      let n := t.buf.self.showmanyc
      if n < 5 then responseLoop K fuel
      else
        let q := t.buf.self.atGptr
        let i := zapLine q 0 2 (n - 1)
        let _ ← (if i ≤ n then do
            Client.write (slice q 0 i)
            onBuf (gbump i)
          else pure () : ClientM Unit Unit)
        if q 3 ≠ 45 then pure () else responseLoop K fuel

/-- `get_response()`, with at most `fuel` rounds of its loop. -/
def getResponse (K : Kernel) (fuel : Nat) : ClientM Unit Unit := responseLoop K fuel

end Smtp

/-! ## What reading a reply leaves alone

`get_response` reads the socket and writes to the stream that it was given. It changes nothing else
of the client. -/

section Frames

variable {ρ : Type}

/-- The parts of a client that reading a reply may change change within `R`. -/
structure Reading (K : Kernel) (R : Client ρ → Client ρ → Prop) : Prop where
  underflow : Within R (onBuf (underflow K))
  gbump : ∀ n, Within R (onBuf (gbump n))
  write : ∀ bytes, Within R (Client.write bytes)

/-- A relation of the sockbufs that `read` and the pointers of the get area move within. -/
theorem Reading.of_buf {S : St UInt8 → St UInt8 → Prop} [IsPreorder (St UInt8) S] {K : Kernel}
    (hread : ∀ len, Within S (read K len : M UInt8 (List UInt8)))
    (hget : ∀ s get, S s { s with self := { s.self with get := get } }) :
    Reading K (fun t t' : Client ρ => S t.buf t'.buf) where
  underflow := (within_underflow_of K hread hget).zoom fun _ _ h => h
  gbump n := (within_gbump_of hget n).zoom fun _ _ h => h
  write _ := .modify fun t => refl_of S t.buf

/-- Induction on the rounds of the loop. -/
theorem Ftp.within_responseLoop {R : Client (List UInt8) → Client (List UInt8) → Prop}
    [IsPreorder (Client (List UInt8)) R] {K : Kernel} (h : Reading K R)
    (hown : ∀ replycode, Within R (modify fun t => { t with own := replycode } :
      ClientM (List UInt8) Unit)) (fuel : Nat) (firstline : Bool) :
    Within R (responseLoop K fuel firstline) := by
  induction fuel generalizing firstline with
  | zero => exact .throw _
  | succ fuel ih =>
    unfold responseLoop
    refine .bind h.underflow fun c => .ite (.pure ()) (.bind .get fun t => .ite (ih _) ?_)
    refine .bind (h.write _) fun _ => .bind (h.gbump _) fun _ => .ite ?_ ?_
    · exact .bind (hown _) fun _ => .ite (.pure ()) (ih _)
    · exact .ite (.pure ()) (ih _)

theorem Smtp.within_responseLoop {R : Client Unit → Client Unit → Prop}
    [IsPreorder (Client Unit) R] {K : Kernel} (h : Reading K R) (fuel : Nat) :
    Within R (responseLoop K fuel) := by
  induction fuel with
  | zero => exact .throw _
  | succ fuel ih =>
    unfold responseLoop
    refine .bind h.underflow fun c => .ite (.pure ()) (.bind .get fun t => .ite ih ?_)
    refine .bind (.ite (.bind (h.write _) fun _ => h.gbump _) (.pure ())) fun _ => ?_
    exact .ite (.pure ()) ih

end Frames

end Sockstream
