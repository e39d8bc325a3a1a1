import SocketPlusPlus.Logic.Transparency
import SocketPlusPlus.Protocol.Response
import SocketPlusPlus.Sockbuf.Put

/-!
# Sending mail

`smtpbuf::data(const char*, int)` and `smtpbuf::data(const char*)`: the command `DATA`, the text,
and a line that is a single dot. The text of the first comes from memory and is sent by one call of
`send_buf`; the text of the second comes from a file and is sent by one call for each `::read`.

`send_buf` doubles a dot at the start of the text, and behind a line feed it looks one byte ahead
and doubles the dot it sees there. Between the calls it remembers nothing. So one call is right
exactly if the byte behind the text is not a dot, and calls for the parts of a text are together
right only if the parts are cut where lines end (`LineChunks`).
-/

namespace Sockstream

open Exec Memory Transparency

/-- CR, LF and the dot. -/
def ascii : Alphabet UInt8 := ⟨13, 10, 46, by decide, by decide⟩

namespace Smtp

/-! ## The members

`data()` writes the command, and `send_buf` the text with a dot in front of a line that starts with
one. It looks at the byte behind the text as well. -/

/-- `if (o) get_response();` -/
def answer (K : Kernel) (fuel : Nat) : ClientM Unit Unit := do
  let t ← get
  if t.o.isSome then getResponse K fuel else pure ()

/-- `send_cmd(const char* cmd, const char* s, const char* p)`, with the strings as lists of their
characters. -/
def sendCmd (K : Kernel) (fuel : Nat) (cmd : List UInt8) (s p : Option (List UInt8)) :
    ClientM Unit Unit := do
  let _ ← onBuf (xsputn K cmd)
  let _ ← onBuf (s.elim (pure 0) (xsputn K))
  let _ ← onBuf (p.elim (pure 0) (xsputn K))
  let _ ← onBuf (xsputn K [13, 10])
  let _ ← onBuf (sync K)
  answer K fuel

/-- `data()` -/
def data (K : Kernel) (fuel : Nat) : ClientM Unit Unit := sendCmd K fuel [68, 65, 84, 65] none none

/-- The loop of `send_buf`: `i` bytes are sent, `n` are left. -/
def sendBufLoop (K : Kernel) (p : Nat → UInt8) : Nat → Nat → M UInt8 Unit
  | _, 0 => pure ()
  | i, n + 1 =>
    if p i = 10 then do
      let _ ← sputc K 13
      let _ ← sputc K (p i)
      let _ ← (if p (i + 1) = 46 then sputc K 46 else pure 0)
      sendBufLoop K p (i + 1) n
    else do
      let _ ← sputc K (p i)
      sendBufLoop K p (i + 1) n

/-- `send_buf(const char* buf, int len)`; `none` is the null pointer. -/
def sendBuf (K : Kernel) (buf : Option (Nat → UInt8)) (len : Int) : M UInt8 Unit :=
  match buf with
  | none => pure ()
  | some p =>
    if len ≤ 0 then pure ()
    else do
      let _ ← (if p 0 = 46 then sputc K 46 else pure 0)
      sendBufLoop K p 0 len.toNat

/-- What both overloads do with a text that `body` sends. -/
def dataText (K : Kernel) (fuel : Nat) (body : M UInt8 Unit) : ClientM Unit Unit := do
  data K fuel
  onBuf body
  let _ ← onBuf (xsputn K [13, 10, 46, 13, 10])
  let _ ← onBuf (sync K)
  answer K fuel

/-- `data(const char* buf, int len)` -/
def dataBuf (K : Kernel) (fuel : Nat) (buf : Option (Nat → UInt8)) (len : Int) :
    ClientM Unit Unit := dataText K fuel (sendBuf K buf len)

/-- What a `::read` into `char buf[1024]` returns before the end of the file. -/
abbrev Chunk := { bytes : List UInt8 // bytes ≠ [] ∧ bytes.length ≤ 1024 }

/-- `while ((rcnt = ::read(fd, buf, 1024)) > 0) send_buf(buf, rcnt);` -/
def sendFile (K : Kernel) (buf : Nat → UInt8) : List Chunk → M UInt8 Unit
  | [] => pure ()
  | c :: reads => do
    sendBuf K (some (copyIn buf 0 c.1)) c.1.length
    sendFile K (copyIn buf 0 c.1) reads

/-- `data(const char* filename)`: `reads` is what the file, or the standard input, gives, and `buf`
what the array and the memory behind it hold before. -/
def dataFile (K : Kernel) (fuel : Nat) (buf : Nat → UInt8) (reads : List Chunk) :
    ClientM Unit Unit := dataText K fuel (sendFile K buf reads)

/-! ## The bytes they hand over

Each member hands the put area a text that depends on its arguments alone. -/

def loopBytes (p : Nat → UInt8) : Nat → Nat → List UInt8
  | _, 0 => []
  | i, n + 1 =>
    if p i = 10 then
      [13] ++ ([p i] ++ ((if p (i + 1) = 46 then [46] else []) ++ loopBytes p (i + 1) n))
    else [p i] ++ loopBytes p (i + 1) n

def sendBufBytes (p : Nat → UInt8) (n : Nat) : List UInt8 :=
  if n = 0 then [] else (if p 0 = 46 then [46] else []) ++ loopBytes p 0 n

def fileBytes (buf : Nat → UInt8) : List Chunk → List UInt8
  | [] => []
  | c :: reads => sendBufBytes (copyIn buf 0 c.1) c.1.length ++ fileBytes (copyIn buf 0 c.1) reads

section Hands

variable (K : Kernel)

/-- A dot is sent under a condition. -/
theorem hands_dot (q : Prop) [Decidable q] :
    Hands (if q then [46] else []) (if q then sputc K 46 else pure 0) :=
  .ite (.sputc K 46) (.pure 0)

theorem hands_sendBufLoop (p : Nat → UInt8) (i n : Nat) :
    Hands (loopBytes p i n) (sendBufLoop K p i n) := by
  induction n generalizing i with
  | zero => exact .pure ()
  | succ n ih =>
    have hfeed := (Hands.sputc K 13).bind fun _ => (Hands.sputc K (p i)).bind fun _ =>
      (hands_dot K (p (i + 1) = 46)).bind fun _ => ih (i + 1)
    have hplain := (Hands.sputc K (p i)).bind fun _ => ih (i + 1)
    exact .ite hfeed hplain

theorem hands_sendBuf (p : Nat → UInt8) (n : Nat) :
    Hands (sendBufBytes p n) (sendBuf K (some p) n) := by
  have hsome := (hands_dot K (p 0 = 46)).bind fun _ => hands_sendBufLoop K p 0 n
  have hbuf := Hands.ite (p := n = 0) (Hands.pure ()) hsome
  have hlen : ((n : Int) ≤ 0) = (n = 0) := by
    apply propext
    omega
  unfold sendBuf
  simp only [hlen, Int.toNat_natCast]
  exact hbuf

theorem hands_sendFile (buf : Nat → UInt8) (reads : List Chunk) :
    Hands (fileBytes buf reads) (sendFile K buf reads) := by
  induction reads generalizing buf with
  | nil => exact .pure ()
  | cons c reads ih => exact (hands_sendBuf K _ _).bind fun _ => ih _

end Hands

/-! ## What the bytes are

The text that is handed over is the encoding of `Logic.Transparency`, except for a dot that
`send_buf` puts in for the byte behind the text. -/

section Bytes

/-- The dot that is doubled because it lies behind a text that ends a line. -/
def lookAhead (text : List UInt8) (next : UInt8) : List UInt8 :=
  if text.getLast? = some 10 ∧ next = 46 then [46] else []

theorem lookAhead_cons (b : UInt8) {text : List UInt8} (next : UInt8) (hne : text ≠ []) :
    lookAhead (b :: text) next = lookAhead text next := by
  unfold lookAhead
  rw [List.getLast?_cons, List.getLast?_eq_some_getLast hne, Option.getD_some]

theorem encodeFrom_true_eq (text : List UInt8) :
    ascii.encodeFrom true text
      = (if text.head? = some 46 then [46] else []) ++ ascii.encodeFrom false text := by
  have h := ascii.encodeFrom_eq_false true text
  simp only [true_and] at h
  exact h

/-- The loop doubles a dot when it sees the line feed before it, the machine when it comes to the
dot: the loop is ahead by at most one dot. Induction on the bytes that are left. -/
theorem loopBytes_eq (p : Nat → UInt8) (i n : Nat) :
    loopBytes p i n
      = ascii.encodeFrom false (slice p i n) ++ lookAhead (slice p i n) (p (i + n)) := by
  induction n generalizing i with
  | zero => rfl
  | succ n ih =>
    have hcons : ascii.encodeFrom false (p i :: slice p (i + 1) n)
        = if p i = 10 then 13 :: 10 :: ascii.encodeFrom true (slice p (i + 1) n)
          else p i :: ascii.encodeFrom false (slice p (i + 1) n) :=
      Alphabet.encodeFrom_false_cons _ _
    rw [loopBytes, ih, slice_succ, show i + 1 + n = i + (n + 1) from by omega, hcons]
    by_cases hlf : p i = 10
    · rw [if_pos hlf, if_pos hlf, encodeFrom_true_eq]
      cases n with
      | zero =>
        -- the last byte is a line feed
        have hlast : lookAhead [p i] (p (i + 1)) = if p (i + 1) = 46 then [46] else [] := by
          unfold lookAhead
          simp [hlf]
        have hnil : ∀ next, ascii.encodeFrom false [] ++ lookAhead [] next = [] := fun _ => rfl
        rw [slice_zero, hlast, hlf, hnil, List.append_nil]
        rfl
      | succ n =>
        -- the byte looked at is the next byte of the text
        have hhead : (slice p (i + 1) (n + 1)).head? = some (p (i + 1)) := by
          rw [slice_succ]
          rfl
        rw [lookAhead_cons _ _ (by rw [slice_succ]; exact List.cons_ne_nil _ _), hhead, hlf]
        simp
    · rw [if_neg hlf, if_neg hlf]
      cases n with
      | zero =>
        -- the text does not end a line, so nothing is looked at
        have hlast : lookAhead [p i] (p (i + 1)) = [] := by
          unfold lookAhead
          simp [hlf]
        rw [slice_zero, hlast]
        rfl
      | succ n =>
        rw [lookAhead_cons _ _ (by rw [slice_succ]; exact List.cons_ne_nil _ _)]
        rfl

theorem sendBufBytes_eq (p : Nat → UInt8) (n : Nat) :
    sendBufBytes p n
      = ascii.encodeFrom true (slice p 0 n) ++ lookAhead (slice p 0 n) (p n) := by
  unfold sendBufBytes
  cases n with
  | zero => rfl
  | succ n =>
    have hhead : (slice p 0 (n + 1)).head? = some (p 0) := by rw [slice_succ]; rfl
    rw [if_neg (Nat.succ_ne_zero n), loopBytes_eq, Nat.zero_add, encodeFrom_true_eq, hhead,
      List.append_assoc]
    simp only [Option.some.injEq]

/-- `send_buf` encodes the text if the byte behind it is not a dot. -/
theorem sendBufBytes_eq_encode {p : Nat → UInt8} {text : List UInt8}
    (hmem : slice p 0 text.length = text) (hnext : p text.length ≠ 46) :
    sendBufBytes p text.length = ascii.encode text := by
  rw [sendBufBytes_eq, hmem, lookAhead, if_neg (fun h => hnext h.2), List.append_nil,
    Alphabet.encodeFrom_eq_encode]

end Bytes

/-! ## What reaches the wire -/

section Wire

variable {K : Kernel} {fuel : Nat} {t t' : Client Unit}

/-- The write side is as it was. -/
structure SameOut (s s' : St UInt8) : Prop where
  rep : s'.rep = s.rep
  put : s'.self.put = s.self.put
  wire : s'.wire = s.wire

theorem SameOut.trans {s s' s'' : St UInt8} (h : SameOut s s') (h' : SameOut s' s'') :
    SameOut s s'' :=
  ⟨h'.rep.trans h.rep, h'.put.trans h.put, h'.wire.trans h.wire⟩

theorem SameOut.of_exchanged {s s' : St UInt8} {ins : List (Except Errno (List UInt8))}
    (h : Exchanged [] ins s s') : SameOut s s' :=
  ⟨h.rep, by rw [h.self], by rw [h.wire, List.append_nil]⟩

instance : IsPreorder (St UInt8) SameOut where
  refl _ := ⟨rfl, rfl, rfl⟩
  trans _ _ _ h h' := h.trans h'

instance : IsPreorder (Client Unit) (fun t t' => SameOut t.buf t'.buf) where
  refl t := refl_of SameOut t.buf
  trans _ _ _ h h' := h.trans h'

theorem reading_sameOut (K : Kernel) :
    Reading K (fun t t' : Client Unit => SameOut t.buf t'.buf) := by
  refine .of_buf (fun len s => (read_spec K len s).mono ?_ ?_) fun _ _ => ⟨rfl, rfl, rfl⟩
  · rintro bs s1 ⟨-, h1⟩
    exact .of_exchanged h1
  · rintro e s1 ⟨-, ins, -, h1⟩
    exact .of_exchanged h1

/-- Reading a reply leaves the write side as it was. -/
theorem getResponse_sameOut (K : Kernel) (fuel : Nat) (t : Client Unit) :
    wp (getResponse K fuel) (fun _ t' => SameOut t.buf t'.buf) (fun _ t' => SameOut t.buf t'.buf)
      t :=
  within_responseLoop (reading_sameOut K) fuel t

theorem answer_sameOut (K : Kernel) (fuel : Nat) (t : Client Unit) :
    wp (answer K fuel) (fun _ t' => SameOut t.buf t'.buf) (fun _ t' => SameOut t.buf t'.buf) t := by
  unfold answer
  rw [wp_bind, wp_get]
  exact wp_ite_intro (fun _ => getResponse_sameOut K fuel t) (fun _ => ⟨rfl, rfl, rfl⟩)

/-- Everything that was handed over is on the wire. -/
structure Flushed (t : Client Unit) : Prop where
  putOpen : t.buf.PutOpen
  empty : t.buf.self.pending = []

theorem Flushed.of_sameOut (ht : Flushed t) (h : SameOut t.buf t'.buf) :
    Flushed t' ∧ t'.buf.wire = t.buf.wire := by
  obtain ⟨p, hput, hle, hpend, hpos⟩ := ht.putOpen
  have hempty := ht.empty
  refine ⟨⟨⟨p, h.put.trans hput, hle, ?_, ?_⟩, ?_⟩, h.wire⟩
  · rw [h.rep]
    exact hpend
  · rw [h.rep]
    exact hpos
  · unfold Streambuf.pending at hempty ⊢
    rwa [h.put]

/-- What a program that hands over `cs` has put on the wire: all of it, or a part if it throws. -/
def SentAll (t : Client Unit) (cs : List UInt8) (t' : Client Unit) : Prop :=
  t'.buf.wire = t.buf.wire ++ (t.buf.self.pending ++ cs)

def SentPart (t : Client Unit) (cs : List UInt8) (t' : Client Unit) : Prop :=
  ∃ part, part <+: t.buf.self.pending ++ cs ∧ t'.buf.wire = t.buf.wire ++ part

theorem hands_sync (K : Kernel) (fuel : Nat) {body : M UInt8 Unit} {cs : List UInt8}
    (hbody : Hands cs body) (hopen : t.buf.PutOpen) :
    wp (do onBuf body; let _ ← onBuf (sync K); answer K fuel)
      (fun _ t' => Flushed t' ∧ SentAll t cs t') (fun _ t' => SentPart t cs t') t := by
  rw [wp_bind]
  unfold onBuf
  rw [wp_zoom]
  refine (hbody t.buf hopen).mono ?_ ?_
  · intro _ s1 h1
    rw [wp_bind, wp_zoom]
    refine (sync_spec K h1.putOpen).mono ?_ ?_
    · intro _ s2 ⟨_, h2, hempty⟩
      have hflushed : Flushed { t with buf := s2 } := ⟨h2.putOpen, hempty⟩
      have hsent := (h1.trans h2).sent
      rw [hempty, List.append_nil, List.append_nil, List.append_assoc] at hsent
      refine (answer_sameOut K fuel { t with buf := s2 }).mono ?_ ?_
      · intro _ t' h3
        obtain ⟨hdone, hwire⟩ := hflushed.of_sameOut h3
        exact ⟨hdone, hwire.trans hsent⟩
      · -- all has gone out, only the answer is missing
        intro _ t' h3
        exact ⟨_, List.prefix_rfl, h3.wire.trans hsent⟩
    · intro e s2 ⟨_, h2⟩
      have hpart := (h1.trans h2).sent_part
      rwa [List.append_nil] at hpart
  · intro e s1 ⟨_, p, hp, h1⟩
    obtain ⟨part, hpart, hwire⟩ := h1.sent_part
    exact ⟨part, hpart.trans ((List.prefix_append_right_inj _).mpr hp), hwire⟩

theorem data_spec (K : Kernel) (fuel : Nat) (hopen : t.buf.PutOpen) :
    wp (data K fuel) (fun _ t' => Flushed t' ∧ SentAll t [68, 65, 84, 65, 13, 10] t')
      (fun _ t' => SentPart t [68, 65, 84, 65, 13, 10] t') t := by
  have hnone : Hands [] (Option.elim (none : Option (List UInt8)) (pure 0) (xsputn K)) := .pure 0
  have hbody := (Hands.xsputn K [68, 65, 84, 65]).bind fun _ => hnone.bind fun _ =>
    hnone.bind fun _ => Hands.xsputn K [13, 10]
  have hspec := hands_sync K fuel (hbody.bind fun _ => Hands.pure ()) hopen
  simp only [onBuf_bind, bind_assoc] at hspec
  exact hspec

/-- Behind the command go out the text and the terminator, or a part of them if the call throws. -/
theorem dataText_spec {body : M UInt8 Unit} {cs : List UInt8} {t1 : Client Unit}
    (hbody : Hands cs body) (hopen : t.buf.PutOpen) (hdata : data K fuel t = .ok () t1) :
    wp (dataText K fuel body) (fun _ t' => t'.buf.wire = t1.buf.wire ++ (cs ++ ascii.terminator))
      (fun _ t' => ∃ part, part <+: cs ++ ascii.terminator ∧ t'.buf.wire = t1.buf.wire ++ part)
      t := by
  obtain ⟨hflushed, -⟩ := (data_spec K fuel hopen).of_ok hdata
  have hterm := hbody.bind fun _ => (Hands.xsputn K [13, 10, 46, 13, 10]).bind fun _ =>
    Hands.pure ()
  have hspec := hands_sync K fuel hterm hflushed.putOpen
  simp only [onBuf_bind, bind_assoc, SentAll, SentPart, hflushed.empty, List.nil_append] at hspec
  unfold dataText
  rw [wp_bind_of_ok hdata]
  exact hspec.mono (fun _ _ h => h.2) (fun _ _ h => h)

end Wire

/-! ## Mail from memory

With no dot behind the buffer, what the server decodes is the text of the caller. -/

/-- **Transparency.** If the byte behind the text is not a dot, the receiver of what goes out behind
the command `DATA` gets back the lines of the text and stops at its very end. A part of it, as it
goes out if the call throws, is not taken for a whole text, and no other text is sent as the same
bytes. -/
theorem dataBuf_transparent (K : Kernel) (fuel : Nat) {p : Nat → UInt8} {text : List UInt8}
    (hmem : slice p 0 text.length = text) (hnext : p text.length ≠ 46) {t t1 : Client Unit}
    (hopen : t.buf.PutOpen) (hdata : data K fuel t = .ok () t1) :
    let w := sendBufBytes p text.length ++ ascii.terminator
    wp (dataBuf K fuel (some p) text.length) (fun _ t' => t'.buf.wire = t1.buf.wire ++ w)
      (fun _ t' => ∃ part, part <+: w ∧ t'.buf.wire = t1.buf.wire ++ part) t ∧
    ascii.decode w = some (text.splitOn 10, []) ∧
    (∀ part, part <+: w → part ≠ w → ascii.decode part = none) ∧
    ∀ (p' : Nat → UInt8) (text' : List UInt8), slice p' 0 text'.length = text' →
      p' text'.length ≠ 46 → sendBufBytes p' text'.length = sendBufBytes p text.length →
      text' = text := by
  intro w
  have hbytes := sendBufBytes_eq_encode hmem hnext
  have hdecode : ascii.decode w = some (text.splitOn 10, []) := by
    have hround := ascii.decode_encode text []
    rw [List.append_nil, ← hbytes] at hround
    exact hround
  refine ⟨dataText_spec (hands_sendBuf K p text.length) hopen hdata, hdecode, ?_, ?_⟩
  · intro part hpart hne
    exact Alphabet.decode_eq_none_of_prefix hdecode hpart hne
  · intro p' text' hmem' hnext' heq
    rw [hbytes, sendBufBytes_eq_encode hmem' hnext'] at heq
    exact Alphabet.encode_injective heq

/-- A client just connected, that shows no replies. -/
def mailer : Client Unit := ⟨fresh ⟨4, by decide⟩ 3 (fun _ => 0) (fun _ => 0) 0, none, ()⟩

theorem data_mailer :
    data Kernel.sink 0 mailer = .ok () (attempt (data Kernel.sink 0) mailer).2 :=
  of_attempt_ok (by decide +kernel)

/-- A text of dots and line feeds. -/
theorem dataBuf_transparent_dots :
    let text : List UInt8 := [46, 10, 46, 46, 13, 10]
    let w := sendBufBytes (copyIn (fun _ => 0) 0 text) 6 ++ ascii.terminator
    w = [46, 46, 13, 10, 46, 46, 46, 13, 13, 10, 13, 10, 46, 13, 10] ∧
      ascii.decode w = some ([[46], [46, 46, 13], []], []) := by
  intro text w
  have hmem : slice (copyIn (fun _ => 0) 0 text) 0 text.length = text := slice_copyIn _ _ _
  have h := dataBuf_transparent Kernel.sink 0 hmem (by decide) (putOpen_fresh _ _ _ _ _) data_mailer
  exact ⟨by decide, h.2.1⟩

/-! ## Mail from a file -/

def content (reads : List Chunk) : List UInt8 := reads.flatMap (·.1)

/-- The file is cut where its lines end, as far as the dots are concerned: a chunk that starts with
a dot is the first or comes behind a chunk that ends a line, and behind a chunk that ends a line
there is no dot in the buffer, left there by an earlier chunk or before the call. -/
def LineChunks (start : Bool) (buf : Nat → UInt8) : List Chunk → Prop
  | [] => True
  | c :: reads =>
    (c.1.head? = some 46 → start = true) ∧ (c.1.getLast? = some 10 → buf c.1.length ≠ 46) ∧
      LineChunks (decide (c.1.getLast? = some 10)) (copyIn buf 0 c.1) reads

section File

variable {start : Bool} {buf : Nat → UInt8} {c : Chunk} {reads : List Chunk}

theorem startsLine_chunk (start : Bool) (c : Chunk) :
    ascii.startsLine start c.1 = decide (c.1.getLast? = some 10) := by
  unfold Alphabet.startsLine
  rw [List.getLast?_eq_some_getLast c.2.1]
  exact decide_eq_decide.mpr ⟨congrArg some, Option.some.inj⟩

theorem copyIn_behind (buf : Nat → UInt8) (bytes : List UInt8) :
    copyIn buf 0 bytes bytes.length = buf bytes.length := by
  unfold copyIn
  rw [if_pos (Nat.zero_le _), Nat.sub_zero, List.getElem?_eq_none (Nat.le_refl _), Option.getD_none]

/-- One call for a chunk: the machine's bytes, and up to two dots that do not belong there. -/
theorem sendBufBytes_chunk (start : Bool) (buf : Nat → UInt8) (c : Chunk) :
    sendBufBytes (copyIn buf 0 c.1) c.1.length
      = (if c.1.head? = some 46 ∧ start = false then [46] else []) ++
        ascii.encodeFrom start c.1 ++ lookAhead c.1 (buf c.1.length) := by
  have hslice : slice (copyIn buf 0 c.1) 0 c.1.length = c.1 := slice_copyIn _ _ _
  rw [sendBufBytes_eq, hslice, copyIn_behind]
  congr 1
  cases start with
  | true => rw [if_neg (fun h => by cases h.2), List.nil_append]
  | false =>
    rw [encodeFrom_true_eq]
    simp only [and_true]

theorem lookAhead_eq_nil {text : List UInt8} {next : UInt8} :
    lookAhead text next = [] ↔ (text.getLast? = some 10 → next ≠ 46) := by
  unfold lookAhead
  by_cases h : text.getLast? = some 10 ∧ next = 46
  · rw [if_pos h]
    exact ⟨fun hnil => absurd hnil (List.cons_ne_nil _ _), fun himp => absurd h.2 (himp h.1)⟩
  · rw [if_neg h]
    exact ⟨fun _ hlast hnext => h ⟨hlast, hnext⟩, fun _ => rfl⟩

theorem encodeFrom_content (start : Bool) (c : Chunk) (reads : List Chunk) :
    ascii.encodeFrom start (content (c :: reads))
      = ascii.encodeFrom start c.1
        ++ ascii.encodeFrom (decide (c.1.getLast? = some 10)) (content reads) := by
  have hcons : content (c :: reads) = c.1 ++ content reads := rfl
  rw [hcons, Alphabet.encodeFrom_append, startsLine_chunk]

/-- The calls send no fewer bytes than the machine. -/
theorem length_encodeFrom_le (start : Bool) (buf : Nat → UInt8) (reads : List Chunk) :
    (ascii.encodeFrom start (content reads)).length ≤ (fileBytes buf reads).length := by
  induction reads generalizing start buf with
  | nil => exact Nat.le_refl _
  | cons c reads ih =>
    have hrest := ih (decide (c.1.getLast? = some 10)) (copyIn buf 0 c.1)
    rw [encodeFrom_content, fileBytes, sendBufBytes_chunk start]
    simp only [List.length_append]
    omega

/-- The calls send what the machine sends exactly if no call doubles a dot that it should not.
Every such dot makes the bytes longer, so none can make up for another. Induction on the reads. -/
theorem fileBytes_eq_iff (start : Bool) (buf : Nat → UInt8) (reads : List Chunk) :
    fileBytes buf reads = ascii.encodeFrom start (content reads) ↔ LineChunks start buf reads := by
  induction reads generalizing start buf with
  | nil => exact ⟨fun _ => trivial, fun _ => rfl⟩
  | cons c reads ih =>
    have hrest := ih (decide (c.1.getLast? = some 10)) (copyIn buf 0 c.1)
    have hle := length_encodeFrom_le (decide (c.1.getLast? = some 10)) (copyIn buf 0 c.1) reads
    rw [encodeFrom_content, fileBytes, sendBufBytes_chunk start]
    by_cases hdot : c.1.head? = some 46 ∧ start = false
    · -- a dot inside a line is doubled
      rw [if_pos hdot]
      constructor
      · intro heq
        have hlen := congrArg List.length heq
        simp only [List.length_append, List.length_singleton] at hlen
        omega
      · intro hlines
        have hstart := hlines.1 hdot.1
        rw [hdot.2] at hstart
        cases hstart
    · -- this chunk starts as it should, so the first difference is behind it
      have hfirst : c.1.head? = some 46 → start = true := fun hhead =>
        eq_true_of_ne_false fun hfalse => hdot ⟨hhead, hfalse⟩
      rw [if_neg hdot, List.nil_append, List.append_assoc, List.append_right_inj]
      constructor
      · intro heq
        have hlen := congrArg List.length heq
        rw [List.length_append] at hlen
        have hnil : lookAhead c.1 (buf c.1.length) = [] := List.length_eq_zero_iff.mp (by omega)
        rw [hnil, List.nil_append] at heq
        exact ⟨hfirst, lookAhead_eq_nil.mp hnil, hrest.mp heq⟩
      · intro ⟨_, hbehind, hlines⟩
        rw [lookAhead_eq_nil.mpr hbehind, List.nil_append]
        exact hrest.mpr hlines

end File

/-- **Mail from a file.** If `data(filename)` returns, it has sent what one call of `send_buf` for
the whole content sends, which is the encoding of the content by lines, exactly if the file was cut
where its lines end. -/
theorem dataFile_sends_content_iff (K : Kernel) (fuel : Nat) (buf : Nat → UInt8)
    (reads : List Chunk) {p : Nat → UInt8} (hmem : slice p 0 (content reads).length = content reads)
    (hnext : p (content reads).length ≠ 46) {t t1 t' : Client Unit} (hopen : t.buf.PutOpen)
    (hdata : data K fuel t = .ok () t1) (hrun : dataFile K fuel buf reads t = .ok () t') :
    sendBufBytes p (content reads).length = ascii.encode (content reads) ∧
      (t'.buf.wire = t1.buf.wire ++ (sendBufBytes p (content reads).length ++ ascii.terminator)
        ↔ LineChunks true buf reads) := by
  have hbytes := sendBufBytes_eq_encode hmem hnext
  have hwire := (dataText_spec (hands_sendFile K buf reads) hopen hdata).of_ok hrun
  refine ⟨hbytes, ?_⟩
  rw [hwire, hbytes, List.append_right_inj, List.append_left_inj, ← Alphabet.encodeFrom_eq_encode]
  exact fileBytes_eq_iff true buf reads

/-- A chunk for each line. -/
theorem dataFile_sends_content_lines :
    let reads : List Chunk := [⟨[97, 10], by decide⟩, ⟨[46, 98], by decide⟩]
    (attempt (dataFile Kernel.sink 0 (fun _ => 0) reads) mailer).2.buf.wire
      = (attempt (data Kernel.sink 0) mailer).2.buf.wire
        ++ (sendBufBytes (copyIn (fun _ => 0) 0 (content reads)) 4 ++ ascii.terminator) := by
  intro reads
  have h := dataFile_sends_content_iff Kernel.sink 0 (fun _ => 0) reads
    (p := copyIn (fun _ => 0) 0 (content reads)) (slice_copyIn _ _ _) (by decide)
    (putOpen_fresh _ _ _ _ _) data_mailer (of_attempt_ok (by decide +kernel))
  exact h.2.mpr (by simp [LineChunks, reads])

/-- The text `a.`, read as `a` and `.`: its dot is doubled, though it does not start a line. -/
theorem dataFile_doubles_dot :
    let reads : List Chunk := [⟨[97], by decide⟩, ⟨[46], by decide⟩]
    let whole := copyIn (fun _ => 0) 0 (content reads)
    (attempt (dataFile Kernel.sink 0 (fun _ => 0) reads) mailer).2.buf.wire
      = [68, 65, 84, 65, 13, 10] ++ [97, 46, 46] ++ ascii.terminator ∧
    (attempt (dataBuf Kernel.sink 0 (some whole) 2) mailer).2.buf.wire
      = [68, 65, 84, 65, 13, 10] ++ [97, 46] ++ ascii.terminator ∧
    (attempt (dataFile Kernel.sink 0 (fun _ => 0) reads) mailer).2.buf.wire
      ≠ (attempt (dataBuf Kernel.sink 0 (some whole) 2) mailer).2.buf.wire := by
  decide +kernel

end Smtp

end Sockstream
