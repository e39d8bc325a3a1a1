import SocketPlusPlus.Logic.Bytes
import SocketPlusPlus.Sockbuf.Put
import SocketPlusPlus.Transport

/-!
# Messages over a stream

`send(const std::string&)`, `send(const std::wstring&)`, `recv(std::string&)` and
`recv(std::wstring&)` exchange messages: a header of `sizeof(unsigned long)` bytes that holds
`htonl` of the payload's length in bytes, and the payload behind it.

The code is exact about payloads it sends and about headers it reads only half. What it does with a
partial transfer elsewhere is the subject of this module:

* a header that `::send` takes in part is not completed (`HeaderWhole`);
* a header that `::recv` returns in part is thrown away, and a body that `::recv` returns in part,
  or not at all, is returned as if it were complete (`WholeRecv`).

The results are about runs of calls, and say that these conditions are all that is needed.
-/

namespace Sockstream

open Exec Memory Bytes

/-! ## The layout of a frame

A message is sent as its length and its bytes, without padding, in the layout of the sender's
ABI. -/

/-- The layout of `unsigned long`. -/
structure Abi where
  sizeofLong : Nat
  four_le : 4 ≤ sizeofLong
  endian : Endian

/-- The conversion of an unsigned value to a 32-bit `int`. -/
def asInt (n : Nat) : Int := (n : Int).bmod (2 ^ 32)

theorem asInt_of_lt {n : Nat} (h : n < 2 ^ 31) : asInt n = n := by
  apply Int.bmod_eq_of_le <;> omega

/-- `unsigned long size = htonl(n)`, as bytes. -/
def Abi.header (A : Abi) (n : Nat) : List UInt8 := A.endian.encode A.sizeofLong (A.endian.htonl n)

/-- `size = ntohl(size)`, for the bytes of `size`. -/
def Abi.size (A : Abi) (hdr : List UInt8) : Nat := A.endian.ntohl (A.endian.decode hdr)

def Abi.frame (A : Abi) (payload : List UInt8) : List UInt8 := A.header payload.length ++ payload

def Abi.frames (A : Abi) (msgs : List (List UInt8)) : List UInt8 := msgs.flatMap A.frame

@[simp] theorem Abi.length_header (A : Abi) (n : Nat) : (A.header n).length = A.sizeofLong :=
  A.endian.length_encode _ _

theorem Abi.size_header (A : Abi) {n : Nat} (h : n < 2 ^ 32) : A.size (A.header n) = n := by
  have hfits : A.endian.htonl n < 256 ^ A.sizeofLong :=
    Nat.lt_of_lt_of_le (A.endian.htonl_lt n) (Nat.pow_le_pow_right (by decide) A.four_le)
  unfold size header
  rw [A.endian.decode_encode hfits, A.endian.ntohl_htonl h]

theorem Abi.frames_cons (A : Abi) (m : List UInt8) (ms : List (List UInt8)) :
    A.frames (m :: ms) = A.header m.length ++ (m ++ A.frames ms) := by
  simp [frames, frame]

/-! ## The members -/

section Members

variable {charT W : Type} [CharType W]

/-- What the two `send` overloads do with the bytes of their string. -/
def sendFramed (K : Kernel) (A : Abi) (payload : List UInt8) (msgf : Int) : M charT Int := do
  awaitWriteready K "sockbuf::send"
  match ← output K (.send msgf) (A.header payload.length) with
  | none => throw (.count 0)
  | some _ =>
    -- how much of the header went out is not looked at
    let len := asInt payload.length
    let wlen ← outputLoop K (.send msgf) (fun i => payload[i]?.getD 0) 0 len.toNat
    pure wlen

/-- `send(const std::string& buf, int msgf)` -/
def sendString (K : Kernel) (A : Abi) (buf : List UInt8) (msgf : Int) : M charT Int :=
  sendFramed K A buf msgf

/-- `send(const std::wstring& buf, int msgf)`, where `len` is `buf.size() * sizeof(wchar_t)` -/
def sendWstring (K : Kernel) (A : Abi) (buf : List W) (msgf : Int) : M charT Int :=
  sendFramed K A (bytesOf buf) msgf

/-- `std::string::resize` -/
def resize (buf : List UInt8) (n : Nat) : List UInt8 :=
  buf.take n ++ List.replicate (n - buf.length) 0

/-- `recv(string& buf, int msgf)`: the value returned and what `buf` holds then. -/
def recvString (K : Kernel) (A : Abi) (buf : List UInt8) (msgf : Int) :
    M charT (Int × List UInt8) := do
  awaitReadready K "sockbuf::recv"
  match ← input K (.recv msgf) A.sizeofLong with
  | none => throwErrno "sockbuf::recv"
  | some hdr =>
    if hdr.length = 0 then pure (0, buf)
    else if hdr.length ≠ A.sizeofLong then throwErrno "sockbuf::recv"
    else
      let size := A.size hdr
      let buf := resize buf size
      match ← input K (.recv msgf) size with
      | none => pure (-1, buf)
      | some bs => pure (asInt bs.length, bs ++ buf.drop bs.length)

/-- `std::wstring::resize` -/
def resizeWide (buf : List W) (n : Nat) : List W :=
  buf.take n ++ List.replicate (n - buf.length) (CharType.repr.symm fun _ => 0)

/-- The characters of `buf` when `bs` has been stored at `buf.data()`: what does not fit is stored
behind them. -/
def storeWide (buf : List W) (bs : List UInt8) : List W :=
  slice (storeBytes (fun i => buf[i]?.getD (CharType.repr.symm fun _ => 0)) bs) 0 buf.length

/-- `recv(wstring& buf, int msgf)` -/
def recvWstring (K : Kernel) (A : Abi) (buf : List W) (msgf : Int) : M charT (Int × List W) := do
  awaitReadready K "sockbuf::recv"
  match ← input K (.recv msgf) A.sizeofLong with
  | none => throwErrno "sockbuf::recv"
  | some hdr =>
    if hdr.length = 0 then pure (0, buf)
    else if hdr.length ≠ A.sizeofLong then throwErrno "sockbuf::recv"
    else
      let size := A.size hdr
      let buf := resizeWide buf (size / CharType.sizeof W)
      match ← input K (.recv msgf) size with
      | none => pure (-1, buf)
      | some bs => pure (asInt bs.length, storeWide buf bs)

end Members

/-! ## Sending

A call makes two system calls, one for the header and one for the body. The first is whole or the
call throws; the second may be cut short. -/

section Send

variable {charT W : Type} [CharType W]

inductive SendCall (W : Type) where
  | string (buf : List UInt8) (msgf : Int)
  | wstring (buf : List W) (msgf : Int)

def SendCall.payload : SendCall W → List UInt8
  | .string buf _ => buf
  | .wstring buf _ => bytesOf buf

def SendCall.msgf : SendCall W → Int
  | .string _ msgf => msgf
  | .wstring _ msgf => msgf

def SendCall.run (K : Kernel) (A : Abi) : SendCall W → M charT Int
  | .string buf msgf => sendString K A buf msgf
  | .wstring buf msgf => sendWstring K A buf msgf

omit [CharType W] in
theorem SendCall.run_eq [CharType W] (K : Kernel) (A : Abi) (call : SendCall W) :
    (call.run K A : M charT Int) = sendFramed K A call.payload call.msgf := by
  cases call <;> rfl

/-- The `::send` of the header, if it succeeds, takes the whole header. -/
def HeaderWhole (K : Kernel) (A : Abi) (call : SendCall W) (s : St charT) : Prop :=
  ∀ s1, awaitWriteready K "sockbuf::send" s = .ok () s1 →
    ∀ k : Accepted (A.header call.payload.length).length,
      K.output s1.sys.history (.send call.msgf) (A.header call.payload.length) = .ok k →
      k.1 = A.sizeofLong

theorem slice_getD (xs : List UInt8) : slice (fun i => xs[i]?.getD 0) 0 xs.length = xs := by
  apply slice_eq_of_getElem?
  intro i x hx
  simp [hx]

/-- A call that returns has sent some of the header, and all of the payload. -/
theorem sendFramed_spec (K : Kernel) (A : Abi) (call : SendCall W) (s : St charT)
    (hlen : call.payload.length < 2 ^ 31) :
    wp (call.run K A)
      (fun r s' => r = call.payload.length ∧ ∃ k, k ≤ A.sizeofLong ∧
        (k = A.sizeofLong ↔ HeaderWhole K A call s) ∧
        s'.wire = s.wire ++ ((A.header call.payload.length).take k ++ call.payload))
      (fun _ _ => True) s := by
  rw [SendCall.run_eq]
  unfold sendFramed
  cases hready : (awaitWriteready K "sockbuf::send" : M charT Unit) s with
  | error e s1 =>
    rw [wp_bind_of_error hready]
    trivial
  | ok _ s1 =>
    have h1 : Exchanged [] [] s s1 := (awaitWriteready_spec K _ s).of_ok hready
    rw [wp_bind_of_ok hready]
    cases hhdr : K.output s1.sys.history (.send call.msgf) (A.header call.payload.length) with
    | error e =>
      obtain ⟨s2, hs2, -⟩ := output_error hhdr
      rw [wp_bind_of_ok hs2]
      trivial
    | ok k =>
      obtain ⟨s2, hs2, h2⟩ := output_ok hhdr
      have hk : k.1 ≤ A.sizeofLong := by simpa using k.2.2
      have hwhole : k.1 = A.sizeofLong ↔ HeaderWhole K A call s := by
        constructor
        · intro hk' s1' hready' k' hk''
          cases hready.symm.trans hready'
          cases hhdr.symm.trans hk''
          exact hk'
        · intro h
          exact h s1 hready k hhdr
      rw [wp_bind_of_ok hs2]
      show wp (do
        let wlen ← outputLoop K (.send call.msgf) (fun i => call.payload[i]?.getD 0) 0
          (asInt call.payload.length).toNat
        pure (wlen : Int)) _ _ s2
      rw [asInt_of_lt hlen, Int.toNat_natCast, wp_bind]
      refine (outputLoop_spec K _ _ 0 _ s2).mono ?_ (fun _ _ _ => trivial)
      rintro r s3 ⟨rfl, h3⟩
      rw [slice_getD] at h3
      refine ⟨by rw [Nat.zero_add], k, hk, hwhole, ?_⟩
      rw [h3.wire, h2.wire, h1.wire]
      simp

/-- A run all of whose calls return sends frames whose headers may be cut short; it is never longer
than the frames, and as long exactly when every header went out whole. Induction on the calls. -/
theorem send_run (K : Kernel) (A : Abi) (calls : List (SendCall W))
    (hlen : ∀ call ∈ calls, call.payload.length < 2 ^ 31) (s : St charT)
    (hok : ∀ r ∈ (runAll (calls.map (SendCall.run K A)) s).1, ∃ n, r = .ok n) :
    (runAll (calls.map (SendCall.run K A)) s).1
        = calls.map (fun call => .ok (call.payload.length : Int)) ∧
      ∃ out, (runAll (calls.map (SendCall.run K A)) s).2.wire = s.wire ++ out ∧
        out.length ≤ (A.frames (calls.map SendCall.payload)).length ∧
        (StepsMeet (SendCall.run K A) (HeaderWhole K A) calls s →
          out = A.frames (calls.map SendCall.payload)) ∧
        (out.length = (A.frames (calls.map SendCall.payload)).length →
          StepsMeet (SendCall.run K A) (HeaderWhole K A) calls s) := by
  induction calls generalizing s with
  | nil => exact ⟨rfl, [], by simp, Nat.le_refl _, fun _ => rfl, fun _ => trivial⟩
  | cons call calls ih =>
    rw [List.map_cons, runAll_cons] at hok ⊢
    have hspec := sendFramed_spec K A call s (hlen call (by simp))
    obtain ⟨n, hn⟩ := hok _ List.mem_cons_self
    obtain ⟨hr, k, hk, hwhole, hwire⟩ := hspec.of_ok (of_attempt_ok hn)
    obtain ⟨hresults, out, hout, hle, hto, hfrom⟩ := ih
      (fun c hc => hlen c (List.mem_cons_of_mem _ hc)) _
      (fun r hr' => hok r (List.mem_cons_of_mem _ hr'))
    have hlength : ((A.header call.payload.length).take k).length = k :=
      List.length_take_of_le (by rw [A.length_header]; exact hk)
    have hframes : A.frames ((call :: calls).map SendCall.payload)
        = A.header call.payload.length ++ (call.payload ++ A.frames (calls.map SendCall.payload)) :=
      A.frames_cons _ _
    -- a header that is cut makes the bytes shorter, and nothing later makes up for it
    refine ⟨?_, (A.header call.payload.length).take k ++ (call.payload ++ out), ?_, ?_, ?_, ?_⟩
    · rw [hresults, hn, hr, List.map_cons]
    · rw [hout, hwire]
      simp
    · rw [hframes]
      simp only [List.length_append, hlength, A.length_header]
      omega
    · intro ⟨hhead, htail⟩
      have hfull : (A.header call.payload.length).take k = A.header call.payload.length :=
        List.take_of_length_le (by rw [A.length_header]; exact Nat.le_of_eq (hwhole.mpr hhead).symm)
      rw [hframes, hfull, hto htail]
    · intro heq
      rw [hframes] at heq
      simp only [List.length_append, hlength, A.length_header] at heq
      exact ⟨hwhole.mp (by omega), hfrom (by omega)⟩

/-- **When the framed `send` is right.** In a run of `send` calls that all return, each returns the
length of its payload, and the kernel has accepted exactly the frames if and only if each header
went out with its one `::send`. -/
theorem send_runs_frame (K : Kernel) (A : Abi) (calls : List (SendCall W))
    (hlen : ∀ call ∈ calls, call.payload.length < 2 ^ 31) (s : St charT)
    (hok : ∀ r ∈ (runAll (calls.map (SendCall.run K A)) s).1, ∃ n, r = .ok n) :
    ((runAll (calls.map (SendCall.run K A)) s).2.wire
          = s.wire ++ A.frames (calls.map SendCall.payload) ∧
        (runAll (calls.map (SendCall.run K A)) s).1
          = calls.map (fun call => .ok (call.payload.length : Int))) ↔
      StepsMeet (SendCall.run K A) (HeaderWhole K A) calls s := by
  obtain ⟨hresults, out, hout, -, hto, hfrom⟩ := send_run K A calls hlen s hok
  constructor
  · intro ⟨hwire, _⟩
    rw [hout] at hwire
    exact hfrom (congrArg List.length (List.append_cancel_left hwire))
  · intro hwhole
    exact ⟨by rw [hout, hto hwhole], hresults⟩

/-- `unsigned long` of eight bytes, lowest first. -/
def Abi.lp64 : Abi := ⟨8, by decide, .little⟩

/-- A new sockbuf that has sent one message. -/
def sentOne (K : Kernel) (call : SendCall UInt8) : List (Except Exc Int) × St UInt8 :=
  runAll ([call].map (SendCall.run K Abi.lp64))
    (fresh ⟨2, Nat.two_pos⟩ 3 (fun _ => 0) (fun _ => 0) 0)

/-- A peer that takes everything gets the frame. -/
theorem send_runs_frame_one :
    (sentOne Kernel.sink (.string [0x41] 0)).2.wire = Abi.lp64.frames [[0x41]] := by
  have hresults : (sentOne Kernel.sink (.string [0x41] 0)).1 = [.ok 1] := by decide +kernel
  have hwhole : HeaderWhole Kernel.sink Abi.lp64 (SendCall.string (W := UInt8) [0x41] 0)
      (fresh ⟨2, by decide⟩ 3 (fun _ => 0) (fun _ => 0) 0 : St UInt8) := by
    intro s1 _ k hk
    rw [Kernel.sink_output hk, Abi.length_header]
  have h := (send_runs_frame Kernel.sink Abi.lp64 [SendCall.string [0x41] 0] (by decide)
    (fresh ⟨2, by decide⟩ 3 (fun _ => 0) (fun _ => 0) 0) (fun r hr => ⟨1, by
      have hmem : r ∈ (sentOne Kernel.sink (.string [0x41] 0)).1 := hr
      rw [hresults] at hmem
      exact List.mem_singleton.mp hmem⟩)).mpr ⟨hwhole, trivial⟩
  exact h.1

/-- Of the header only its first byte goes out, and `send` returns as if all were well. -/
theorem send_header_cut :
    (sentOne Kernel.drip (.string [0x41] 0)).1 = [.ok 1] ∧
      (sentOne Kernel.drip (.string [0x41] 0)).2.wire = [0, 0x41] ∧
      (sentOne Kernel.drip (.string [0x41] 0)).2.wire ≠ Abi.lp64.frames [[0x41]] := by
  decide +kernel

end Send

/-! ## Receiving

The stream is the concatenation of the frames of some messages. `AtFrame rest s` says that the
frames of `rest` are still to come and that the next byte is the first of a frame. A call is right
if from such a state it arrives in such a state, also when it throws; `WholeRecv` is exactly what it
needs from the transport for that.
-/

section Recv

variable {charT : Type} {stream : List UInt8} {s s' : St charT}

def AtFrame (A : Abi) (stream : List UInt8) (rest : List (List UInt8)) (s : St charT) : Prop :=
  s.received ++ A.frames rest = stream

/-- The call returned the next message, or 0 at the end of the stream with `buf` as it was. -/
def Delivered (A : Abi) (stream : List UInt8) (rest : List (List UInt8)) (buf : List UInt8)
    (r : Int × List UInt8) (s' : St charT) : Prop :=
  (∃ m ms, rest = m :: ms ∧ r = ((m.length : Int), m) ∧ AtFrame A stream ms s') ∨
    (rest = [] ∧ r = (0, buf) ∧ AtFrame A stream [] s')

/-- If the `::recv` of the header returns bytes, it returns all of them, and then the `::recv` of
the body succeeds and returns all of its bytes. -/
def WholeRecv (K : Kernel) (A : Abi) (msgf : Int) (s : St charT) : Prop :=
  ∀ s1, awaitReadready K "sockbuf::recv" s = .ok () s1 →
    ∀ hdr s2, input K (.recv msgf) A.sizeofLong s1 = .ok (some hdr) s2 → hdr ≠ [] →
      hdr.length = A.sizeofLong ∧
        ∃ bs, K.input s2.sys.history (.recv msgf) (A.size hdr) = .ok bs ∧
          bs.1.length = A.size hdr

theorem AtFrame.of_received {A : Abi} {rest : List (List UInt8)} (hs : AtFrame A stream rest s)
    (h : s'.received = s.received) : AtFrame A stream rest s' := by
  unfold AtFrame at hs ⊢
  rwa [h]

/-- What the stream still holds at a frame boundary. -/
theorem AtFrame.drop {A : Abi} {rest : List (List UInt8)} (hs : AtFrame A stream rest s) :
    stream.drop s.received.length = A.frames rest := by
  rw [← hs]
  exact List.drop_left

/-- A prefix of the right length of what starts with `xs` is `xs`. -/
theorem eq_of_prefix_append {xs ys bs : List UInt8} (h : bs <+: xs ++ ys)
    (hlen : bs.length = xs.length) : bs = xs := by
  have hbs := List.prefix_iff_eq_take.mp h
  rwa [hlen, List.take_left] at hbs

/-- The body of a message, read behind its header. -/
theorem recv_body {T : Transport stream} {A : Abi} {m : List UInt8} {ms : List (List UInt8)}
    (buf : List UInt8) (msgf : Int) (hm : m.length < 2 ^ 31) {E : Exc → St charT → Prop}
    {s2 : St charT} (hs2 : s2.received ++ (m ++ A.frames ms) = stream) :
    wp (do
        match ← input T.toKernel (.recv msgf) m.length with
        | none => pure (-1, resize buf m.length)
        | some bs => pure (asInt bs.length, bs ++ (resize buf m.length).drop bs.length) :
          M charT (Int × List UInt8))
      (fun r s' => r = ((m.length : Int), m) ∧ AtFrame A stream ms s') E s2 ↔
    ∃ bs, T.input s2.sys.history (.recv msgf) m.length = .ok bs ∧ bs.1.length = m.length := by
  cases hbody : T.input s2.sys.history (.recv msgf) m.length with
  | error e =>
    -- -1 is no length of a message
    obtain ⟨s3, hs3, -⟩ := input_error hbody
    rw [wp_bind_of_ok hs3]
    constructor
    · intro ⟨hr, _⟩
      have hneg := congrArg Prod.fst hr
      simp only at hneg
      omega
    · intro ⟨bs, hbs, _⟩
      cases hbs
  | ok bs =>
    obtain ⟨s3, hs3, h3⟩ := input_ok hbody
    have hreceived : s3.received = s2.received ++ bs.1 := by
      simpa [answerBytes] using h3.received
    have hlt : bs.1.length < 2 ^ 31 := Nat.lt_of_le_of_lt bs.2 hm
    rw [wp_bind_of_ok hs3]
    show ((asInt bs.1.length, bs.1 ++ (resize buf m.length).drop bs.1.length) = (↑m.length, m) ∧
      AtFrame A stream ms s3) ↔ _
    rw [asInt_of_lt hlt]
    constructor
    · intro ⟨hr, _⟩
      exact ⟨bs, rfl, Int.ofNat_inj.mp (congrArg Prod.fst hr)⟩
    · intro ⟨bs', hbs', hlen⟩
      cases hbs'
      have hprefix : bs.1 <+: m ++ A.frames ms := by
        have hdrop : stream.drop s2.received.length = m ++ A.frames ms := by
          rw [← hs2]
          exact List.drop_left
        rw [← hdrop]
        exact (T.delivers _ _ _ bs hbody).isPrefix
      have hall : bs.1 = m := eq_of_prefix_append hprefix hlen
      have hresized : (resize buf m.length).length ≤ m.length := by
        simp only [resize, List.length_append, List.length_take, List.length_replicate]
        omega
      refine ⟨?_, ?_⟩
      · rw [hall, List.drop_eq_nil_of_le hresized, List.append_nil]
      · unfold AtFrame
        rw [hreceived, hall, List.append_assoc, hs2]

theorem delivered_cons {A : Abi} {m : List UInt8} {ms : List (List UInt8)} {buf : List UInt8} :
    (Delivered A stream (m :: ms) buf : Int × List UInt8 → St charT → Prop)
      = fun r s' => r = ((m.length : Int), m) ∧ AtFrame A stream ms s' := by
  funext r s'
  apply propext
  constructor
  · rintro (⟨m', ms', hcons, hr, h⟩ | ⟨hnil, -⟩)
    · obtain ⟨rfl, rfl⟩ := List.cons.inj hcons
      exact ⟨hr, h⟩
    · cases hnil
  · intro ⟨hr, h⟩
    exact .inl ⟨m, ms, rfl, hr, h⟩

theorem Abi.frames_ne_nil (A : Abi) (m : List UInt8) (ms : List (List UInt8)) :
    A.frames (m :: ms) ≠ [] := by
  intro hnil
  have hlen := congrArg List.length hnil
  have hfour := A.four_le
  rw [A.frames_cons, List.length_append, A.length_header, List.length_nil] at hlen
  omega

/-- An input call that finds no byte at a frame boundary is at the end of the stream. -/
theorem AtFrame.eq_nil {A : Abi} {rest : List (List UInt8)} (hs : AtFrame A stream rest s)
    {hdr : List UInt8} (hdelivers : Delivers stream s.received.length A.sizeofLong hdr)
    (hnone : hdr = []) : rest = [] := by
  rcases hdelivers.progress hnone with hzero | hend
  · have hfour := A.four_le
    omega
  · cases rest with
    | nil => rfl
    | cons m ms =>
      have hdrop : A.frames (m :: ms) = [] := by
        rw [← hs.drop]
        exact List.drop_eq_nil_of_le hend
      exact absurd hdrop (A.frames_ne_nil m ms)

/-- A part of a header behind the boundary is no frame boundary of the same messages. -/
theorem AtFrame.ne_of_part {A : Abi} {rest : List (List UInt8)} (hs : AtFrame A stream rest s)
    {hdr : List UInt8} (hsome : hdr ≠ []) (hreceived : s'.received = s.received ++ hdr) :
    ¬ AtFrame A stream rest s' := by
  intro h
  unfold AtFrame at h hs
  rw [hreceived, ← hs, List.append_assoc] at h
  have hlen := congrArg List.length (List.append_cancel_left h)
  rw [List.length_append] at hlen
  exact hsome (List.length_eq_zero_iff.mp (by omega))

/-- What the call does with the bytes that the `::recv` of the header brought. -/
theorem recv_header {T : Transport stream} {A : Abi} {rest : List (List UInt8)}
    (hrest : ∀ m ∈ rest, m.length < 2 ^ 31) (buf : List UInt8) (msgf : Int) {hdr : List UInt8}
    (hs : AtFrame A stream rest s)
    (hdelivers : Delivers stream s.received.length A.sizeofLong hdr)
    (hreceived : s'.received = s.received ++ hdr) :
    wp (if hdr.length = 0 then pure (0, buf)
        else if hdr.length ≠ A.sizeofLong then throwErrno "sockbuf::recv"
        else do
          match ← input T.toKernel (.recv msgf) (A.size hdr) with
          | none => pure (-1, resize buf (A.size hdr))
          | some bs => pure (asInt bs.length, bs ++ (resize buf (A.size hdr)).drop bs.length) :
          M charT (Int × List UInt8))
      (Delivered A stream rest buf) (fun _ s'' => AtFrame A stream rest s'') s' ↔
    (hdr ≠ [] → hdr.length = A.sizeofLong ∧
      ∃ bs, T.input s'.sys.history (.recv msgf) (A.size hdr) = .ok bs ∧
        bs.1.length = A.size hdr) := by
  have hprefix : hdr <+: A.frames rest := by
    have h := hdelivers.isPrefix
    rwa [hs.drop] at h
  by_cases hnone : hdr = []
  · -- no byte: the stream is at its end
    have hend := hs.eq_nil hdelivers hnone
    have hsame : s'.received = s.received := by rw [hreceived, hnone, List.append_nil]
    rw [if_pos (by rw [hnone]; rfl), wp_pure]
    exact ⟨fun _ h => absurd hnone h, fun _ => .inr ⟨hend, rfl, hend ▸ hs.of_received hsame⟩⟩
  rw [if_neg (fun h => hnone (List.length_eq_zero_iff.mp h))]
  by_cases hlen : hdr.length = A.sizeofLong
  · -- the header is whole, and so is the size it holds
    cases rest with
    | nil => exact absurd (List.prefix_nil.mp hprefix) hnone
    | cons m ms =>
      rw [A.frames_cons] at hprefix
      have hm : m.length < 2 ^ 31 := hrest m List.mem_cons_self
      have hhdr : hdr = A.header m.length :=
        eq_of_prefix_append hprefix (by rw [hlen, A.length_header])
      have hsize : A.size hdr = m.length := by
        rw [hhdr, A.size_header (by omega)]
      have hs' : s'.received ++ (m ++ A.frames ms) = stream := by
        rw [hreceived, hhdr, List.append_assoc, ← A.frames_cons]
        exact hs
      rw [if_neg (not_not.mpr hlen), hsize, delivered_cons, recv_body buf msgf hm hs']
      exact ⟨fun h _ => ⟨hlen, h⟩, fun h => (h hnone).2⟩
  · -- the part of the header that was read is gone
    rw [if_pos hlen]
    refine iff_of_false (hs.ne_of_part hnone hreceived) ?_
    exact fun h => hlen (h hnone).1

/-- One call at a frame boundary: it is right exactly when the transport does not cut it. -/
theorem recvString_spec (T : Transport stream) (A : Abi) (rest : List (List UInt8))
    (hrest : ∀ m ∈ rest, m.length < 2 ^ 31) (buf : List UInt8) (msgf : Int)
    (hs : AtFrame A stream rest s) :
    wp (recvString T.toKernel A buf msgf) (Delivered A stream rest buf)
      (fun _ s' => AtFrame A stream rest s') s ↔ WholeRecv T.toKernel A msgf s := by
  unfold recvString
  cases hready : awaitReadready T.toKernel "sockbuf::recv" s with
  | error e s1 =>
    -- no byte was asked for
    have h1 := ((awaitReadready_spec T.toKernel _ s).of_error hready).2
    rw [wp_bind_of_error hready]
    refine iff_of_true (hs.of_received (by simpa using h1.received)) ?_
    intro s1' h
    cases hready.symm.trans h
  | ok _ s1 =>
    have h1 : Exchanged [] [] s s1 := (awaitReadready_spec T.toKernel _ s).of_ok hready
    have hs1 : AtFrame A stream rest s1 := hs.of_received (by simpa using h1.received)
    rw [wp_bind_of_ok hready]
    cases hhdr : T.input s1.sys.history (.recv msgf) A.sizeofLong with
    | error e =>
      obtain ⟨s2, hs2, h2⟩ := input_error hhdr
      rw [wp_bind_of_ok hs2]
      refine iff_of_true (hs1.of_received (by simpa [answerBytes] using h2.received)) ?_
      intro s1' h hdr s2' h'
      cases hready.symm.trans h
      cases hs2.symm.trans h'
    | ok hdr =>
      obtain ⟨s2, hs2, h2⟩ := input_ok hhdr
      have hreceived : s2.received = s1.received ++ hdr.1 := by
        simpa [answerBytes] using h2.received
      have hwhole : WholeRecv T.toKernel A msgf s ↔
          (hdr.1 ≠ [] → hdr.1.length = A.sizeofLong ∧
            ∃ bs, T.input s2.sys.history (.recv msgf) (A.size hdr.1) = .ok bs ∧
              bs.1.length = A.size hdr.1) := by
        constructor
        · exact fun h => h s1 hready hdr.1 s2 hs2
        · intro h s1' hready' hdr' s2' hs2'
          cases hready.symm.trans hready'
          cases hs2.symm.trans hs2'
          exact h
      rw [wp_bind_of_ok hs2, hwhole]
      exact recv_header hrest buf msgf hs1 (T.delivers _ _ _ hdr hhdr) hreceived

/-- The results of a run as the caller should see them: the messages in order, 0 only after the
last one, and exceptions anywhere. `rest` is what has not been delivered yet. -/
inductive Delivery : List (List UInt8) → List (Except Exc (Int × List UInt8)) →
    List (List UInt8) → Prop where
  | nil (ms : List (List UInt8)) : Delivery ms [] ms
  | message (m : List UInt8) {ms rs rest} (h : Delivery ms rs rest) :
      Delivery (m :: ms) (.ok ((m.length : Int), m) :: rs) rest
  | endOfStream (buf : List UInt8) {rs rest} (h : Delivery [] rs rest) :
      Delivery [] (.ok (0, buf) :: rs) rest
  | throws (e : Exc) {ms rs rest} (h : Delivery ms rs rest) : Delivery ms (.error e :: rs) rest

theorem Delivery.suffix {ms rest : List (List UInt8)} {rs : List (Except Exc (Int × List UInt8))}
    (h : Delivery ms rs rest) : rest <:+ ms := by
  induction h with
  | nil ms => exact List.suffix_rfl
  | message m _ ih => exact ih.trans (List.suffix_cons _ _)
  | endOfStream _ _ ih => exact ih
  | throws _ _ ih => exact ih

structure RecvCall where
  buf : List UInt8
  msgf : Int

def RecvCall.run (K : Kernel) (A : Abi) (call : RecvCall) : M charT (Int × List UInt8) :=
  recvString K A call.buf call.msgf

/-- A run from a frame boundary whose calls all get whole transfers. Induction on the calls. -/
theorem recv_run (T : Transport stream) (A : Abi) (calls : List RecvCall)
    (rest : List (List UInt8)) (hrest : ∀ m ∈ rest, m.length < 2 ^ 31) (s : St charT)
    (hs : AtFrame A stream rest s)
    (hwhole : StepsMeet (RecvCall.run T.toKernel A)
      (fun call => WholeRecv T.toKernel A call.msgf) calls s) :
    ∃ rest', Delivery rest (runAll (calls.map (RecvCall.run T.toKernel A)) s).1 rest' ∧
      AtFrame A stream rest' (runAll (calls.map (RecvCall.run T.toKernel A)) s).2 := by
  induction calls generalizing rest s with
  | nil => exact ⟨rest, .nil rest, hs⟩
  | cons call calls ih =>
    obtain ⟨hhead, htail⟩ := hwhole
    rw [List.map_cons, runAll_cons]
    have hcall := (recvString_spec T A rest hrest call.buf call.msgf hs).mpr hhead
    unfold RecvCall.run at htail ⊢
    unfold attempt at htail ⊢
    cases hrun : recvString T.toKernel A call.buf call.msgf s with
    | error e s1 =>
      rw [hrun] at htail
      have hs1 := hcall.of_error hrun
      obtain ⟨rest', hdelivery, hend⟩ := ih rest hrest s1 hs1 htail
      exact ⟨rest', .throws e hdelivery, hend⟩
    | ok r s1 =>
      rw [hrun] at htail
      rcases hcall.of_ok hrun with ⟨m, ms, rfl, rfl, hs1⟩ | ⟨rfl, rfl, hs1⟩
      · obtain ⟨rest', hdelivery, hend⟩ := ih ms
          (fun m' hm' => hrest m' (List.mem_cons_of_mem _ hm')) s1 hs1 htail
        exact ⟨rest', .message m hdelivery, hend⟩
      · obtain ⟨rest', hdelivery, hend⟩ := ih [] (fun _ h => by cases h) s1 hs1 htail
        exact ⟨rest', .endOfStream call.buf hdelivery, hend⟩

/-- **When the framed `recv` is right.** In a run whose calls all get whole transfers, the results
are the messages in order, then 0, with exceptions in between, and the stream is left at a frame
boundary. There the next call is right if and only if it gets whole transfers. -/
theorem recv_runs_deliver (A : Abi) (msgs : List (List UInt8))
    (hmsgs : ∀ m ∈ msgs, m.length < 2 ^ 31) (T : Transport (A.frames msgs))
    (calls : List RecvCall) (s : St charT) (hs : s.received = [])
    (hwhole : StepsMeet (RecvCall.run T.toKernel A)
      (fun call => WholeRecv T.toKernel A call.msgf) calls s) :
    ∃ rest, Delivery msgs (runAll (calls.map (RecvCall.run T.toKernel A)) s).1 rest ∧
      rest <:+ msgs ∧
      AtFrame A (A.frames msgs) rest (runAll (calls.map (RecvCall.run T.toKernel A)) s).2 ∧
      ∀ call : RecvCall,
        (wp (call.run T.toKernel A) (Delivered A (A.frames msgs) rest call.buf)
            (fun _ s' => AtFrame A (A.frames msgs) rest s')
            (runAll (calls.map (RecvCall.run T.toKernel A)) s).2 ↔
          WholeRecv T.toKernel A call.msgf
            (runAll (calls.map (RecvCall.run T.toKernel A)) s).2) := by
  have hstart : AtFrame A (A.frames msgs) msgs s := by
    unfold AtFrame
    rw [hs, List.nil_append]
  obtain ⟨rest, hdelivery, hend⟩ := recv_run T A calls msgs hmsgs s hstart hwhole
  refine ⟨rest, hdelivery, hdelivery.suffix, hend, fun call => ?_⟩
  exact recvString_spec T A rest (fun m hm => hmsgs m (hdelivery.suffix.subset hm)) _ _ hend

/-- One `recv` on a new sockbuf, of a message that arrives at most `k + 1` bytes at a time. -/
def recvOne (k : Nat) (msg : List UInt8) : List (Except Exc (Int × List UInt8)) :=
  (runAll ([RecvCall.mk [] 0].map
      (RecvCall.run (Transport.upTo (Abi.lp64.frames [msg]) k).toKernel Abi.lp64))
    (fresh ⟨2, Nat.two_pos⟩ 3 (fun _ => 0) (fun _ => 0) 0 : St UInt8)).1

/-- A message that arrives with its header is delivered. -/
theorem recv_runs_deliver_one : ∃ rest, Delivery [[1, 2, 3]] (recvOne 9 [1, 2, 3]) rest := by
  let T := Transport.upTo (Abi.lp64.frames [[1, 2, 3]]) 9
  let s : St UInt8 := fresh ⟨2, by decide⟩ 3 (fun _ => 0) (fun _ => 0) 0
  have hwhole : WholeRecv T.toKernel Abi.lp64 0 s := by
    intro s1 h1 hdr s2 h2 _
    have hready : awaitReadready T.toKernel "sockbuf::recv" s = .ok () s := rfl
    cases hready.symm.trans h1
    have hinput : ∃ s3, input T.toKernel (.recv 0) 8 s = .ok (some [0, 0, 0, 3, 0, 0, 0, 0]) s3 ∧
        s3.received = [0, 0, 0, 3, 0, 0, 0, 0] := ⟨_, rfl, rfl⟩
    obtain ⟨s3, hs3, hreceived⟩ := hinput
    cases hs3.symm.trans h2
    refine ⟨rfl, _, rfl, ?_⟩
    show (((Abi.lp64.frames [[1, 2, 3]]).drop s2.received.length).take 3).length = 3
    rw [hreceived]
    rfl
  obtain ⟨rest, h, -⟩ := recv_runs_deliver Abi.lp64 [[1, 2, 3]] (by decide) T [⟨[], 0⟩] s rfl
    ⟨hwhole, trivial⟩
  exact ⟨rest, h⟩

/-- A message of nine bytes of which eight arrive first: `recv` returns 8 and nine bytes, the last
of them not the message's. -/
theorem recv_truncates :
    recvOne 7 [1, 2, 3, 4, 5, 6, 7, 8, 9] = [.ok (8, [1, 2, 3, 4, 5, 6, 7, 8, 0])] ∧
      ¬ ∃ rest, Delivery [[1, 2, 3, 4, 5, 6, 7, 8, 9]]
        (recvOne 7 [1, 2, 3, 4, 5, 6, 7, 8, 9]) rest := by
  have hresult : recvOne 7 [1, 2, 3, 4, 5, 6, 7, 8, 9]
      = [.ok (8, [1, 2, 3, 4, 5, 6, 7, 8, 0])] := by decide +kernel
  refine ⟨hresult, ?_⟩
  rw [hresult]
  intro ⟨rest, h⟩
  cases h

end Recv

end Sockstream
