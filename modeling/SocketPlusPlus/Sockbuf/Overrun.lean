import SocketPlusPlus.Sockbuf.Frame
import SocketPlusPlus.Sockbuf.Message
import SocketPlusPlus.Sockbuf.Wide

/-!
# How much is received

The size in a header comes from the peer. `recv(string&)` and `recv(wstring&)` make room for a body
of that size and pass the size on to `::recv`. The room of the `string` is what is asked for; the
room of the `wstring` is rounded down to whole characters, and what is asked for is not.
-/

namespace Sockstream

open Exec Memory

/-! ## What is asked for

The history says of every `::recv` how many bytes it asked for. A length that the peer announced is
an answer in the history as well. -/

def Event.asked? : Event → Option Nat
  | .input _ len _ => some len
  | _ => none

/-- The numbers of bytes that the input calls among `es` asked for. -/
def asks (es : List Event) : List Nat := es.filterMap Event.asked?

/-- A whole header was read. -/
def Announces (A : Abi) (es : List Event) (hdr : List UInt8) : Prop :=
  (inputs es).head? = some (.ok hdr) ∧ hdr.length = A.sizeofLong

/-- The call for the body, if it was made, asked for at most `held` bytes. -/
def Fits (held : Nat) (es : List Event) : Prop := ∀ len, (asks es)[1]? = some len → len ≤ held

theorem length_asks (es : List Event) : (asks es).length = (inputs es).length := by
  induction es with
  | nil => rfl
  | cons e es ih =>
    cases e with
    | input call len answer => exact congrArg Nat.succ ih
    | _ => exact ih

theorem asks_append (es es' : List Event) : asks (es ++ es') = asks es ++ asks es' :=
  List.filterMap_append ..

theorem fits_of_none {es : List Event} (h : (asks es)[1]? = none) (held : Nat) : Fits held es := by
  intro len hlen
  cases h.symm.trans hlen

theorem fits_iff {es : List Event} {len held : Nat} (h : (asks es)[1]? = some len) :
    Fits held es ↔ len ≤ held := by
  constructor
  · exact fun hfits => hfits len h
  · intro hle len' hlen'
    cases Option.some.inj (h.symm.trans hlen')
    exact hle

/-! ## Calls behind the tests -/

section Tests

variable {tests later : List Event} {call : InCall} {len : Nat} {answer : Except Errno (List UInt8)}

theorem asks_nil (htests : inputs tests = []) : asks tests = [] := by
  have hlen := length_asks tests
  rw [htests] at hlen
  exact List.length_eq_zero_iff.mp hlen

theorem inputs_head (htests : inputs tests = []) :
    (inputs (tests ++ .input call len answer :: later)).head? = some answer := by
  rw [inputs_append, htests]
  rfl

theorem asks_second (htests : inputs tests = []) :
    (asks (tests ++ .input call len answer :: later))[1]? = (asks later)[0]? := by
  rw [asks_append, asks_nil htests]
  rfl

/-- The first call did not read a whole header, and there is no second. -/
theorem not_announced (A : Abi) (htests : inputs tests = [])
    (hpart : ∀ hdr, answer = .ok hdr → hdr.length ≠ A.sizeofLong) :
    (asks (tests ++ [.input call len answer]))[1]? = none ∧
      ∀ hdr, ¬ Announces A (tests ++ [.input call len answer]) hdr := by
  refine ⟨asks_second htests, fun hdr ⟨hhdr, hlen⟩ => ?_⟩
  rw [inputs_head htests] at hhdr
  exact hpart hdr (Option.some.inj hhdr) hlen

end Tests

section Recv

variable {charT W α : Type} {K : Kernel} {s : St charT}

/-- What the two `recv` overloads have in common: `empty` is what is returned without a header, and
`last` what is done with the body. -/
def recvFramed (K : Kernel) (A : Abi) (msgf : Int) (empty : α)
    (last : Nat → Option (List UInt8) → M charT α) : M charT α := do
  awaitReadready K "sockbuf::recv"
  match ← input K (.recv msgf) A.sizeofLong with
  | none => throwErrno "sockbuf::recv"
  | some hdr =>
    if hdr.length = 0 then pure empty
    else if hdr.length ≠ A.sizeofLong then throwErrno "sockbuf::recv"
    else do
      let bs ← input K (.recv msgf) (A.size hdr)
      last (A.size hdr) bs

theorem awaitReadready_silent (K : Kernel) (operation : String) (s : St charT) :
    wp (awaitReadready K operation)
      (fun _ s' => ∃ es, s'.sys.history = s.sys.history ++ es ∧ inputs es = [])
      (fun _ s' => ∃ es, s'.sys.history = s.sys.history ++ es ∧ inputs es = []) s := by
  have hsilent : ∀ s', Exchanged [] [] s s' → s.Later s' →
      ∃ es, s'.sys.history = s.sys.history ++ es ∧ inputs es = [] := by
    intro s' h hlater
    obtain ⟨es, hes⟩ := hlater.history
    have hinputs := h.inputs
    unfold St.inputs at hinputs
    rw [← hes, inputs_append] at hinputs
    exact ⟨es, hes.symm, List.append_cancel_left hinputs⟩
  exact ((awaitReadready_spec K operation s).and (within_awaitReadready K operation s)).mono
    (fun _ s' h => hsilent s' h.1 h.2) (fun _ s' h => hsilent s' h.1.2 h.2)

theorem input_asks (call : InCall) (len : Nat) (s : St charT) :
    wp (input K call len)
      (fun r s' => ∃ answer, s'.sys.history = s.sys.history ++ [.input call len answer] ∧
        match r with
        | none => ∃ e, answer = .error e
        | some bs => answer = .ok bs ∧ bs.length ≤ len)
      (fun _ _ => False) s := by
  unfold wp input
  cases K.input s.sys.history call len with
  | ok bs => exact ⟨_, rfl, rfl, bs.2⟩
  | error e => exact ⟨_, rfl, e, rfl⟩

/-- The body is asked for exactly behind a whole header, and as many bytes as this says. -/
theorem recvFramed_spec (K : Kernel) (A : Abi) (msgf : Int) (empty : α)
    (body : Nat → Option (List UInt8) → α) (s : St charT) :
    wp (recvFramed K A msgf empty fun size bs => pure (body size bs))
      (fun r s' => ∃ es, s'.sys.history = s.sys.history ++ es ∧
        (((asks es)[1]? = none ∧ ∀ hdr, ¬ Announces A es hdr) ∨
          ∃ hdr bs, Announces A es hdr ∧ r = body (A.size hdr) bs ∧
            (∀ b, bs = some b → b.length ≤ A.size hdr) ∧ (asks es)[1]? = some (A.size hdr)))
      (fun _ s' => ∃ es, s'.sys.history = s.sys.history ++ es ∧ (asks es)[1]? = none ∧
        ∀ hdr, ¬ Announces A es hdr) s := by
  unfold recvFramed
  rw [wp_bind]
  refine (awaitReadready_silent K "sockbuf::recv" s).mono ?_ ?_
  · intro _ s1 ⟨tests, h1, htests⟩
    rw [wp_bind]
    refine (input_asks (.recv msgf) A.sizeofLong s1).mono ?_ (fun _ _ h => h.elim)
    intro r s2 ⟨answer, h2, hr⟩
    have hhistory : s2.sys.history
        = s.sys.history ++ (tests ++ [.input (.recv msgf) A.sizeofLong answer]) := by
      rw [h2, h1, List.append_assoc]
    cases r with
    | none =>
      obtain ⟨e, rfl⟩ := hr
      exact wp_throwErrno fun _ _ => ⟨_, hhistory, not_announced A htests fun _ h => by cases h⟩
    | some hdr =>
      obtain ⟨rfl, -⟩ := hr
      show wp (if hdr.length = 0 then pure empty else _) _ _ s2
      by_cases hwhole : hdr.length = A.sizeofLong
      · have hfour := A.four_le
        rw [if_neg (by omega), if_neg (not_not.mpr hwhole), wp_bind]
        refine (input_asks (.recv msgf) (A.size hdr) s2).mono ?_ (fun _ _ h => h.elim)
        intro bs s3 ⟨answer, h3, hbs⟩
        refine ⟨tests ++ .input (.recv msgf) A.sizeofLong (.ok hdr) ::
          [.input (.recv msgf) (A.size hdr) answer], ?_,
          .inr ⟨hdr, bs, ⟨inputs_head htests, hwhole⟩, rfl, ?_, asks_second htests⟩⟩
        · rw [h3, hhistory]
          simp
        · rintro b rfl
          exact hbs.2
      · -- an empty answer, or a part of a header
        let es := tests ++ [.input (.recv msgf) A.sizeofLong (.ok hdr)]
        have hnone : (asks es)[1]? = none ∧ ∀ hdr', ¬ Announces A es hdr' :=
          not_announced A htests fun hdr' h => Except.ok.inj h ▸ hwhole
        by_cases hzero : hdr.length = 0
        · rw [if_pos hzero]
          exact ⟨_, hhistory, .inl hnone⟩
        · rw [if_neg hzero, if_pos hwhole]
          exact wp_throwErrno fun _ _ => ⟨_, hhistory, hnone⟩
  · intro e s1 ⟨tests, h1, htests⟩
    refine ⟨tests, h1, ?_, fun hdr ⟨hhdr, _⟩ => ?_⟩
    · rw [asks_nil htests]
      rfl
    · rw [htests] at hhdr
      cases hhdr

/-! ## The room

`resize` makes room for the announced length as it is read into a `size_t`, and the second `::recv`
asks for it as an `int`. -/

/-- What `recv(string&)` returns with the answer of the second `::recv`. -/
def stringBody (buf : List UInt8) (size : Nat) : Option (List UInt8) → Int × List UInt8
  | none => (-1, resize buf size)
  | some bs => (asInt bs.length, bs ++ (resize buf size).drop bs.length)

/-- What `recv(wstring&)` returns with the answer of the second `::recv`. -/
def wstringBody [CharType W] (buf : List W) (size : Nat) : Option (List UInt8) → Int × List W
  | none => (-1, resizeWide buf (size / CharType.sizeof W))
  | some bs => (asInt bs.length, storeWide (resizeWide buf (size / CharType.sizeof W)) bs)

theorem recvString_eq (K : Kernel) (A : Abi) (buf : List UInt8) (msgf : Int) :
    (recvString K A buf msgf : M charT (Int × List UInt8))
      = recvFramed K A msgf (0, buf) fun size bs => pure (stringBody buf size bs) := by
  have hlast : (fun size bs => pure (stringBody buf size bs) :
      Nat → Option (List UInt8) → M charT (Int × List UInt8)) = fun size bs =>
        match bs with
        | none => pure (-1, resize buf size)
        | some bs => pure (asInt bs.length, bs ++ (resize buf size).drop bs.length) := by
    funext size bs
    cases bs <;> rfl
  rw [hlast]
  rfl

theorem recvWstring_eq [CharType W] (K : Kernel) (A : Abi) (buf : List W) (msgf : Int) :
    (recvWstring K A buf msgf : M charT (Int × List W))
      = recvFramed K A msgf (0, buf) fun size bs => pure (wstringBody buf size bs) := by
  have hlast : (fun size bs => pure (wstringBody buf size bs) :
      Nat → Option (List UInt8) → M charT (Int × List W)) = fun size bs =>
        match bs with
        | none => pure (-1, resizeWide buf (size / CharType.sizeof W))
        | some bs => pure (asInt bs.length,
            storeWide (resizeWide buf (size / CharType.sizeof W)) bs) := by
    funext size bs
    cases bs <;> rfl
  rw [hlast]
  rfl

theorem length_resize (buf : List UInt8) (n : Nat) : (resize buf n).length = n := by
  simp only [resize, List.length_append, List.length_take, List.length_replicate]
  omega

theorem length_resizeWide [CharType W] (buf : List W) (n : Nat) :
    (resizeWide buf n).length = n := by
  simp only [resizeWide, List.length_append, List.length_take, List.length_replicate]
  omega

theorem length_stringBody (buf : List UInt8) {size : Nat} {bs : Option (List UInt8)}
    (hbs : ∀ b, bs = some b → b.length ≤ size) : (stringBody buf size bs).2.length = size := by
  cases bs with
  | none => exact length_resize buf size
  | some b =>
    have hle := hbs b rfl
    show (b ++ (resize buf size).drop b.length).length = size
    rw [List.length_append, List.length_drop, length_resize]
    omega

theorem length_wstringBody [CharType W] (buf : List W) (size : Nat) (bs : Option (List UInt8)) :
    (wstringBody buf size bs).2.length = size / CharType.sizeof W := by
  cases bs with
  | none => exact length_resizeWide buf _
  | some b => exact (length_slice _ _ _).trans (length_resizeWide buf _)

/-- **The room for a message.** `recv(string&)` never asks for more than `buf` holds.
`recv(wstring&)` does so exactly if the size in the header, when a whole header was read, is not a
multiple of the size of a character. -/
theorem recv_fits_iff [CharType W] (K : Kernel) (A : Abi) (msgf : Int) (s : St charT) :
    (∀ buf, wp (recvString K A buf msgf)
      (fun r s' => ∃ es, s'.sys.history = s.sys.history ++ es ∧ Fits r.2.length es)
      (fun _ s' => ∃ es, s'.sys.history = s.sys.history ++ es ∧ ∀ held, Fits held es) s) ∧
    (∀ buf : List W, wp (recvWstring K A buf msgf)
      (fun r s' => ∃ es, s'.sys.history = s.sys.history ++ es ∧
        (Fits (r.2.length * CharType.sizeof W) es ↔
          ∀ hdr, Announces A es hdr → CharType.sizeof W ∣ A.size hdr))
      (fun _ s' => ∃ es, s'.sys.history = s.sys.history ++ es ∧ (∀ held, Fits held es) ∧
        ∀ hdr, ¬ Announces A es hdr) s) := by
  constructor
  · intro buf
    rw [recvString_eq]
    refine (recvFramed_spec K A msgf _ _ s).mono ?_
      (fun _ _ ⟨es, hes, hnone, _⟩ => ⟨es, hes, fits_of_none hnone⟩)
    rintro r s' ⟨es, hes, ⟨hnone, -⟩ | ⟨hdr, bs, -, rfl, hbs, hasks⟩⟩
    · exact ⟨es, hes, fits_of_none hnone _⟩
    refine ⟨es, hes, ?_⟩
    rw [fits_iff hasks]
    exact Nat.le_of_eq (length_stringBody buf hbs).symm
  · intro buf
    rw [recvWstring_eq]
    refine (recvFramed_spec K A msgf _ _ s).mono ?_
      (fun _ _ ⟨es, hes, hnone, h⟩ => ⟨es, hes, fits_of_none hnone, h⟩)
    rintro r s' ⟨es, hes, ⟨hnone, hhdr⟩ | ⟨hdr, bs, hhdr, rfl, -, hasks⟩⟩
    · exact ⟨es, hes, iff_of_true (fits_of_none hnone _) fun hdr h => absurd h (hhdr hdr)⟩
    refine ⟨es, hes, ?_⟩
    rw [fits_iff hasks, length_wstringBody, ← Nat.dvd_iff_le_div_mul]
    constructor
    · intro h hdr' hhdr'
      cases Option.some.inj (hhdr.1.symm.trans hhdr'.1)
      exact h
    · exact fun h => h hdr hhdr

/-- A peer that announces five bytes: `buf` has room for one `wchar_t`, and five bytes are stored
there. -/
theorem recv_wstring_overruns :
    let T := Transport.upTo (Abi.lp64.header 5 ++ [1, 2, 3, 4, 5]) 9
    let r := attempt (recvWstring T.toKernel Abi.lp64 ([] : List Wchar) 0)
      (fresh ⟨2, by decide⟩ 3 (fun _ => 0) (fun _ => 0) 0 : St UInt8)
    (r.1.toOption.map fun x => (x.1, x.2.length * CharType.sizeof Wchar)) = some (5, 4) ∧
      asks r.2.sys.history = [8, 5] ∧ ¬ Fits 4 r.2.sys.history := by
  intro T r
  have hasks : asks r.2.sys.history = [8, 5] := by decide +kernel
  refine ⟨by decide +kernel, hasks, fun h => ?_⟩
  have hle : 5 ≤ 4 := h 5 (by rw [hasks]; rfl)
  omega

end Recv

end Sockstream
