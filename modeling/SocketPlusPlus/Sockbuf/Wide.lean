import SocketPlusPlus.Logic.Bytes
import SocketPlusPlus.Sockbuf.Get
import SocketPlusPlus.Sockbuf.Put
import SocketPlusPlus.Transport

/-!
# Wide streams

`basic_sockbuf<wchar_t>` is an explicit instance of the template. The template passes a number of
characters to `write`, which takes bytes, and uses the number of bytes `read` returns as a number
of characters. For a character of more than one byte both are wrong, and they do not cancel out:

* the writer puts as many bytes on the wire as it was given characters (`writeAll_spec`);
* the reader turns every byte it gets into a character, whose other bytes are what the array held
  before (`not_roundTrips`).

The number of characters is thus the only thing that survives. The result is that nothing but the
empty sequence makes a round trip, whatever the transport does.
-/

namespace Sockstream

open Exec Memory

variable {charT : Type} [CharType charT]

/-! ## Writer and reader

The writer stores characters and the kernel is given their bytes; the reader counts the bytes it got
as characters. -/

inductive WidePut (charT : Type) where
  | sputc (c : charT)
  | xsputn (cs : List charT)

omit [CharType charT] in
def WidePut.input : WidePut charT → List charT
  | .sputc c => [c]
  | .xsputn cs => cs

def WidePut.run (K : Kernel) : WidePut charT → M charT Unit
  | .sputc c => do let _ ← Sockstream.sputc K c; pure ()
  | .xsputn cs => do let _ ← Sockstream.xsputn K cs; pure ()

/-- The calls in turn, and a `sync` behind them. -/
def writeAll (K : Kernel) : List (WidePut charT) → M charT Unit
  | [] => do let _ ← sync K; pure ()
  | call :: calls => do call.run K; writeAll K calls

inductive WideGet where
  | uflow
  | xsgetn (n : Nat)

def WideGet.run (K : Kernel) : WideGet → M charT Int
  | .uflow => keep (Sockstream.uflow K)
  | .xsgetn n => Int.ofNat <$> Sockstream.xsgetn K n

/-- The returned value reports the end of the file. -/
def WideGet.atEnd : WideGet → Int → Prop
  | .uflow, r => r = eof
  | .xsgetn n, r => r < n

/-- A peer reading from `T` stays inside its get area, and when it has reached the end of the file
it has read `ws`: for all calls it may make, whatever its arrays contain at first. -/
def RoundTrips (P : Platform) {stream : List UInt8} (T : Transport stream) (ws : List charT) :
    Prop :=
  ∀ (sock : Int) (gbuf pbuf : Nat → charT) (errno : Errno) (calls : List WideGet),
    let s := (runAll (calls.map (WideGet.run T.toKernel)) (fresh P sock gbuf pbuf errno)).2
    s.GetOpen ∧ ∀ call : WideGet, wp (call.run T.toKernel)
      (fun r s' => call.atEnd r → s'.self.copied = ws) (fun _ _ => True) s

/-! ## The writer

`sync` hands `write` the number of characters for the number of bytes. What is sent is a part of
what was stored, and is nothing only if nothing was stored. -/

section Writer

variable {s : St charT}

/-- As many bytes went out as characters left the put area. -/
def St.PutCounted (s : St charT) : Prop :=
  s.PutOpen ∧ s.wire.length + s.self.pending.length = s.self.stored.length

theorem St.PutCounted.of_wrote {cs : List charT} {s' : St charT} (hs : s.PutCounted)
    (h : Wrote cs s s') : s'.PutCounted :=
  ⟨h.putOpen, h.steps.count hs.2⟩

/-- A call that returns has stored its first character at least, if there was none before. -/
theorem WidePut.run_spec (K : Kernel) (call : WidePut charT) (hs : s.PutCounted) :
    wp (call.run K)
      (fun _ s' => s'.PutCounted ∧
        (s'.self.stored = [] ↔ s.self.stored = [] ∧ call.input = []))
      (fun _ _ => True) s := by
  cases call with
  | xsputn cs =>
    unfold run
    rw [wp_bind]
    refine (xsputn_spec K cs hs.1).mono ?_ (fun _ _ _ => trivial)
    rintro r s' ⟨_, h⟩
    refine ⟨hs.of_wrote h, ?_⟩
    rw [h.stored]
    exact List.append_eq_nil_iff
  | sputc c =>
    unfold run
    rw [wp_bind]
    by_cases hc : CharType.toInt c = eof → 0 < s.self.room
    · refine (sputc_spec K hs.1 hc).mono ?_ (fun _ _ _ => trivial)
      rintro r s' ⟨_, h⟩
      refine ⟨hs.of_wrote h, ?_⟩
      rw [h.stored]
      exact List.append_eq_nil_iff
    · -- the character is taken for `eof` at a full put area, which therefore holds something
      obtain ⟨hceof, hroom⟩ : CharType.toInt c = eof ∧ s.self.room = 0 := by
        rw [Classical.not_imp] at hc
        exact ⟨hc.1, by omega⟩
      have hstored : s.self.stored ≠ [] := by
        obtain ⟨⟨p, hput, hle, hpend, hpos⟩, hcount⟩ := hs
        have hlen : s.self.pending.length = p.pptr := by
          simp [Streambuf.pending, hput]
        have hfull : p.epptr - p.pptr = 0 := by
          simpa [Streambuf.room, hput] using hroom
        intro hnil
        rw [hnil, List.length_nil] at hcount
        omega
      have hsync : Sockstream.sputc K c s = sync K s := by
        obtain ⟨p, hput, -⟩ := hs.1
        show (if 0 < s.self.room then _ else overflow K (CharType.toInt c) : M charT Int) s = _
        rw [if_neg (by omega), overflow_of_put K _ hput, if_pos hceof]
      rw [wp_congr hsync]
      refine (sync_spec K hs.1).mono ?_ (fun _ _ _ => trivial)
      rintro r s' ⟨_, h, _⟩
      refine ⟨hs.of_wrote h, ?_⟩
      rw [h.stored, List.append_nil]
      exact ⟨fun hnil => absurd hnil hstored, fun hnil => absurd hnil.1 hstored⟩

/-- Something is on the wire exactly if something was written. -/
theorem writeAll_spec (K : Kernel) (calls : List (WidePut charT)) (hs : s.PutCounted) :
    wp (writeAll K calls)
      (fun _ s' => s'.wire = [] ↔ s.self.stored = [] ∧ calls.flatMap WidePut.input = [])
      (fun _ _ => True) s := by
  induction calls generalizing s with
  | nil =>
    unfold writeAll
    rw [wp_bind]
    refine (sync_spec K hs.1).mono ?_ (fun _ _ _ => trivial)
    intro r s' ⟨_, h, hempty⟩
    have hcount := (hs.of_wrote h).2
    -- nothing is pending, so there are as many bytes on the wire as characters were stored
    rw [hempty, List.length_nil, Nat.add_zero, h.stored, List.append_nil] at hcount
    rw [wp_pure, ← List.length_eq_zero_iff, hcount, List.length_eq_zero_iff]
    simp
  | cons call calls ih =>
    unfold writeAll
    rw [wp_bind]
    refine (call.run_spec K hs).mono ?_ (fun _ _ _ => trivial)
    intro _ s1 ⟨h1, hstored⟩
    refine (ih h1).mono ?_ (fun _ _ _ => trivial)
    intro _ s' hwire
    rw [hwire, hstored, List.flatMap_cons, List.append_eq_nil_iff, and_assoc]

omit [CharType charT] in
theorem putCounted_fresh (P : Platform) (sock : Int) (gbuf pbuf : Nat → charT) (errno : Errno) :
    (fresh P sock gbuf pbuf errno).PutCounted := ⟨putOpen_fresh P sock gbuf pbuf errno, rfl⟩

end Writer

/-! ## A reader with nothing to read

If no byte is sent the get area stays empty: each call that wants more meets the end of the stream.
-/

section Dry

variable {s : St charT} {T : Transport []}

/-- An empty get area, and nothing handed out. -/
structure St.Dry (s : St charT) : Prop where
  area : ∃ g, s.self.get = some g ∧ g.gptr = g.egptr ∧ g.egptr ≤ s.rep.gend
  copied : s.self.copied = []

omit [CharType charT] in
theorem St.Dry.of_exchanged {s' : St charT} {ins : List (Except Errno (List UInt8))} (hs : s.Dry)
    (h : Exchanged [] ins s s') : s'.Dry := by
  obtain ⟨⟨g, hget, hptr, hend⟩, hcopied⟩ := hs
  exact ⟨⟨g, by rw [h.self, hget], hptr, by rw [h.rep]; exact hend⟩, by rw [h.self, hcopied]⟩

theorem underflow_dry (hs : s.Dry) :
    wp (underflow T.toKernel) (fun r s' => r = eof ∧ s'.Dry) (fun _ s' => s'.Dry) s := by
  obtain ⟨g, hget, hptr, -⟩ := hs.area
  have hread := (read_spec T.toKernel (s.rep.gend * CharType.sizeof charT) s).and
    (read_delivers T _ s)
  refine (underflow_read T.toKernel hget (Nat.le_of_eq hptr.symm) hread).mono ?_ ?_
  · intro r s' ⟨bs, s1, ⟨⟨_, h1⟩, hdelivers⟩, hcases⟩
    have hnil : bs = [] := by
      have hprefix := hdelivers.isPrefix
      rw [List.drop_nil] at hprefix
      exact List.prefix_nil.mp hprefix
    rcases hcases with ⟨_, hr, rfl⟩ | ⟨hne, _, _⟩
    · exact ⟨hr, hs.of_exchanged h1⟩
    · exact absurd hnil hne
  · intro e s' ⟨⟨_, ins, _, h1⟩, _⟩
    exact hs.of_exchanged h1

/-- At the end of an empty stream every call finds the end of the file. -/
theorem WideGet.run_dry (call : WideGet) (hs : s.Dry) :
    wp (call.run T.toKernel) (fun _ s' => s'.Dry) (fun _ s' => s'.Dry) s := by
  cases call with
  | uflow =>
    unfold run keep Sockstream.uflow
    rw [wp_bind, wp_bind]
    refine (underflow_dry hs).mono ?_ (fun _ _ h => h)
    intro r s1 ⟨hr, h1⟩
    rw [if_pos hr, wp_pure, wp_bind, wp_modify, if_pos rfl]
    exact h1
  | xsgetn n =>
    have hnone : s.self.unread.length = 0 := by
      obtain ⟨g, hget, hptr, -⟩ := hs.area
      rw [(unread_nil_iff hget).mpr (Nat.le_of_eq hptr.symm), List.length_nil]
    unfold run
    rw [wp_map]
    unfold Sockstream.xsgetn
    by_cases hn : n ≤ s.self.unread.length
    · obtain rfl : n = 0 := Nat.le_zero.mp (hnone ▸ hn)
      rw [wp_xsgetnRec_fits hn, wp_iff_of_ok takeChars_zero]
      exact hs
    · apply wp_xsgetnRec_refill hn
      rw [hnone, wp_iff_of_ok takeChars_zero]
      refine (underflow_dry hs).mono ?_ (fun _ _ h => h)
      intro r s1 ⟨hr, h1⟩
      rw [if_pos hr]
      exact h1

/-- The empty sequence makes the round trip. -/
theorem roundTrips_nil (P : Platform) {stream : List UInt8} (hstream : stream = [])
    (T : Transport stream) : RoundTrips P T ([] : List charT) := by
  subst hstream
  intro sock gbuf pbuf errno calls s
  have hs : s.Dry := by
    apply runAll_invariant
    · intro c hc s' hs'
      obtain ⟨call, -, rfl⟩ := List.mem_map.mp hc
      exact call.run_dry hs'
    · exact ⟨⟨_, rfl, rfl, Nat.le_refl _⟩, rfl⟩
  obtain ⟨g, hget, hptr, hend⟩ := hs.area
  refine ⟨⟨g, hget, Nat.le_of_eq hptr, hend⟩, fun call => ?_⟩
  exact (call.run_dry hs).mono (fun _ _ h _ => h.copied) (fun _ _ _ => trivial)

end Dry

/-! ## A reader of a stream

However many bytes arrive, a read of a few of them makes whole characters up out of what its array
held before. An array can be chosen so that the last character differs from what was sent. -/

section Reader

variable {stream : List UInt8} {s : St charT} {T : Transport stream}

/-- A reader with the settings of a new sockbuf that has got as many characters as bytes. -/
structure St.GetCounted (stream : List UInt8) (s : St charT) : Prop where
  rtmo : s.rep.rtmo = -1
  oob : s.rep.oob = false
  area : ∃ g, s.self.get = some g ∧ g.gptr ≤ g.egptr
  counted : s.self.copied.length + s.self.unread.length = s.received.length
  isPrefix : s.received <+: stream

omit [CharType charT] in
theorem takeChars_counted (hs : s.GetCounted stream) {n : Nat} (hn : n ≤ s.self.unread.length) :
    ∃ s', takeChars n s = .ok () s' ∧ s'.GetCounted stream ∧
      s'.self.copied = s.self.copied ++ s.self.unread.take n ∧
      s'.self.unread = s.self.unread.drop n := by
  obtain ⟨g, hget, hle⟩ := hs.area
  have hunread : s.self.unread = slice g.mem g.gptr (g.egptr - g.gptr) := by
    simp [Streambuf.unread, hget]
  have hbound : n ≤ g.egptr - g.gptr := by simpa [hunread] using hn
  have hcopied : slice g.mem g.gptr n = s.self.unread.take n := by
    rw [hunread, take_slice _ _ hbound]
  have hrest : slice g.mem (g.gptr + n) (g.egptr - (g.gptr + n)) = s.self.unread.drop n := by
    rw [hunread, drop_slice _ _ hbound, Nat.sub_add_eq]
  have hbump : g.gptr + n ≤ g.egptr := by omega
  refine ⟨_, takeChars_of_get n hget, ⟨hs.rtmo, hs.oob, ⟨_, rfl, hbump⟩, ?_, hs.isPrefix⟩,
    by rw [← hcopied], hrest⟩
  show (s.self.copied ++ slice g.mem g.gptr n).length
    + (slice g.mem (g.gptr + n) (g.egptr - (g.gptr + n))).length = s.received.length
  have hcount := hs.counted
  rw [hcopied, hrest, List.length_append, List.length_take_of_le hn, List.length_drop]
  omega

/-- A refill puts the bytes at the front of the array and makes as many characters of them. -/
theorem underflow_fill (hT : T.Lossless) (hs : s.GetCounted stream) {g : GetArea charT}
    (hget : s.self.get = some g) (hempty : g.egptr ≤ g.gptr) :
    wp (underflow T.toKernel)
      (fun r s' => s'.GetCounted stream ∧ s'.self.copied = s.self.copied ∧ ∃ bs,
        Delivers stream s.received.length (s.rep.gend * CharType.sizeof charT) bs ∧
        (bs = [] ∧ r = eof ∨
          r ≠ eof ∧ bs ≠ [] ∧ s'.self.unread = slice (storeBytes g.mem bs) 0 bs.length))
      (fun _ _ => False) s := by
  have hread := ((read_spec T.toKernel (s.rep.gend * CharType.sizeof charT) s).and
    (read_delivers T _ s)).and (read_lossless hT _ hs.rtmo hs.oob)
  refine (underflow_read T.toKernel hget hempty hread).mono ?_ (fun _ _ h => h.2)
  intro r s' ⟨bs, s1, ⟨⟨⟨_, h1⟩, hdelivers⟩, _⟩, hcases⟩
  have hreceived : s1.received = s.received ++ bs := by simpa [answerBytes] using h1.received
  have hnil : s.self.unread = [] := (unread_nil_iff hget).mpr hempty
  have hcount := hs.counted
  rw [hnil, List.length_nil, Nat.add_zero] at hcount
  rcases hcases with ⟨hbs, hr, rfl⟩ | ⟨hbs, hr, rfl⟩
  · -- the end of the stream: only the history has changed
    have hsame : s'.received = s.received := by rw [hreceived, hbs, List.append_nil]
    refine ⟨⟨by rw [h1.rep]; exact hs.rtmo, by rw [h1.rep]; exact hs.oob,
      by rw [h1.self]; exact hs.area, ?_, by rw [hsame]; exact hs.isPrefix⟩, by rw [h1.self],
      bs, hdelivers, .inl ⟨hbs, hr⟩⟩
    rw [h1.self, hsame]
    exact hs.counted
  · -- `bs.length` characters
    have hunread : ∀ b : Streambuf charT,
        ({ b with get := some ⟨storeBytes g.mem bs, 0, bs.length⟩ } : Streambuf charT).unread
          = slice (storeBytes g.mem bs) 0 bs.length := fun b => rfl
    have hne : r ≠ eof := by
      rw [hr]
      show ((CharType.uchar (storeBytes g.mem bs 0)).toNat : Int) ≠ -1
      omega
    refine ⟨⟨by rw [h1.rep]; exact hs.rtmo, by rw [h1.rep]; exact hs.oob,
      ⟨_, rfl, Nat.zero_le _⟩, ?_, ?_⟩, by rw [h1.self], bs, hdelivers,
      .inr ⟨hne, hbs, hunread _⟩⟩
    · show s1.self.copied.length + (slice (storeBytes g.mem bs) 0 bs.length).length
        = s1.received.length
      rw [h1.self, hreceived, List.length_append, length_slice, hcount]
    · show s1.received <+: stream
      rw [hreceived]
      exact hdelivers.received_prefix hs.isPrefix

/-- `xsgetn` hands out what is unread and then as many characters as it gets bytes. Induction on
the fuel. -/
theorem xsgetnRec_counted (hT : T.Lossless) (fuel n : Nat) (hs : s.GetCounted stream)
    (hfuel : n + 2 ≤ fuel ∨ n + 1 ≤ fuel ∧ s.self.unread ≠ []) :
    wp (xsgetnRec T.toKernel fuel n)
      (fun r s' => s'.GetCounted stream ∧ s'.self.copied.length = s.self.copied.length + r ∧
        s.self.copied ++ s.self.unread.take n <+: s'.self.copied)
      (fun _ _ => False) s := by
  induction fuel generalizing n s with
  | zero => omega
  | succ fuel ih =>
    by_cases hfits : n ≤ s.self.unread.length
    · obtain ⟨s1, hs1, h1, hcopied, -⟩ := takeChars_counted hs hfits
      rw [wp_xsgetnRec_fits hfits, wp_iff_of_ok hs1, hcopied]
      refine ⟨h1, ?_, List.prefix_rfl⟩
      rw [List.length_append, List.length_take_of_le hfits]
    -- the unread characters go out, and `underflow` finds an empty area
    obtain ⟨s1, hs1, h1, hcopied, hunread⟩ := takeChars_counted hs (Nat.le_refl _)
    rw [List.take_length] at hcopied
    rw [List.drop_length] at hunread
    apply wp_xsgetnRec_refill hfits
    rw [wp_iff_of_ok hs1]
    obtain ⟨g, hget, -⟩ := h1.area
    refine (underflow_fill hT h1 hget ((unread_nil_iff hget).mp hunread)).mono ?_
      (fun _ _ h => h)
    rintro r s2 ⟨h2, hcopied2, bs, _, hcases⟩
    have hall : s.self.copied ++ s.self.unread.take n = s2.self.copied := by
      rw [List.take_of_length_le (by omega), hcopied2, hcopied]
    have hlen : s2.self.copied.length = s.self.copied.length + s.self.unread.length := by
      rw [hcopied2, hcopied, List.length_append]
    rcases hcases with ⟨_, heof⟩ | ⟨heof, hbs, hfilled⟩
    · -- the end of the file
      rw [if_pos heof, hall]
      exact ⟨h2, hlen, List.prefix_rfl⟩
    · rw [if_neg heof]
      have hsome : s2.self.unread ≠ [] := by
        intro hnil
        have hzero := congrArg List.length (hfilled.symm.trans hnil)
        rw [length_slice] at hzero
        exact hbs (List.length_eq_zero_iff.mp hzero)
      refine (ih (n - s.self.unread.length) h2
        (.inr ⟨xsgetn_fuel hfuel hfits, hsome⟩)).mono ?_ (fun _ _ h => h)
      rintro rest s3 ⟨h3, hlen3, hprefix⟩
      refine ⟨h3, by omega, ?_⟩
      rw [hall]
      exact (List.prefix_append _ _).trans hprefix

/-- A character that differs from `c` in every byte. -/
def spoil (c : charT) : charT := CharType.repr.symm fun j => CharType.repr c j + 1

/-- The array of `wchar_t` the allocator may have returned, for a peer that is to read `ws`. -/
def stale (ws : List charT) : Nat → charT := fun i =>
  match ws[i]? with
  | some c => spoil c
  | none => CharType.repr.symm fun _ => 0

/-- Of `k` characters made of `k` bytes the last one keeps a byte of the old array. -/
theorem storeBytes_last (hwide : 1 < CharType.sizeof charT) (m : Nat → charT) (bs : List UInt8)
    (hbs : bs ≠ []) (j : Fin (CharType.sizeof charT)) (hj : j.val = CharType.sizeof charT - 1) :
    CharType.repr (storeBytes m bs (bs.length - 1)) j = CharType.repr (m (bs.length - 1)) j := by
  have hpos := List.length_pos_iff.mpr hbs
  have hpast : bs.length ≤ (bs.length - 1) * CharType.sizeof charT + j.val := by
    have hmul : (bs.length - 1) * 2 ≤ (bs.length - 1) * CharType.sizeof charT :=
      Nat.mul_le_mul_left _ hwide
    omega
  unfold storeBytes
  rw [Equiv.apply_symm_apply, List.getElem?_eq_none hpast, Option.getD_none]

theorem add_one_ne (b : UInt8) : b + 1 ≠ b := by
  intro h
  have hone : b + 1 = b + 0 := by rw [h, UInt8.add_zero]
  exact absurd ((UInt8.add_right_inj b).mp hone) (by decide)

/-- One `xsgetn` for more characters than there are bytes reads to the end of the file, and the
first chunk is the first thing it hands out. -/
theorem xsgetn_to_end (P : Platform) (hT : T.Lossless) (hne : stream ≠ [])
    (gbuf : Nat → charT) :
    wp (xsgetn T.toKernel (stream.length + 1))
      (fun r s' => s'.self.copied.length ≤ stream.length ∧ s'.self.copied.length = r ∧ ∃ bs,
        bs ≠ [] ∧ slice (storeBytes gbuf bs) 0 bs.length <+: s'.self.copied)
      (fun _ _ => False) (fresh P 0 gbuf gbuf 0) := by
  have hempty : (fresh P 0 gbuf gbuf 0).self.unread = [] := by
    simp [fresh, Streambuf.init, Streambuf.unread]
  have hs0 : (fresh P 0 gbuf gbuf 0).GetCounted stream :=
    ⟨rfl, rfl, ⟨_, rfl, Nat.le_refl _⟩, by rw [hempty]; rfl, List.nil_prefix⟩
  have hnone : ¬ stream.length + 1 ≤ (fresh P 0 gbuf gbuf 0).self.unread.length := by
    rw [hempty]
    exact Nat.not_succ_le_zero stream.length
  unfold xsgetn
  apply wp_xsgetnRec_refill hnone
  rw [hempty, List.length_nil, wp_iff_of_ok takeChars_zero]
  refine (underflow_fill hT hs0 rfl (Nat.le_refl _)).mono ?_ (fun _ _ h => h)
  rintro c s1 ⟨h1, hcopied, bs, hdelivers, hcases⟩
  have hcopied0 : s1.self.copied = [] := hcopied
  have hbs : bs ≠ [] := by
    intro hnil
    rcases hdelivers.progress hnil with hzero | hend
    · have hroom := Nat.mul_pos P.BUFSIZ_pos (CharType.sizeof_pos : 0 < CharType.sizeof charT)
      exact absurd hzero (Nat.ne_of_gt hroom)
    · exact hne (List.length_eq_zero_iff.mp (Nat.le_zero.mp hend))
  rcases hcases with ⟨hnil, _⟩ | ⟨hc, _, hfilled⟩
  · exact absurd hnil hbs
  -- there are characters now, at most as many as bytes in the stream
  have hlen : s1.self.unread.length = bs.length := by rw [hfilled, length_slice]
  have hbytes : bs.length ≤ stream.length := by
    have hcount := h1.counted
    have hle := h1.isPrefix.length_le
    rw [hcopied0, hlen, List.length_nil] at hcount
    omega
  have hsome : s1.self.unread ≠ [] := by
    intro hnil
    rw [hnil, List.length_nil] at hlen
    exact hbs (List.length_eq_zero_iff.mp hlen.symm)
  rw [if_neg hc]
  refine (xsgetnRec_counted hT _ _ h1 (.inr ⟨by omega, hsome⟩)).mono ?_ (fun _ _ h => h)
  rintro rest s2 ⟨h2, hlen2, hprefix⟩
  have hcount2 := h2.counted
  have hle2 := h2.isPrefix.length_le
  refine ⟨by omega, by rw [hlen2, hcopied0]; rfl, bs, hbs, ?_⟩
  rw [hcopied0, List.nil_append, List.take_of_length_le (by omega), hfilled] at hprefix
  exact hprefix

/-- However a nonempty stream arrives, there are arrays from which no sequence is read back: the
last character of the first chunk is not the one expected. -/
theorem not_roundTrips (hwide : 1 < CharType.sizeof charT) (P : Platform) (hT : T.Lossless)
    (hne : stream ≠ []) (ws : List charT) : ¬ RoundTrips P T ws := by
  intro hround
  have hcall := (hround 0 (stale ws) (stale ws) 0 []).2 (.xsgetn (stream.length + 1))
  have hread := (xsgetn_to_end P hT hne (stale ws)).and (wp_map.mp hcall)
  obtain ⟨r, s', -, ⟨hlen, hr, bs, hbs, hprefix⟩, hend⟩ :=
    (hread.mono (fun _ _ h => h) (fun _ _ h => h.1)).exists_ok
  have hws : s'.self.copied = ws := hend (by
    show (r : Int) < ((stream.length + 1 : Nat) : Int)
    omega)
  rw [hws] at hprefix
  -- character `bs.length - 1`: what was read is what `ws` has there
  have hlast : ws[bs.length - 1]? = some (storeBytes (stale ws) bs (bs.length - 1)) := by
    have hpos := List.length_pos_iff.mpr hbs
    have hget := getElem?_slice (storeBytes (stale ws) bs) 0
      (show bs.length - 1 < bs.length from by omega)
    obtain ⟨later, hlater⟩ := hprefix
    have happend : (slice (storeBytes (stale ws) bs) 0 bs.length ++ later)[bs.length - 1]?
        = (slice (storeBytes (stale ws) bs) 0 bs.length)[bs.length - 1]? :=
      List.getElem?_append_left (by rw [length_slice]; omega)
    rw [hlater] at happend
    rw [happend, hget, Nat.zero_add]
  -- but its last byte is the one the array held before, which was chosen to differ
  have hstale : stale ws (bs.length - 1)
      = spoil (storeBytes (stale ws) bs (bs.length - 1)) := by
    conv_lhs => unfold stale
    rw [hlast]
  let j : Fin (CharType.sizeof charT) := ⟨CharType.sizeof charT - 1, by omega⟩
  have hkept := storeBytes_last hwide (stale ws) bs hbs j rfl
  have hspoilt : CharType.repr (stale ws (bs.length - 1)) j
      = CharType.repr (storeBytes (stale ws) bs (bs.length - 1)) j + 1 := by
    conv_lhs => rw [hstale, spoil, Equiv.apply_symm_apply]
  exact add_one_ne _ (hspoilt.symm.trans hkept.symm)

end Reader

/-! ## The result -/

/-- **When wide streams round-trip.** Let a new sockbuf of a character type wider than a byte be
written to and flushed without an exception, by whatever calls and through whatever kernel. A peer
that reads the bytes sent through a lossless transport gets back what was written, from whatever
arrays it starts, if and only if nothing was written. -/
theorem wide_round_trip_iff (hwide : 1 < CharType.sizeof charT) (P : Platform) (K : Kernel)
    (sock : Int) (gbuf pbuf : Nat → charT) (errno : Errno) (calls : List (WidePut charT)) :
    wp (writeAll K calls)
      (fun _ s' => ∀ T : Transport s'.wire, T.Lossless →
        (RoundTrips P T (calls.flatMap WidePut.input) ↔ calls.flatMap WidePut.input = []))
      (fun _ _ => True) (fresh P sock gbuf pbuf errno) := by
  refine (writeAll_spec K calls (putCounted_fresh P sock gbuf pbuf errno)).mono ?_
    (fun _ _ h => h)
  intro _ s' hwire T hT
  have hwritten : s'.wire = [] ↔ calls.flatMap WidePut.input = [] := by
    rw [hwire]
    exact and_iff_right rfl
  constructor
  · intro hround
    by_contra hne
    exact not_roundTrips hwide P hT (fun h => hne (hwritten.mp h)) _ hround
  · intro hnil
    rw [hnil]
    exact roundTrips_nil P (hwritten.mpr hnil) T

/-! ## A `wchar_t` of four bytes -/

/-- A 32-bit `wchar_t` as it lies in memory, lowest byte first. -/
structure Wchar where
  b0 : UInt8
  b1 : UInt8
  b2 : UInt8
  b3 : UInt8
deriving DecidableEq, Repr

def Wchar.bytes (c : Wchar) : List UInt8 := [c.b0, c.b1, c.b2, c.b3]

def Wchar.ofBytes : List UInt8 → Wchar
  | [b0, b1, b2, b3] => ⟨b0, b1, b2, b3⟩
  | _ => ⟨0, 0, 0, 0⟩

/-- The value is signed; `eof` is the character whose bits are all set. -/
def Wchar.toInt (c : Wchar) : Int := (Bytes.value c.bytes : Int).bmod (2 ^ 32)

def Wchar.ofInt (i : Int) : Wchar := .ofBytes (Bytes.digits 4 (i % 2 ^ 32).toNat)

theorem Wchar.ofInt_toInt (c : Wchar) : Wchar.ofInt c.toInt = c := by
  have hlt : Bytes.value c.bytes < 256 ^ 4 := Bytes.value_lt c.bytes
  have hmod : c.toInt % 2 ^ 32 = Bytes.value c.bytes := by
    show (Bytes.value c.bytes : Int).bmod (2 ^ 32) % ((2 ^ 32 : Nat) : Int) = _
    rw [Int.bmod_emod]
    omega
  unfold ofInt
  rw [hmod, Int.toNat_natCast]
  have hback : Bytes.digits 4 (Bytes.value c.bytes) = c.bytes := Bytes.digits_value c.bytes
  rw [hback]
  rfl

theorem Wchar.sizeof_pos : 0 < 4 := by decide

instance : CharType Wchar where
  sizeof := 4
  sizeof_pos := Wchar.sizeof_pos
  repr := {
    toFun := fun c j => match j with
      | 0 => c.b0
      | 1 => c.b1
      | 2 => c.b2
      | 3 => c.b3
    invFun := fun f => ⟨f 0, f 1, f 2, f 3⟩
    left_inv := fun _ => rfl
    right_inv := fun f => funext fun j => by
      match j with
      | 0 => rfl
      | 1 => rfl
      | 2 => rfl
      | 3 => rfl }
  toInt := Wchar.toInt
  ofInt := Wchar.ofInt
  uchar c := c.b0
  ofInt_toInt := Wchar.ofInt_toInt

/-- `L"A"` does not make the round trip, and writing nothing does. -/
theorem wide_round_trip_iff_letter :
    wp (writeAll Kernel.sink [WidePut.xsputn [(⟨0x41, 0, 0, 0⟩ : Wchar)]])
      (fun _ s' => ∀ T : Transport s'.wire, T.Lossless →
        ¬ RoundTrips ⟨2, by decide⟩ T [(⟨0x41, 0, 0, 0⟩ : Wchar)])
      (fun _ _ => True)
      (fresh ⟨2, by decide⟩ 3 (fun _ => ⟨0, 0, 0, 0⟩) (fun _ => ⟨0, 0, 0, 0⟩) 0) ∧
    wp (writeAll Kernel.sink ([] : List (WidePut Wchar)))
      (fun _ s' => ∀ T : Transport s'.wire, T.Lossless →
        RoundTrips ⟨2, by decide⟩ T ([] : List Wchar))
      (fun _ _ => True)
      (fresh ⟨2, by decide⟩ 3 (fun _ => ⟨0, 0, 0, 0⟩) (fun _ => ⟨0, 0, 0, 0⟩) 0) := by
  have hall := fun calls : List (WidePut Wchar) =>
    wide_round_trip_iff (by decide) ⟨2, by decide⟩ Kernel.sink 3 (fun _ => ⟨0, 0, 0, 0⟩)
      (fun _ => ⟨0, 0, 0, 0⟩) 0 calls
  constructor
  · refine (hall [.xsputn [⟨0x41, 0, 0, 0⟩]]).mono ?_ (fun _ _ h => h)
    intro _ s' h T hT hround
    cases (h T hT).mp hround
  · refine (hall []).mono ?_ (fun _ _ h => h)
    exact fun _ s' h T hT => (h T hT).mpr rfl

/-- `L"A"` puts one byte on the wire, and a reader whose array held other characters reads one
character that is not `L'A'`. -/
theorem wide_loses_bytes :
    (attempt (writeAll Kernel.sink [WidePut.xsputn [(⟨0x41, 0, 0, 0⟩ : Wchar)]])
      (fresh ⟨2, by decide⟩ 3 (fun _ => ⟨0, 0, 0, 0⟩) (fun _ => ⟨0, 0, 0, 0⟩) 0)).2.wire = [0x41] ∧
    ¬ RoundTrips ⟨2, by decide⟩ (Transport.upTo [0x41] 0) [(⟨0x41, 0, 0, 0⟩ : Wchar)] := by
  refine ⟨by decide +kernel, fun hround => ?_⟩
  let gbuf : Nat → Wchar := fun _ => ⟨1, 2, 3, 4⟩
  let s : St Wchar := fresh ⟨2, by decide⟩ 3 gbuf gbuf 0
  let T := Transport.upTo [0x41] 0
  have hresult : (attempt ((WideGet.xsgetn 2).run T.toKernel) s).1 = .ok 1 := by decide +kernel
  have hcopied : (attempt ((WideGet.xsgetn 2).run T.toKernel) s).2.self.copied
      = [⟨0x41, 2, 3, 4⟩] := by decide +kernel
  have hread := ((hround 3 gbuf gbuf 0 []).2 (.xsgetn 2)).of_ok (of_attempt_ok hresult)
  exact absurd (hcopied.symm.trans (hread (show (1 : Int) < 2 by decide))) (by decide)

end Sockstream
