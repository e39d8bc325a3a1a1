import Mathlib.Data.List.Forall2
import SocketPlusPlus.Sockbuf.Get
import SocketPlusPlus.Sockbuf.Message

/-!
# What `howmanyc` promises

`howmanyc` adds up what is unread in the get area and what `FIONREAD` finds in the receive buffer of
the socket. Who then takes no more characters than that need not wait: every `::read` the members
make finds a byte, so none times out, none meets the end of the file and none fails
(`howmanyc_promise`). The argument is a reserve that no call overdraws (`St.reserve`): a `::read`
moves bytes from the receive buffer to the get area, and only handing out a character takes from
both.

`FIONREAD` stores an `int`, and `nread` hands it a `long` that was never initialised. Which values
the `long` then has is `nread_exact_iff`.
-/

namespace Sockstream

open Exec Memory Bytes

/-! ## `nread` and `howmanyc` -/

/-- A count that fits an `int`. -/
abbrev Count := { n : Nat // n < 2 ^ 31 }

/-- A `long`, from its bytes. -/
def Abi.long (A : Abi) (bs : List UInt8) : Int := (A.endian.decode bs : Int).bmod (256 ^ A.sizeofLong)

/-- `nread()`: `::ioctl(rep->sock, FIONREAD, &arg)` overwrites the first four of the `old` bytes of
`arg`. -/
def nread {charT : Type} (A : Abi) (fionread : List Event → Except Errno Count) (old : List UInt8) :
    M charT Int := fun s =>
  match fionread s.sys.history with
  | .ok n => .ok (A.long (A.endian.encode 4 n ++ old.drop 4)) s
  | .error e => throwErrno "sockbuf::nread" { s with sys := { s.sys with errno := e } }

/-- `howmanyc()` -/
def howmanyc {charT : Type} (A : Abi) (fionread : List Event → Except Errno Count)
    (old : List UInt8) : M charT Int := do
  let n := (← get).self.showmanyc
  let m ← nread A fionread old
  pure (n + m)

/-- The bytes of the `long` that `FIONREAD` does not store leave the count as it is. -/
def Abi.Spares (A : Abi) (old : List UInt8) (n : Nat) : Prop :=
  A.sizeofLong = 4 ∨ A.endian.decode (old.drop 4) = 0 ∧ (A.endian = .little ∨ n = 0)

section Nread

variable {charT : Type} {A : Abi} {old : List UInt8} {n : Nat}

/-- The four bytes of the count, with `rest` in the higher or in the lower places. -/
theorem decode_stored_iff (e : Endian) (rest : List UInt8) (hn : n < 2 ^ 31) :
    e.decode (e.encode 4 n ++ rest) = n ↔
      rest = [] ∨ e.decode rest = 0 ∧ (e = .little ∨ n = 0) := by
  have hfits : n < 256 ^ 4 := Nat.lt_trans hn (by decide)
  cases e with
  | little =>
    have hvalue : Endian.little.decode (Endian.little.encode 4 n ++ rest) = n + 256 ^ 4 * value rest := by
      show value (digits 4 n ++ rest) = _
      rw [value_append, value_digits hfits, length_digits]
    rw [hvalue]
    constructor
    · intro h
      exact .inr ⟨show value rest = 0 by omega, .inl rfl⟩
    · rintro (rfl | ⟨hzero, -⟩)
      · rfl
      · rw [show value rest = 0 from hzero]
        omega
  | big =>
    have hvalue : Endian.big.decode (Endian.big.encode 4 n ++ rest)
        = Endian.big.decode rest + 256 ^ rest.length * n := by
      show value ((digits 4 n).reverse ++ rest).reverse = value rest.reverse + _
      rw [List.reverse_append, List.reverse_reverse, value_append, value_digits hfits,
        List.length_reverse]
    rw [hvalue]
    cases rest with
    | nil =>
      have hzero : Endian.big.decode [] = 0 := rfl
      simp [hzero]
    | cons b bs =>
      have hpow : n ≤ 256 ^ bs.length * n := Nat.le_mul_of_pos_left n (Nat.pow_pos (by decide))
      have hmul : 256 ^ (b :: bs).length * n = 256 * (256 ^ bs.length * n) := by
        rw [List.length_cons, Nat.pow_succ', Nat.mul_assoc]
      rw [hmul]
      simp only [reduceCtorEq, false_or]
      constructor
      · intro h
        omega
      · intro ⟨hzero, hn0⟩
        subst hn0
        omega

theorem Abi.long_stored_iff (hold : old.length = A.sizeofLong) (hn : n < 2 ^ 31) :
    A.long (A.endian.encode 4 n ++ old.drop 4) = n ↔ A.Spares old n := by
  have hfour := A.four_le
  have hlength : (A.endian.encode 4 n ++ old.drop 4).length = A.sizeofLong := by
    simp only [List.length_append, Endian.length_encode, List.length_drop]
    omega
  have hlt := A.endian.decode_lt (A.endian.encode 4 n ++ old.drop 4)
  rw [hlength] at hlt
  have hwide : 2 ^ 32 ≤ 256 ^ A.sizeofLong :=
    Nat.le_trans (by decide) (Nat.pow_le_pow_right (by decide) hfour)
  have hlong : A.long (A.endian.encode 4 n ++ old.drop 4) = n ↔
      A.endian.decode (A.endian.encode 4 n ++ old.drop 4) = n := by
    unfold Abi.long
    generalize A.endian.decode (A.endian.encode 4 n ++ old.drop 4) = v at hlt ⊢
    generalize 256 ^ A.sizeofLong = m at hlt hwide ⊢
    have hmod : (v : Int) % m = v := Int.emod_eq_of_lt (by omega) (by omega)
    rw [Int.bmod_def, hmod]
    split <;> omega
  have hrest : old.drop 4 = [] ↔ A.sizeofLong = 4 := by
    rw [List.drop_eq_nil_iff]
    omega
  rw [hlong, decode_stored_iff A.endian _ hn, hrest]
  exact Iff.rfl

end Nread

/-! ## The receive buffer

A kernel that keeps what has arrived until it is read. A call has not waited if the buffer had a
byte at each of its `::read`. -/

/-- A kernel that keeps what arrived in a buffer: `pending` bytes are in it, `FIONREAD` counts no
more than these, and only an input call takes any out. As long as there are some, `select` reports
the socket readable and a `::read` brings at least one. -/
structure Buffered (K : Kernel) where
  pending : List Event → Nat
  fionread : List Event → Except Errno Count
  counts : ∀ h n, fionread h = .ok n → n.1 ≤ pending h
  stays : ∀ h e, pending h ≤ pending (h ++ [e]) + (received [e]).length
  ready : ∀ h sec, 0 < pending h → K.readready h sec = .ok true
  hands : ∀ h len, 0 < pending h → 0 < len → ∃ bs, K.input h .read len = .ok bs ∧ bs.1 ≠ []

/-- Every input call of `es`, made after `h`, found a byte in the receive buffer. -/
def Buffered.Prompt {K : Kernel} (B : Buffered K) : List Event → List Event → Prop
  | _, [] => True
  | h, e :: es => (e.answer? ≠ none → 0 < B.pending h) ∧ B.Prompt (h ++ [e]) es

section Buffer

variable {charT : Type} {K : Kernel} {s s' s'' : St charT}

theorem Buffered.stays_append (B : Buffered K) (h es : List Event) :
    B.pending h ≤ B.pending (h ++ es) + (received es).length := by
  induction es generalizing h with
  | nil => simp
  | cons e es ih =>
    have hone := B.stays h e
    have hrest := ih (h ++ [e])
    have hsplit : received (e :: es) = received [e] ++ received es := received_append [e] es
    rw [List.append_assoc, List.singleton_append] at hrest
    rw [hsplit, List.length_append]
    omega

theorem Buffered.Prompt.append {B : Buffered K} {h es es' : List Event} (hes : B.Prompt h es)
    (hes' : B.Prompt (h ++ es) es') : B.Prompt h (es ++ es') := by
  induction es generalizing h with
  | nil => simpa using hes'
  | cons e es ih =>
    refine ⟨hes.1, ih hes.2 ?_⟩
    rwa [List.append_assoc, List.singleton_append]

/-- From `s` to `s'` no input call had to wait. -/
def St.Unwaiting (B : Buffered K) (s s' : St charT) : Prop :=
  ∃ es, s'.sys.history = s.sys.history ++ es ∧ B.Prompt s.sys.history es

theorem St.Unwaiting.of_history {B : Buffered K} (h : s'.sys.history = s.sys.history) :
    s.Unwaiting B s' := ⟨[], by simp [h], trivial⟩

theorem St.Unwaiting.trans {B : Buffered K} (h : s.Unwaiting B s') (h' : s'.Unwaiting B s'') :
    s.Unwaiting B s'' := by
  obtain ⟨es, hes, hprompt⟩ := h
  obtain ⟨es', hes', hprompt'⟩ := h'
  rw [hes] at hprompt'
  exact ⟨es ++ es', by rw [hes', hes, List.append_assoc], hprompt.append hprompt'⟩

/-- The test before a `::read` is passed: the socket is readable, and no mark is asked for. -/
theorem awaitReadready_buffered (B : Buffered K) (operation : String)
    (hpending : 0 < B.pending s.sys.history) (hoob : s.rep.oob = false) :
    wp (awaitReadready K operation)
      (fun _ s' => s.Unwaiting B s' ∧ 0 < B.pending s'.sys.history) (fun _ _ => False) s := by
  have hmark : ∀ s1 : St charT, (if s.rep.oob then atmark K else pure false : M charT Bool) s1
      = .ok false s1 := fun s1 => by rw [hoob]; rfl
  unfold awaitReadready
  rw [wp_bind, wp_get, wp_bind]
  by_cases hrtmo : s.rep.rtmo = -1
  · rw [if_neg (by simpa using hrtmo), wp_pure, if_pos rfl, wp_bind_of_ok (hmark s)]
    exact ⟨.of_history rfl, hpending⟩
  · rw [if_pos hrtmo]
    refine (query_answers _ _ _ s).mono ?_ ?_
    · intro b s1 ⟨hb, _, hhistory⟩
      have htrue : b = true := Except.ok.inj (hb.symm.trans (B.ready _ _ hpending))
      have hstays := B.stays s.sys.history (.readready s.rep.rtmo (.ok b))
      rw [hb] at hhistory
      rw [if_pos htrue, wp_bind_of_ok (hmark s1)]
      refine ⟨⟨_, hhistory, fun hinput => absurd rfl hinput, trivial⟩, ?_⟩
      rw [hhistory]
      exact Nat.lt_of_lt_of_le hpending hstays
    · intro e s1 ⟨err, herr, _⟩
      rw [B.ready _ _ hpending] at herr
      cases herr

/-- While a byte is in the receive buffer, `read` brings one at once. -/
theorem read_buffered (B : Buffered K) {len : Nat} (hlen : 0 < len)
    (hpending : 0 < B.pending s.sys.history) (hoob : s.rep.oob = false) :
    wp (read K len) (fun bs s' => bs ≠ [] ∧ s.Unwaiting B s') (fun _ _ => False) s := by
  unfold read
  rw [wp_bind]
  refine (awaitReadready_buffered B _ hpending hoob).mono ?_ fun _ _ h => h
  intro _ s1 ⟨h1, hpending1⟩
  obtain ⟨bs, hbs, hne⟩ := B.hands s1.sys.history len hpending1 hlen
  have hinput : input K .read len s1
      = .ok (some bs.1) { s1 with sys := s1.sys.record (.input .read len (.ok bs)) } := by
    unfold input
    rw [hbs]
  rw [wp_bind_of_ok hinput]
  exact ⟨hne, h1.trans ⟨_, rfl, fun _ => hpending1, trivial⟩⟩

end Buffer

/-! ## The reserve

What is unread and what is in the receive buffer, together. A call takes no more from it than it
hands out. -/

/-- The bytes a reader can count on: the unread ones and those in the receive buffer. -/
def St.reserve {K : Kernel} (B : Buffered K) (s : St UInt8) : Nat :=
  s.self.unread.length + B.pending s.sys.history

/-- What a member does that finds all it needs: it consumes `cs`, at once. -/
structure Supplied {K : Kernel} (B : Buffered K) (cs : List UInt8) (s s' : St UInt8) : Prop where
  took : Took cs s s'
  unwaiting : s.Unwaiting B s'

section Reserve

variable {K : Kernel} {B : Buffered K} {s s' s'' : St UInt8} {cs ds : List UInt8}

theorem Supplied.trans (h : Supplied B cs s s') (h' : Supplied B ds s' s'') :
    Supplied B (cs ++ ds) s s'' :=
  ⟨h.took.trans h'.took, h.unwaiting.trans h'.unwaiting⟩

/-- Only what is handed out is gone from the reserve. -/
theorem Supplied.reserve_le (h : Supplied B cs s s') : s.reserve B ≤ cs.length + s'.reserve B := by
  obtain ⟨ins, hins, hconsumed⟩ := h.took.consumed
  obtain ⟨es, hes, -⟩ := h.unwaiting
  have hreceived : ins.flatMap answerBytes = received es := by
    have hall : s'.inputs = s.inputs ++ Sockstream.inputs es := by
      simp [St.inputs, hes, Sockstream.inputs, List.filterMap_append]
    rw [List.append_cancel_left (hins.symm.trans hall), received]
  have hstays := B.stays_append s.sys.history es
  have hlength := congrArg List.length hconsumed
  rw [hreceived, List.length_append, List.length_append] at hlength
  unfold St.reserve
  rw [hes]
  omega

/-- `underflow` finds a byte wherever there is one. -/
theorem underflow_supplied (hs : s.GetOpen) (hgend : 0 < s.rep.gend) (hoob : s.rep.oob = false)
    (hreserve : 0 < s.reserve B) :
    wp (underflow K) (fun r s' => Supplied B [] s s' ∧ s'.self.copied = s.self.copied ∧
      r = peek s'.self.unread ∧ s'.self.unread ≠ []) (fun _ _ => False) s := by
  have hfinds : wp (underflow K) (fun r s' => s.Unwaiting B s' ∧ r ≠ eof) (fun _ _ => False) s := by
    cases hunread : s.self.unread with
    | nil =>
      obtain ⟨g, hget, -, -⟩ := hs
      have hpending : 0 < B.pending s.sys.history := by
        simpa [St.reserve, hunread] using hreserve
      have hlen : 0 < s.rep.gend * CharType.sizeof UInt8 := Nat.mul_pos hgend CharType.sizeof_pos
      refine (underflow_read K hget ((unread_nil_iff hget).mp hunread)
        (read_buffered B hlen hpending hoob)).mono ?_ fun _ _ h => h
      rintro r s' ⟨bs, s1, ⟨hbs, h1⟩, ⟨hnil, -⟩ | ⟨-, rfl, rfl⟩⟩
      · exact absurd hnil hbs
      · exact ⟨h1, toInt_ne_eof _⟩
    | cons c rest =>
      rw [wp_iff_of_ok (underflow_of_unread K hunread)]
      exact ⟨.of_history rfl, toInt_ne_eof c⟩
  refine ((underflow_spec K hs).and hfinds).mono ?_ fun _ _ h => h.2
  intro r s' ⟨⟨htook, hcopied, hr, _⟩, hprompt, hne⟩
  exact ⟨⟨htook, hprompt⟩, hcopied, hr, fun hnil => hne (hr.trans (peek_eq_eof.mpr hnil))⟩

/-- Moving the pointer asks nobody. -/
theorem gbump_supplied {c : UInt8} (hs : s.GetOpen) (hc : s.self.unread = c :: cs) :
    wp (gbump 1) (fun _ s' => Supplied B [c] s s') (fun _ _ => False) s := by
  have hquiet : Within (fun s s' : St UInt8 => s'.sys = s.sys) (gbump 1) :=
    within_gbump_of (fun _ _ => rfl) 1
  refine ((gbump_spec hs hc).and (hquiet s)).mono ?_ fun _ _ h => h.1
  intro _ s' ⟨⟨htook, _⟩, hsys⟩
  exact ⟨htook, .of_history (by rw [hsys])⟩

theorem takeChars_supplied {n : Nat} (hs : s.GetOpen) (hn : n ≤ s.self.unread.length) :
    wp (takeChars n) (fun _ s' => Supplied B (s.self.unread.take n) s s' ∧
      s'.self.unread = s.self.unread.drop n) (fun _ _ => False) s := by
  obtain ⟨g, hget, -⟩ := id hs
  have hspec := takeChars_spec (E := fun _ _ => False) hs hn
  have hrun := takeChars_of_get n hget
  rw [wp_iff_of_ok hrun] at hspec ⊢
  exact ⟨⟨hspec.1, .of_history rfl⟩, hspec.2.2⟩

theorem uflow_supplied (hs : s.GetOpen) (hgend : 0 < s.rep.gend) (hoob : s.rep.oob = false)
    (hreserve : 0 < s.reserve B) :
    wp (uflow K) (fun r s' => ∃ c : UInt8, r = c.toNat ∧ Supplied B [c] s s') (fun _ _ => False)
      s := by
  unfold uflow
  rw [wp_bind]
  refine (underflow_supplied hs hgend hoob hreserve).mono ?_ fun _ _ h => h
  intro r s1 ⟨h1, _, hr, hne⟩
  obtain ⟨c, rest, hunread⟩ := List.exists_cons_of_ne_nil hne
  have hchar : r = c.toNat := by rw [hr, hunread]; rfl
  have hnot : r ≠ eof := by
    rw [hchar]
    exact toInt_ne_eof c
  rw [if_neg hnot, wp_bind]
  refine (gbump_supplied (B := B) h1.took.getOpen hunread).mono ?_ fun _ _ h => h
  exact fun _ s2 h2 => ⟨c, hchar, h1.trans h2⟩

theorem sbumpc_supplied (hs : s.GetOpen) (hgend : 0 < s.rep.gend) (hoob : s.rep.oob = false)
    (hreserve : 0 < s.reserve B) :
    wp (sbumpc K) (fun r s' => ∃ c : UInt8, r = c.toNat ∧ Supplied B [c] s s') (fun _ _ => False)
      s := by
  obtain ⟨g, hget, -, -⟩ := id hs
  rw [wp_congr (sbumpc_of_get K hget)]
  by_cases hlt : g.gptr < g.egptr
  · have hne : s.self.unread ≠ [] := fun hnil =>
      absurd ((unread_nil_iff hget).mp hnil) (Nat.not_le.mpr hlt)
    obtain ⟨c, rest, hunread⟩ := List.exists_cons_of_ne_nil hne
    obtain ⟨g', hget', -, hhead, -⟩ := exists_of_unread hunread
    obtain rfl : g = g' := Option.some.inj (hget.symm.trans hget')
    rw [if_pos hlt, wp_bind]
    refine (gbump_supplied (B := B) hs hunread).mono ?_ fun _ _ h => h
    intro _ s1 h1
    exact ⟨c, congrArg (fun b : UInt8 => (b.toNat : Int)) hhead, h1⟩
  · rw [if_neg hlt]
    exact uflow_supplied hs hgend hoob hreserve

/-- Induction on the fuel, as for `xsgetnRec_spec`. -/
theorem xsgetnRec_supplied (fuel n : Nat) (hs : s.GetOpen) (hgend : 0 < s.rep.gend)
    (hoob : s.rep.oob = false) (hreserve : n ≤ s.reserve B)
    (hfuel : n + 2 ≤ fuel ∨ n + 1 ≤ fuel ∧ s.self.unread ≠ []) :
    wp (xsgetnRec K fuel n) (fun r s' => r = n ∧ ∃ cs, cs.length = n ∧ Supplied B cs s s')
      (fun _ _ => False) s := by
  induction fuel generalizing n s with
  | zero => omega
  | succ fuel ih =>
    by_cases hfits : n ≤ s.self.unread.length
    · rw [wp_xsgetnRec_fits hfits]
      refine (takeChars_supplied (B := B) hs hfits).mono ?_ fun _ _ h => h
      exact fun _ s1 ⟨h1, _⟩ => ⟨rfl, _, List.length_take_of_le hfits, h1⟩
    apply wp_xsgetnRec_refill hfits
    refine (takeChars_supplied (B := B) hs (Nat.le_refl _)).mono ?_ fun _ _ h => h
    intro _ s1 ⟨h1, hempty⟩
    rw [List.take_length] at h1
    rw [List.drop_length] at hempty
    -- the characters that are still wanted are in the receive buffer
    have hreserve1 := h1.reserve_le
    refine (underflow_supplied (B := B) h1.took.getOpen (by rwa [h1.took.rep]) (by rwa [h1.took.rep])
      (by omega)).mono ?_ fun _ _ h => h
    intro c s2 ⟨h2, _, hc, hne⟩
    have h12 : Supplied B s.self.unread s s2 := by simpa using h1.trans h2
    have hreserve2 := h12.reserve_le
    rw [if_neg fun heof => hne (peek_eq_eof.mp (hc.symm.trans heof))]
    refine (ih (n - s.self.unread.length) h12.took.getOpen (by rwa [h12.took.rep])
      (by rwa [h12.took.rep]) (by omega) (.inr ⟨xsgetn_fuel hfuel hfits, hne⟩)).mono ?_
      fun _ _ h => h
    rintro rest s3 ⟨rfl, ds, hds, h3⟩
    refine ⟨by omega, _, ?_, h12.trans h3⟩
    rw [List.length_append, hds]
    omega

end Reserve

/-! ## Runs within the promise

A call is affordable if it asks for no more than is left of the promise. `underflow` needs a
character and takes none. -/

/-- How many characters a call must find. -/
def GetCall.needs : GetCall → Nat
  | .underflow => 1
  | .uflow => 1
  | .sbumpc => 1
  | .xsgetn n => n
  | _ => 0

/-- How many of them it hands out. -/
def GetCall.takes : GetCall → Nat
  | .uflow => 1
  | .sbumpc => 1
  | .xsgetn n => n
  | _ => 0

def GetCall.taken : List GetCall → Nat
  | [] => 0
  | c :: cs => c.takes + taken cs

/-- The calls ask for no more than `r` characters in all, and do not turn to out-of-band data. -/
def Affordable : List GetCall → Nat → Prop
  | [], _ => True
  | c :: cs, r => c ≠ .oob true ∧ c.needs ≤ r ∧ Affordable cs (r - c.takes)

/-- The call returned, and with what was asked for. -/
def GetCall.Serves : GetCall → Except Exc Int → Prop
  | .xsgetn n, out => out = .ok n
  | .recvtimeout _, out => ∃ old, out = .ok old
  | .oob _, out => ∃ old, out = .ok old
  | _, out => ∃ c : UInt8, out = .ok c.toNat

section Runs

variable {K : Kernel} {B : Buffered K} {s s' : St UInt8}

/-- A read side that can be refilled, and is not after out-of-band data. -/
structure St.InBand (s : St UInt8) : Prop where
  inv : s.GetInv
  gend : 0 < s.rep.gend
  oob : s.rep.oob = false

/-- A caller that keeps the character it is handed. -/
theorem keep_supplied {call : M UInt8 Int}
    (h : wp call (fun r s' => ∃ c : UInt8, r = c.toNat ∧ Supplied B [c] s s') (fun _ _ => False) s) :
    wp (keep call) (fun r s' => ∃ c : UInt8, r = c.toNat ∧ Supplied B [c] s s') (fun _ _ => False)
      s := by
  unfold keep
  rw [wp_bind]
  refine h.mono ?_ fun _ _ h => h
  intro r s1 ⟨c, hr, h1⟩
  have hne : r ≠ eof := by
    rw [hr]
    exact toInt_ne_eof c
  rw [wp_bind, wp_modify, if_neg hne, wp_pure]
  have htook := h1.took
  exact ⟨c, hr, ⟨htook.rep, htook.put, htook.sockname, htook.stored, htook.wire, htook.getOpen,
    htook.consumed⟩, h1.unwaiting⟩

theorem HandedOne.copied {r : Int} {c : UInt8} (h : HandedOne s r s') (hr : r = c.toNat) :
    ∃ cs, cs.length = 1 ∧ s'.self.copied = s.self.copied ++ cs := by
  have hne : (c.toNat : Int) ≠ eof := toInt_ne_eof c
  rcases h with ⟨heof, -⟩ | ⟨d, -, hcopied⟩
  · exact absurd (hr.symm.trans heof) hne
  · exact ⟨[d], rfl, hcopied⟩

theorem St.InBand.of_supplied {cs : List UInt8} (hs : s.InBand) (h : Supplied B cs s s')
    (hinv : s'.GetInv) : s'.InBand :=
  ⟨hinv, by rw [h.took.rep]; exact hs.gend, by rw [h.took.rep]; exact hs.oob⟩

/-- A call within the reserve is served, and takes from the reserve what it hands out. -/
theorem GetCall.supplied (c : GetCall) (hs : s.InBand) (hoob : c ≠ .oob true)
    (hneeds : c.needs ≤ s.reserve B) :
    wp (c.run K) (fun r s' => c.Serves (.ok r) ∧ s'.InBand ∧ s.Unwaiting B s' ∧
        s.reserve B ≤ c.takes + s'.reserve B ∧
        ∃ cs, cs.length = c.takes ∧ s'.self.copied = s.self.copied ++ cs)
      (fun _ _ => False) s := by
  have hopen := hs.inv.1
  have hbyte : ∀ {call : M UInt8 Int},
      wp (keep call) (fun r s' => s'.GetInv ∧ HandedOne s r s') (fun _ _ => True) s →
      wp call (fun r s' => ∃ c : UInt8, r = c.toNat ∧ Supplied B [c] s s') (fun _ _ => False) s →
      wp (keep call) (fun r s' => (∃ c : UInt8, Except.ok (ε := Exc) r = .ok c.toNat) ∧ s'.InBand ∧
        s.Unwaiting B s' ∧ s.reserve B ≤ 1 + s'.reserve B ∧
        ∃ cs, cs.length = 1 ∧ s'.self.copied = s.self.copied ++ cs) (fun _ _ => False) s := by
    intro call hkeeps hsupplied
    refine (hkeeps.and (keep_supplied hsupplied)).mono ?_ fun _ _ h => h.2
    intro r s' ⟨⟨hinv, hone⟩, c, hr, h⟩
    exact ⟨⟨c, congrArg _ hr⟩, hs.of_supplied h hinv, h.unwaiting, h.reserve_le, hone.copied hr⟩
  have hinvs := fun c : GetCall => (c.run_spec K hs.inv).mono (fun _ _ h => h) fun _ _ _ => trivial
  cases c with
  | underflow =>
    refine ((hinvs .underflow).and (underflow_supplied (B := B) hopen hs.gend hs.oob hneeds)).mono
      ?_ fun _ _ h => h.2
    intro r s' ⟨⟨hinv, _⟩, h, hcopied, hr, hne⟩
    obtain ⟨c, rest, hunread⟩ := List.exists_cons_of_ne_nil hne
    refine ⟨⟨c, ?_⟩, hs.of_supplied h hinv, h.unwaiting, h.reserve_le, [], rfl, by simp [hcopied]⟩
    rw [hr, hunread]
    rfl
  | uflow => exact hbyte (hinvs .uflow) (uflow_supplied hopen hs.gend hs.oob hneeds)
  | sbumpc => exact hbyte (hinvs .sbumpc) (sbumpc_supplied hopen hs.gend hs.oob hneeds)
  | xsgetn n =>
    have hspec : wp (GetCall.run K (.xsgetn n))
        (fun r s' => r = n ∧ ∃ cs, cs.length = n ∧ Supplied B cs s s') (fun _ _ => False) s := by
      refine wp_map.mpr ((xsgetnRec_supplied (n + 2) n hopen hs.gend hs.oob hneeds
        (.inl (Nat.le_refl _))).mono ?_ fun _ _ h => h)
      exact fun r s' h => ⟨congrArg Int.ofNat h.1, h.2⟩
    refine ((hinvs (.xsgetn n)).and hspec).mono ?_ fun _ _ h => h.2
    rintro r s' ⟨⟨hinv, cs, hcopied, hr, -⟩, hn, ds, hds, h⟩
    have hlength : cs.length = n := Int.ofNat_inj.mp (hr.symm.trans hn)
    refine ⟨congrArg _ hn, hs.of_supplied h hinv, h.unwaiting, ?_, cs, hlength, hcopied⟩
    have hle := h.reserve_le
    rwa [hds] at hle
  | recvtimeout t =>
    refine ⟨⟨_, rfl⟩, ⟨hs.inv.of_self rfl rfl rfl, hs.gend, hs.oob⟩, .of_history rfl, ?_, [], rfl, ?_⟩
    · exact Nat.le_add_left _ _
    · exact (List.append_nil _).symm
  | oob b =>
    have hfalse : b = false := by
      cases b with
      | false => rfl
      | true => exact absurd rfl hoob
    subst hfalse
    refine ⟨⟨_, rfl⟩, ⟨hs.inv.of_self rfl rfl rfl, hs.gend, rfl⟩, .of_history rfl, ?_, [], rfl, ?_⟩
    · exact Nat.le_add_left _ _
    · exact (List.append_nil _).symm

/-- Induction on the calls; the reserve covers those still to come. -/
theorem affordable_run (calls : List GetCall) {r : Nat} (hs : s.InBand) (hr : r ≤ s.reserve B)
    (hcalls : Affordable calls r) :
    List.Forall₂ GetCall.Serves calls (runAll (calls.map (GetCall.run K)) s).1 ∧
      s.Unwaiting B (runAll (calls.map (GetCall.run K)) s).2 ∧
      ∃ cs, cs.length = GetCall.taken calls ∧
        (runAll (calls.map (GetCall.run K)) s).2.self.copied = s.self.copied ++ cs := by
  induction calls generalizing s r with
  | nil => exact ⟨.nil, .of_history rfl, [], rfl, (List.append_nil _).symm⟩
  | cons c calls ih =>
    obtain ⟨hoob, hneeds, hrest⟩ := hcalls
    obtain ⟨a, s1, hrun, hserves, h1, hprompt, hreserve, cs, hcs, hcopied⟩ :=
      (c.supplied (B := B) hs hoob (by omega)).exists_ok
    obtain ⟨hall, hprompt', ds, hds, hcopied'⟩ := ih h1 (by omega) hrest
    have hattempt : attempt (c.run K) s = (.ok a, s1) := by
      unfold attempt
      rw [hrun]
    rw [List.map_cons, runAll_cons, hattempt]
    refine ⟨.cons hserves hall, hprompt.trans hprompt', cs ++ ds, ?_, ?_⟩
    · rw [List.length_append, hcs, hds, GetCall.taken]
    · rw [hcopied', hcopied, List.append_assoc]

end Runs

/-! ## The results

`FIONREAD` finds no more than the kernel holds for the socket. So `howmanyc` returns no more than
the reserve, provided that `nread` hands the count on as it is. -/

section Results

variable {charT : Type} {K : Kernel} {A : Abi} {old : List UInt8}

theorem nread_of_count {fionread : List Event → Except Errno Count} {n : Count} {s : St charT}
    (hcount : fionread s.sys.history = .ok n) :
    nread A fionread old s = .ok (A.long (A.endian.encode 4 n ++ old.drop 4)) s := by
  unfold nread
  rw [hcount]

/-- **What `nread` returns.** It is the count of `FIONREAD` exactly if a `long` has four bytes, or
its other bytes happened to be zero, on a host with the lowest byte first or for the count zero. -/
theorem nread_exact_iff {fionread : List Event → Except Errno Count} {n : Count} {s : St charT}
    (hold : old.length = A.sizeofLong) (hcount : fionread s.sys.history = .ok n) :
    nread A fionread old s = .ok (n.1 : Int) s ↔ A.Spares old n := by
  rw [nread_of_count hcount, ← A.long_stored_iff hold n.2]
  constructor
  · intro h
    exact (EStateM.Result.ok.inj h).1
  · intro h
    rw [h]

/-- Five bytes waiting, and a `long` of eight bytes that was -1. -/
theorem nread_exact_iff_five :
    nread Abi.lp64 (fun _ => .ok ⟨5, by decide⟩) (List.replicate 8 255)
        (fresh .small 3 (fun _ => (0 : UInt8)) (fun _ => 0) 0)
      ≠ .ok 5 (fresh .small 3 (fun _ => (0 : UInt8)) (fun _ => 0) 0) := by
  intro h
  have hspares := (nread_exact_iff (n := ⟨5, by decide⟩) (by decide) rfl).mp h
  revert hspares
  unfold Abi.Spares
  decide

/-- Where the `long` is sound, `howmanyc` adds up the two counts. -/
theorem howmanyc_of_count {f : List Event → Except Errno Count} {n : Count} {s : St charT}
    (hold : old.length = A.sizeofLong) (hcount : f s.sys.history = .ok n)
    (hspares : A.Spares old n) :
    howmanyc A f old s = .ok ((s.self.unread.length + n.1 : Nat) : Int) s := by
  have hlong := (A.long_stored_iff hold n.2).mpr hspares
  have hget : (get : M charT (St charT)) s = .ok s s := rfl
  unfold howmanyc
  rw [bind_ok hget, bind_ok (nread_of_count hcount), hlong, Streambuf.showmanyc_eq, Int.natCast_add]
  rfl

theorem howmanyc_le_reserve {B : Buffered K} {s s1 : St UInt8} {r : Int}
    (hold : old.length = A.sizeofLong)
    (hspares : ∀ n, B.fionread s.sys.history = .ok n → A.Spares old n)
    (hcall : howmanyc A B.fionread old s = .ok r s1) : s1 = s ∧ r.toNat ≤ s.reserve B := by
  cases hcount : B.fionread s.sys.history with
  | ok n =>
    have hle := B.counts _ _ hcount
    rw [howmanyc_of_count hold hcount (hspares n hcount)] at hcall
    cases hcall
    exact ⟨rfl, Nat.add_le_add_left hle _⟩
  | error e =>
    have hnread : ∃ err s2, nread A B.fionread old s = .error err s2 := by
      unfold nread
      rw [hcount]
      exact ⟨_, _, rfl⟩
    obtain ⟨err, s2, hnread⟩ := hnread
    have hget : (get : M UInt8 (St UInt8)) s = .ok s s := rfl
    unfold howmanyc at hcall
    rw [bind_ok hget, bind_error hnread] at hcall
    cases hcall

/-- **`howmanyc` promises no more than can be had at once.** Let the get area be there and the
out-of-band test be off. After `howmanyc` has returned `r`, calls that ask for at most `r`
characters in all, and do not turn the test on, are served: none throws, none meets the end of the
file, each hands out what it was asked for, and every `::read` they make finds a byte in the receive
buffer. -/
theorem howmanyc_promise {B : Buffered K} {s s1 : St UInt8} {r : Int} (old : List UInt8)
    (hold : old.length = A.sizeofLong) (hs : s.InBand)
    (hspares : ∀ n, B.fionread s.sys.history = .ok n → A.Spares old n)
    (hcall : howmanyc A B.fionread old s = .ok r s1) (calls : List GetCall)
    (hcalls : Affordable calls r.toNat) :
    s1 = s ∧
      List.Forall₂ GetCall.Serves calls (runAll (calls.map (GetCall.run K)) s).1 ∧
      s.Unwaiting B (runAll (calls.map (GetCall.run K)) s).2 ∧
      ∃ cs, cs.length = GetCall.taken calls ∧
        (runAll (calls.map (GetCall.run K)) s).2.self.copied = s.self.copied ++ cs := by
  obtain ⟨hsame, hle⟩ := howmanyc_le_reserve hold hspares hcall
  exact ⟨hsame, affordable_run calls hs hle hcalls⟩

end Results

/-! ## A buffer that holds a text -/

namespace Transport

variable {stream : List UInt8} {k : Nat}

theorem pending_stays (h : List Event) (e : Event) :
    stream.length - (received h).length ≤
      stream.length - (received (h ++ [e])).length + (received [e]).length := by
  rw [received_append, List.length_append]
  omega

theorem upTo_hands (h : List Event) (len : Nat) (hpending : 0 < stream.length - (received h).length)
    (hlen : 0 < len) : ∃ bs, (Transport.upTo stream k).input h .read len = .ok bs ∧ bs.1 ≠ [] := by
  refine ⟨_, rfl, fun hnil => ?_⟩
  rcases List.take_eq_nil_iff.mp hnil with hmin | hdrop
  · omega
  · rw [List.drop_eq_nil_iff] at hdrop
    omega

theorem count_lt (n : Nat) : min n (2 ^ 31 - 1) < 2 ^ 31 := by omega

theorem count_le {h : List Event} {n : Count}
    (hn : Except.ok (ε := Errno) (⟨_, count_lt (stream.length - (received h).length)⟩ : Count) = .ok n) :
    n.1 ≤ stream.length - (received h).length := by
  cases hn
  exact Nat.min_le_left _ _

/-- All of `stream` has arrived before the first call. -/
def buffered (stream : List UInt8) (k : Nat) : Buffered (Transport.upTo stream k).toKernel where
  pending h := stream.length - (received h).length
  fionread h := .ok ⟨_, count_lt (stream.length - (received h).length)⟩
  counts _ _ := count_le
  stays := pending_stays
  ready _ _ _ := rfl
  hands := upTo_hands

end Transport

/-- Three bytes, handed out one at a time, to a reader who looks at one, takes it and then takes the
two others in one call. -/
theorem howmanyc_promise_abc :
    let s := fresh .small 3 (fun _ => (0 : UInt8)) (fun _ => 0) 0
    let calls := [GetCall.underflow, .sbumpc, .xsgetn 2]
    List.Forall₂ GetCall.Serves calls
      (runAll (calls.map (GetCall.run (Transport.upTo [97, 98, 99] 0).toKernel)) s).1 := by
  intro s calls
  have hs : s.InBand := ⟨getInv_fresh .small 3 _ _ 0, by decide, rfl⟩
  have hspares : ∀ n, Abi.lp64.Spares [9, 9, 9, 9, 0, 0, 0, 0] n :=
    fun n => .inr ⟨by decide, .inl rfl⟩
  have hcall := howmanyc_of_count (s := s)
    (f := (Transport.buffered [97, 98, 99] 0).fionread) rfl rfl (hspares _)
  have hcalls : Affordable calls 3 :=
    ⟨by simp, by decide, by simp, by decide, by simp, by decide, trivial⟩
  exact (howmanyc_promise _ rfl hs (fun n _ => hspares n) hcall calls hcalls).2.1

end Sockstream
