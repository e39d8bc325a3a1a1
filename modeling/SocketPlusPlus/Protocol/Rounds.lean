import SocketPlusPlus.Logic.Loop
import SocketPlusPlus.Protocol.Chunks
import SocketPlusPlus.Protocol.Reply

/-!
# The rounds of `get_response`

The loops of `ftpbuf::get_response` and `smtpbuf::get_response`, one round at a time, over any
kernel. What a round does depends on how its call of `underflow` ended and on the bytes that are
unread then, and on nothing else: that is said once here, for both loops, and everything proved of
the loops comes from it.

The first result is about a reply that is buffered when FTP's `get_response` is called.
-/

namespace Sockstream

open Exec Memory

/-! ## Stepping over bytes -/

/-- The stream buffer after `gbump(n)`. -/
def Streambuf.bump (b : Streambuf UInt8) (n : Nat) : Streambuf UInt8 :=
  { b with get := b.get.map fun g => { g with gptr := g.gptr + n } }

theorem gbump_eq (n : Nat) (s : St UInt8) :
    gbump n s = .ok () { s with self := s.self.bump n } := by
  obtain ⟨rep, ⟨get, put, sockname, stored, copied⟩, sys⟩ := s
  cases get <;> rfl

theorem Streambuf.unread_bump (b : Streambuf UInt8) (n : Nat) :
    (b.bump n).unread = b.unread.drop n := by
  obtain ⟨get, put, sockname, stored, copied⟩ := b
  cases get with
  | none => exact List.drop_nil.symm
  | some g => exact (drop_slice_sub g.mem g.gptr g.egptr n).symm

/-! ## Where a line ends

`lineEnd` is how far `zapLine` goes: behind the first CRLF, or one byte behind the end of what it
was given. -/

/-- Where the search for the CRLF ends: behind it, or one behind the last byte if there is none. -/
def lineEnd : List UInt8 → Nat
  | [] => 1
  | [_] => 2
  | b :: c :: bs => if b = 13 ∧ c = 10 then 2 else lineEnd (c :: bs) + 1

theorem lineEnd_pos (bs : List UInt8) : 0 < lineEnd bs := by
  fun_cases lineEnd bs <;> omega

theorem zapLine_lineEnd {q : Nat → UInt8} {bs : List UInt8} (hne : bs ≠ []) (p i : Nat)
    (hq : slice q p bs.length = bs) : zapLine q p i (bs.length - 1) + 2 = i + lineEnd bs := by
  induction bs generalizing p i with
  | nil => exact absurd rfl hne
  | cons b bs ih =>
    cases bs with
    | nil => rfl
    | cons c bs =>
      rw [List.length_cons, slice_succ] at hq
      obtain ⟨hb, hbs⟩ := List.cons.inj hq
      have hc : q (p + 1) = c := by
        rw [List.length_cons, slice_succ] at hbs
        exact (List.cons.inj hbs).1
      have hrest := ih (List.cons_ne_nil _ _) (p + 1) (i + 1) hbs
      show zapLine q p i ((c :: bs).length - 1 + 1) + 2 = i + lineEnd (b :: c :: bs)
      rw [zapLine, lineEnd, hb, hc]
      split
      · rfl
      · omega

theorem lineEnd_cons {b : UInt8} {bs : List UInt8} (hne : bs ≠ []) (h : ¬ [13, 10] <+: b :: bs) :
    lineEnd (b :: bs) = lineEnd bs + 1 := by
  cases bs with
  | nil => exact absurd rfl hne
  | cons c bs =>
    have hpair : ¬ (b = 13 ∧ c = 10) := by
      rintro ⟨rfl, rfl⟩
      exact h ⟨bs, rfl⟩
    rw [lineEnd, if_neg hpair]

/-- A line that is there as a whole. -/
theorem lineEnd_crlf {line : List UInt8} (hline : ¬ [13, 10] <:+: line) (more : List UInt8) :
    lineEnd (crlf line ++ more) = (crlf line).length := by
  induction line with
  | nil => rfl
  | cons b line ih =>
    obtain ⟨hfirst, hlater⟩ := not_or.mp (mt List.infix_cons_iff.mpr hline)
    have hpre : ¬ [13, 10] <+: b :: (crlf line ++ more) := by
      cases line with
      | nil => simp [crlf, List.cons_prefix_cons]
      | cons c line => simpa [crlf, List.cons_prefix_cons] using hfirst
    show lineEnd (b :: (crlf line ++ more)) = _
    rw [lineEnd_cons (by simp [crlf]) hpre, ih hlater]
    simp [length_crlf]

/-- Up to its first CRLF a text is a line. -/
theorem exists_crlf {bs : List UInt8} (h : [13, 10] <:+: bs) :
    ∃ line more, bs = crlf line ++ more ∧ ¬ [13, 10] <:+: line := by
  induction bs with
  | nil => simp at h
  | cons b bs ih =>
    by_cases hpre : [13, 10] <+: b :: bs
    · obtain ⟨more, hmore⟩ := hpre
      exact ⟨[], more, hmore.symm, by simp⟩
    · obtain ⟨line, more, rfl, hline⟩ := ih ((List.infix_cons_iff.mp h).resolve_left hpre)
      refine ⟨b :: line, more, rfl, fun hin => ?_⟩
      rcases List.infix_cons_iff.mp hin with hfirst | hlater
      · exact hpre (hfirst.trans ⟨[13, 10] ++ more, by simp [crlf]⟩)
      · exact hline hlater

/-- The search stays among the bytes exactly if there is a CRLF among them. -/
theorem lineEnd_le_iff (bs : List UInt8) : lineEnd bs ≤ bs.length ↔ [13, 10] <:+: bs := by
  induction bs with
  | nil => simp [lineEnd]
  | cons b bs ih =>
    cases bs with
    | nil =>
      have hshort : ¬ [13, 10] <:+: [b] := fun h => by
        have := h.length_le
        simp at this
      simp [lineEnd, hshort]
    | cons c bs =>
      rw [lineEnd, List.infix_cons_iff, ← ih, List.length_cons]
      have hpre : [13, 10] <+: b :: c :: bs ↔ b = 13 ∧ c = 10 := by
        simp [List.cons_prefix_cons, eq_comm]
      rw [hpre]
      split
      · next h => simp [h]
      · next h =>
        simp only [h, false_or]
        omega

/-- Without a CRLF it ends one byte too far. -/
theorem lineEnd_missing {bs : List UInt8} (h : ¬ [13, 10] <:+: bs) :
    lineEnd bs = bs.length + 1 := by
  have hle : ∀ bs : List UInt8, lineEnd bs ≤ bs.length + 1 := by
    intro bs
    induction bs with
    | nil => exact Nat.le_refl _
    | cons b bs ih =>
      cases bs with
      | nil => exact Nat.le_refl _
      | cons c bs =>
        rw [lineEnd]
        simp only [List.length_cons] at ih ⊢
        split <;> omega
  have hmore := mt (lineEnd_le_iff bs).mp h
  have := hle bs
  omega

/-- So it does in a line that is not all there. -/
theorem lineEnd_cut {avail coming line more : List UInt8} (hline : ¬ [13, 10] <:+: line)
    (hstream : avail ++ coming = crlf line ++ more) (hcut : avail.length < (crlf line).length) :
    lineEnd avail = avail.length + 1 := by
  have hpre : avail <+: line ++ [13] := by
    have hall : line ++ [13] <+: avail ++ coming := by
      rw [hstream]
      exact ⟨10 :: more, by simp [crlf]⟩
    have hlen := length_crlf line
    exact List.prefix_of_prefix_length_le (List.prefix_append _ _) hall (by simp; omega)
  refine lineEnd_missing fun hin => ?_
  rcases List.infix_concat_iff.mp (hin.trans hpre.isInfix) with hlast | hinside
  · obtain ⟨front, hfront⟩ := hlast
    simpa using congrArg List.getLast? hfront
  · exact hline hinside

/-! ## A round

A round of either loop calls `underflow` and then finds nothing, too few bytes, or a line. What is
done with a line is a parameter. -/

section Rounds

variable {ρ β : Type}

/-- Both loops begin a round alike: `short` is the `continue`, `line` the rest of the round. -/
def replyRound (K : Kernel) (short : Turn β Unit) (line : Client ρ → ClientM ρ (Turn β Unit)) :
    ClientM ρ (Turn β Unit) := do
  let c ← onBuf (underflow K)
  if c = eof then pure (.leave ())
  else
    let t ← get
    if t.buf.self.showmanyc < 5 then pure short else line t

/-- `o->write(gptr(), i); gbump(i)` -/
def Client.pass (t : Client ρ) (i : Nat) : Client ρ :=
  { t with
    o := t.o.map (· ++ slice t.buf.self.atGptr 0 i)
    buf := { t.buf with self := t.buf.self.bump i } }

theorem Client.pass_zero (t : Client ρ) : t.pass 0 = t := by
  obtain ⟨⟨rep, ⟨get, put, sockname, stored, copied⟩, sys⟩, o, own⟩ := t
  cases get <;> cases o <;> simp [pass, Streambuf.bump]

/-- The line that is passed on. -/
theorem Client.pass_o {t : Client ρ} {bytes more : List UInt8}
    (hunread : t.buf.self.unread = bytes ++ more) :
    (t.pass bytes.length).o = t.o.map (· ++ bytes) := by
  have hfits : bytes.length ≤ t.buf.self.unread.length := by simp [hunread]
  show t.o.map (· ++ slice t.buf.self.atGptr 0 bytes.length) = _
  rw [slice_atGptr hfits, hunread, List.take_left]

theorem Sees.pass {chunks : List (List UInt8)} {v : Ahead} {t : Client ρ} (h : Sees chunks v t)
    (i : Nat) : Sees chunks (v.1.drop i, v.2) (t.pass i) := by
  obtain ⟨s, hs, hreads, hahead⟩ := gbump_chunked h.reads i
  cases (gbump_eq i t.buf).symm.trans hs
  exact ⟨hreads, hahead.trans (by rw [← h.ahead]; rfl)⟩

theorem Client.pass_eq (t : Client ρ) (i : Nat) :
    (do Client.write (slice t.buf.self.atGptr 0 i); onBuf (gbump i) : ClientM ρ Unit) t
      = .ok () (t.pass i) := by
  have hwrite : Client.write (slice t.buf.self.atGptr 0 i) t
      = .ok () { t with o := t.o.map (· ++ slice t.buf.self.atGptr 0 i) } := rfl
  rw [bind_ok hwrite]
  exact onBuf_ok (gbump_eq i t.buf)

variable {K : Kernel} {short : Turn β Unit} {line : Client ρ → ClientM ρ (Turn β Unit)}
  {t : Client ρ} {c : Int} {s : St UInt8}

theorem replyRound_error {e : Exc} (h : underflow K t.buf = .error e s) :
    replyRound K short line t = .error e { t with buf := s } := bind_error (onBuf_error h)

theorem replyRound_eof (h : underflow K t.buf = .ok eof s) :
    replyRound K short line t = .ok (.leave ()) { t with buf := s } := by
  rw [replyRound, bind_ok (onBuf_ok h), if_pos rfl]
  rfl

theorem replyRound_short (short : Turn β Unit) (line : Client ρ → ClientM ρ (Turn β Unit))
    (h : underflow K t.buf = .ok c s) (hc : c ≠ eof)
    (hshort : s.self.unread.length < 5) :
    replyRound K short line t = .ok short { t with buf := s } := by
  rw [replyRound, bind_ok (onBuf_ok h), if_neg hc]
  show (if s.self.showmanyc < 5 then pure short else _ : ClientM ρ (Turn β Unit)) _ = _
  rw [Streambuf.showmanyc_eq, if_pos hshort]
  rfl

theorem replyRound_line (h : underflow K t.buf = .ok c s) (hc : c ≠ eof)
    (hlong : 5 ≤ s.self.unread.length) :
    replyRound K short line t = line { t with buf := s } { t with buf := s } := by
  rw [replyRound, bind_ok (onBuf_ok h), if_neg hc]
  show (if s.self.showmanyc < 5 then _ else line _ : ClientM ρ (Turn β Unit)) _ = _
  rw [Streambuf.showmanyc_eq, if_neg (by omega)]

/-- While bytes are unread, the kernel is not asked. -/
theorem underflow_unread (K : Kernel) (hne : s.self.unread ≠ []) :
    underflow K s = .ok (peek s.self.unread) s := by
  cases hunread : s.self.unread with
  | nil => exact absurd hunread hne
  | cons c cs => exact underflow_of_unread K hunread

theorem peek_ne_eof {bytes : List UInt8} (hne : bytes ≠ []) : peek bytes ≠ eof :=
  fun h => hne (peek_eq_eof.mp h)

/-- A round throws what `underflow` throws, or finds the end of the file, or finds less than five
bytes, or comes to a line. -/
theorem wp_replyRound {Q : Turn β Unit → Client ρ → Prop} {E : Exc → Client ρ → Prop}
    (hthrows : ∀ e s, underflow K t.buf = .error e s → E e { t with buf := s })
    (hend : ∀ s, underflow K t.buf = .ok eof s → Q (.leave ()) { t with buf := s })
    (hfew : ∀ c s, underflow K t.buf = .ok c s → c ≠ eof → s.self.unread.length < 5 →
      Q short { t with buf := s })
    (hline : ∀ c s, underflow K t.buf = .ok c s → c ≠ eof → 5 ≤ s.self.unread.length →
      wp (line { t with buf := s }) Q E { t with buf := s }) :
    wp (replyRound K short line) Q E t := by
  cases hunder : underflow K t.buf with
  | error e s =>
    rw [wp_iff_of_error (replyRound_error hunder)]
    exact hthrows e s hunder
  | ok c s =>
    by_cases hc : c = eof
    · rw [hc] at hunder
      rw [wp_iff_of_ok (replyRound_eof hunder)]
      exact hend s hunder
    by_cases hshort : s.self.unread.length < 5
    · rw [wp_iff_of_ok (replyRound_short short line hunder hc hshort)]
      exact hfew c s hunder hc hshort
    · have hlong := Nat.not_lt.mp hshort
      rw [wp_congr (replyRound_line hunder hc hlong)]
      exact hline c s hunder hc hlong

/-- A loop that finds fewer than five bytes finds them again and again. -/
theorem loop_short {round : β → ClientM ρ (Turn β Unit)} {b : β}
    (hround : round b = replyRound K (.again b) line) (h : underflow K t.buf = .ok c s)
    (hc : c ≠ eof) (hsome : s.self.unread ≠ []) (hshort : s.self.unread.length < 5) (e : Exc)
    (fuel : Nat) : wp (loop round e fuel b) (fun _ _ => False) (fun e' _ => e' = e) t := by
  let stuck : β × Client ρ → Prop := fun x =>
    x.1 = b ∧ ∃ c', underflow K x.2.buf = .ok c' s ∧ c' ≠ eof
  have hstay : ∀ x, stuck x → ∃ y, Turns round x y ∧ stuck y := by
    rintro ⟨b, t1⟩ ⟨rfl, c', hunder, hc'⟩
    have hturn := replyRound_short (.again b) line hunder hc' hshort
    rw [← hround] at hturn
    exact ⟨(b, { t1 with buf := s }), hturn, rfl, _, underflow_unread K hsome, peek_ne_eof hsome⟩
  exact loop_stuck hstay (x := (b, t)) ⟨rfl, c, h, hc⟩ fuel

theorem ite_bind {ε σ α γ : Type} (p : Prop) [Decidable p] (x y : EStateM ε σ α)
    (f : α → EStateM ε σ γ) : (if p then x else y) >>= f = if p then x >>= f else y >>= f := by
  split <;> rfl

/-- What follows a round follows each of its ends. -/
theorem replyRound_bind {γ : Type} (K : Kernel) (short : Turn β Unit)
    (line : Client ρ → ClientM ρ (Turn β Unit)) (f : Turn β Unit → ClientM ρ γ) :
    replyRound K short line >>= f = (do
      let c ← onBuf (underflow K)
      if c = eof then f (.leave ())
      else
        let t ← get
        if t.buf.self.showmanyc < 5 then f short else line t >>= f) := by
  unfold replyRound
  simp only [bind_assoc, ite_bind, pure_bind]

/-- The search of a round, over the bytes that are unread. -/
theorem zapLine_unread {b : Streambuf UInt8} (hne : b.unread ≠ []) :
    zapLine b.atGptr 0 2 (b.showmanyc - 1) = lineEnd b.unread := by
  have hall : slice b.atGptr 0 b.unread.length = b.unread := by
    rw [slice_atGptr (Nat.le_refl _), List.take_length]
  have hzap := zapLine_lineEnd hne 0 2 hall
  rw [Streambuf.showmanyc_eq]
  omega

theorem unread_getElem? {b : Streambuf UInt8} {i : Nat} (h : i < b.unread.length) :
    b.unread[i]? = some (b.atGptr i) := by
  have hall : slice b.atGptr 0 b.unread.length = b.unread := by
    rw [slice_atGptr (Nat.le_refl _), List.take_length]
  have hget := getElem?_slice b.atGptr 0 h
  rwa [hall, Nat.zero_add] at hget

theorem fourth_eq_iff {b : Streambuf UInt8} (hlong : 5 ≤ b.unread.length) (x : UInt8) :
    b.unread[3]? = some x ↔ b.atGptr 3 = x := by
  rw [unread_getElem? (by omega), Option.some.injEq]

end Rounds

/-! ## FTP

A round takes one line, if there are enough bytes for one. The first line sets `replycode`, and a
later one ends the loop if it starts like the first with a blank behind the code. -/

namespace Ftp

/-- The rest of a round, with `firstline` as it is then. -/
def lineRound (firstline : Bool) (t : Client (List UInt8)) :
    ClientM (List UInt8) (Turn Bool Unit) := do
  let q := t.buf.self.atGptr
  let i := zapLine q 0 2 (t.buf.self.showmanyc - 1)
  Client.write (slice q 0 i)
  onBuf (gbump i)
  if firstline then
    modify fun t => { t with own := strncpy 3 (slice q 0 3) ++ [32] }
    if q 3 = 32 then pure (.leave ()) else pure (.again false)
  else if cstring 4 (slice q 0 4) = cstring 4 t.own then pure (.leave ())
  else pure (.again false)

/-- A round of `get_response()`. -/
def round (K : Kernel) (firstline : Bool) : ClientM (List UInt8) (Turn Bool Unit) :=
  replyRound K (.again firstline) (lineRound firstline)

/-- The model of `get_response()` is the loop of its rounds. -/
theorem responseLoop_eq (K : Kernel) (fuel : Nat) (firstline : Bool) :
    responseLoop K fuel firstline = loop (round K) .outOfFuel fuel firstline := by
  induction fuel generalizing firstline with
  | zero => rfl
  | succ fuel ih =>
    rw [loop, round, replyRound_bind, responseLoop]
    simp only [lineRound, ite_bind, bind_assoc, pure_bind, ih]

/-- Whether the loop is left behind a line, given the bytes that were unread before it. -/
def Stops (firstline : Bool) (replycode bytes : List UInt8) : Prop :=
  if firstline then bytes[3]? = some 32 else cstring 4 (bytes.take 4) = cstring 4 replycode

instance (firstline : Bool) (replycode bytes : List UInt8) :
    Decidable (Stops firstline replycode bytes) :=
  inferInstanceAs (Decidable (if firstline then _ else _))

/-- `replycode` behind that line. -/
def noted (firstline : Bool) (replycode bytes : List UInt8) : List UInt8 :=
  if firstline then strncpy 3 (bytes.take 3) ++ [32] else replycode

/-- The client behind that line. -/
def passed (firstline : Bool) (t : Client (List UInt8)) : Client (List UInt8) :=
  { t.pass (lineEnd t.buf.self.unread) with own := noted firstline t.own t.buf.self.unread }

theorem lineRound_eq (firstline : Bool) {t : Client (List UInt8)}
    (hlong : 5 ≤ t.buf.self.unread.length) :
    lineRound firstline t t
      = .ok (if Stops firstline t.own t.buf.self.unread then .leave () else .again false)
          (passed firstline t) := by
  have hne : t.buf.self.unread ≠ [] := List.ne_nil_of_length_pos (by omega)
  have hfourth := fourth_eq_iff hlong 32
  unfold lineRound passed
  simp only [zapLine_unread hne]
  rw [← bind_assoc, bind_ok (t.pass_eq _)]
  cases firstline with
  | true =>
    have hthree : slice t.buf.self.atGptr 0 3 = t.buf.self.unread.take 3 :=
      slice_atGptr (by omega)
    have hstops : Stops true t.own t.buf.self.unread ↔ t.buf.self.atGptr 3 = 32 := hfourth
    rw [if_pos rfl, hthree, ite_cond_congr (propext hstops)]
    show (if t.buf.self.atGptr 3 = 32 then _ else _ : ClientM (List UInt8) (Turn Bool Unit)) _ = _
    split <;> rfl
  | false =>
    have hfour : slice t.buf.self.atGptr 0 4 = t.buf.self.unread.take 4 :=
      slice_atGptr (by omega)
    have hstops : Stops false t.own t.buf.self.unread ↔
      cstring 4 (t.buf.self.unread.take 4) = cstring 4 t.own := Iff.rfl
    rw [if_neg (by decide), hfour, ite_cond_congr (propext hstops)]
    split <;> rfl

variable {K : Kernel} {firstline : Bool} {t : Client (List UInt8)} {c : Int} {s : St UInt8}

/-- With five bytes or more a round passes on a line. -/
theorem round_passes (firstline : Bool) (h : underflow K t.buf = .ok c s)
    (hlong : 5 ≤ s.self.unread.length) (hc : c ≠ eof) :
    round K firstline t
      = .ok (if Stops firstline t.own s.self.unread then .leave () else .again false)
          (passed firstline { t with buf := s }) := by
  rw [round, replyRound_line h hc hlong]
  exact lineRound_eq firstline hlong

/-! ### A reply that is buffered

With the whole reply in the get area, the loop takes one line in each round and stops behind the
last. -/

/-- A line of a reply that is in the get area: it is sent to `o`, and the loop is left exactly
behind the last one. -/
theorem round_line {code line more : List UInt8} {lines : List (List UInt8)}
    (hlen : code.length = 3) (hdigits : ∀ d ∈ code, 48 ≤ d ∧ d ≤ 57)
    (hexp : Expects code firstline (line :: lines))
    (hnoted : firstline = false → t.own = code ++ [32]) (hline : ¬ [13, 10] <:+: line)
    (hc : underflow K t.buf = .ok c s) (heof : c ≠ eof) (hlong : 5 ≤ s.self.unread.length)
    (hunread : s.self.unread = crlf line ++ more) :
    ∃ t', round K firstline t = .ok (if lines = [] then .leave () else .again false) t' ∧
      t'.buf = (Client.pass { t with buf := s } (crlf line).length).buf ∧
      t'.o = t.o.map (· ++ crlf line) ∧ t'.own = code ++ [32] := by
  have hend : lineEnd s.self.unread = (crlf line).length := by rw [hunread, lineEnd_crlf hline]
  have hround := round_passes firstline hc hlong heof
  -- the test of the loop finds out whether this is the last line
  have hstops : Stops firstline t.own s.self.unread ↔ lines = [] := by
    cases firstline with
    | true =>
      have hget := unread_getElem? (b := s.self) (i := 3) (by omega)
      have hfourth : s.self.atGptr 3 = 32 ↔ lines = [] :=
        fourth_eq_space hlen hexp (hunread ▸ hget)
      rw [← hfourth]
      exact fourth_eq_iff hlong 32
    | false =>
      show cstring 4 (s.self.unread.take 4) = cstring 4 t.own ↔ lines = []
      rw [hnoted rfl, hunread, cstring_eq_iff hlen hdigits]
      cases hexp with
      | last text => exact ⟨fun _ => rfl, fun _ => ⟨text, by simp⟩⟩
      | middle b hb hbs =>
        exact ⟨fun hpre => absurd hpre hb, fun hnil => absurd hnil hbs.ne_nil⟩
  refine ⟨passed firstline { t with buf := s }, ?_, ?_, ?_, ?_⟩
  · rw [hround, ite_cond_congr (propext hstops)]
  · rw [← hend]
    rfl
  · rw [← Client.pass_o (t := { t with buf := s }) hunread, ← hend]
    rfl
  · show noted firstline t.own s.self.unread = code ++ [32]
    cases firstline with
    | true =>
      show strncpy 3 (s.self.unread.take 3) ++ [32] = code ++ [32]
      rw [hunread, take_code hlen hexp, strncpy_code hlen hdigits]
    | false => exact hnoted rfl

/-- The same line, when all that is left of the reply is buffered. -/
theorem round_buffered {code line rest : List UInt8} {lines : List (List UInt8)}
    (hlen : code.length = 3) (hdigits : ∀ d ∈ code, 48 ≤ d ∧ d ≤ 57)
    (hexp : Expects code firstline (line :: lines))
    (hnoted : firstline = false → t.own = code ++ [32]) (hline : ¬ [13, 10] <:+: line)
    (hunread : t.buf.self.unread = linesBytes (line :: lines) ++ rest) :
    ∃ t', round K firstline t = .ok (if lines = [] then .leave () else .again false) t' ∧
      t'.buf.self.unread = linesBytes lines ++ rest ∧ t'.o = t.o.map (· ++ crlf line) ∧
      t'.own = code ++ [32] ∧ t'.buf.sys = t.buf.sys := by
  have hbytes : t.buf.self.unread = crlf line ++ (linesBytes lines ++ rest) := by
    rw [hunread, linesBytes_cons, List.append_assoc]
  have hsix := hexp.length_linesBytes hlen
  have hlong : 5 ≤ t.buf.self.unread.length := by
    rw [hunread, List.length_append]
    omega
  have hne : t.buf.self.unread ≠ [] := List.ne_nil_of_length_pos (by omega)
  obtain ⟨t', hround, hbuf, ho, hown⟩ := round_line hlen hdigits hexp hnoted hline
    (underflow_unread K hne) (peek_ne_eof hne) hlong hbytes
  have hsys : t'.buf.sys = t.buf.sys := by
    rw [hbuf]
    rfl
  refine ⟨t', hround, ?_, ho, hown, hsys⟩
  rw [hbuf]
  show (t.buf.self.bump (crlf line).length).unread = _
  rw [Streambuf.unread_bump, hbytes, List.drop_left]

/-- Induction on the lines: each takes one round. -/
theorem loop_buffered {code rest w : List UInt8} {lines : List (List UInt8)}
    (hlen : code.length = 3) (hdigits : ∀ d ∈ code, 48 ≤ d ∧ d ≤ 57)
    (hlines : ∀ line ∈ lines, ¬ [13, 10] <:+: line) (hne : lines ≠ [])
    (hexp : Expects code firstline lines) (hnoted : firstline = false → t.own = code ++ [32])
    (hunread : t.buf.self.unread = linesBytes lines ++ rest) (ho : t.o = some w) :
    ∃ t', loop (round K) .outOfFuel lines.length firstline t = .ok () t' ∧
      t'.buf.self.unread = rest ∧ t'.o = some (w ++ linesBytes lines) ∧ t'.own = code ++ [32] ∧
      t'.buf.sys = t.buf.sys := by
  induction lines generalizing firstline t w with
  | nil => exact absurd rfl hne
  | cons line lines ih =>
    obtain ⟨t1, hround, hunread1, ho1, hown1, hsys1⟩ := round_buffered (K := K) hlen hdigits hexp
      hnoted (hlines line List.mem_cons_self) hunread
    rw [ho, Option.map_some] at ho1
    rw [List.length_cons]
    by_cases hlast : lines = []
    · rw [if_pos hlast] at hround
      rw [hlast] at hunread1
      refine ⟨t1, loop_leave hround, hunread1, ?_, hown1, hsys1⟩
      rw [ho1, hlast]
      simp [linesBytes]
    · rw [if_neg hlast] at hround
      have hlines' : ∀ l ∈ lines, ¬ [13, 10] <:+: l := fun l hl =>
        hlines l (List.mem_cons_of_mem _ hl)
      obtain ⟨t2, hrun, hunread2, ho2, hown2, hsys2⟩ := ih hlines' hlast (hexp.tail hlast)
        (fun _ => hown1) hunread1 ho1
      refine ⟨t2, (loop_again hround).trans hrun, hunread2, ?_, hown2, hsys2.trans hsys1⟩
      rw [ho2, linesBytes_cons, List.append_assoc]

/-- **A reply that is buffered is read as it stands.** If the unread bytes are a reply and then
`rest`, `get_response` sends exactly the reply to `o` and leaves exactly `rest` unread, without a
system call; it returns the first digit, and `replycode` holds the three digits and a blank. -/
theorem getResponse_buffered (K : Kernel) (R : Reply) {rest w : List UInt8}
    {t : Client (List UInt8)} (hunread : t.buf.self.unread = R.bytes ++ rest) (ho : t.o = some w)
    {fuel : Nat} (hfuel : R.lines.length ≤ fuel) :
    ∃ t', getResponse K fuel t = .ok R.code.head? t' ∧ t'.o = some (w ++ R.bytes) ∧
      t'.buf.self.unread = rest ∧ t'.own = R.code ++ [32] ∧ t'.buf.sys = t.buf.sys := by
  have hexp : Expects R.code true R.lines := R.shape
  obtain ⟨t', hrun, hrest, hwritten, hown, hsys⟩ := loop_buffered (K := K) (t := t) R.code_length
    R.code_digits R.noCrlf R.shape.ne_nil hexp (fun h => by cases h) hunread ho
  have hloop : responseLoop K fuel true t = .ok () t' := by
    rw [responseLoop_eq]
    exact loop_ok_of_le hrun hfuel
  refine ⟨t', ?_, hwritten, hrest, hown, hsys⟩
  have hhead : t'.own.head? = R.code.head? := by
    have hcode : R.code ≠ [] := List.ne_nil_of_length_pos (by rw [R.code_length]; decide)
    rw [hown, List.head?_append_of_ne_nil _ hcode]
  rw [getResponse, bind_ok hloop, ← hhead]
  rfl

/-- `211-a`, an empty line, and `211 b`. -/
def features : Reply where
  code := [50, 49, 49]
  lines := [[50, 49, 49, 45, 97], [], [50, 49, 49, 32, 98]]
  code_length := rfl
  code_digits := by simp
  shape := .multi [97] (.middle [] (by decide) (.last [98]))
  noCrlf := by decide

/-- A client with the bytes `bytes` unread. -/
def buffering (bytes : List UInt8) : Client (List UInt8) :=
  let s : St UInt8 := fresh .small 3 (fun _ => 0) (fun _ => 0) 0
  ⟨{ s with self := { s.self with get := some ⟨copyIn (fun _ => 0) 0 bytes, 0, bytes.length⟩ } },
    some [], []⟩

/-- The start of the next reply stays where it is. -/
theorem getResponse_buffered_features :
    ∃ t', getResponse Kernel.sink 3 (buffering (features.bytes ++ [50, 50])) = .ok (some 50) t' ∧
      t'.o = some features.bytes ∧ t'.buf.self.unread = [50, 50] ∧ t'.own = [50, 49, 49, 32] := by
  have hunread : (buffering (features.bytes ++ [50, 50])).buf.self.unread
      = features.bytes ++ [50, 50] := by decide
  have hfuel : features.lines.length ≤ 3 := by decide
  obtain ⟨t', hrun, hwritten, hrest, hown, -⟩ := getResponse_buffered Kernel.sink features hunread
    rfl hfuel
  exact ⟨t', hrun, hwritten, hrest, hown⟩

end Ftp

/-! ## SMTP

Here every line tells by its fourth byte whether it is the last one. -/

namespace Smtp

/-- The rest of a round. -/
def lineRound (t : Client Unit) : ClientM Unit (Turn Unit Unit) := do
  let n := t.buf.self.showmanyc
  let q := t.buf.self.atGptr
  let i := zapLine q 0 2 (n - 1)
  let _ ← (if i ≤ n then do
      Client.write (slice q 0 i)
      onBuf (gbump i)
    else pure () : ClientM Unit Unit)
  if q 3 ≠ 45 then pure (.leave ()) else pure (.again ())

/-- A round of `get_response()`. -/
def round (K : Kernel) (_ : Unit) : ClientM Unit (Turn Unit Unit) :=
  replyRound K (.again ()) lineRound

/-- The model of `get_response()` is the loop of its rounds. -/
theorem responseLoop_eq (K : Kernel) (fuel : Nat) :
    responseLoop K fuel = loop (round K) .outOfFuel fuel () := by
  induction fuel with
  | zero => rfl
  | succ fuel ih =>
    rw [loop, round, replyRound_bind, responseLoop]
    simp only [lineRound, ite_bind, bind_assoc, pure_bind, ih]

/-- How many bytes a round passes on: a line, or nothing if there is no CRLF. -/
def passes (bytes : List UInt8) : Nat :=
  if lineEnd bytes ≤ bytes.length then lineEnd bytes else 0

theorem passes_le (bytes : List UInt8) : passes bytes ≤ bytes.length := by
  unfold passes
  split <;> omega

theorem lineRound_eq {t : Client Unit} (hlong : 5 ≤ t.buf.self.unread.length) :
    lineRound t t
      = .ok (if t.buf.self.unread[3]? = some 45 then .again () else .leave ())
          (t.pass (passes t.buf.self.unread)) := by
  have hne : t.buf.self.unread ≠ [] := List.ne_nil_of_length_pos (by omega)
  have hfourth := fourth_eq_iff hlong 45
  have hlast : ∀ t' : Client Unit, (if t.buf.self.atGptr 3 ≠ 45 then pure (.leave ())
      else pure (.again ()) : ClientM Unit (Turn Unit Unit)) t'
      = .ok (if t.buf.self.unread[3]? = some 45 then .again () else .leave ()) t' := by
    intro t'
    rw [ite_cond_congr (propext hfourth)]
    by_cases hdash : t.buf.self.atGptr 3 = 45
    · rw [if_pos hdash, if_neg (not_not.mpr hdash)]
      rfl
    · rw [if_neg hdash, if_pos hdash]
      rfl
  unfold lineRound passes
  simp only [zapLine_unread hne]
  simp only [Streambuf.showmanyc_eq]
  by_cases hfound : lineEnd t.buf.self.unread ≤ t.buf.self.unread.length
  · rw [if_pos hfound, if_pos hfound, bind_ok (t.pass_eq _)]
    exact hlast _
  · rw [if_neg hfound, if_neg hfound, Client.pass_zero]
    exact hlast t

variable {K : Kernel} {t : Client Unit} {c : Int} {s : St UInt8}

/-- With five bytes or more a round passes on a line, if there is one. -/
theorem round_passes (h : underflow K t.buf = .ok c s) (hlong : 5 ≤ s.self.unread.length)
    (hc : c ≠ eof) :
    round K () t
      = .ok (if s.self.unread[3]? = some 45 then .again () else .leave ())
          (Client.pass { t with buf := s } (passes s.self.unread)) := by
  rw [round, replyRound_line h hc hlong]
  exact lineRound_eq hlong

/-- A line that is in the get area is passed on, and whether another one follows is seen from it. -/
theorem round_line {line more : List UInt8} (hline : ¬ [13, 10] <:+: line)
    (h : underflow K t.buf = .ok c s) (hc : c ≠ eof) (hlong : 5 ≤ s.self.unread.length)
    (hunread : s.self.unread = crlf line ++ more) :
    ∃ t', round K () t = .ok (if s.self.unread[3]? = some 45 then .again () else .leave ()) t' ∧
      t'.buf = (Client.pass { t with buf := s } (crlf line).length).buf ∧
      t'.o = t.o.map (· ++ crlf line) := by
  have hpasses : passes s.self.unread = (crlf line).length := by
    unfold passes
    rw [hunread, lineEnd_crlf hline, if_pos (by simp)]
  have hround := round_passes h hlong hc
  rw [hpasses] at hround
  exact ⟨_, hround, rfl, Client.pass_o (t := { t with buf := s }) hunread⟩

end Smtp

end Sockstream
