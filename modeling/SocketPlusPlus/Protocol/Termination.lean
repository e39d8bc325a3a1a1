import SocketPlusPlus.Logic.Scan
import SocketPlusPlus.Protocol.Rounds

/-!
# Whether `get_response` returns

The server sends what it likes and closes the connection. A `::read` returns what has arrived, as
far as there is room for it, so the get area is filled with one block of bytes after the other.
`get_response` scans the places in these blocks where a line starts. It goes round for ever at a
place where it can neither take bytes nor stop: fewer than five bytes of the block are left, or, in
SMTP, there is a `-` behind the digits and no CRLF in the block. `underflow` does not help, since it
reads nothing while bytes are unread.

The result says that there is no other way not to return.
-/

namespace Sockstream

open Exec Memory

/-! ## Blocks

The get area may be smaller than a chunk: then `::read` returns the chunk in pieces. -/

/-- What `::read` makes of a chunk if it has room for `n` bytes. -/
def pieces (n : Nat) (chunk : List UInt8) : List (List UInt8) :=
  (List.range ((chunk.length + n - 1) / n)).map fun i => (chunk.drop (i * n)).take n

/-- What the calls of `::read` return. -/
def blocks (gend : Nat) (sent : List (List UInt8)) : List (List UInt8) :=
  sent.flatMap (pieces gend)

theorem mem_pieces {n : Nat} {chunk block : List UInt8} (h : block ∈ pieces n chunk) :
    block ≠ [] ∧ block.length ≤ n := by
  obtain ⟨i, hi, rfl⟩ := List.mem_map.mp h
  have hlt := List.mem_range.mp hi
  have hpos : 0 < n := by
    cases n with
    | zero => simp at hlt
    | succ n => omega
  have hmul := (Nat.le_div_iff_mul_le hpos).mp hlt
  rw [Nat.succ_mul] at hmul
  have hlen : ((chunk.drop (i * n)).take n).length = min n (chunk.length - i * n) := by
    rw [List.length_take, List.length_drop]
  refine ⟨List.ne_nil_of_length_pos ?_, ?_⟩ <;> omega

/-- Nothing is lost on the way. -/
theorem flatten_pieces {n : Nat} (hpos : 0 < n) (chunk : List UInt8) :
    (pieces n chunk).flatten = chunk := by
  have hfront : ∀ m, ((List.range m).map fun i => (chunk.drop (i * n)).take n).flatten
      = chunk.take (m * n) := by
    intro m
    induction m with
    | zero => simp
    | succ m ih => simp [List.range_succ, ih, Nat.succ_mul, List.take_add]
  unfold pieces
  rw [hfront]
  apply List.take_of_length_le
  have hdiv := Nat.div_add_mod (chunk.length + n - 1) n
  have hmod := Nat.mod_lt (chunk.length + n - 1) hpos
  rw [Nat.mul_comm] at hdiv
  omega

/-- The places in a block where a line starts: the bytes from there on. -/
def lineStarts (block : List UInt8) : List (List UInt8) :=
  if block = [] then [] else block :: lineStarts (block.drop (lineEnd block))
termination_by block.length
decreasing_by
  have hpos := lineEnd_pos block
  have hlen := List.length_pos_iff.mpr ‹block ≠ []›
  rw [List.length_drop]
  omega

/-- The places ahead of a client where a line starts. -/
def Ahead.starts (v : Ahead) : List (List UInt8) := (v.1 :: v.2).flatMap lineStarts

/-- The next place is where the round that comes next looks. -/
theorem Ahead.starts_refill {v : Ahead} (hsome : v.refill.1 ≠ []) :
    v.starts = v.refill.1 ::
      Ahead.starts (v.refill.1.drop (lineEnd v.refill.1), v.refill.2) := by
  have hblock : ∀ (block : List UInt8) rest, block ≠ [] →
      (block :: rest).flatMap lineStarts
        = block :: (block.drop (lineEnd block) :: rest).flatMap lineStarts := by
    intro block rest hne
    rw [List.flatMap_cons, lineStarts, if_neg hne, List.flatMap_cons, List.cons_append]
  obtain ⟨unread, coming⟩ := v
  cases unread with
  | cons b bs => exact hblock _ coming hsome
  | nil =>
    cases coming with
    | nil => exact absurd rfl hsome
    | cons c cs =>
      show ([] :: c :: cs).flatMap lineStarts = _
      rw [List.flatMap_cons, lineStarts, if_pos rfl, List.nil_append]
      exact hblock c cs hsome

theorem Ahead.starts_eq_nil {v : Ahead} (hnil : v.starts = []) : v.refill.1 = [] := by
  refine Classical.by_contradiction fun hsome => ?_
  rw [starts_refill hsome] at hnil
  cases hnil

/-- The round took bytes from the get area, or called `::read`. -/
def Progress (s s' : St UInt8) : Prop :=
  s'.self.unread.length < s.self.unread.length ∨ s.inputs.length < s'.inputs.length

section Sees

variable {ρ : Type} {chunks : List (List UInt8)} {v : Ahead} {t : Client ρ}

/-- Taking some bytes off what a round sees is progress. -/
theorem Sees.progress {t' : Client ρ} {i : Nat} (h : Sees chunks v t) (hsome : v.refill.1 ≠ [])
    (hi : 0 < i) (h' : Sees chunks (v.refill.1.drop i, v.refill.2) t') :
    Progress t.buf t'.buf := by
  have hread : chunks.drop t.buf.inputs.length = v.2 := congrArg Prod.snd h.ahead
  have hread' : chunks.drop t'.buf.inputs.length = v.refill.2 := congrArg Prod.snd h'.ahead
  have hunread := h.unread
  have hunread' := h'.unread
  obtain ⟨unread, coming⟩ := v
  cases unread with
  | cons b bs =>
    -- the bytes come out of the get area
    refine .inl ?_
    rw [hunread, hunread']
    show ((b :: bs).drop i).length < (b :: bs).length
    rw [List.length_drop, List.length_cons]
    omega
  | nil =>
    cases coming with
    | nil => exact absurd rfl hsome
    | cons c cs =>
      -- a block was fetched
      refine .inr ?_
      have hlen := congrArg List.length hread
      have hlen' := congrArg List.length hread'
      simp only [Ahead.refill, List.length_drop, List.length_cons] at hlen hlen'
      omega

end Sees

/-- What a round finds where the line `line` starts, and what it leaves behind if it takes that
line. -/
structure Looks {ρ : Type} (K : Kernel) (chunks : List (List UInt8)) (line : List UInt8)
    (lines : List (List UInt8)) (t : Client ρ) (s : St UInt8) : Prop where
  underflow : underflow (K.chunked chunks) t.buf = .ok (peek line) s
  unread : s.self.unread = line
  notEmpty : line ≠ []
  reads : s.Reads chunks
  same : (s.ahead chunks).starts = line :: lines
  readsBehind : (Client.pass { t with buf := s } (lineEnd line)).buf.Reads chunks
  behind : ((Client.pass { t with buf := s } (lineEnd line)).buf.ahead chunks).starts = lines
  progress : Progress t.buf (Client.pass { t with buf := s } (lineEnd line)).buf

theorem looks {ρ : Type} (K : Kernel) {chunks : List (List UInt8)} {t : Client ρ}
    (ht : t.buf.Reads chunks) {line : List UInt8} {lines : List (List UInt8)}
    (hstarts : (t.buf.ahead chunks).starts = line :: lines) :
    ∃ s, Looks K chunks line lines t s := by
  have hsees : Sees chunks (t.buf.ahead chunks) t := ⟨ht, rfl⟩
  have hbytes : (t.buf.ahead chunks).bytes ≠ [] := by
    intro hnil
    obtain ⟨hunread, hcoming⟩ := List.append_eq_nil_iff.mp hnil
    have hnone : (t.buf.ahead chunks).starts = [] := by
      refine List.flatMap_eq_nil_iff.mpr fun block hblock => ?_
      have hempty : block = [] := by
        rcases List.mem_cons.mp hblock with rfl | hmem
        · exact hunread
        · exact List.flatten_eq_nil_iff.mp hcoming block hmem
      rw [hempty, lineStarts, if_pos rfl]
    rw [hnone] at hstarts
    cases hstarts
  have hsome := hsees.refill_ne_nil hbytes
  have hstarts' := hstarts
  rw [Ahead.starts_refill hsome] at hstarts'
  obtain ⟨hline, hlines⟩ := List.cons.inj hstarts'
  obtain ⟨s, hs, hsees', hunread⟩ := hsees.underflow K
  have hpass := hsees'.pass (lineEnd line)
  have hsame : (t.buf.ahead chunks).refill.starts = (t.buf.ahead chunks).starts := by
    have hagain := Ahead.refill_of_ne_nil hsome
    rw [Ahead.starts_refill hsome, Ahead.starts_refill (by rwa [hagain]), hagain]
  rw [hline] at hs hunread hpass hlines hsome
  refine ⟨s, hs, hunread, hsome, hsees'.reads, ?_, hpass.reads, ?_, ?_⟩
  · exact (congrArg Ahead.starts hsees'.ahead).trans (hsame.trans hstarts)
  · exact (congrArg Ahead.starts hpass.ahead).trans hlines
  · rw [← hline] at hpass hsome
    rw [← hline]
    exact hsees.progress hsome (lineEnd_pos _) hpass

/-! ## The scans

Which places in a block make a loop take a line, stop, or go round for ever. -/

/-- FTP: five bytes are enough to go on, and the loop stops where the source says. -/
def Ftp.reader : Scanner (Bool × List UInt8) (List UInt8) where
  sees bytes := 5 ≤ bytes.length
  stops q bytes := Ftp.Stops q.1 q.2 bytes
  next q bytes := (false, Ftp.noted q.1 q.2 bytes)

/-- SMTP: behind a `-` there has to be a CRLF as well. -/
def Smtp.reader : Scanner Unit (List UInt8) where
  sees bytes := 5 ≤ bytes.length ∧ (bytes[3]? = some 45 → [13, 10] <:+: bytes)
  stops _ bytes := bytes[3]? ≠ some 45
  next _ _ := ()

/-! ### FTP -/

theorem Ftp.scans (K : Kernel) (chunks : List (List UInt8)) :
    Scans Ftp.reader (Ftp.round (K.chunked chunks)) (fun x => x.2.buf.Reads chunks)
      (fun x => (x.1, x.2.own)) (fun x => (x.2.buf.ahead chunks).starts)
      (fun x y => Progress x.2.buf y.2.buf) where
  nil x hx hnil := by
    obtain ⟨s, hs, -, -⟩ := Sees.underflow K (t := x.2) ⟨hx, rfl⟩
    rw [Ahead.starts_eq_nil hnil] at hs
    exact ⟨_, _, replyRound_eof hs⟩
  stop x line lines hx hstarts hsees hstops := by
    obtain ⟨s, h⟩ := looks K hx hstarts
    have hround := Ftp.round_passes x.1 h.underflow (h.unread ▸ hsees) (peek_ne_eof h.notEmpty)
    have hstops' : Ftp.Stops x.1 x.2.own s.self.unread := h.unread ▸ hstops
    rw [if_pos hstops'] at hround
    exact ⟨_, _, hround⟩
  step x line lines hx hstarts hsees hstops := by
    obtain ⟨s, h⟩ := looks K hx hstarts
    have hround := Ftp.round_passes x.1 h.underflow (h.unread ▸ hsees) (peek_ne_eof h.notEmpty)
    have hstops' : ¬ Ftp.Stops x.1 x.2.own s.self.unread := h.unread ▸ hstops
    rw [if_neg hstops'] at hround
    -- `replycode` is not part of the buffer
    have hbuf : (Ftp.passed x.1 { x.2 with buf := s }).buf
        = (Client.pass { x.2 with buf := s } (lineEnd line)).buf := by
      rw [← h.unread]
      rfl
    have hown : (Ftp.passed x.1 { x.2 with buf := s }).own = Ftp.noted x.1 x.2.own line := by
      rw [← h.unread]
      rfl
    refine ⟨(false, Ftp.passed x.1 { x.2 with buf := s }), hround, ?_, ?_, ?_, ?_⟩
    · exact hbuf ▸ h.readsBehind
    · exact congrArg (Prod.mk false) hown
    · exact hbuf ▸ h.behind
    · exact hbuf ▸ h.progress
  stuck x line lines hx hstarts hsees := by
    obtain ⟨s, h⟩ := looks K hx hstarts
    have hround := replyRound_short (.again x.1) (Ftp.lineRound x.1) h.underflow
      (peek_ne_eof h.notEmpty) (h.unread ▸ Nat.lt_of_not_le hsees)
    exact ⟨(x.1, { x.2 with buf := s }), hround, h.reads, rfl, h.same.trans hstarts.symm⟩

/-! ### SMTP -/

theorem Smtp.scans (K : Kernel) (chunks : List (List UInt8)) :
    Scans Smtp.reader (Smtp.round (K.chunked chunks)) (fun x => x.2.buf.Reads chunks)
      (fun _ => ()) (fun x => (x.2.buf.ahead chunks).starts)
      (fun x y => Progress x.2.buf y.2.buf) where
  nil x hx hnil := by
    obtain ⟨s, hs, -, -⟩ := Sees.underflow K (t := x.2) ⟨hx, rfl⟩
    rw [Ahead.starts_eq_nil hnil] at hs
    exact ⟨_, _, replyRound_eof hs⟩
  stop x line lines hx hstarts hsees hstops := by
    obtain ⟨s, h⟩ := looks K hx hstarts
    have hround := Smtp.round_passes h.underflow (h.unread ▸ hsees.1) (peek_ne_eof h.notEmpty)
    rw [h.unread, if_neg hstops] at hround
    exact ⟨_, _, hround⟩
  step x line lines hx hstarts hsees hstops := by
    obtain ⟨s, h⟩ := looks K hx hstarts
    have hround := Smtp.round_passes h.underflow (h.unread ▸ hsees.1) (peek_ne_eof h.notEmpty)
    have hdash : (line)[3]? = some 45 := not_not.mp hstops
    have hpasses : Smtp.passes line = lineEnd line :=
      if_pos ((lineEnd_le_iff line).mpr (hsees.2 hdash))
    rw [h.unread, if_pos hdash, hpasses] at hround
    exact ⟨((), _), hround, h.readsBehind, rfl, h.behind, h.progress⟩
  stuck x line lines hx hstarts hsees := by
    obtain ⟨s, h⟩ := looks K hx hstarts
    by_cases hlong : 5 ≤ line.length
    · -- a `-`, but no CRLF: nothing is taken, and the loop does not stop either
      obtain ⟨hdash, hmissing⟩ := Classical.not_imp.mp fun hfound => hsees ⟨hlong, hfound⟩
      have hround := Smtp.round_passes h.underflow (h.unread ▸ hlong) (peek_ne_eof h.notEmpty)
      have hpasses : Smtp.passes line = 0 := if_neg (mt (lineEnd_le_iff line).mp hmissing)
      rw [h.unread, if_pos hdash, hpasses, Client.pass_zero] at hround
      exact ⟨((), _), hround, h.reads, rfl, h.same.trans hstarts.symm⟩
    · have hround := replyRound_short (.again ()) Smtp.lineRound h.underflow
        (peek_ne_eof h.notEmpty) (h.unread ▸ Nat.lt_of_not_le hlong)
      exact ⟨((), { x.2 with buf := s }), hround, h.reads, rfl, h.same.trans hstarts.symm⟩

/-! ## The result

The loop returns if the scan of the blocks comes to a last line or to the end, and with fuel for
every place where a line starts. -/

/-- The call returns, and each of its rounds that goes on makes progress. -/
def Finishes {ρ α β : Type} (call : Nat → ClientM ρ α) (round : β → ClientM ρ (Turn β Unit))
    (x : β × Client ρ) : Prop :=
  (∃ fuel a t', call fuel x.2 = .ok a t') ∧
    ∀ y z, Reaches round x y → Turns round y z → Progress y.2.buf z.2.buf

theorem reads_blocks {s : St UInt8} (harea : ∃ g, s.self.get = some g) (sent : List (List UInt8)) :
    s.Reads (blocks s.rep.gend sent) := by
  refine ⟨harea, fun block hblock => ?_⟩
  obtain ⟨chunk, -, hmem⟩ := List.mem_flatMap.mp hblock
  exact mem_pieces hmem

theorem Ftp.getResponse_ok_iff {K : Kernel} {t : Client (List UInt8)} :
    (∃ fuel a t', Ftp.getResponse K fuel t = .ok a t') ↔
      ∃ fuel a t', loop (Ftp.round K) .outOfFuel fuel true t = .ok a t' := by
  constructor
  · intro ⟨fuel, a, t', hrun⟩
    obtain ⟨_, t1, hloop, -⟩ := of_bind_ok hrun
    rw [Ftp.responseLoop_eq] at hloop
    exact ⟨fuel, _, t1, hloop⟩
  · intro ⟨fuel, a, t', hrun⟩
    rw [← Ftp.responseLoop_eq] at hrun
    exact ⟨fuel, t'.own.head?, t', bind_ok hrun⟩

/-- **When `get_response` returns.** Whatever the server sends before it closes the connection, and
however it is cut, `get_response` returns and every round makes progress exactly if, up to the line
at which the loop stops, wherever a line starts five bytes of the block are left, and in SMTP, if
the fourth of them is a `-`, a CRLF as well. -/
theorem getResponse_finishes_iff (K : Kernel) (sent : List (List UInt8))
    {t : Client (List UInt8)} {u : Client Unit} (ht : ∃ g, t.buf.self.get = some g)
    (hu : ∃ g, u.buf.self.get = some g) :
    let there := K.chunked (blocks t.buf.rep.gend sent)
    let here := K.chunked (blocks u.buf.rep.gend sent)
    (Finishes (Ftp.getResponse there) (Ftp.round there) (true, t) ↔
      Ftp.reader.Ends (true, t.own) (t.buf.ahead (blocks t.buf.rep.gend sent)).starts) ∧
    (Finishes (Smtp.getResponse here) (Smtp.round here) ((), u) ↔
      Smtp.reader.Ends () (u.buf.ahead (blocks u.buf.rep.gend sent)).starts) := by
  intro there here
  constructor
  · have hscan := (Ftp.scans K (blocks t.buf.rep.gend sent)).returns_iff (e := Exc.outOfFuel)
      (x := (true, t)) (reads_blocks ht sent)
    rw [← hscan]
    exact and_congr_left fun _ => Ftp.getResponse_ok_iff
  · have hscan := (Smtp.scans K (blocks u.buf.rep.gend sent)).returns_iff (e := Exc.outOfFuel)
      (x := ((), u)) (reads_blocks hu sent)
    have hloop : ∀ fuel, Smtp.getResponse here fuel = loop (Smtp.round here) .outOfFuel fuel () :=
      fun fuel => Smtp.responseLoop_eq here fuel
    rw [← hscan]
    refine and_congr_left fun _ => exists_congr fun fuel => ?_
    rw [hloop]

/-- A client just connected that keeps nothing else. -/
def caller : Client Unit := ⟨(Ftp.buffering []).buf, some [], ()⟩

/-- `220-hi`, and `220 ok` in a chunk of its own. -/
theorem getResponse_finishes_lines :
    let sent := [[50, 50, 48, 45, 104, 105, 13, 10], [50, 50, 48, 32, 111, 107, 13, 10]]
    let server := Kernel.sink.chunked (blocks 64 sent)
    Finishes (Ftp.getResponse server) (Ftp.round server) (true, Ftp.buffering []) ∧
      Finishes (Smtp.getResponse server) (Smtp.round server) ((), caller) := by
  intro sent server
  have hboth := getResponse_finishes_iff Kernel.sink sent (t := Ftp.buffering []) (u := caller)
    ⟨_, rfl⟩ ⟨_, rfl⟩
  have hstarts : (caller.buf.ahead (blocks 64 sent)).starts = sent := by
    have hblocks : blocks 64 sent = sent := by decide
    show Ahead.starts ([], blocks 64 sent) = sent
    rw [hblocks]
    simp [Ahead.starts, lineStarts, lineEnd, sent]
  have hlong : ∀ line ∈ sent, 5 ≤ line.length := by decide
  have hfirst := hlong _ List.mem_cons_self
  have hsecond := hlong _ (List.mem_cons_of_mem _ List.mem_cons_self)
  have hlast : Ftp.Stops false [50, 50, 48, 32] [50, 50, 48, 32, 111, 107, 13, 10] := by decide
  refine ⟨hboth.1.mpr ?_, hboth.2.mpr ?_⟩
  · show Ftp.reader.Ends (true, []) (caller.buf.ahead (blocks 64 sent)).starts
    rw [hstarts]
    exact ⟨hfirst, .inr ⟨hsecond, .inl hlast⟩⟩
  · show Smtp.reader.Ends () (caller.buf.ahead (blocks 64 sent)).starts
    rw [hstarts]
    exact ⟨⟨hfirst, fun _ => by decide⟩, .inr ⟨⟨hsecond, fun h => by cases h⟩,
      .inl fun h => by cases h⟩⟩

/-- Three bytes and the end of the connection: both loops go round for ever. -/
theorem getResponse_spins_short :
    let server := Kernel.sink.chunked (blocks 64 [[50, 50, 48]])
    ¬ (∃ fuel a t', Ftp.getResponse server fuel (Ftp.buffering []) = .ok a t') ∧
      ¬ ∃ fuel a t', Smtp.getResponse server fuel caller = .ok a t' := by
  intro server
  have hstarts : (caller.buf.ahead (blocks 64 [[50, 50, 48]])).starts = [[50, 50, 48]] := by
    have hblocks : blocks 64 [[50, 50, 48]] = [[50, 50, 48]] := by decide
    show Ahead.starts ([], blocks 64 [[50, 50, 48]]) = _
    rw [hblocks]
    simp [Ahead.starts, lineStarts, lineEnd]
  have hshort : ¬ 5 ≤ [(50 : UInt8), 50, 48].length := by decide
  have hreads : caller.buf.Reads (blocks 64 [[50, 50, 48]]) :=
    reads_blocks (s := caller.buf) ⟨_, rfl⟩ _
  constructor
  · rw [Ftp.getResponse_ok_iff]
    rintro ⟨fuel, a, t', hrun⟩
    have hends : ¬ Ftp.reader.Ends (true, [])
        (caller.buf.ahead (blocks 64 [[50, 50, 48]])).starts := by
      rw [hstarts]
      exact fun h => hshort h.1
    exact ((Ftp.scans Kernel.sink (blocks 64 [[50, 50, 48]])).not_returns (x := (true, _))
      hreads hends fuel).of_ok hrun
  · rintro ⟨fuel, a, t', hrun⟩
    have hends : ¬ Smtp.reader.Ends () (caller.buf.ahead (blocks 64 [[50, 50, 48]])).starts := by
      rw [hstarts]
      exact fun h => hshort h.1.1
    rw [Smtp.getResponse, Smtp.responseLoop_eq] at hrun
    exact ((Smtp.scans Kernel.sink (blocks 64 [[50, 50, 48]])).not_returns (x := ((), _))
      hreads hends fuel).of_ok hrun

end Sockstream
