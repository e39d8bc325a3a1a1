import Mathlib.Data.List.Infix
import SocketPlusPlus.Protocol.Bounds
import SocketPlusPlus.Protocol.Ftp

/-!
# Codes of earlier replies

`ftpbuf::get_response` keeps the code in a member that only the first line of a reply sets. If the
connection is at its end when it is called, the loop is left before that, and what is returned is
the code of an earlier reply, or whatever the array held at the start. If an earlier call has
stopped within a reply, because a line of it was cut or because it threw, what is returned is a byte
out of the rest of that reply.

The result is about all runs of commands (`replies_current`): the code of a call is that of the
current reply, and the decisions that were made on it are decisions on the current reply, if the
call began where a reply starts (`AtReply`), the connection was not at its end (`St.AtEnd`), and the
first line was there as a whole. Without the first two it is not so.
-/

namespace Sockstream

open Exec Memory

/-! ## The end of a connection

Whether a `::read` would return 0 can be asked before it is made: the kernel decides by the history,
and `read` has put its tests there before it calls. -/

/-- What has happened when `read` comes to its system call. -/
def St.asking (s : St UInt8) : List Event :=
  s.sys.history ++ ((if s.rep.rtmo ≠ -1 then [.readready s.rep.rtmo (.ok true)] else [])
    ++ (if s.rep.oob then [.atmark (.ok false)] else []))

/-- No byte is unread, and none comes: there is no get area, or the next `::read` returns 0. -/
def St.AtEnd (K : Kernel) (s : St UInt8) : Prop :=
  s.self.get = none ∨ s.self.unread = [] ∧
    ∃ bs, K.input s.asking .read (s.rep.gend * CharType.sizeof UInt8) = .ok bs ∧ bs.1 = []

section AtEnd

variable (K : Kernel) {s : St UInt8}

instance (s : St UInt8) : Decidable (s.AtEnd K) :=
  let answer := K.input s.asking .read (s.rep.gend * CharType.sizeof UInt8)
  decidable_of_iff
    (s.self.get.isNone ∨ s.self.unread = [] ∧ answer.toOption.any (·.1.isEmpty)) <| by
    have hanswer : answer.toOption.any (·.1.isEmpty) ↔ ∃ bs, answer = .ok bs ∧ bs.1 = [] := by
      cases answer <;> simp [Except.toOption]
    rw [Option.isNone_iff_eq_none, hanswer]
    exact Iff.rfl

/-- A test that is made under a condition, when it comes out as `b`. -/
theorem guarded_history (p : Prop) [Decidable p] (b : Bool) (ask : List Event → Except Errno Bool)
    (note : Except Errno Bool → Event) (operation : String) (s : St UInt8) :
    wp (if p then query ask note operation else pure b)
      (fun b' s' => b' = b → s'.rep = s.rep ∧
        s'.sys.history = s.sys.history ++ if p then [note (.ok b)] else [])
      (fun _ _ => True) s := by
  by_cases hp : p
  · simp only [if_pos hp]
    refine (query_answers ask note operation s).mono ?_ (fun _ _ _ => trivial)
    rintro b' s' ⟨hanswer, hrep, hhistory⟩ rfl
    rw [hanswer] at hhistory
    exact ⟨hrep, hhistory⟩
  · rw [if_neg hp]
    intro _
    exact ⟨rfl, by rw [if_neg hp, List.append_nil]⟩

theorem awaitReadready_asking (operation : String) (s : St UInt8) :
    wp (awaitReadready K operation) (fun _ s' => s'.sys.history = s.asking)
      (fun _ _ => True) s := by
  unfold awaitReadready
  rw [wp_bind, wp_get, wp_bind]
  refine (guarded_history (s.rep.rtmo ≠ -1) true (K.readready · s.rep.rtmo)
    (.readready s.rep.rtmo) "sockbuf::is_readready" s).mono ?_ (fun _ _ h => h)
  intro ready s1 h1
  cases ready with
  | false => trivial
  | true =>
    obtain ⟨hrep, hhistory⟩ := h1 rfl
    rw [if_pos rfl, wp_bind]
    refine (guarded_history (s.rep.oob = true) false K.atmark .atmark "sockbuf::atmark" s1).mono ?_
      (fun _ _ h => h)
    intro mark s2 h2
    cases mark with
    | true => trivial
    | false =>
      show s2.sys.history = s.asking
      rw [(h2 rfl).2, hhistory, List.append_assoc]
      rfl

theorem read_asking (len : Nat) (s : St UInt8) :
    wp (read K len)
      (fun bs s' => Exchanged [] [.ok bs] s s' ∧
        ∃ b : Received len, K.input s.asking .read len = .ok b ∧ b.1 = bs)
      (fun _ _ => True) s := by
  unfold read
  rw [wp_bind]
  have hawait := (awaitReadready_spec K "sockbuf::read" s).and
    (awaitReadready_asking K "sockbuf::read" s)
  refine hawait.mono ?_ (fun _ _ _ => trivial)
  intro _ s1 ⟨h1, hhistory⟩
  rw [wp_bind]
  cases hin : K.input s1.sys.history .read len with
  | ok b =>
    obtain ⟨s2, hs2, h2⟩ := input_ok hin
    rw [wp_iff_of_ok hs2]
    exact ⟨h1.quiet_trans h2, b, hhistory ▸ hin, rfl⟩
  | error e =>
    obtain ⟨s2, hs2, -⟩ := input_error hin
    rw [wp_iff_of_ok hs2]
    exact wp_throwErrno fun _ _ => trivial

/-- `underflow` returns `eof` exactly at the end of the connection, and what it reads is unread. -/
theorem underflow_hears (s : St UInt8) :
    wp (underflow K)
      (fun c s' => (c = eof ↔ s.AtEnd K) ∧ c = peek s'.self.unread ∧
        ∃ ins, s'.inputs = s.inputs ++ ins ∧
          s'.self.unread = s.self.unread ++ ins.flatMap answerBytes)
      (fun _ _ => True) s := by
  cases hget : s.self.get with
  | none =>
    have hnil : s.self.unread = [] := by
      unfold Streambuf.unread
      rw [hget]
    rw [wp_iff_of_ok (underflow_of_shut K hget), hnil]
    exact ⟨⟨fun _ => .inl hget, fun _ => rfl⟩, rfl, [], (List.append_nil _).symm, rfl⟩
  | some g =>
    by_cases hunread : s.self.unread = []
    · have hempty : g.egptr ≤ g.gptr := (unread_nil_iff hget).mp hunread
      have hend : ∀ bs : Received (s.rep.gend * CharType.sizeof UInt8),
          K.input s.asking .read (s.rep.gend * CharType.sizeof UInt8) = .ok bs →
          (s.AtEnd K ↔ bs.1 = []) := by
        intro bs hbs
        constructor
        · rintro (hnone | ⟨-, bs', hbs', hnil⟩)
          · cases hget.symm.trans hnone
          · cases hbs.symm.trans hbs'
            exact hnil
        · exact fun hnil => .inr ⟨hunread, bs, hbs, hnil⟩
      refine (underflow_read K hget hempty (read_asking K _ s)).mono ?_ (fun _ _ h => h)
      rintro c s' ⟨bs, s1, ⟨h1, b, hb, rfl⟩, ⟨hnil, rfl, rfl⟩ | ⟨hne, rfl, rfl⟩⟩
      · -- the end of the file: `setg` is not called
        have hsame : s'.self.unread = [] := by rw [h1.self, hunread]
        rw [hend b hb, hsame, hunread]
        exact ⟨⟨fun _ => hnil, fun _ => rfl⟩, rfl, _, h1.inputs, by simp [answerBytes, hnil]⟩
      · have hthere : slice (storeBytes g.mem b.1) 0 (b.1.length - 0) = b.1 :=
          slice_storeBytes g.mem b.1
        have hpeek : ((storeBytes g.mem b.1 0).toNat : Int) = peek b.1 := by
          rw [← slice_storeBytes g.mem b.1, peek_slice _ _ (List.length_pos_iff.mpr hne),
            slice_storeBytes]
        show (((storeBytes g.mem b.1 0).toNat : Int) = eof ↔ _) ∧
          ((storeBytes g.mem b.1 0).toNat : Int)
            = peek (slice (storeBytes g.mem b.1) 0 (b.1.length - 0)) ∧ ∃ ins,
          s1.inputs = s.inputs ++ ins ∧ slice (storeBytes g.mem b.1) 0 (b.1.length - 0) = _
        rw [hend b hb, hthere, hpeek, hunread, peek_eq_eof]
        exact ⟨Iff.rfl, rfl, _, h1.inputs, by simp [answerBytes]⟩
    · rw [wp_iff_of_ok (underflow_unread K hunread)]
      refine ⟨⟨fun heof => absurd heof (peek_ne_eof hunread), ?_⟩, rfl, [],
        (List.append_nil _).symm, (List.append_nil _).symm⟩
      rintro (hnone | ⟨hnil, -⟩)
      · cases hget.symm.trans hnone
      · exact absurd hnil hunread

end AtEnd

/-! ## The code of one call

The server's bytes are one stream for the whole connection, and a call of `get_response` takes the
next piece of it. The code that the call returns means something only if this piece starts where a
reply starts, and if the line of which the code is the first character is in it. -/

namespace Ftp

/-- Between `s` and `s'` the client has gone over the bytes `cs`, whether they were unread in `s` or
have come since. -/
def Consumed (cs : List UInt8) (s s' : St UInt8) : Prop :=
  ∃ ins, s'.inputs = s.inputs ++ ins ∧
    s.self.unread ++ ins.flatMap answerBytes = cs ++ s'.self.unread

instance (cs : List UInt8) (s s' : St UInt8) : Decidable (Consumed cs s s') :=
  let ins := s'.inputs.drop s.inputs.length
  decidable_of_iff (s'.inputs = s.inputs ++ ins ∧
      s.self.unread ++ ins.flatMap answerBytes = cs ++ s'.self.unread) <| by
    constructor
    · exact fun h => ⟨ins, h⟩
    · rintro ⟨ins', hins, hcs⟩
      have hsame : ins = ins' := by simp [ins, hins]
      exact hsame ▸ ⟨hins, hcs⟩

/-- The lines of a reply, whatever three characters the server takes for its code. Anything but a
blank behind them means that there are more lines. -/
inductive Framed : List (List UInt8) → Prop where
  | single {code : List UInt8} (hlen : code.length = 3) (text : List UInt8) :
      Framed [code ++ 32 :: text]
  | multi {code rest : List UInt8} (hlen : code.length = 3) (hrest : rest.head? ≠ some 32)
      {bs : List (List UInt8)} (hbs : TailLines code bs) : Framed ((code ++ rest) :: bs)

def IsReply (lines : List (List UInt8)) : Prop :=
  Framed lines ∧ ∀ line ∈ lines, ¬ [13, 10] <:+: line

/-- What the client has gone over since `start` are whole replies. -/
def AtReply (start s : St UInt8) : Prop :=
  ∃ replies : List (List (List UInt8)), (∀ lines ∈ replies, IsReply lines) ∧
    Consumed (replies.flatMap linesBytes) start s

/-- The client has gone over a line, and `code` is its first character. -/
def TakesLine (s s' : St UInt8) (code : Option UInt8) : Prop :=
  ∃ line rest, ¬ [13, 10] <:+: line ∧ Consumed (crlf line ++ rest) s s' ∧
    code = (crlf line).head?

/-- `code` is the first character of the current reply: the call began where a reply starts, and has
taken the first line of it as a whole. -/
def Fresh (start : St UInt8) (before after : Client (List UInt8)) (code : Option UInt8) : Prop :=
  AtReply start before.buf ∧ TakesLine before.buf after.buf code

section GetResponse

variable {K : Kernel} {s s' s'' : St UInt8} {cs ds : List UInt8} {t t1 : Client (List UInt8)}

theorem Consumed.trans (h : Consumed cs s s') (h' : Consumed ds s' s'') :
    Consumed (cs ++ ds) s s'' := by
  obtain ⟨ins, hins, hcs⟩ := h
  obtain ⟨ins', hins', hds⟩ := h'
  refine ⟨ins ++ ins', by rw [hins', hins, List.append_assoc], ?_⟩
  calc s.self.unread ++ (ins ++ ins').flatMap answerBytes
      = cs ++ (s'.self.unread ++ ins'.flatMap answerBytes) := by
        rw [List.flatMap_append, ← List.append_assoc, hcs, List.append_assoc]
    _ = cs ++ ds ++ s''.self.unread := by rw [hds, List.append_assoc]

/-- The client has read, and stepped over `k` bytes, or over fewer if there are no more. -/
theorem consumed_of_underflow {c : Int} (h : underflow K s = .ok c s') (k : Nat) :
    Consumed (s'.self.unread.take k) s { s' with self := s'.self.bump k } := by
  obtain ⟨-, -, ins, hins, hunread⟩ := (underflow_hears K s).of_ok h
  refine ⟨ins, hins, ?_⟩
  show _ = _ ++ (s'.self.bump k).unread
  rw [Streambuf.unread_bump, List.take_append_drop, hunread]

theorem bump_zero (b : Streambuf UInt8) : b.bump 0 = b := by
  obtain ⟨get, put, sockname, stored, copied⟩ := b
  cases get <;> rfl

theorem consumed_nil {c : Int} (h : underflow K s = .ok c s') : Consumed [] s s' := by
  have hnone := consumed_of_underflow h 0
  rwa [bump_zero] at hnone

/-- At the end of the connection there is no line. -/
theorem not_takesLine_of_eof {code : Option UInt8} (h : underflow K s = .ok eof s') :
    ¬ TakesLine s s' code := by
  obtain ⟨-, hpeek, ins, hins, hunread⟩ := (underflow_hears K s).of_ok h
  rintro ⟨line, rest, -, ⟨ins', hins', hcs⟩, -⟩
  obtain rfl : ins = ins' := List.append_cancel_left (hins.symm.trans hins')
  rw [← hunread, peek_eq_eof.mp hpeek.symm] at hcs
  simp [crlf] at hcs

theorem strncpy_head? {bytes : List UInt8} {b : UInt8} (hb : bytes.head? = some b) (n : Nat)
    (rest : List UInt8) : (strncpy (n + 1) bytes ++ rest).head? = some b := by
  cases bytes with
  | nil => cases hb
  | cons c cs =>
    obtain rfl : c = b := Option.some.inj hb
    unfold strncpy cstring
    rw [List.take_succ_cons]
    by_cases hzero : c = 0
    · simp [hzero, List.replicate_succ]
    · simp [hzero]

/-- Behind a first line `replycode` begins with its first byte. -/
theorem noted_head? (replycode : List UInt8) {bytes : List UInt8} {b : UInt8}
    (hb : bytes.head? = some b) :
    (noted true replycode bytes).head? = some b := by
  have htake : (bytes.take 3).head? = some b := by
    rw [List.head?_take, if_neg (by decide)]
    exact hb
  exact strncpy_head? htake 2 [32]

theorem TakesLine.trans {code : Option UInt8} (h : TakesLine s s' code) (h' : Consumed ds s' s'') :
    TakesLine s s'' code := by
  obtain ⟨line, rest, hline, hcs, hcode⟩ := h
  refine ⟨line, rest ++ ds, hline, ?_, hcode⟩
  rw [← List.append_assoc]
  exact hcs.trans h'

/-- After the first line, further rounds keep the code. -/
theorem takesLine_round (h : TakesLine s t1.buf t1.own.head?) :
    wp (round K false)
      (fun turn t2 => match turn with
        | .again first => first = false ∧ TakesLine s t2.buf t2.own.head?
        | .leave () => TakesLine s t2.buf t2.own.head?)
      (fun _ _ => True) t1 := by
  unfold round
  apply wp_replyRound
  · exact fun _ _ _ => trivial
  · exact fun s1 hc => h.trans (consumed_nil hc)
  · exact fun c s1 hc _ _ => ⟨rfl, h.trans (consumed_nil hc)⟩
  · intro c s1 hc _ hlong
    have hpassed := h.trans (consumed_of_underflow hc (lineEnd s1.self.unread))
    rw [wp_iff_of_ok (lineRound_eq false hlong)]
    by_cases hstops : Stops false t1.own s1.self.unread
    · rw [if_pos hstops]
      exact hpassed
    · rw [if_neg hstops]
      exact ⟨rfl, hpassed⟩

/-- What a round leaves behind that finds too few bytes. -/
def Stuck (t : Client (List UInt8)) : Prop :=
  t.buf.self.unread ≠ [] ∧ t.buf.self.unread.length < 5

/-- The first round: at the end of the connection it takes no line, and else it takes the first
line, unless it does not come to one. -/
theorem first_round (K : Kernel) (t : Client (List UInt8)) :
    wp (round K true)
      (fun turn t' =>
        turn = .leave () ∧ t.buf.AtEnd K ∧ ¬ TakesLine t.buf t'.buf t'.own.head? ∨
        turn ≠ .again true ∧ ¬ t.buf.AtEnd K ∧
          (t.buf.CrlfThere K → TakesLine t.buf t'.buf t'.own.head?) ∨
        turn = .again true ∧ Stuck t')
      (fun _ _ => True) t := by
  have hears := underflow_hears K t.buf
  unfold round
  apply wp_replyRound
  · exact fun _ _ _ => trivial
  · intro s hc
    obtain ⟨hend, -⟩ := hears.of_ok hc
    exact .inl ⟨rfl, hend.mp rfl, not_takesLine_of_eof hc⟩
  · intro c s hc heof hshort
    obtain ⟨-, hpeek, -⟩ := hears.of_ok hc
    exact .inr (.inr ⟨rfl, fun hnil => heof (hpeek.trans (peek_eq_eof.mpr hnil)), hshort⟩)
  · -- the line sets `replycode`
    intro c s hc heof hlong
    obtain ⟨hend, -⟩ := hears.of_ok hc
    rw [wp_iff_of_ok (lineRound_eq true hlong)]
    refine .inr (.inl ⟨by split <;> simp, fun h => heof (hend.mpr h), fun hcrlf => ?_⟩)
    obtain ⟨line, more, hunread, hline⟩ := exists_crlf (hcrlf c s hc hlong)
    have hcs := consumed_of_underflow hc (lineEnd s.self.unread)
    have htaken : s.self.unread.take (lineEnd s.self.unread) = crlf line := by
      rw [hunread, lineEnd_crlf hline, List.take_left]
    have hne : crlf line ≠ [] := by simp [crlf]
    obtain ⟨b, hb⟩ := Option.ne_none_iff_exists'.mp (mt List.head?_eq_none_iff.mp hne)
    have hhead : s.self.unread.head? = some b := by
      rw [hunread, List.head?_append_of_ne_nil _ hne, hb]
    rw [htaken] at hcs
    refine ⟨line, [], hline, by rwa [List.append_nil], ?_⟩
    rw [hb]
    exact noted_head? t.own hhead

/-- At the end of the connection `get_response` takes no line. Otherwise, if there is a CRLF in the
get area when the first line is looked at, the code is the first character of this line. -/
theorem getResponse_takesLine (K : Kernel) (fuel : Nat) (t : Client (List UInt8)) :
    wp (getResponse K fuel)
      (fun code t' => (¬ t.buf.AtEnd K → t.buf.CrlfThere K → TakesLine t.buf t'.buf code) ∧
        (TakesLine t.buf t'.buf code → ¬ t.buf.AtEnd K))
      (fun _ _ => True) t := by
  unfold getResponse
  rw [wp_bind, responseLoop_eq]
  show wp _ (fun _ t' => (¬ t.buf.AtEnd K → t.buf.CrlfThere K →
    TakesLine t.buf t'.buf t'.own.head?) ∧ (TakesLine t.buf t'.buf t'.own.head? →
      ¬ t.buf.AtEnd K)) _ t
  cases fuel with
  | zero => trivial
  | succ fuel =>
    rw [loop, wp_bind]
    refine (first_round K t).mono ?_ (fun _ _ h => h)
    rintro turn t1 (⟨rfl, hend, hnone⟩ | ⟨hturn, hopen, htakes⟩ | ⟨rfl, hstuck⟩)
    · exact ⟨fun hopen => absurd hend hopen, fun htakes => absurd htakes hnone⟩
    · cases turn with
      | leave a => exact ⟨fun _ => htakes, fun _ => hopen⟩
      | again first =>
        have hfirst : first = false := by
          -- a round that took a line goes on behind the first line
          cases first with
          | false => rfl
          | true => exact absurd rfl hturn
        by_cases hcrlf : t.buf.CrlfThere K
        · have hrest : wp (loop (round K) .outOfFuel fuel first)
              (fun _ t' => TakesLine t.buf t'.buf t'.own.head?) (fun _ _ => True) t1 := by
            refine wp_loop
              (I := fun (first : Bool) t2 => first = false ∧ TakesLine t.buf t2.buf t2.own.head?)
              ?_ (fun _ _ _ => trivial) ⟨hfirst, htakes hcrlf⟩ fuel
            rintro first t2 ⟨rfl, h2⟩
            refine (takesLine_round h2).mono ?_ (fun _ _ h => h)
            intro turn t3 h3
            cases turn with
            | again first => exact h3
            | leave a => exact h3
          exact hrest.mono (fun _ _ h => ⟨fun _ _ => h, fun _ => hopen⟩) (fun _ _ h => h)
        · exact wp_of_forall (fun _ _ => ⟨fun _ h => absurd h hcrlf, fun _ => hopen⟩)
            fun _ _ => trivial
    -- too few bytes are there: the loop looks at them for ever
    · exact (loop_short rfl (underflow_unread K hstuck.1) (peek_ne_eof hstuck.1) hstuck.1 hstuck.2 _
        fuel).mono (fun _ _ h => h.elim) (fun _ _ _ => trivial)

end GetResponse

/-! ## The codes of a run

The notes of a run say which codes were returned and compared. Each is judged by those before it. -/

/-- The last thing noted is that `get_response` has returned `code`. -/
def LastReply (notes : List Note) (code : Option UInt8) : Prop :=
  ∃ before after, notes.head? = some (.replied before after code)

/-- A note is as it should be, given what was noted before it: `get_response` returned the code of
the current reply, a decision is one on the code just returned, and a method returns this code too,
unless it returns `rca_error` of its own. -/
def Note.Good (start : St UInt8) (older : List Note) : Note → Prop
  | .replied before after code => Fresh start before after code
  | .compared code => LastReply older code
  | .returned code => LastReply older code ∨ older.head? = some .rejects ∧ code = some rcaError
  | _ => True

/-- Every note of a run that began at `start` is as it should be. -/
def Current (start : St UInt8) : List Note → Prop
  | [] => True
  | n :: older => n.Good start older ∧ Current start older

/-- `get_response` was called where a reply starts, and not at the end of the connection. -/
def Note.Heard (K : Kernel) (start : St UInt8) : Note → Prop
  | .replied before _ _ => AtReply start before.buf ∧ ¬ before.buf.AtEnd K
  | _ => True

/-- Besides, the first line was not cut: the get area has its CRLF when it is looked at. -/
def Note.Due (K : Kernel) (start : St UInt8) : Note → Prop
  | .replied before _ _ =>
    AtReply start before.buf ∧ ¬ before.buf.AtEnd K ∧ before.buf.CrlfThere K
  | _ => True

/-- The note is as it should be if it was due, and only if it was heard. -/
def Note.Settles (K : Kernel) (start : St UInt8) (older : List Note) (n : Note) : Prop :=
  (n.Due K start → n.Good start older) ∧ (n.Good start older → n.Heard K start)

def Settled (K : Kernel) (start : St UInt8) : List Note → Prop
  | [] => True
  | n :: older => n.Settles K start older ∧ Settled K start older

theorem Settled.current {K : Kernel} {start : St UInt8} {notes : List Note}
    (h : Settled K start notes) :
    ((∀ n ∈ notes, n.Due K start) → Current start notes) ∧
      (Current start notes → ∀ n ∈ notes, n.Heard K start) := by
  induction notes with
  | nil => simp [Current]
  | cons n older ih =>
    obtain ⟨⟨hgood, hheard⟩, hrest⟩ := h
    obtain ⟨ihgood, ihheard⟩ := ih hrest
    simp only [List.forall_mem_cons]
    exact ⟨fun hdue => ⟨hgood hdue.1, ihgood hdue.2⟩,
      fun hcurrent => ⟨hheard hcurrent.1, ihheard hcurrent.2⟩⟩

/-- What the methods do to the notes. -/
def Keeps (K : Kernel) (start : St UInt8) (b b' : Ftpbuf) : Prop :=
  Settled K start b.notes → Settled K start b'.notes

instance (K : Kernel) (start : St UInt8) : IsPreorder Ftpbuf (Keeps K start) where
  refl _ := id
  trans _ _ _ h h' := h' ∘ h

section Keeps

variable {α : Type} {K : Kernel} {start : St UInt8}

theorem within_note {n : Note} (h : ∀ older, n.Settles K start older) :
    Within (Keeps K start) (note n) := fun _ hb => ⟨h _, hb⟩

theorem within_onCtl (c : ClientM (List UInt8) α) : Within (Keeps K start) (onCtl c) :=
  .of_rest (fun _ _ hb => hb) c

end Keeps

/-! ## The methods

A method that asks for replies answers with the code of the last one, or rejects. This is proved
along the text of each method. -/

/-- A method returns the code just returned by `get_response`, or `rca_error` of its own. -/
def Ends (notes : List Note) (code : Option UInt8) : Prop :=
  LastReply notes code ∨ notes.head? = some .rejects ∧ code = some rcaError

/-- A program that keeps the notes as they should be and returns a code as `R` says. -/
def Answers (K : Kernel) (start : St UInt8) (R : List Note → Option UInt8 → Prop)
    (c : FtpM (Option UInt8)) : Prop :=
  ∀ b, wp c (fun code b' => Keeps K start b b' ∧ R b'.notes code) (fun _ b' => Keeps K start b b') b

section Answers

variable {α : Type} {E : Env} {K : Kernel} {start : St UInt8}
  {R : List Note → Option UInt8 → Prop} {c d : FtpM (Option UInt8)}

theorem Answers.within (h : Answers K start R c) : Within (Keeps K start) c := fun b =>
  (h b).mono (fun _ _ h => h.1) (fun _ _ h => h)

theorem Answers.ends (h : Answers K start LastReply c) : Answers K start Ends c := fun b =>
  (h b).mono (fun _ _ h => ⟨h.1, .inl h.2⟩) (fun _ _ h => h)

theorem Answers.bind {c : FtpM α} {f : α → FtpM (Option UInt8)} (hc : Within (Keeps K start) c)
    (hf : ∀ a, Answers K start R (f a)) : Answers K start R (c >>= f) := by
  intro b
  rw [wp_bind]
  refine (hc b).mono ?_ (fun _ _ h => h)
  intro a b1 h1
  exact (hf a b1).mono (fun _ _ h => ⟨h.1 ∘ h1, h.2⟩) (fun _ _ h => h ∘ h1)

theorem Answers.ite {p : Prop} [Decidable p] (hc : Answers K start R c) (hd : Answers K start R d) :
    Answers K start R (if p then c else d) := by
  split
  · exact hc
  · exact hd

theorem Answers.throw (e : Exc) : Answers K start R (throw e) := fun _ hb => hb

/-- What comes after the answer leaves the notes alone. -/
theorem Answers.after {r : Except Sockerr Unit} (hc : Answers K start R c) :
    Answers K start R (do
      let ret ← c
      answered r
      pure ret) := by
  intro b
  rw [wp_bind]
  refine (hc b).mono ?_ (fun _ _ h => h)
  intro ret b1 h1
  cases r with
  | ok _ => exact h1
  | error e => exact h1.1

/-- A decision is one on the reply that was just returned. -/
theorem Answers.decide {f : Option UInt8 → FtpM (Option UInt8)} (hc : Answers K start LastReply c)
    (hf : ∀ code, Answers K start R (f code)) :
    Answers K start R (do
      let code ← c
      note (.compared code)
      f code) := by
  intro b
  rw [wp_bind]
  refine (hc b).mono ?_ (fun _ _ h => h)
  intro code b1 ⟨h1, hlast⟩
  have hnote : Keeps K start b1 { b1 with notes := .compared code :: b1.notes } := fun hb =>
    ⟨⟨fun _ => hlast, fun _ => trivial⟩, hb⟩
  rw [wp_bind]
  exact (hf code _).mono (fun _ _ h => ⟨h.1 ∘ hnote ∘ h1, h.2⟩) (fun _ _ h => h ∘ hnote ∘ h1)

theorem getResponse_answers (E : Env) : Answers E.K start LastReply (Ftpbuf.getResponse E) := by
  intro b
  unfold Ftpbuf.getResponse
  rw [wp_bind, wp_get, wp_bind]
  unfold note onCtl
  rw [wp_modify, wp_bind, wp_zoom]
  have hasks : ∀ notes, Note.asks.Settles E.K start notes := fun _ =>
    ⟨fun _ => trivial, fun _ => trivial⟩
  refine (getResponse_takesLine E.K E.fuel b.ctl).mono ?_ (fun _ _ _ hb => ⟨hasks _, hb⟩)
  rintro code t ⟨htakes, hopen⟩
  refine ⟨fun hb => ⟨⟨?_, ?_⟩, hasks _, hb⟩, b.ctl, t, rfl⟩
  · rintro ⟨hat, hcomes, hwhole⟩
    exact ⟨hat, htakes hcomes hwhole⟩
  · exact fun hfresh => ⟨hfresh.1, hopen hfresh.2⟩

theorem sendCmd_answers (E : Env) (cmd : List UInt8) (arg : Option (List UInt8)) :
    Answers E.K start LastReply (Ftpbuf.sendCmd E cmd arg) := by
  have hend : Answers E.K start LastReply (do
      let _ ← onCtl (onBuf (xsputn E.K [13, 10]))
      let _ ← onCtl (onBuf (sync E.K))
      Ftpbuf.getResponse E) :=
    .bind (within_onCtl _) fun _ => .bind (within_onCtl _) fun _ => getResponse_answers E
  unfold Ftpbuf.sendCmd
  refine .bind (within_onCtl _) fun _ => ?_
  cases arg with
  | none => exact hend
  | some arg => exact .bind (within_onCtl _) fun _ => .bind (within_onCtl _) fun _ => hend

theorem reject_answers (K : Kernel) : Answers K start Ends Ftpbuf.reject := fun _ =>
  ⟨fun hb => ⟨⟨fun _ => trivial, fun _ => trivial⟩, hb⟩, .inr ⟨rfl, rfl⟩⟩

theorem useraddr_answers (E : Env) (sa : SockInetAddr) :
    Answers E.K start LastReply (Ftpbuf.useraddr E sa) := by
  unfold Ftpbuf.useraddr
  refine .bind (.ite ?_ (.pure _)) fun _ => sendCmd_answers E _ _
  cases E.hostAddr with
  | none => exact .throw _
  | some sAddr => exact .pure _

theorem ftpdata_answers (E : Env) (portno : Int) (i : Option (List UInt8)) (o : Option Sink)
    (cmd : List UInt8) (arg : Option (List UInt8)) :
    Answers E.K start Ends (Ftpbuf.ftpdata E portno i o cmd arg) := by
  have hput : ∀ bytes, Within (Keeps E.K start) (modify (Ftpbuf.put bytes o) : FtpM Unit) := by
    intro bytes b hb
    cases o with
    | none => exact hb
    | some o => cases o <;> exact hb
  have hclosed : ∀ c, Within (Keeps E.K start) (note (.closed c)) := fun c =>
    within_note fun _ => ⟨fun _ => trivial, fun _ => trivial⟩
  unfold Ftpbuf.ftpdata
  refine .bind .get fun b => .bind (.of_eq (within_answered _)) fun _ => ?_
  refine .bind (.of_eq (within_bindUntilSuccess _ _ _)) fun _ => ?_
  refine .bind (.of_eq (within_answered _)) fun sa => ?_
  refine .bind (useraddr_answers E sa).within fun _ => ?_
  refine .bind (.of_eq (within_answered _)) fun _ => ?_
  refine .decide (sendCmd_answers E cmd arg) fun code => .after ?_
  refine .ite (reject_answers E.K) (.bind .get fun b1 => ?_)
  refine .ite (.bind (within_recvData hput hclosed _ _) fun _ => (getResponse_answers E).ends) ?_
  cases i with
  | none => exact (getResponse_answers E).ends
  | some rest =>
    have herror : Within (Keeps E.K start) (note .writeError) := within_note fun _ =>
      ⟨fun _ => trivial, fun _ => trivial⟩
    exact .bind (within_sendData herror hclosed _ _ rest) fun _ => (getResponse_answers E).ends

theorem list_answers (E : Env) (rpath : Option (List UInt8)) (justnames : Int) :
    Answers E.K start Ends (Ftpbuf.list E rpath justnames) :=
  .ite (ftpdata_answers E _ _ _ _ _) (ftpdata_answers E _ _ _ _ _)

theorem getfile_answers (E : Env) (rpath lpath : Option (List UInt8)) :
    Answers E.K start Ends (Ftpbuf.getfile E rpath lpath) := by
  have hopen : Within (Keeps E.K start)
      (modify fun b => { b with file := if E.creates (lpath <|> rpath) then some [] else none } :
        FtpM Unit) := fun b hb => hb
  have hrest := Answers.bind hopen fun _ =>
    ftpdata_answers E 10000 none (some .file) [82, 69, 84, 82] rpath
  unfold Ftpbuf.getfile
  cases rpath with
  | none => exact .bind (list_answers E none 0).within fun _ => hrest
  | some rpath => exact hrest

/-- A method that is given a local path. -/
theorem local_answers (E : Env) (lpath : Option (List UInt8)) {f : List UInt8 → FtpM (Option UInt8)}
    (hf : ∀ path, Answers E.K start Ends (f path)) :
    Answers E.K start Ends (match lpath with
      | none => Ftpbuf.reject
      | some lpath => f lpath) := by
  cases lpath with
  | none => exact reject_answers E.K
  | some lpath => exact hf lpath

theorem rename_answers (E : Env) (rpath newrpath : Option (List UInt8)) :
    Answers E.K start Ends (Ftpbuf.rename E rpath newrpath) := by
  refine .ite (reject_answers E.K) ?_
  refine .decide (sendCmd_answers E _ _) fun code => ?_
  exact .ite (reject_answers E.K) (sendCmd_answers E _ _).ends

theorem call_answers (E : Env) (c : Command) : Answers E.K start Ends (c.call E) := by
  have hplain : ∀ cmd, Answers E.K start Ends (Ftpbuf.sendCmd E cmd none) := fun cmd =>
    (sendCmd_answers E cmd none).ends
  have harg : ∀ cmd arg, Answers E.K start Ends (Ftpbuf.sendCmd E cmd (some arg)) := fun cmd arg =>
    (sendCmd_answers E cmd (some arg)).ends
  cases c with
  | getResponse => exact (getResponse_answers E).ends
  | useraddr sa => exact (useraddr_answers E sa).ends
  | useraddrHost hostname portno =>
    show Answers E.K start Ends (Ftpbuf.useraddrHost E hostname portno)
    unfold Ftpbuf.useraddrHost
    cases E.resolve hostname with
    | none => exact .throw _
    | some sAddr => exact (useraddr_answers E _).ends
  | getfile rpath lpath => exact getfile_answers E rpath lpath
  | list rpath justnames => exact list_answers E rpath justnames
  | putfile lpath rpath => exact local_answers E lpath fun _ => ftpdata_answers E _ _ _ _ _
  | putfileUnique lpath => exact local_answers E lpath fun _ => ftpdata_answers E _ _ _ _ _
  | append lpath rpath => exact local_answers E lpath fun _ => ftpdata_answers E _ _ _ _ _
  | rename rpath newrpath => exact rename_answers E rpath newrpath
  | help | noop | quit | abort | pwd | system | status => exact hplain _
  | serverPort n | allocate n | restart n => exact harg _ _
  | _ => exact (sendCmd_answers E _ _).ends

theorem within_run (E : Env) (c : Command) : Within (Keeps E.K start) (c.run E) := by
  intro b
  unfold Command.run
  rw [wp_bind]
  refine (call_answers E c b).mono ?_ (fun _ _ h => h)
  intro code b1 ⟨h1, hends⟩ hb
  exact ⟨⟨fun _ => hends, fun _ => trivial⟩, h1 hb⟩

end Answers

/-- The notes of a run of commands on a new `ftpbuf`. -/
def runNotes (E : Env) (buf : St UInt8) (out : Option (List UInt8)) (replycode : List UInt8)
    (commands : List Command) : List Note :=
  (runAll (commands.map (Command.run E)) (Ftpbuf.init buf out replycode)).2.notes

theorem runNotes_settled (E : Env) (buf : St UInt8) (out : Option (List UInt8))
    (replycode : List UInt8) (commands : List Command) :
    Settled E.K buf (runNotes E buf out replycode commands) := by
  have hrun : ∀ c ∈ commands.map (Command.run E), ∀ b : Ftpbuf, Settled E.K buf b.notes →
      wp c (fun _ b' => Settled E.K buf b'.notes) (fun _ b' => Settled E.K buf b'.notes) b := by
    intro c hc b hb
    obtain ⟨command, -, rfl⟩ := List.mem_map.mp hc
    exact (within_run E command b).mono (fun _ _ h => h hb) (fun _ _ h => h hb)
  have hstart : Settled E.K buf (Ftpbuf.init buf out replycode).notes := trivial
  exact runAll_invariant hrun hstart

/-- **Reply codes in a run.** After any sequence of commands on any control connection: every call
of `get_response` that returned has returned the first character of the reply it has read, the
decisions of `ftpdata` and `rename` were made on the reply just read, and every method returned the
code of its last reply or `rca_error` of its own. This is so if whenever `get_response` was called
the replies before had been read to their ends, the connection was not at its end, and the first
line was not cut; and of these only the last can fail without harm. -/
theorem replies_current (E : Env) (buf : St UInt8) (out : Option (List UInt8))
    (replycode : List UInt8) (commands : List Command) :
    ((∀ n ∈ runNotes E buf out replycode commands, n.Due E.K buf) →
      Current buf (runNotes E buf out replycode commands)) ∧
    (Current buf (runNotes E buf out replycode commands) →
      ∀ n ∈ runNotes E buf out replycode commands, n.Heard E.K buf) :=
  (runNotes_settled E buf out replycode commands).current

/-- What the methods of a run returned, the last one first. -/
def returns (notes : List Note) : List (Option UInt8) := notes.filterMap fun n =>
  match n with
  | .returned code => some code
  | _ => none

/-- A client reads the greeting of a server that sends the given chunks, and renames a file. -/
def renamed (chunks : List (List UInt8)) : List Note :=
  runNotes (.over chunks 4 (.over .sink)) (fresh .small 3 (fun _ => 0) (fun _ => 0) 0) (some [])
    [0, 0, 0, 0] [.getResponse, .rename (some [97]) (some [98])]

/-- `220 ok`, `350 ok` and `250 ok` -/
def oks : List (List (List UInt8)) :=
  [[[50, 50, 48, 32, 111, 107]], [[51, 53, 48, 32, 111, 107]], [[50, 53, 48, 32, 111, 107]]]

theorem isReply_oks : ∀ lines ∈ oks, IsReply lines := by
  have hframed : ∀ a b, Framed [[a, b, 48, 32, 111, 107]] := fun a b =>
    @Framed.single [a, b, 48] rfl [111, 107]
  have hlines : ∀ lines ∈ oks, ∀ line ∈ lines, ¬ [13, 10] <:+: line := by decide
  intro lines hmem
  refine ⟨?_, hlines lines hmem⟩
  simp only [oks, List.mem_cons, List.not_mem_nil, or_false] at hmem
  rcases hmem with rfl | rfl | rfl <;> exact hframed _ _

instance (K : Kernel) (s : St UInt8) : Decidable (s.CrlfThere K) :=
  match hrun : underflow K s with
  | .error e s1 => .isTrue fun c s2 h => by cases hrun.symm.trans h
  | .ok c s1 =>
    decidable_of_iff (5 ≤ s1.self.unread.length → [13, 10] <:+: s1.self.unread) <| by
      constructor
      · intro hthere c' s2 h
        cases hrun.symm.trans h
        exact hthere
      · exact fun hthere => hthere c s1 hrun

/-- `get_response` was called behind one of the replies `oks`, and the next was there. -/
def Note.BehindOk (K : Kernel) (start : St UInt8) : Note → Prop
  | .replied before _ _ =>
    (∃ n < 3, Consumed ((oks.take n).flatMap linesBytes) start before.buf) ∧
      ¬ before.buf.AtEnd K ∧ before.buf.CrlfThere K
  | _ => True

instance (K : Kernel) (start : St UInt8) (n : Note) : Decidable (n.BehindOk K start) := by
  cases n with
  | replied before after code => exact inferInstanceAs (Decidable (_ ∧ _ ∧ _))
  | _ => exact .isTrue trivial

/-- With a reply in each chunk everything is as it should be. -/
theorem replies_current_renamed :
    let notes := renamed (oks.map linesBytes)
    returns notes = [some 50, some 50] ∧
      Current (fresh .small 3 (fun _ => 0) (fun _ => 0) 0) notes := by
  refine ⟨by decide +kernel, (replies_current _ _ _ _ _).1 ?_⟩
  have hbehind : ∀ n ∈ renamed (oks.map linesBytes),
      n.BehindOk (Kernel.sink.chunked (oks.map linesBytes))
        (fresh .small 3 (fun _ => 0) (fun _ => 0) 0) := by decide +kernel
  intro n hn
  have hn' := hbehind n hn
  cases n with
  | replied before after code =>
    obtain ⟨⟨k, -, hconsumed⟩, hrest⟩ := hn'
    exact ⟨⟨_, fun lines h => isReply_oks lines (List.mem_of_mem_take h), hconsumed⟩, hrest⟩
  | _ => trivial

/-- The connection was not at its end when `get_response` was called. -/
def Note.Comes (K : Kernel) : Note → Prop
  | .replied before _ _ => ¬ before.buf.AtEnd K
  | _ => True

instance (K : Kernel) (n : Note) : Decidable (n.Comes K) := by
  cases n with
  | replied before after code => exact inferInstanceAs (Decidable (¬ before.buf.AtEnd K))
  | _ => exact .isTrue trivial

/-- After the greeting nothing comes any more, and `rename` takes the code of the greeting for the
replies to `RNFR` and `RNTO`: it reports success. -/
theorem replies_stale :
    let notes := renamed [[50, 50, 48, 32, 111, 107, 13, 10]]
    returns notes = [some 50, some 50] ∧
      ¬ Current (fresh .small 3 (fun _ => 0) (fun _ => 0) 0) notes := by
  refine ⟨by decide +kernel, fun h => ?_⟩
  have hheard := ((runNotes_settled _ _ _ _ _).current).2 h
  have hcomes : ∀ n ∈ renamed [[50, 50, 48, 32, 111, 107, 13, 10]],
      n.Comes (Kernel.sink.chunked [[50, 50, 48, 32, 111, 107, 13, 10]]) := by
    intro n hn
    have hn' := hheard n hn
    cases n with
    | replied before after code => exact hn'.2
    | _ => trivial
  exact absurd hcomes (by decide +kernel)

/-- The greeting `220 hello` is cut in two, and `rename` is refused on the rest of it, though the
server sends `350 ok`. -/
example : returns (renamed [[50, 50, 48, 32, 104, 101], [108, 108, 111, 13, 10],
    [51, 53, 48, 32, 111, 107, 13, 10]]) = [some 52, some 50] := by decide +kernel

end Ftp

end Sockstream
