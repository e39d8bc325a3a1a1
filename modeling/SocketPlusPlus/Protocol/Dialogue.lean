import SocketPlusPlus.Protocol.Data
import SocketPlusPlus.Protocol.ReplyCode
import SocketPlusPlus.Protocol.ReplyStream

/-!
# A peer that answers

A `Peer` said something when it has been sent something: `said` has everything it has said when it
has received some bytes, and what it has said it does not take back. Under a kernel that `Serves` a
peer, a read that returns hands over one or more of the messages that are due, whole. When a read
is made and nothing is due, the kernel may answer what it likes.

`Peer.Heard n s` is what a client knows of the dialogue: it has taken the first `n` messages off its
get area, and what is unread are the messages behind them that have arrived. To hear a message is to
take exactly the next one (`hears_reply` for FTP, for SMTP the theorem of the same name), however
many the kernel has handed over at once.
-/

namespace Sockstream

open Exec Memory

/-- The other end of a connection. -/
structure Peer (ρ : Type) where
  bytes : ρ → List UInt8
  bytes_ne_nil : ∀ r, bytes r ≠ []
  said : List UInt8 → List ρ
  grows : ∀ {bs bs' : List UInt8}, bs <+: bs' → said bs <+: said bs'

namespace Peer

variable {ρ : Type} (P : Peer ρ)

/-- Messages, one behind the other. -/
def text (rs : List ρ) : List UInt8 := rs.flatMap P.bytes

variable {P}

theorem text_append (rs rs' : List ρ) : P.text (rs ++ rs') = P.text rs ++ P.text rs' :=
  List.flatMap_append

theorem text_eq_nil {rs : List ρ} : P.text rs = [] ↔ rs = [] := by
  unfold text
  rw [List.flatMap_eq_nil_iff]
  refine ⟨fun h => ?_, fun h => by simp [h]⟩
  cases rs with
  | nil => rfl
  | cons r rs => exact absurd (h r List.mem_cons_self) (P.bytes_ne_nil r)

/-- What was said first stays what was said first. -/
theorem take_said {bs bs' : List UInt8} (h : bs <+: bs') {n : Nat}
    (hn : n ≤ (P.said bs).length) : (P.said bs').take n = (P.said bs).take n := by
  obtain ⟨more, hmore⟩ := P.grows h
  rw [← hmore, List.take_append_of_le_length hn]

theorem length_said {bs bs' : List UInt8} (h : bs <+: bs') :
    (P.said bs).length ≤ (P.said bs').length := (P.grows h).length_le

end Peer

/-- A read that returns while a message is due hands over one or more of the messages. -/
def Kernel.Serves {ρ : Type} (K : Kernel) (P : Peer ρ) : Prop :=
  ∀ (history : List Event) (len n : Nat) (bs : Received len),
    n < (P.said (wire history)).length →
    received history = P.text ((P.said (wire history)).take n) →
    K.input history .read len = .ok bs →
    ∃ m, n < m ∧ m ≤ (P.said (wire history)).length ∧
      received history ++ bs.1 = P.text ((P.said (wire history)).take m)

/-- Hands over all that is due, if there is room for it; everything else as for `Kernel.sink`. -/
def Kernel.serving {ρ : Type} (P : Peer ρ) : Kernel :=
  { Kernel.sink with
    input := fun history _ len =>
      let due := (P.text (P.said (wire history))).drop (received history).length
      if h : due.length ≤ len then .ok ⟨due, h⟩ else .error 0 }

theorem serves_serving {ρ : Type} (P : Peer ρ) : (Kernel.serving P).Serves P := by
  intro history len n bs hn hreceived hanswer
  refine ⟨_, hn, Nat.le_refl _, ?_⟩
  have hdue : bs.1 = (P.text (P.said (wire history))).drop (received history).length := by
    simp only [Kernel.serving] at hanswer
    split at hanswer
    · cases hanswer
      rfl
    · cases hanswer
  have hsplit : P.text (P.said (wire history))
      = received history ++ P.text ((P.said (wire history)).drop n) := by
    rw [hreceived, ← P.text_append, List.take_append_drop]
  rw [hdue, List.take_length]
  conv_rhs => rw [hsplit]
  rw [hsplit, List.drop_left]

/-- The client has taken the first `n` messages off its get area. -/
structure Peer.Heard {ρ : Type} (P : Peer ρ) (n : Nat) (s : St UInt8) : Prop where
  area : ∃ g, s.self.get = some g
  fetched : ∃ m, n ≤ m ∧ m ≤ (P.said s.wire).length ∧
    s.received = P.text ((P.said s.wire).take m) ∧
    s.self.unread = P.text (((P.said s.wire).take m).drop n)

section Heard

variable {ρ : Type} {P : Peer ρ} {n : Nat} {s s' : St UInt8}

theorem Peer.Heard.le (h : P.Heard n s) : n ≤ (P.said s.wire).length := by
  obtain ⟨m, hn, hm, -⟩ := h.fetched
  omega

/-- Before the peer has said anything. -/
theorem heard_fresh (P : Peer ρ) (platform : Platform) (sock : Int) (gbuf pbuf : Nat → UInt8)
    (errno : Errno) : P.Heard 0 (fresh platform sock gbuf pbuf errno) := by
  have hunread : (fresh platform sock gbuf pbuf errno).self.unread = [] :=
    (unread_nil_iff rfl).mpr (Nat.le_refl _)
  exact ⟨⟨_, rfl⟩, 0, Nat.le_refl 0, Nat.zero_le _, rfl, by rw [hunread, List.take_zero]; rfl⟩

/-- What the client sends may make the peer say more, behind what it has said. -/
theorem Peer.Heard.of_sent (h : P.Heard n s) (hget : s'.self.get = s.self.get)
    (hinputs : s'.inputs = s.inputs) (hwire : s.wire <+: s'.wire) : P.Heard n s' := by
  obtain ⟨g, hg⟩ := h.area
  obtain ⟨m, hn, hm, hreceived, hunread⟩ := h.fetched
  have hlen := P.length_said hwire
  have hsame : s'.self.unread = s.self.unread := by simp only [Streambuf.unread, hget]
  refine ⟨⟨g, hget.trans hg⟩, m, hn, by omega, ?_, ?_⟩
  · rw [P.take_said hwire hm, ← hreceived]
    simp only [St.received, hinputs]
  · rw [P.take_said hwire hm, ← hunread, hsame]

theorem Peer.Heard.of_wrote {cs : List UInt8} (h : P.Heard n s) (hw : Wrote cs s s') :
    P.Heard n s' :=
  h.of_sent hw.get hw.inputs hw.steps.wire_prefix

/-- When everything that was said has been heard, nothing is unread. -/
theorem Peer.Heard.unread_eq_nil (h : P.Heard (P.said s.wire).length s) :
    s.self.unread = [] ∧ s.received = P.text (P.said s.wire) := by
  obtain ⟨m, hn, hm, hreceived, hunread⟩ := h.fetched
  obtain rfl : m = (P.said s.wire).length := by omega
  rw [List.take_length] at hreceived hunread
  rw [List.drop_length] at hunread
  exact ⟨hunread, hreceived⟩

theorem wire_asking (s : St UInt8) : wire s.asking = s.wire := by
  unfold St.asking St.wire
  rw [wire_append, wire_append]
  split <;> split <;> simp [wire, Event.accepted]

theorem received_asking (s : St UInt8) : received s.asking = s.received := by
  unfold St.asking St.received St.inputs received inputs
  rw [List.filterMap_append, List.filterMap_append]
  split <;> split <;> simp [Event.answer?]

/-- While a message is due, `underflow` finds one or throws. -/
theorem underflow_heard {K : Kernel} (hK : K.Serves P) (h : P.Heard n s)
    (hdue : n < (P.said s.wire).length) :
    wp (underflow K) (fun c s' => c = peek s'.self.unread ∧ s'.self.unread ≠ [] ∧ P.Heard n s' ∧
        s'.wire = s.wire)
      (fun e _ => e.IsInputError) s := by
  by_cases hunread : s.self.unread = []
  · obtain ⟨g, hget⟩ := h.area
    obtain ⟨m, hn, hm, hreceived, hrest⟩ := h.fetched
    -- nothing has arrived that was not heard
    have hmn : m = n := by
      have hnil := P.text_eq_nil.mp (hrest.symm.trans hunread)
      have hlen := congrArg List.length hnil
      simp at hlen
      omega
    subst hmn
    have hread := (read_spec K (s.rep.gend * CharType.sizeof UInt8) s).and
      (read_asking K (s.rep.gend * CharType.sizeof UInt8) s)
    refine (underflow_read K hget ((unread_nil_iff hget).mp hunread) hread).mono ?_
      (fun _ _ h => h.1.1)
    rintro c s' ⟨bs, s1, ⟨-, h1, b, hanswer, hb⟩, houtcome⟩
    obtain ⟨m', hmore, hm', htext⟩ := hK s.asking _ m b (by rwa [wire_asking])
      (by rw [wire_asking, received_asking, hreceived]) hanswer
    rw [wire_asking] at hm' htext
    rw [received_asking, hb] at htext
    have hwire : s1.wire = s.wire := by rw [h1.wire, List.append_nil]
    have hreceived1 : s1.received = P.text ((P.said s.wire).take m') := by
      rw [h1.received, ← htext]
      simp [answerBytes]
    have hbytes : bs = P.text (((P.said s.wire).take m').drop m) := by
      have hsplit : (P.said s.wire).take m' = (P.said s.wire).take m
          ++ ((P.said s.wire).take m').drop m := by
        have hfirst : ((P.said s.wire).take m').take m = (P.said s.wire).take m := by
          rw [List.take_take, Nat.min_eq_left (by omega)]
        rw [← hfirst, List.take_append_drop]
      rw [hsplit, P.text_append, hreceived] at htext
      exact List.append_cancel_left htext
    have hne : bs ≠ [] := by
      intro hnil
      have hlen := congrArg List.length (P.text_eq_nil.mp (hbytes.symm.trans hnil))
      simp at hlen
      omega
    rcases houtcome with ⟨hnil, -⟩ | ⟨-, rfl, rfl⟩
    · exact absurd hnil hne
    · have hthere : slice (storeBytes g.mem bs) 0 (bs.length - 0) = bs := slice_storeBytes g.mem bs
      refine ⟨?_, ?_, ⟨⟨_, rfl⟩, m', by omega, ?_, ?_, ?_⟩, hwire⟩
      · show ((storeBytes g.mem bs 0).toNat : Int) = peek (slice _ 0 (bs.length - 0))
        exact (peek_slice _ _ (List.length_pos_iff.mpr hne)).symm
      · exact fun hnil => hne (hthere.symm.trans hnil)
      · exact hwire ▸ hm'
      · exact hreceived1.trans (by rw [← hwire]; rfl)
      · show slice (storeBytes g.mem bs) 0 (bs.length - 0) = P.text (((P.said s1.wire).take m').drop m)
        rw [hthere, hwire, hbytes]
  · rw [wp_iff_of_ok (underflow_unread K hunread)]
    exact ⟨rfl, hunread, h, rfl⟩

end Heard

/-! ## Hearing a message

A call of `get_response` that starts with nothing unread, or with whole messages unread, takes
exactly one message. -/

section Hears

variable {ρ τ β : Type} {P : Peer ρ} {n : Nat} {r : ρ} {t t' : Client τ}

/-- Reading a reply keeps the write side, and the get area where it is. -/
structure ReadOnly (t t' : Client τ) : Prop where
  out : Smtp.SameOut t.buf t'.buf
  area : (∃ g, t.buf.self.get = some g) → ∃ g, t'.buf.self.get = some g

instance : IsPreorder (Client τ) ReadOnly where
  refl _ := ⟨refl_of Smtp.SameOut _, id⟩
  trans _ _ _ h h' := ⟨h.out.trans h'.out, fun hg => h'.area (h.area hg)⟩

theorem readOnly_bump (t : Client τ) (n : Nat) :
    ReadOnly t { t with buf := { t.buf with self := t.buf.self.bump n } } := by
  refine ⟨⟨rfl, rfl, rfl⟩, ?_⟩
  rintro ⟨g, hg⟩
  exact ⟨{ g with gptr := g.gptr + n }, congrArg (Option.map _) hg⟩

theorem reading_readOnly (K : Kernel) : Reading K (ReadOnly (τ := τ)) where
  underflow t := by
    unfold onBuf
    rw [wp_zoom]
    have hread : ∀ len, wp (read K len) (fun _ s => Smtp.SameOut t.buf s ∧ s.self = t.buf.self)
        (fun _ s => Smtp.SameOut t.buf s ∧ s.self = t.buf.self) t.buf := by
      intro len
      refine (read_spec K len t.buf).mono (fun _ _ h => ⟨.of_exchanged h.2, h.2.self⟩) ?_
      rintro _ s ⟨-, ins, -, h⟩
      exact ⟨.of_exchanged h, h.self⟩
    cases hget : t.buf.self.get with
    | none =>
      rw [wp_iff_of_ok (underflow_of_shut K hget)]
      exact refl_of ReadOnly t
    | some g =>
      by_cases hsome : g.gptr < g.egptr
      · rw [wp_congr (underflow_of_get K hget), if_pos hsome]
        exact refl_of ReadOnly t
      · refine (underflow_read K hget (by omega) (hread _)).mono ?_ ?_
        · rintro c s ⟨bs, s1, ⟨hout, hself⟩, ⟨-, -, rfl⟩ | ⟨-, -, rfl⟩⟩
          · exact ⟨hout, fun hg => by rwa [← hself] at hg⟩
          · exact ⟨⟨hout.rep, hout.put, hout.wire⟩, fun _ => ⟨_, rfl⟩⟩
        · rintro e s ⟨hout, hself⟩
          exact ⟨hout, fun hg => by rwa [← hself] at hg⟩
  gbump n t := by
    rw [wp_iff_of_ok (onBuf_ok (gbump_eq n t.buf))]
    exact readOnly_bump t n
  write _ := .modify fun _ => ⟨⟨rfl, rfl, rfl⟩, id⟩

/-- What `underflow` fetches the first round of a loop may as well have found. -/
theorem wp_loop_fetched {K : Kernel} {round : β → ClientM τ (Turn β Unit)} {b : β}
    {short : Turn β Unit} {line : Client τ → ClientM τ (Turn β Unit)} {fuel : Nat} {e : Exc}
    {Q : Unit → Client τ → Prop} {E : Exc → Client τ → Prop}
    (hround : round b = replyRound K short line)
    (hunder : wp (underflow K)
      (fun c s => c = peek s.self.unread ∧ s.self.unread ≠ [] ∧
        wp (loop round e (fuel + 1) b) Q E { t with buf := s })
      (fun e' s => E e' { t with buf := s }) t.buf) :
    wp (loop round e (fuel + 1) b) Q E t := by
  cases hrun : underflow K t.buf with
  | error e' s =>
    have hthrown := hunder.of_error hrun
    rw [loop, wp_bind, hround, wp_iff_of_error (replyRound_error hrun)]
    exact hthrown
  | ok c s =>
    obtain ⟨hc, hne, hwp⟩ := hunder.of_ok hrun
    have hagain : underflow K s = .ok c s := hc ▸ underflow_unread K hne
    have hce : c ≠ eof := hc ▸ peek_ne_eof hne
    have hsame : round b t = round b { t with buf := s } := by
      rw [hround]
      by_cases hshort : s.self.unread.length < 5
      · rw [replyRound_short short line hrun hce hshort]
        exact (replyRound_short (t := { t with buf := s }) short line hagain hce hshort).symm
      · rw [replyRound_line hrun hce (by omega)]
        exact (replyRound_line (t := { t with buf := s }) hagain hce (by omega)).symm
    rw [loop] at hwp ⊢
    rwa [wp_congr (bind_congr_start hsame)]

/-- If anything is unread, it starts with the next message. -/
theorem Peer.Heard.front {s : St UInt8} (h : P.Heard n s) (hr : (P.said s.wire)[n]? = some r)
    (hne : s.self.unread ≠ []) :
    ∃ rest, s.self.unread = P.bytes r ++ rest ∧
      ∀ s', Smtp.SameOut s s' → s'.sys = s.sys → (∃ g, s'.self.get = some g) →
        s'.self.unread = rest → P.Heard (n + 1) s' := by
  obtain ⟨m, hn, hm, hreceived, hunread⟩ := h.fetched
  have hmore : n < m := by
    by_contra hle
    rw [List.drop_eq_nil_of_le (by simp; omega)] at hunread
    exact hne hunread
  have hhead : ((P.said s.wire).take m)[n]? = some r := by
    rw [List.getElem?_take_of_lt hmore, hr]
  obtain ⟨hlt, hget⟩ := List.getElem?_eq_some_iff.mp hhead
  rw [List.drop_eq_getElem_cons hlt, hget] at hunread
  refine ⟨_, hunread, ?_⟩
  intro s' hout hsys harea hrest
  refine ⟨harea, m, hmore, hout.wire ▸ hm, ?_, ?_⟩
  · rw [hout.wire, ← hreceived]
    simp only [St.received, St.inputs, hsys]
  · rw [hout.wire, hrest]
    rfl

/-- The rule for hearing a message: what a loop does when the message is buffered it does whenever
the message is due. -/
theorem wp_hear {K : Kernel} {round : β → ClientM τ (Turn β Unit)} {b : β} {short : Turn β Unit}
    {line : Client τ → ClientM τ (Turn β Unit)} {fuel : Nat} {Q : Client τ → Client τ → Prop}
    (hK : K.Serves P) (hround : round b = replyRound K short line)
    (hwithin : Within ReadOnly (loop round .outOfFuel fuel b)) (hfuel : 0 < fuel)
    (hbuffered : ∀ (t : Client τ) rest, t.buf.self.unread = P.bytes r ++ rest →
      ∃ t', loop round .outOfFuel fuel b t = .ok () t' ∧ t'.buf.self.unread = rest ∧
        t'.buf.sys = t.buf.sys ∧ Q t t')
    (hQ : ∀ s t', Q { t with buf := s } t' → Q t t')
    (h : P.Heard n t.buf) (hr : (P.said t.buf.wire)[n]? = some r) :
    wp (loop round .outOfFuel fuel b)
      (fun _ t' => P.Heard (n + 1) t'.buf ∧ ReadOnly t t' ∧ Q t t')
      (fun e _ => e.IsInputError) t := by
  obtain ⟨hdue, -⟩ := List.getElem?_eq_some_iff.mp hr
  obtain ⟨fuel, rfl⟩ : ∃ k, fuel = k + 1 := ⟨fuel - 1, by omega⟩
  have hall : wp (loop round .outOfFuel (fuel + 1) b)
      (fun _ t' => P.Heard (n + 1) t'.buf ∧ Q t t') (fun e _ => e.IsInputError) t := by
    refine wp_loop_fetched hround ((underflow_heard hK h hdue).mono ?_ (fun _ _ h => h))
    rintro c s ⟨hc, hne, hheard, hwire⟩
    refine ⟨hc, hne, ?_⟩
    obtain ⟨rest, hrest, hnext⟩ := hheard.front (hwire ▸ hr) hne
    obtain ⟨t', hrun, htaken, hsys, hdone⟩ := hbuffered { t with buf := s } rest hrest
    have hread := (hwithin { t with buf := s }).of_ok hrun
    rw [wp_iff_of_ok hrun]
    exact ⟨hnext t'.buf hread.out hsys (hread.area hheard.area) htaken, hQ s t' hdone⟩
  exact (hall.and (hwithin t)).mono (fun _ _ h => ⟨h.1.1, h.2, h.1.2⟩) (fun _ _ h => h.1)

end Hears

/-! ## FTP -/

namespace Ftp

variable {ρ : Type} {P : Peer ρ} {K : Kernel} {n fuel : Nat} {r : ρ} {t : Client (List UInt8)}

/-- What a reply leaves behind: the code, and its lines in `o`. -/
def Answered (R : Reply) (t t' : Client (List UInt8)) : Prop :=
  t'.own = R.code ++ [32] ∧ t'.o = t.o.map (· ++ R.bytes)

/-- The loop takes a buffered reply line by line. -/
theorem loop_reply (K : Kernel) (R : Reply) {rest : List UInt8} (hfuel : R.lines.length ≤ fuel)
    (t : Client (List UInt8)) (hunread : t.buf.self.unread = R.bytes ++ rest) :
    ∃ t', loop (round K) .outOfFuel fuel true t = .ok () t' ∧ t'.buf.self.unread = rest ∧
      t'.buf.sys = t.buf.sys ∧ Answered R t t' := by
  let I : Bool → List (List UInt8) → Client (List UInt8) → Prop := fun firstline lines t1 =>
    Expects R.code firstline lines ∧ (firstline = false → t1.own = R.code ++ [32]) ∧
      (∀ line ∈ lines, ¬ [13, 10] <:+: line) ∧ t1.buf.self.unread = linesBytes lines ++ rest ∧
      t1.o.map (· ++ linesBytes lines) = t.o.map (· ++ R.bytes) ∧ t1.buf.sys = t.buf.sys
  have hstart : I true R.lines t := ⟨R.shape, nofun, R.noCrlf, hunread, rfl, rfl⟩
  refine loop_along (I := I) ?_ R.shape.ne_nil hstart hfuel
  rintro firstline line lines t1 ⟨hexp, hnoted, hlines, hunread1, ho, hsys⟩
  obtain ⟨t2, hround, hunread2, ho2, hown2, hsys2⟩ := round_buffered (K := K) R.code_length
    R.code_digits hexp hnoted (hlines line List.mem_cons_self) hunread1
  have hjoin : t2.o.map (· ++ linesBytes lines) = t.o.map (· ++ R.bytes) := by
    rw [← ho, ho2, Option.map_map]
    simp [linesBytes_cons, Function.comp_def]
  by_cases hlast : lines = []
  · subst hlast
    refine .inl ⟨rfl, t2, hround, by simpa [linesBytes] using hunread2, hsys2.trans hsys, hown2, ?_⟩
    simpa [linesBytes] using hjoin
  · rw [if_neg hlast] at hround
    exact .inr ⟨hlast, false, t2, hround, hexp.tail hlast, fun _ => hown2,
      fun l hl => hlines l (List.mem_cons_of_mem _ hl), hunread2, hjoin, hsys2.trans hsys⟩

/-- `get_response` hears the next message, and returns the first digit of its code. -/
theorem hears_reply (hK : K.Serves P) {R : Reply} (hbytes : P.bytes r = R.bytes)
    (hfuel : R.lines.length ≤ fuel) (h : P.Heard n t.buf)
    (hr : (P.said t.buf.wire)[n]? = some r) :
    wp (getResponse K fuel)
      (fun code t' => code = R.code.head? ∧ P.Heard (n + 1) t'.buf ∧ ReadOnly t t' ∧
        t'.o = t.o.map (· ++ R.bytes))
      (fun e _ => e.IsInputError) t := by
  have hpos : 0 < fuel := by
    have := List.length_pos_iff.mpr R.shape.ne_nil
    omega
  have hwithin : Within ReadOnly (loop (round K) .outOfFuel fuel true) := by
    rw [← responseLoop_eq]
    exact within_responseLoop (reading_readOnly K) (fun _ => .modify fun _ => ⟨⟨rfl, rfl, rfl⟩, id⟩)
      fuel true
  unfold getResponse
  rw [wp_bind, responseLoop_eq]
  refine (wp_hear (Q := Answered R) hK rfl hwithin hpos ?_ (fun _ _ h => h) h hr).mono ?_
    (fun _ _ h => h)
  · exact fun t1 rest hunread => loop_reply K R hfuel t1 (hbytes ▸ hunread)
  · rintro _ t' ⟨hheard, hread, hown, ho⟩
    have hcode : R.code ≠ [] := List.ne_nil_of_length_pos (by rw [R.code_length]; decide)
    refine ⟨?_, hheard, hread, ho⟩
    rw [hown, List.head?_append_of_ne_nil _ hcode]

end Ftp

/-! ## SMTP -/

namespace Smtp

variable {ρ : Type} {P : Peer ρ} {K : Kernel} {n fuel : Nat} {r : ρ} {t : Client Unit}

/-- A line that is buffered is passed on, and whether another one follows is seen from it. -/
theorem round_buffered {body rest : List UInt8} {b : UInt8} (hbody : ¬ [13, 10] <:+: body)
    (hlong : 3 ≤ body.length) (hfourth : (body ++ [13])[3]? = some b)
    (hunread : t.buf.self.unread = crlf body ++ rest) :
    ∃ t', round K () t = .ok (if b = 45 then .again () else .leave ()) t' ∧
      t'.buf.self.unread = rest ∧ t'.o = t.o.map (· ++ crlf body) ∧ t'.buf.sys = t.buf.sys := by
  have hlen := length_crlf body
  have hfive : 5 ≤ t.buf.self.unread.length := by
    rw [hunread, List.length_append]
    omega
  have hne : t.buf.self.unread ≠ [] := List.ne_nil_of_length_pos (by omega)
  have hmark : t.buf.self.unread[3]? = some b := by
    have hcrlf : crlf body = body ++ [13] ++ [10] := by simp [crlf]
    rw [hunread, List.getElem?_append_left (by omega), hcrlf,
      List.getElem?_append_left (by simp; omega), hfourth]
  obtain ⟨t', hround, hbuf, ho⟩ := round_line hbody (underflow_unread K hne) (peek_ne_eof hne) hfive
    hunread
  rw [hmark] at hround
  simp only [Option.some.injEq] at hround
  have hsys : t'.buf.sys = t.buf.sys := by
    rw [hbuf]
    rfl
  refine ⟨t', hround, ?_, ho, hsys⟩
  rw [hbuf]
  show (t.buf.self.bump (crlf body).length).unread = rest
  rw [Streambuf.unread_bump, hunread, List.drop_left]

theorem Plain.noCrlf {body : List UInt8} (h : Plain (body ++ [13])) : ¬ [13, 10] <:+: body := by
  intro hpart
  exact h.noFeed (List.mem_append_left _ (hpart.subset (by simp)))

/-- The line in front of the others. -/
theorem Continuing.body {line : List UInt8} (h : Continuing line) :
    ∃ body, line = body ++ [13] ∧ 3 ≤ body.length := by
  obtain ⟨code, text, ⟨hlen, -⟩, rfl⟩ := h
  exact ⟨code ++ 45 :: text, by simp, by simp; omega⟩

theorem Final.body {line : List UInt8} (h : Final line) :
    ∃ body, line = body ++ [13] ∧ 3 ≤ body.length := by
  obtain ⟨code, ⟨hlen, -⟩, ⟨text, rfl⟩ | rfl⟩ := h
  · exact ⟨code ++ 32 :: text, by simp, by simp; omega⟩
  · exact ⟨code, rfl, by omega⟩

/-- The loop takes a buffered reply line by line. -/
theorem loop_reply (K : Kernel) (R : Reply) {rest : List UInt8} (hfuel : R.lines.length < fuel)
    (t : Client Unit) (hunread : t.buf.self.unread = R.bytes ++ rest) :
    ∃ t', loop (round K) .outOfFuel fuel () t = .ok () t' ∧ t'.buf.self.unread = rest ∧
      t'.buf.sys = t.buf.sys ∧ t'.o = t.o.map (· ++ R.bytes) := by
  let I : Unit → List (List UInt8) → Client Unit → Prop := fun _ lines t1 =>
    ∃ R' : Reply, lines = R'.lines ++ [R'.last] ∧ t1.buf.self.unread = R'.bytes ++ rest ∧
      t1.o.map (· ++ R'.bytes) = t.o.map (· ++ R.bytes) ∧ t1.buf.sys = t.buf.sys
  have hstart : I () (R.lines ++ [R.last]) t := ⟨R, rfl, hunread, rfl, rfl⟩
  refine loop_along (I := I) ?_ (by simp) hstart (by simp; omega)
  rintro ⟨⟩ line lines t1 ⟨⟨front, last, hcontinuing, hfinal⟩, heq, hunread1, ho, hsys⟩
  cases front with
  | nil =>
    obtain ⟨rfl, rfl⟩ := List.cons.inj heq
    obtain ⟨body, rfl, hlong⟩ := hfinal.1.body
    obtain ⟨b, hfourth, hb⟩ := hfinal.1.fourth
    have hbytes : Reply.bytes ⟨[], body ++ [13], hcontinuing, hfinal⟩ = crlf body := by
      simp [Reply.bytes, unlines, crlf]
    rw [hbytes] at hunread1 ho
    obtain ⟨t2, hround, hunread2, ho2, hsys2⟩ := round_buffered (K := K) hfinal.2.noCrlf hlong
      hfourth hunread1
    rw [if_neg hb] at hround
    exact .inl ⟨rfl, t2, hround, hunread2, hsys2.trans hsys, ho2.trans ho⟩
  | cons first front =>
    obtain ⟨rfl, rfl⟩ := List.cons.inj heq
    obtain ⟨hmore, hplain⟩ := hcontinuing line List.mem_cons_self
    obtain ⟨body, rfl, hlong⟩ := hmore.body
    let tail : Reply := ⟨front, last, fun l hl => hcontinuing l (List.mem_cons_of_mem _ hl), hfinal⟩
    have hbytes : Reply.bytes ⟨(body ++ [13]) :: front, last, hcontinuing, hfinal⟩
        = crlf body ++ tail.bytes := by simp [Reply.bytes, unlines, crlf, tail]
    rw [hbytes] at hunread1 ho
    rw [List.append_assoc] at hunread1
    obtain ⟨t2, hround, hunread2, ho2, hsys2⟩ := round_buffered (K := K) hplain.noCrlf hlong
      hmore.fourth hunread1
    refine .inr ⟨by simp, (), t2, hround, tail, rfl, hunread2, ?_, hsys2.trans hsys⟩
    rw [← ho, ho2, Option.map_map]
    simp [Function.comp_def]

/-- `get_response` hears the next message. -/
theorem hears_reply (hK : K.Serves P) {R : Reply} (hbytes : P.bytes r = R.bytes)
    (hfuel : R.lines.length < fuel) (h : P.Heard n t.buf)
    (hr : (P.said t.buf.wire)[n]? = some r) :
    wp (getResponse K fuel)
      (fun _ t' => P.Heard (n + 1) t'.buf ∧ ReadOnly t t' ∧ t'.o = t.o.map (· ++ R.bytes))
      (fun e _ => e.IsInputError) t := by
  have hwithin : Within ReadOnly (loop (round K) .outOfFuel fuel ()) := by
    rw [← responseLoop_eq]
    exact within_responseLoop (reading_readOnly K) fuel
  unfold getResponse
  rw [responseLoop_eq]
  exact wp_hear (Q := fun t t' => t'.o = t.o.map (· ++ R.bytes)) hK rfl hwithin (by omega)
    (fun t1 rest hunread => loop_reply K R hfuel t1 (hbytes ▸ hunread)) (fun _ _ h => h) h hr

end Smtp

end Sockstream
