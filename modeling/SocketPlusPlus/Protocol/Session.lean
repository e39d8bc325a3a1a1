import SocketPlusPlus.Logic.Machine
import SocketPlusPlus.Protocol.Dialogue
import SocketPlusPlus.Protocol.Operations

/-!
# An FTP client and its server

`ftpbuf` has no list of the replies it still expects. It asks for one reply behind each command, for
a second one when a transfer was not refused, and relies on the server saying just as much. A
`Server` does: it reads commands, greets, and answers every command with replies that suit it
(`Request.Suits`). What it says may depend on everything it was asked before.

The result is about whole sessions over a connection whose reads bring whole replies, however many
at once (`Kernel.Serves`; a reply that is cut is the business of `Protocol.Segmentation`), and about
calls whose texts can stand in a command line (`Command.Sendable`): as long as the calls return,
every code belongs to the command it is returned for, and behind every call nothing that was said is
still to be heard (`session_in_step`). A client that does not read the greeting is one reply behind
for the whole session (`session_behind`).
-/

namespace Sockstream

/-- The code is an error for `ftpbuf`. -/
def Reply.Refuses (R : Reply) : Prop := Ftp.refused R.code.head? = true

namespace Ftp

open Exec Memory Lines

/-! ## The server

A server is a machine that answers requests. What it has said so far follows from the bytes on the
wire. -/

/-- The verbs of the commands that move a file over a data connection. -/
def transfers : List Verb := [.retr, .stor, .stou, .appe, .list, .nlst]

def Request.Transfers (r : Request) : Prop := r.verb ∈ transfers.map Verb.text

instance (r : Request) : Decidable r.Transfers := inferInstanceAs (Decidable (_ ∈ _))

theorem transfers_request (v : Verb) (arg : Option (List UInt8)) :
    (v.request arg).Transfers ↔ v ∈ transfers := by
  show v.text ∈ transfers.map Verb.text ↔ v ∈ transfers
  cases v <;> decide

theorem Verb.text_ne_rnfr {v : Verb} (hv : v ≠ .rnfr) : v.text ≠ Verb.rnfr.text := by
  cases v <;> first | decide | exact absurd rfl hv

/-- One reply to a command; to a transfer a refusal, or a mark and the result. -/
def Request.Suits (r : Request) (rs : List Reply) : Prop :=
  if r.Transfers then (∃ R, rs = [R] ∧ R.Refuses) ∨ ∃ mark R, rs = [mark, R] ∧ ¬ mark.Refuses
  else ∃ R, rs = [R]

structure Server (σ : Type) extends Machine σ Request Reply where
  greeting : Reply
  suits : ∀ (s : σ) (r : Request), r.Suits (step s r).1

variable {σ : Type}

/-- The server as it is seen through its connection. -/
def Server.peer (S : Server σ) : Peer Reply where
  bytes := Reply.bytes
  bytes_ne_nil R := linesBytes_ne_nil R.shape.ne_nil
  said bs := S.greeting :: S.outputs (requests bs)
  grows h := (List.prefix_cons_inj _).mpr (Machine.outputs_of_part ((complete_of_part h).map _))

/-- No reply is longer than the loop of `get_response` may run. -/
def Server.Fits (S : Server σ) (fuel : Nat) : Prop :=
  S.greeting.lines.length ≤ fuel ∧ ∀ s r, ∀ R ∈ (S.step s r).1, R.lines.length ≤ fuel

theorem requests_flatMap {reqs : List Request} (h : ∀ r ∈ reqs, r.Plain) :
    requests (reqs.flatMap Request.bytes) = reqs := by
  induction reqs with
  | nil => rfl
  | cons r reqs ih =>
    rw [List.flatMap_cons, requests_bytes (h r List.mem_cons_self),
      ih fun r' hr' => h r' (List.mem_cons_of_mem r hr')]

section Server

variable {S : Server σ} {fuel : Nat} {reqs : List Request}

theorem Server.Fits.of_mem (h : S.Fits fuel) (s : σ) :
    ∀ R ∈ (S.transcriptFrom s reqs).flatMap Prod.snd, R.lines.length ≤ fuel := by
  induction reqs generalizing s with
  | nil => simp [Machine.transcriptFrom]
  | cons r reqs ih =>
    intro R hR
    rw [Machine.transcriptFrom, List.flatMap_cons, List.mem_append] at hR
    exact hR.elim (h.2 s r R) (ih _ R)

theorem Server.Fits.of_getElem? (h : S.Fits fuel) {n : Nat} {R : Reply}
    (hR : (S.greeting :: S.outputs reqs)[n]? = some R) : R.lines.length ≤ fuel := by
  rcases List.mem_cons.mp (List.mem_of_getElem? hR) with rfl | hmem
  · exact h.1
  · exact h.of_mem S.start R hmem

/-- What a further command adds. -/
theorem Server.outputs_concat (S : Server σ) (reqs : List Request) (r : Request) :
    S.outputs (reqs ++ [r]) = S.outputs reqs ++ (S.step (S.after S.start reqs) r).1 := by
  rw [Machine.outputs_append]
  simp [Machine.transcriptFrom]

/-- The replies to the last command stand behind all others. -/
theorem Server.getElem?_reply (S : Server σ) (reqs : List Request) (r : Request) (k : Nat) :
    (S.greeting :: S.outputs (reqs ++ [r]))[1 + (S.outputs reqs).length + k]?
      = (S.step (S.after S.start reqs) r).1[k]? := by
  rw [S.outputs_concat, show 1 + (S.outputs reqs).length + k = (S.outputs reqs).length + k + 1 by
    omega, List.getElem?_cons_succ, List.getElem?_append_right (by omega)]
  simp

end Server

/-! ## The client

The commands of the client are on the wire, and it has heard some of the replies: when it is in
step, all of them. -/

/-- The commands `reqs` are on the wire, nothing else is on its way, and `n` replies were heard. -/
structure Talking (S : Server σ) (reqs : List Request) (n : Nat) (b : Ftpbuf) : Prop where
  putOpen : b.PutOpen
  flushed : b.ctl.buf.self.pending = []
  plain : ∀ r ∈ reqs, r.Plain
  wire : b.ctl.buf.wire = reqs.flatMap Request.bytes
  heard : S.peer.Heard n b.ctl.buf

/-- Everything that was said was heard. -/
def InStep (S : Server σ) (reqs : List Request) (b : Ftpbuf) : Prop :=
  Talking S reqs (1 + (S.outputs reqs).length) b

section Client

variable {S : Server σ} {E : Env} {reqs : List Request} {n : Nat} {b b' : Ftpbuf} {r : Request}
  {R : Reply}

theorem Talking.said (h : Talking S reqs n b) :
    S.peer.said b.ctl.buf.wire = S.greeting :: S.outputs reqs := by
  show S.greeting :: S.outputs (requests b.ctl.buf.wire) = _
  rw [h.wire, requests_flatMap h.plain]

theorem Talking.of_buf (h : Talking S reqs n b) (hbuf : b'.ctl.buf = b.ctl.buf) :
    Talking S reqs n b' := by
  have hopen : b'.ctl.buf.PutOpen := hbuf ▸ h.putOpen
  exact ⟨hopen, hbuf ▸ h.flushed, h.plain, hbuf ▸ h.wire, hbuf ▸ h.heard⟩

/-- Reading a reply leaves what was sent as it is. -/
theorem Talking.of_readOnly (h : Talking S reqs n b) (hread : ReadOnly b.ctl b'.ctl) {m : Nat}
    (hheard : S.peer.Heard m b'.ctl.buf) : Talking S reqs m b' := by
  obtain ⟨p, hput, hle, hpend, hpos⟩ := h.putOpen
  have hflushed := h.flushed
  refine ⟨⟨p, hread.out.put.trans hput, hle, ?_, ?_⟩, ?_, h.plain, hread.out.wire.trans h.wire,
    hheard⟩
  · rw [hread.out.rep, hpend]
  · rwa [hread.out.rep]
  · unfold Streambuf.pending at hflushed ⊢
    rwa [hread.out.put]

theorem wp_note {note' : Note} {Q : Unit → Ftpbuf → Prop} {X : Exc → Ftpbuf → Prop} :
    wp (note note') Q X b ↔ Q () { b with notes := note' :: b.notes } := Iff.rfl

/-- `get_response` hears the next reply. -/
theorem talking_getResponse (hK : E.K.Serves S.peer) (hfits : S.Fits E.fuel)
    (h : Talking S reqs n b) (hR : (S.greeting :: S.outputs reqs)[n]? = some R) :
    wp (Ftpbuf.getResponse E)
      (fun code b' => code = R.code.head? ∧ Talking S reqs (n + 1) b')
      (fun e _ => e.IsInputError) b := by
  have hhear := hears_reply (t := b.ctl) hK (r := R) rfl (hfits.of_getElem? hR) h.heard
    (h.said.symm ▸ hR)
  unfold Ftpbuf.getResponse onCtl
  rw [wp_bind, wp_get, wp_bind, wp_note, wp_bind, wp_zoom]
  refine hhear.mono ?_ (fun _ _ h => h)
  rintro code t ⟨hcode, hheard, hread, -⟩
  exact ⟨hcode, h.of_readOnly hread hheard⟩

/-- A program that only writes, on the control connection. -/
theorem wp_onCtl_hands {α : Type} {c : M UInt8 α} {cs : List UInt8} (hc : Hands cs c)
    (hb : b.PutOpen) :
    wp (onCtl (onBuf c)) (fun _ b' => Wrote cs b.ctl.buf b'.ctl.buf) (fun e _ => e.IsInputError)
      b := by
  unfold onCtl onBuf
  rw [wp_zoom, wp_zoom]
  exact (hc b.ctl.buf hb).mono (fun _ _ h => h) (fun _ _ h => .inl h.1)

/-- `send_cmd` sends its command and hears the next reply. -/
theorem talking_sendCmd (hK : E.K.Serves S.peer) (hfits : S.Fits E.fuel) (h : Talking S reqs n b)
    (hr : r.Plain) (hR : (S.greeting :: S.outputs (reqs ++ [r]))[n]? = some R) :
    wp (Ftpbuf.sendCmd E r.verb r.arg)
      (fun code b' => code = R.code.head? ∧ Talking S (reqs ++ [r]) (n + 1) b')
      (fun e _ => e.IsInputError) b := by
  have hend : ∀ b1 cs, Wrote cs b.ctl.buf b1.ctl.buf → cs ++ [13, 10] = r.bytes →
      wp (do
        let _ ← onCtl (onBuf (xsputn E.K [13, 10]))
        let _ ← onCtl (onBuf (sync E.K))
        Ftpbuf.getResponse E)
      (fun code b' => code = R.code.head? ∧ Talking S (reqs ++ [r]) (n + 1) b')
      (fun e _ => e.IsInputError) b1 := by
    intro b1 cs h1 hcs
    rw [wp_bind]
    refine (wp_onCtl_hands (Hands.xsputn E.K [13, 10]) h1.putOpen).mono ?_ (fun _ _ h => h)
    intro _ b2 h2
    rw [wp_bind]
    unfold onCtl onBuf
    rw [wp_zoom, wp_zoom]
    refine (sync_spec E.K h2.putOpen).mono ?_ (fun _ _ h => .inl h.1)
    rintro _ s ⟨-, h3, hflushed⟩
    have hall := (h1.trans h2).trans h3
    rw [List.append_nil, hcs] at hall
    have hsent := hall.sent
    rw [hflushed, h.flushed, List.append_nil, List.append_nil] at hsent
    refine talking_getResponse hK hfits ⟨hall.putOpen, hflushed, ?_, ?_, ?_⟩ hR
    · intro r' hr'
      exact (List.mem_append.mp hr').elim (h.plain r') fun hmem => by
        rwa [List.mem_singleton.mp hmem]
    · rw [List.flatMap_append, ← h.wire]
      simpa using hsent
    · exact h.heard.of_wrote hall
  unfold Ftpbuf.sendCmd
  rw [wp_bind]
  refine (wp_onCtl_hands (Hands.xsputn E.K r.verb) h.putOpen).mono ?_ (fun _ _ h => h)
  intro _ b1 h1
  obtain ⟨verb, arg⟩ := r
  cases arg with
  | none => exact hend b1 verb h1 rfl
  | some arg =>
    rw [wp_bind]
    refine (wp_onCtl_hands (Hands.xsputn E.K [32]) h1.putOpen).mono ?_ (fun _ _ h => h)
    intro _ b2 h2
    rw [wp_bind]
    refine (wp_onCtl_hands (Hands.xsputn E.K arg) h2.putOpen).mono ?_ (fun _ _ h => h)
    intro _ b3 h3
    refine hend b3 _ ((h1.trans h2).trans h3) ?_
    simp [Request.bytes, Request.line, ended]

end Client

/-! ## Calls

A call converses: it puts some requests on the wire, hears all the replies to them, and returns the
code of the last. One rule for each of the ways in which the methods are built. -/

/-- What a call returns, given the commands it has sent and the replies to them: the first digit of
the last reply, unless it broke off, before it had sent anything or because the first command of two
steps was refused. -/
def verdict (exchanges : List (Request × List Reply)) : Option UInt8 :=
  match exchanges.getLast? with
  | none => some rcaError
  | some (r, rs) =>
    if (r.Transfers ∨ r.verb = Verb.rnfr.text) ∧ rs.length = 1 then some rcaError
    else rs.getLast?.bind (·.code.head?)

/-- Started in step, the call sends a word of `L` and ends in step, with the right code. -/
def Converses (S : Server σ) (L : Language UInt8) (X : Exc → Prop) (c : FtpM (Option UInt8)) : Prop :=
  ∀ reqs b, InStep S reqs b → wp c
    (fun code b' => ∃ new, InStep S (reqs ++ new) b' ∧ new.flatMap Request.bytes ∈ L ∧
      code = verdict (S.transcriptFrom (S.after S.start reqs) new))
    (fun e _ => X e) b

section Calls

variable {S : Server σ} {E : Env} {L M : Language UInt8} {X : Exc → Prop} {r : Request}
  {reqs new : List Request} {b : Ftpbuf} {c : FtpM (Option UInt8)}

theorem verdict_append (tr : List (Request × List Reply)) {tr' : List (Request × List Reply)}
    (hne : tr' ≠ []) : verdict (tr ++ tr') = verdict tr' := by
  unfold verdict
  rw [List.getLast?_append_of_ne_nil _ hne]

theorem Converses.mono (h : Converses S L X c) (hle : ∀ x ∈ L, x ∈ M) : Converses S M X c :=
  fun reqs b hb => (h reqs b hb).mono
    (fun _ _ ⟨new, hstep, hmem, hcode⟩ => ⟨new, hstep, hle _ hmem, hcode⟩) (fun _ _ h => h)

theorem Converses.weaken (h : Converses S L X c) {Y : Exc → Prop} (hle : ∀ e, X e → Y e) :
    Converses S L Y c :=
  fun reqs b hb => (h reqs b hb).mono (fun _ _ h => h) fun e _ => hle e

/-- The replies to the last command are heard, so all are. -/
theorem inStep_of_talking {rs : List Reply} (hrs : (S.step (S.after S.start reqs) r).1 = rs)
    (h : Talking S (reqs ++ [r]) (1 + (S.outputs reqs).length + rs.length) b) :
    InStep S (reqs ++ [r]) b := by
  unfold InStep
  rwa [S.outputs_concat, hrs, List.length_append, ← Nat.add_assoc]

/-- A call that breaks off before it has sent anything. -/
theorem converses_reject (S : Server σ) (X : Exc → Prop) : Converses S 1 X Ftpbuf.reject := by
  intro reqs b hb
  refine ⟨[], ?_, rfl, rfl⟩
  rw [List.append_nil]
  exact Talking.of_buf hb rfl

/-- A command of its own. -/
theorem converses_sendCmd (hK : E.K.Serves S.peer) (hfits : S.Fits E.fuel) (hr : r.Plain)
    (hplain : ¬ r.Transfers) (hrnfr : r.verb ≠ Verb.rnfr.text) :
    Converses S {r.bytes} Exc.IsInputError (Ftpbuf.sendCmd E r.verb r.arg) := by
  intro reqs b hb
  have hsuits := S.suits (S.after S.start reqs) r
  unfold Request.Suits at hsuits
  rw [if_neg hplain] at hsuits
  obtain ⟨R, hR⟩ := hsuits
  have hnext := S.getElem?_reply reqs r 0
  rw [hR] at hnext
  refine (talking_sendCmd hK hfits hb hr hnext).mono ?_ (fun _ _ h => h)
  rintro code b' ⟨hcode, htalk⟩
  refine ⟨[r], inStep_of_talking hR htalk, List.append_nil _, ?_⟩
  simp [Machine.transcriptFrom, hR, verdict, hplain, hrnfr, hcode]

theorem converses_plainly (hK : E.K.Serves S.peer) (hfits : S.Fits E.fuel) (v : Verb)
    {arg : Option (List UInt8)} (harg : ∀ text, arg = some text → Clean text)
    (hplain : v ∉ transfers) (hrnfr : v ≠ .rnfr) :
    Converses S (plainly v arg) Exc.IsInputError (Ftpbuf.sendCmd E v.text arg) :=
  converses_sendCmd hK hfits (v.plain harg) (mt (transfers_request v arg).mp hplain)
    (Verb.text_ne_rnfr hrnfr)

theorem converses_useraddr (hK : E.K.Serves S.peer) (hfits : S.Fits E.fuel) (sa : SockInetAddr) :
    Converses S announcement Exc.IsInputError (Ftpbuf.useraddr E sa) := by
  have hsend : ∀ sAddr, Converses S announcement Exc.IsInputError
      (Ftpbuf.sendCmd E Verb.port.text
        (some (hostPort E.endian sAddr (E.endian.ntohs sa.sinPort.toNat)))) := by
    intro sAddr
    have hclean := clean_hostPort E.endian sAddr (E.endian.ntohs_lt sa.sinPort.toNat)
    refine (converses_plainly hK hfits .port (fun _ h => Option.some.inj h ▸ hclean) (by decide)
      (by decide)).mono ?_
    rintro _ rfl
    exact ⟨_, hclean, rfl⟩
  intro reqs b hb
  unfold Ftpbuf.useraddr
  rw [wp_bind, wp_ite]
  split
  · cases E.hostAddr with
    | none => exact .inl (Exc.isSockerr_sockerr _)
    | some sAddr => exact hsend sAddr reqs b hb
  · exact hsend sa.sAddr reqs b hb

/-- What leaves the object alone is passed over. -/
theorem wp_pass {α : Type} {c : FtpM α} {Q : α → Ftpbuf → Prop} (hc : Within Eq c)
    (hQ : ∀ a, Q a b) : wp c Q (fun _ _ => True) b :=
  (hc b).mono (fun a _ heq => heq ▸ hQ a) (fun _ _ _ => trivial)

/-- The data connection leaves the control connection alone. -/
theorem sameBuf_recvData (port : DataPort) (fuel : Nat) (o : Option Sink) :
    Within SameBuf (recvData port fuel o) := by
  refine within_recvData (fun bytes b => ?_) (fun _ => sameBuf_note _) port fuel
  rcases o with _ | _ | _ <;> rfl

theorem sameBuf_sendData (port : DataPort) (fuel : Nat) (rest : List UInt8) :
    Within SameBuf (sendData port fuel rest) :=
  within_sendData (sameBuf_note _) (fun _ => sameBuf_note _) port fuel rest

/-- A transfer: the announcement, the command, and the second reply if there is one. -/
theorem converses_ftpdata (hK : E.K.Serves S.peer) (hfits : S.Fits E.fuel) (hr : r.Plain)
    (htransfers : r.Transfers) (portno : Int) (i : Option (List UInt8)) (o : Option Sink) :
    Converses S (announcement * {r.bytes}) (fun _ => True)
      (Ftpbuf.ftpdata E portno i o r.verb r.arg) := by
  intro reqs b hb
  unfold Ftpbuf.ftpdata
  rw [wp_bind, wp_get, wp_bind]
  refine wp_pass (within_answered _) fun _ => ?_
  rw [wp_bind]
  refine wp_pass (within_bindUntilSuccess _ _ _) fun _ => ?_
  rw [wp_bind]
  refine wp_pass (within_answered _) fun sa => ?_
  rw [wp_bind]
  refine (converses_useraddr hK hfits sa reqs b hb).mono ?_ (fun _ _ _ => trivial)
  rintro _ b1 ⟨ports, hb1, hports, -⟩
  rw [wp_bind]
  refine wp_pass (within_answered _) fun _ => ?_
  -- the server has one reply or two for the command
  have hsuits := S.suits (S.after S.start (reqs ++ ports)) r
  unfold Request.Suits at hsuits
  rw [if_pos htransfers] at hsuits
  have hmem : (ports ++ [r]).flatMap Request.bytes ∈ announcement * {r.bytes} := by
    rw [List.flatMap_append]
    exact Language.append_mem_mul hports (List.append_nil _)
  have hlast : ∀ rs, (S.step (S.after S.start (reqs ++ ports)) r).1 = rs →
      verdict (S.transcriptFrom (S.after S.start reqs) (ports ++ [r])) = verdict [(r, rs)] := by
    intro rs hrs
    rw [Machine.transcriptFrom_append, verdict_append _ (by simp [Machine.transcriptFrom]),
      ← Machine.after_append, Machine.transcriptFrom, hrs]
    rfl
  have hdone : ∀ {code : Option UInt8} {b' : Ftpbuf} (rs : List Reply),
      (S.step (S.after S.start (reqs ++ ports)) r).1 = rs → code = verdict [(r, rs)] →
      Talking S (reqs ++ ports ++ [r]) (1 + (S.outputs (reqs ++ ports)).length + rs.length) b' →
      wp (do answered (E.port b.notes).close; pure code) (fun code b' => ∃ new,
        InStep S (reqs ++ new) b' ∧ new.flatMap Request.bytes ∈ announcement * {r.bytes} ∧
        code = verdict (S.transcriptFrom (S.after S.start reqs) new)) (fun _ _ => True) b' := by
    intro code b' rs hrs hcode htalk
    rw [wp_bind]
    refine wp_pass (within_answered _) fun _ => ?_
    refine ⟨ports ++ [r], ?_, hmem, hcode.trans (hlast rs hrs).symm⟩
    rw [← List.append_assoc]
    exact inStep_of_talking hrs htalk
  rw [wp_bind]
  rcases hsuits with ⟨R, hR, hrefuses⟩ | ⟨mark, R, hR, haccepts⟩
  · have hnext := S.getElem?_reply (reqs ++ ports) r 0
    rw [hR] at hnext
    refine (talking_sendCmd hK hfits hb1 hr hnext).mono ?_ (fun _ _ _ => trivial)
    rintro _ b2 ⟨rfl, htalk⟩
    have hrefused : refused R.code.head? = true := hrefuses
    rw [wp_bind, wp_note, if_pos hrefused, wp_bind]
    refine hdone [R] hR ?_ (htalk.of_buf rfl)
    simp [verdict, htransfers]
  · have hnext := S.getElem?_reply (reqs ++ ports) r 0
    have hresult := S.getElem?_reply (reqs ++ ports) r 1
    rw [hR] at hnext hresult
    refine (talking_sendCmd hK hfits hb1 hr hnext).mono ?_ (fun _ _ _ => trivial)
    rintro _ b2 ⟨rfl, htalk⟩
    have haccepted : ¬ refused mark.code.head? = true := haccepts
    rw [wp_bind, wp_note, if_neg haccepted, wp_bind, wp_bind, wp_get]
    -- whatever became of the data, the second reply is due
    have hsecond : ∀ b3 : Ftpbuf, b3.ctl.buf = b2.ctl.buf →
        wp (Ftpbuf.getResponse E) (fun code b' =>
          wp (do answered (E.port b.notes).close; pure code) (fun code b' => ∃ new,
            InStep S (reqs ++ new) b' ∧ new.flatMap Request.bytes ∈ announcement * {r.bytes} ∧
            code = verdict (S.transcriptFrom (S.after S.start reqs) new)) (fun _ _ => True) b')
          (fun _ _ => True) b3 := by
      intro b3 hbuf
      refine (talking_getResponse hK hfits (htalk.of_buf hbuf) hresult).mono ?_
        (fun _ _ _ => trivial)
      rintro code b4 ⟨rfl, htalk4⟩
      refine hdone [mark, R] hR ?_ htalk4
      simp [verdict]
    refine wp_ite_intro (fun _ => ?_) (fun _ => ?_)
    · rw [wp_bind]
      exact (sameBuf_recvData _ _ o _).mono (fun _ b3 hbuf => hsecond b3 hbuf)
        (fun _ _ _ => trivial)
    · cases i with
      | none => exact hsecond _ rfl
      | some rest =>
        refine wp_bind.mpr ?_
        exact (sameBuf_sendData _ _ rest _).mono (fun _ b3 hbuf => hsecond b3 hbuf)
          (fun _ _ _ => trivial)

theorem converses_announced (hK : E.K.Serves S.peer) (hfits : S.Fits E.fuel) {v : Verb}
    (hv : v ∈ transfers) {arg : Option (List UInt8)}
    (harg : ∀ text, arg = some text → Clean text) (i : Option (List UInt8)) (o : Option Sink) :
    Converses S (announced v arg) (fun _ => True) (Ftpbuf.ftpdata E 10000 i o v.text arg) :=
  converses_ftpdata hK hfits (v.plain harg) ((transfers_request v arg).mpr hv) 10000 i o

/-- Two calls one after the other; the second one sends something. -/
theorem Converses.seq {f : Option UInt8 → FtpM (Option UInt8)} (hc : Converses S L X c)
    (hf : ∀ a, Converses S M X (f a)) (hM : [] ∉ M) : Converses S (L * M) X (c >>= f) := by
  intro reqs b hb
  rw [wp_bind]
  refine (hc reqs b hb).mono ?_ (fun _ _ h => h)
  rintro a b1 ⟨new, hb1, hmem, -⟩
  refine (hf a (reqs ++ new) b1 hb1).mono ?_ (fun _ _ h => h)
  rintro code b2 ⟨new2, hb2, hmem2, hcode⟩
  have hne : new2 ≠ [] := fun hnil => hM (by simpa [hnil] using hmem2)
  refine ⟨new ++ new2, by rwa [← List.append_assoc], ?_, ?_⟩
  · rw [List.flatMap_append]
    exact Language.append_mem_mul hmem hmem2
  · rw [hcode, Machine.transcriptFrom_append, ← Machine.after_append, verdict_append]
    cases new2 with
    | nil => exact absurd rfl hne
    | cons r rs => simp [Machine.transcriptFrom]

/-- A first step that leaves the control connection alone. -/
theorem Converses.after {α : Type} {d : FtpM α} {f : α → FtpM (Option UInt8)}
    (hd : Within SameBuf d) (hf : ∀ a, Converses S L (fun _ => True) (f a)) :
    Converses S L (fun _ => True) (d >>= f) := by
  intro reqs b hb
  rw [wp_bind]
  exact (hd b).mono (fun a b1 hbuf => hf a reqs b1 (Talking.of_buf hb hbuf)) (fun _ _ _ => trivial)

theorem nil_not_mem_announced (v : Verb) (arg : Option (List UInt8)) : [] ∉ announced v arg := by
  rintro ⟨x, -, y, hy, hnil⟩
  have hempty := (List.append_eq_nil_iff.mp hnil).2
  rw [Set.mem_singleton_iff.mp hy] at hempty
  simp [Request.bytes, ended] at hempty

theorem converses_list (hK : E.K.Serves S.peer) (hfits : S.Fits E.fuel)
    {rpath : Option (List UInt8)} (hclean : ∀ text, rpath = some text → Clean text)
    (justnames : Int) :
    Converses S (Command.language (.list rpath justnames)) (fun _ => True)
      (Ftpbuf.list E rpath justnames) := by
  show Converses S (if justnames ≠ 0 then _ else _) _ (if justnames ≠ 0 then _ else _)
  split
  · exact converses_announced hK hfits (v := .nlst) (by decide) hclean none (some .own)
  · exact converses_announced hK hfits (v := .list) (by decide) hclean none (some .own)

theorem converses_getfile (hK : E.K.Serves S.peer) (hfits : S.Fits E.fuel)
    {rpath : Option (List UInt8)} (hclean : ∀ text, rpath = some text → Clean text)
    (lpath : Option (List UInt8)) :
    Converses S (Command.language (.getfile rpath lpath)) (fun _ => True)
      (Ftpbuf.getfile E rpath lpath) := by
  have hget := converses_announced hK hfits (v := .retr) (by decide) hclean none (some .file)
  have hopen : Converses S (announced .retr rpath) (fun _ => True) (do
      modify fun b => { b with file := if E.creates (lpath <|> rpath) then some [] else none }
      Ftpbuf.ftpdata E 10000 none (some .file) Verb.retr.text rpath) :=
    .after (.modify fun _ => rfl) fun _ => hget
  cases rpath with
  | none =>
    have hnone : ∀ t, (none : Option (List UInt8)) = some t → Clean t := nofun
    exact .seq (converses_list hK hfits hnone 0) (fun _ => hopen) (nil_not_mem_announced _ _)
  | some rpath =>
    show Converses S (1 * announced .retr (some rpath)) _ _
    rw [one_mul]
    exact hopen

/-- The second command is sent only if the first one was not refused. -/
theorem converses_rename (hK : E.K.Serves S.peer) (hfits : S.Fits E.fuel)
    {rpath newrpath : Option (List UInt8)} (hclean : ∀ text, rpath = some text → Clean text)
    (hclean' : ∀ text, newrpath = some text → Clean text) :
    Converses S (Command.language (.rename rpath newrpath)) Exc.IsInputError
      (Ftpbuf.rename E rpath newrpath) := by
  cases rpath with
  | none => exact converses_reject S _
  | some rpath =>
    cases newrpath with
    | none => exact converses_reject S _
    | some newrpath =>
      intro reqs b hb
      have hfrom := Verb.rnfr.plain hclean
      have hsuits := S.suits (S.after S.start reqs) (Verb.rnfr.request (some rpath))
      unfold Request.Suits at hsuits
      rw [if_neg (mt (transfers_request _ _).mp (by decide))] at hsuits
      obtain ⟨R, hR⟩ := hsuits
      have hnext := S.getElem?_reply reqs (Verb.rnfr.request (some rpath)) 0
      rw [hR] at hnext
      show wp (do
        let code ← Ftpbuf.sendCmd E Verb.rnfr.text (some rpath)
        note (.compared code)
        if refused code then Ftpbuf.reject
        else Ftpbuf.sendCmd E Verb.rnto.text (some newrpath)) _ _ b
      rw [wp_bind]
      -- `RNFR` and its reply
      refine (talking_sendCmd hK hfits hb hfrom hnext).mono ?_ (fun _ _ h => h)
      rintro _ b1 ⟨rfl, htalk⟩
      have hb1 : InStep S (reqs ++ [Verb.rnfr.request (some rpath)])
          { b1 with notes := .compared R.code.head? :: b1.notes } :=
        inStep_of_talking hR (htalk.of_buf rfl)
      rw [wp_bind, wp_note]
      refine wp_ite_intro (fun hrefused => ?_) (fun _ => ?_)
      · refine ⟨[Verb.rnfr.request (some rpath)], Talking.of_buf hb1 rfl, ?_, ?_⟩
        · refine ⟨_, rfl, [], .inl rfl, ?_⟩
          simp [Verb.request]
        · rw [Machine.transcriptFrom, hR]
          simp [Machine.transcriptFrom, verdict, Verb.request]
      -- `RNTO` behind a reply that is no refusal
      · refine (converses_plainly hK hfits .rnto hclean' (by decide) (by decide) _ _ hb1).mono ?_
          (fun _ _ h => h)
        rintro code b2 ⟨new, hb2, hmem, hcode⟩
        have hne : new ≠ [] := by
          rintro rfl
          have hnil := Set.mem_singleton_iff.mp hmem
          simp [Request.bytes, ended] at hnil
        refine ⟨Verb.rnfr.request (some rpath) :: new, by simpa using hb2, ?_, ?_⟩
        · exact ⟨_, rfl, _, .inr hmem, rfl⟩
        · rw [hcode, Machine.after_append]
          cases new with
          | nil => exact absurd rfl hne
          | cons r rs => exact (verdict_append [_] (by simp [Machine.transcriptFrom])).symm

/-- The texts that a call sends can stand in a command line; `get_response` sends nothing. -/
def Command.Sendable : Command → Prop
  | .getResponse => False
  | .user text | .passwd text | .acct text | .cd text | .rmfile text | .rmdir text | .mkdir text
  | .list text _ | .getfile text _ | .putfileUnique text => ∀ t, text = some t → Clean t
  | .putfile lpath rpath => ∀ t, (rpath <|> lpath) = some t → Clean t
  | .rename rpath newrpath =>
    (∀ t, rpath = some t → Clean t) ∧ ∀ t, newrpath = some t → Clean t
  | _ => True

/-- The call opens a data connection. -/
def Command.OpensData : Command → Prop
  | .list _ _ | .getfile _ _ | .putfile _ _ | .putfileUnique _ | .append _ _ => True
  | _ => False

/-- The exceptions of a call. Only what happens to a data connection can end in any of them; the
dialogue itself throws what reading and writing a socket throws, and never runs out of fuel. -/
def Command.Throws (c : Command) (e : Exc) : Prop := c.OpensData ∨ e.IsInputError

theorem clean_of_mem {codes : List (List UInt8)} (h : ∀ code ∈ codes, Clean code) (n : Nat) :
    ∀ text, codes[n]? = some text → Clean text :=
  fun _ htext => h _ (List.mem_of_getElem? htext)

/-- The command of a call that sends just one, and no transfer. -/
def Command.single? : Command → Option (Verb × Option (List UInt8))
  | .help => some (.help, none)
  | .noop => some (.noop, none)
  | .quit => some (.quit, none)
  | .abort => some (.abor, none)
  | .user name => some (.user, name)
  | .passwd pw => some (.pass, pw)
  | .acct ac => some (.acct, ac)
  | .cd dir => some (.cwd, dir)
  | .serverPort portno =>
    some (.pasv, some (decimalInt (portno / 256) ++ [44] ++ decimalInt (portno % 256)))
  | .repType rt => some (.type, reptype[rt.ctorIdx]?)
  | .fileStru fs => some (.stru, filestru[fs.ctorIdx]?)
  | .transMode tm => some (.stru, transmode[tm.ctorIdx]?)
  | .allocate numbytes => some (.allo, some (decimalInt numbytes))
  | .restart marker => some (.rest, some (decimalInt marker))
  | .rmfile rpath => some (.dele, rpath)
  | .rmdir rpath => some (.rmd, rpath)
  | .mkdir rpath => some (.mkd, rpath)
  | .pwd => some (.pwd, none)
  | .system => some (.syst, none)
  | .status => some (.stat, none)
  | _ => none

theorem Command.of_single {cmd : Command} {sent : Verb × Option (List UInt8)}
    (h : cmd.single? = some sent) :
    cmd.language = plainly sent.1 sent.2 ∧
      (∀ E, cmd.call E = Ftpbuf.sendCmd E sent.1.text sent.2) ∧
      sent.1 ∉ transfers ∧ sent.1 ≠ .rnfr := by
  cases cmd <;> cases h <;> exact ⟨rfl, fun _ => rfl, by simp [transfers], by simp⟩

/-- What such a call sends is a command that can be read back. -/
theorem Command.Sendable.clean {cmd : Command} {sent : Verb × Option (List UInt8)}
    (hsend : cmd.Sendable) (h : cmd.single? = some sent) :
    ∀ text, sent.2 = some text → Clean text := by
  cases cmd with
  | serverPort portno =>
    cases h
    intro t ht
    rw [← Option.some.inj ht]
    exact ((clean_decimalInt _ _ rfl).append (.cons (by decide) (by decide) clean_nil)).append
      (clean_decimalInt _ _ rfl)
  | repType rt =>
    cases h
    exact clean_of_mem (by decide) _
  | fileStru fs =>
    cases h
    exact clean_of_mem (by decide) _
  | transMode tm =>
    cases h
    exact clean_of_mem (by decide) _
  | allocate numbytes =>
    cases h
    exact clean_decimalInt numbytes
  | restart marker =>
    cases h
    exact clean_decimalInt marker
  | _ =>
    cases h <;> first
    | exact hsend
    | exact fun _ hnone => by cases hnone

/-- Every call stays in step. -/
theorem converses_call (hK : E.K.Serves S.peer) (hfits : S.Fits E.fuel) (cmd : Command)
    (hsend : cmd.Sendable) : Converses S cmd.language cmd.Throws (cmd.call E) := by
  have hlocal : ∀ (v : Verb) (l : List UInt8) (arg : Option (List UInt8)), v ∈ transfers →
      (∀ t, arg = some t → Clean t) → cmd.OpensData →
      Converses S (announced v arg) cmd.Throws
        (Ftpbuf.ftpdata E 10000 (some (E.content l)) none v.text arg) :=
    fun v l arg hv hclean hdata =>
      (converses_announced hK hfits hv hclean _ _).weaken fun _ _ => .inl hdata
  cases hsingle : cmd.single? with
  | some sent =>
    obtain ⟨hlanguage, hcall, hv, hrnfr⟩ := Command.of_single hsingle
    rw [hlanguage, hcall]
    exact (converses_plainly hK hfits _ (hsend.clean hsingle) hv hrnfr).weaken fun _ => .inr
  | none =>
    cases cmd with
    | getResponse => exact hsend.elim
    | useraddr sa => exact (converses_useraddr hK hfits sa).weaken fun _ => .inr
    | useraddrHost hostname portno =>
      show Converses S (1 + announcement) _ (Ftpbuf.useraddrHost E hostname portno)
      unfold Ftpbuf.useraddrHost
      cases E.resolve hostname with
      | none => exact fun _ _ _ => .inr (.inl (Exc.isSockerr_sockerr _))
      | some sAddr =>
        exact ((converses_useraddr hK hfits _).weaken fun _ => .inr).mono fun _ h => .inr h
    | getfile rpath lpath =>
      exact (converses_getfile hK hfits hsend lpath).weaken fun _ _ => .inl trivial
    | list rpath justnames =>
      exact (converses_list hK hfits hsend justnames).weaken fun _ _ => .inl trivial
    | rename rpath newrpath =>
      exact (converses_rename hK hfits hsend.1 hsend.2).weaken fun _ => .inr
    | putfile lpath rpath =>
      cases lpath with
      | none => exact converses_reject S _
      | some l => exact hlocal .stor l (rpath <|> some l) (by decide) hsend trivial
    | putfileUnique lpath =>
      cases lpath with
      | none => exact converses_reject S _
      | some l => exact hlocal .stou l (some l) (by decide) hsend trivial
    | append lpath rpath =>
      cases lpath with
      | none => exact converses_reject S _
      | some l => exact hlocal .appe l none (by decide) nofun trivial
    | _ => cases hsingle

end Calls

/-! ## Sessions

The client reads the greeting and makes its calls, or makes them without having read it. -/

/-- A client that reads the greeting and then calls the methods, one after the other. -/
def session (E : Env) (cmds : List Command) : FtpM (List (Option UInt8)) := do
  let code ← Ftpbuf.getResponse E
  let codes ← cmds.mapM (Command.call E)
  pure (code :: codes)

section Sessions

variable {S : Server σ} {E : Env} {reqs : List Request} {b : Ftpbuf}

/-- Induction on the calls: each starts in step, so it ends in step. -/
theorem converses_calls (hK : E.K.Serves S.peer) (hfits : S.Fits E.fuel) {cmds : List Command}
    (hsend : ∀ cmd ∈ cmds, cmd.Sendable) (hb : InStep S reqs b) :
    wp (cmds.mapM (Command.call E))
      (fun codes b' => ∃ new parts, InStep S (reqs ++ new) b' ∧ codes = parts.map verdict ∧
        List.Forall₂ (fun cmd part => part.flatMap (Request.bytes ·.1) ∈ cmd.language) cmds parts ∧
        S.transcriptFrom (S.after S.start reqs) new = parts.flatten)
      (fun e _ => ∃ cmd ∈ cmds, cmd.Throws e) b := by
  induction cmds generalizing reqs b with
  | nil => exact ⟨[], [], by simpa using hb, rfl, .nil, rfl⟩
  | cons cmd cmds ih =>
    rw [List.mapM_cons, wp_bind]
    refine (converses_call hK hfits cmd (hsend cmd List.mem_cons_self) reqs b hb).mono ?_
      fun e _ h => ⟨cmd, List.mem_cons_self, h⟩
    rintro code b1 ⟨new, hb1, hmem, hcode⟩
    rw [wp_bind]
    refine (ih (fun c hc => hsend c (List.mem_cons_of_mem _ hc)) hb1).mono ?_
      fun e _ ⟨c, hc, h⟩ => ⟨c, List.mem_cons_of_mem _ hc, h⟩
    rintro codes b2 ⟨new2, parts, hb2, hcodes, hparts, htr⟩
    refine ⟨new ++ new2, S.transcriptFrom (S.after S.start reqs) new :: parts, ?_, ?_, ?_, ?_⟩
    · rwa [← List.append_assoc]
    · rw [List.map_cons, hcode, hcodes]
    · refine .cons ?_ hparts
      have hfst : (S.transcriptFrom (S.after S.start reqs) new).map Prod.fst = new :=
        Machine.map_fst_transcriptFrom
      rwa [← hfst, List.flatMap_map] at hmem
    · rw [Machine.transcriptFrom_append, ← Machine.after_append, htr, List.flatten_cons]

/-- **In step.** Whatever the server says, as long as it suits, and however its replies are batched,
as long as each read brings whole ones: if the calls of a session return, the commands that the
server has read are those of the calls, every call has returned the code of its own last reply (or
`rca_error` where it broke off), and everything that was said was heard. A session without transfers
ends with nothing but an error of the socket. -/
theorem session_in_step (S : Server σ) {E : Env} (hK : E.K.Serves S.peer) (hfits : S.Fits E.fuel)
    {cmds : List Command} (hsend : ∀ cmd ∈ cmds, cmd.Sendable) (platform : Platform) (sock : Int)
    (gbuf pbuf : Nat → UInt8) (errno : Errno) (out : Option (List UInt8))
    (replycode : List UInt8) :
    wp (session E cmds)
      (fun codes b' => ∃ parts,
        S.transcript (requests b'.ctl.buf.wire) = parts.flatten ∧
        List.Forall₂ (fun cmd part => part.flatMap (Request.bytes ·.1) ∈ cmd.language) cmds parts ∧
        codes = S.greeting.code.head? :: parts.map verdict ∧
        b'.ctl.buf.received = S.peer.text (S.peer.said b'.ctl.buf.wire) ∧
        b'.ctl.buf.self.unread = [])
      (fun e _ => (∃ cmd ∈ cmds, cmd.OpensData) ∨ e.IsInputError)
      (Ftpbuf.init (fresh platform sock gbuf pbuf errno) out replycode) := by
  have hstart : Talking S [] 0 (Ftpbuf.init (fresh platform sock gbuf pbuf errno) out replycode) :=
    ⟨putOpen_fresh _ _ _ _ _, rfl, by simp, rfl, heard_fresh _ _ _ _ _ _⟩
  unfold session
  rw [wp_bind]
  refine (talking_getResponse hK hfits hstart (R := S.greeting) rfl).mono ?_ (fun _ _ h => .inr h)
  rintro _ b1 ⟨rfl, hb1⟩
  rw [wp_bind]
  have hstep : InStep S [] b1 := hb1
  refine (converses_calls hK hfits hsend hstep).mono ?_ ?_
  · rintro codes b2 ⟨new, parts, hb2, hcodes, hparts, htr⟩
    rw [List.nil_append] at hb2
    have hheard := hb2.heard
    have hcount : 1 + (S.outputs new).length = (S.peer.said b2.ctl.buf.wire).length := by
      rw [hb2.said, List.length_cons, Nat.add_comm]
    rw [hcount] at hheard
    obtain ⟨hunread, hreceived⟩ := hheard.unread_eq_nil
    refine ⟨parts, ?_, hparts, by rw [hcodes], hreceived, hunread⟩
    rw [hb2.wire, requests_flatMap hb2.plain]
    exact htr
  · rintro e _ ⟨cmd, hcmd, hdata | he⟩
    · exact .inl ⟨cmd, hcmd, hdata⟩
    · exact .inr he

/-- `ddd ok` -/
def okay (code : List UInt8) (hlen : code.length = 3) (hdigits : ∀ d ∈ code, 48 ≤ d ∧ d ≤ 57) :
    Reply where
  code := code
  lines := [code ++ [32, 111, 107]]
  code_length := hlen
  code_digits := hdigits
  shape := .single [111, 107]
  noCrlf := by
    intro line hline hpart
    have hmem : 13 ∈ line := hpart.subset (by simp)
    rw [List.mem_singleton.mp hline] at hmem
    have hcr : 13 ∉ code := fun h => absurd (hdigits 13 h).1 (by decide)
    simp [hcr] at hmem

theorem digits_okay {code : List UInt8} (h : code.all fun d => 48 ≤ d && d ≤ 57) :
    ∀ d ∈ code, 48 ≤ d ∧ d ≤ 57 := by
  simpa using h

/-- Says `331` to `USER` and `200` to everything else; has no files. -/
def guestReply (r : Request) : Reply :=
  if r.Transfers then okay [53, 53, 48] rfl (digits_okay (by decide))
  else if r.verb = Verb.user.text then okay [51, 51, 49] rfl (digits_okay (by decide))
  else okay [50, 48, 48] rfl (digits_okay (by decide))

theorem guestReply_suits (r : Request) : r.Suits [guestReply r] := by
  unfold Request.Suits
  split
  · refine .inl ⟨_, rfl, ?_⟩
    rw [guestReply, if_pos ‹_›]
    rfl
  · exact ⟨_, rfl⟩

/-- `220` -/
def welcome : List UInt8 := [50, 50, 48]

theorem length_welcome : welcome.length = 3 := rfl

theorem digits_welcome : ∀ d ∈ welcome, 48 ≤ d ∧ d ≤ 57 := digits_okay (by decide)

/-- Greets with `220`. -/
def guest : Server Unit where
  start := ()
  step _ r := ([guestReply r], ())
  greeting := okay welcome length_welcome digits_welcome
  suits _ r := guestReply_suits r

/-- A client of that server. -/
def visiting : Env := { Env.over [] 1 (.over .sink) with K := .serving guest.peer }

theorem guest_fits : guest.Fits 1 := by
  refine ⟨Nat.le_refl 1, ?_⟩
  intro s r R hR
  rw [List.mem_singleton.mp hR, guestReply]
  split
  · exact Nat.le_refl 1
  · split <;> exact Nat.le_refl 1

/-- That client, before it has called anything. -/
def visitor : Ftpbuf := .init (fresh .small 3 (fun _ => 0) (fun _ => 0) 0) none []

/-- `USER` and `RETR`: the digits of `220`, of `331`, and `rca_error` for `550`. -/
theorem session_in_step_guest :
    ∃ b', session visiting [.user (some [97]), .getfile (some [98]) none] visitor
        = .ok [some 50, some 51, some 52] b' ∧ b'.ctl.buf.self.unread = [] := by
  have hrun := of_attempt_ok (c := session visiting [.user (some [97]), .getfile (some [98]) none])
    (s := visitor) (a := [some 50, some 51, some 52]) (by decide +kernel)
  have hsend : ∀ cmd ∈ [Command.user (some [97]), .getfile (some [98]) none], cmd.Sendable := by
    simp [Command.Sendable, Clean]
  have h := session_in_step guest (E := visiting) (serves_serving guest.peer) guest_fits hsend
    .small 3 (fun _ => 0) (fun _ => 0) 0 none []
  obtain ⟨parts, -, -, -, -, hunread⟩ := h.of_ok hrun
  exact ⟨_, hrun, hunread⟩

/-- One reply behind: the client has heard as many replies as it has sent commands, and one more was
said. Induction on the calls. -/
theorem behind_calls (hK : E.K.Serves S.peer) (hfits : S.Fits E.fuel) {cmds : List Command}
    (hsend : ∀ cmd ∈ cmds, cmd.Sendable) (hsingle : ∀ cmd ∈ cmds, cmd.single?.isSome)
    (hb : Talking S reqs reqs.length b) (hcount : (S.outputs reqs).length = reqs.length) :
    wp (cmds.mapM (Command.call E))
      (fun codes b' => ∃ new, Talking S (reqs ++ new) (reqs ++ new).length b' ∧
        new.length = cmds.length ∧ (S.outputs (reqs ++ new)).length = (reqs ++ new).length ∧
        codes = (((S.greeting :: S.outputs (reqs ++ new)).drop reqs.length).take
          cmds.length).map (·.code.head?))
      (fun e _ => e.IsInputError) b := by
  induction cmds generalizing reqs b with
  | nil => exact ⟨[], by simpa using hb, rfl, by simpa using hcount, by simp⟩
  | cons cmd cmds ih =>
    obtain ⟨sent, hsent⟩ := Option.isSome_iff_exists.mp (hsingle cmd List.mem_cons_self)
    obtain ⟨-, hcall, hv, -⟩ := Command.of_single hsent
    let r := sent.1.request sent.2
    have hplain : r.Plain := sent.1.plain ((hsend cmd List.mem_cons_self).clean hsent)
    have hsuits := S.suits (S.after S.start reqs) r
    unfold Request.Suits at hsuits
    rw [if_neg (mt (transfers_request _ _).mp hv)] at hsuits
    obtain ⟨R', hR'⟩ := hsuits
    have hcount1 : (S.outputs (reqs ++ [r])).length = (reqs ++ [r]).length := by
      rw [S.outputs_concat, hR', List.length_append, hcount, List.length_append]
      rfl
    -- the reply that is heard is the one before the reply to this command
    have hlt : reqs.length < (S.greeting :: S.outputs (reqs ++ [r])).length := by
      rw [List.length_cons, hcount1, List.length_append]
      omega
    have hnext := List.getElem?_eq_getElem hlt
    rw [List.mapM_cons, wp_bind, hcall]
    refine (talking_sendCmd hK hfits hb hplain hnext).mono ?_ (fun _ _ h => h)
    rintro code b1 ⟨hcode, hb1⟩
    have htalk : Talking S (reqs ++ [r]) (reqs ++ [r]).length b1 := by simpa using hb1
    rw [wp_bind]
    refine (ih (fun c hc => hsend c (List.mem_cons_of_mem _ hc))
      (fun c hc => hsingle c (List.mem_cons_of_mem _ hc)) htalk hcount1).mono ?_ (fun _ _ h => h)
    rintro codes b2 ⟨new, hb2, hlen, hcount2, hcodes⟩
    have hall : reqs ++ [r] ++ new = reqs ++ r :: new := by simp
    rw [hall] at hb2 hcount2 hcodes
    refine ⟨r :: new, hb2, by simp [hlen], hcount2, ?_⟩
    have hlt2 : reqs.length < (S.greeting :: S.outputs (reqs ++ r :: new)).length := by
      rw [List.length_cons, hcount2, List.length_append]
      omega
    have hsame : (S.greeting :: S.outputs (reqs ++ r :: new))[reqs.length]
        = (S.greeting :: S.outputs (reqs ++ [r]))[reqs.length] := by
      have hpre : S.greeting :: S.outputs (reqs ++ [r])
          <+: S.greeting :: S.outputs (reqs ++ r :: new) :=
        (List.prefix_cons_inj _).mpr (Machine.outputs_of_part ⟨new, hall⟩)
      exact (hpre.getElem hlt).symm
    rw [List.drop_eq_getElem_cons hlt2, List.length_cons, List.take_succ_cons, List.map_cons, hsame,
      ← hcode, hcodes, List.length_append, List.length_singleton]

/-- **One reply behind.** Nothing in the class reads the greeting. A client that does not do it gets
with each call the code of the reply before, the first time that of the greeting. It has heard one
reply less than was said, and leaves the last one where it is. The reads bring whole replies here,
too. -/
theorem session_behind (S : Server σ) {E : Env} (hK : E.K.Serves S.peer) (hfits : S.Fits E.fuel)
    {cmds : List Command} (hsend : ∀ cmd ∈ cmds, cmd.Sendable)
    (hsingle : ∀ cmd ∈ cmds, cmd.single?.isSome) (platform : Platform) (sock : Int)
    (gbuf pbuf : Nat → UInt8) (errno : Errno) (out : Option (List UInt8))
    (replycode : List UInt8) :
    wp (cmds.mapM (Command.call E))
      (fun codes b' => ∃ replies, S.outputs (requests b'.ctl.buf.wire) = replies ∧
        replies.length = cmds.length ∧
        codes = (S.greeting :: replies).dropLast.map (·.code.head?) ∧
        S.peer.Heard cmds.length b'.ctl.buf)
      (fun e _ => e.IsInputError)
      (Ftpbuf.init (fresh platform sock gbuf pbuf errno) out replycode) := by
  have hstart : Talking S [] 0 (Ftpbuf.init (fresh platform sock gbuf pbuf errno) out replycode) :=
    ⟨putOpen_fresh _ _ _ _ _, rfl, by simp, rfl, heard_fresh _ _ _ _ _ _⟩
  refine (behind_calls hK hfits hsend hsingle hstart rfl).mono ?_ (fun _ _ h => h)
  rintro codes b' ⟨new, hb', hlen, hcount, hcodes⟩
  rw [List.nil_append] at hb' hcount hcodes
  refine ⟨S.outputs new, by rw [hb'.wire, requests_flatMap hb'.plain], hcount.trans hlen, ?_,
    hlen ▸ hb'.heard⟩
  rw [hcodes, List.dropLast_eq_take, List.length_cons, hcount, hlen]
  rfl

/-- The code of `USER` is the digit of `220`, that of the next command the digit of `331`. -/
theorem session_behind_guest :
    ∃ b' replies, List.mapM (Command.call visiting) [.user (some [97]), .noop] visitor
        = .ok [some 50, some 51] b' ∧ guest.outputs (requests b'.ctl.buf.wire) = replies ∧
      replies.length = 2 := by
  have hrun := of_attempt_ok (c := List.mapM (Command.call visiting) [.user (some [97]), .noop])
    (s := visitor) (a := [some 50, some 51]) (by decide +kernel)
  have hsend : ∀ cmd ∈ [Command.user (some [97]), .noop], cmd.Sendable := by
    simp [Command.Sendable, Clean]
  have h := session_behind guest (E := visiting) (serves_serving guest.peer) guest_fits hsend
    (by decide) .small 3 (fun _ => 0) (fun _ => 0) 0 none []
  obtain ⟨replies, houtputs, hlen, -⟩ := h.of_ok hrun
  exact ⟨_, replies, hrun, houtputs, hlen⟩

end Sessions

end Ftp

end Sockstream
