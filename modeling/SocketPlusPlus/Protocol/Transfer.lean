import SocketPlusPlus.Protocol.Ftp
import SocketPlusPlus.Sockbuf.Stream
import SocketPlusPlus.Sockbuf.Willing

/-!
# Moving a file

The two branches of `ftpdata` that move a file over the data connection.

The loop that receives tests for `EOF`, which `sgetn` never returns: at the end of the file it
returns 0 again and again. So a download never ends, although every byte of the file has arrived
(`recvData_never_returns`). The loop that sends tests for a positive count, and what is still in the
put area when it ends goes out in the destructor, before the final reply is asked for
(`upload_complete`).
-/

namespace Sockstream

open Exec Memory

namespace Ftp

/-! ## Receiving

A round of the loop stores what `sgetn` returned. At the end of the file this is nothing, and the
loop goes on. -/

section Receive

variable {stream rest : List UInt8} {T : Transport stream}

theorem sgetn_awaits (hT : T.Lossless) (n : Nat) {s : St UInt8} (hs : s.Awaits stream rest) :
    wp (sgetn T.toKernel n)
      (fun r s' => r = ((rest.take n).length, rest.take n) ∧ s'.Awaits stream (rest.drop n))
      (fun _ _ => False) s := by
  unfold sgetn
  rw [wp_bind, wp_get, wp_bind]
  refine (xsgetn_awaits hT n hs).mono ?_ (fun _ _ h => h)
  intro rdsz s1 ⟨hr, h1, hcopied⟩
  rw [wp_bind, wp_get, wp_pure, hcopied, List.drop_left, hr]
  exact ⟨rfl, h1⟩

theorem Ftpbuf.put_nil (b : Ftpbuf) (o : Option Sink) : b.put [] o = b := by
  obtain ⟨⟨buf, own, replycode⟩, file, notes⟩ := b
  cases o with
  | none => rfl
  | some o =>
    cases o with
    | own => cases own <;> simp [put]
    | file => cases file <;> simp [put]

theorem Ftpbuf.put_put (b : Ftpbuf) (o : Option Sink) (x y : List UInt8) :
    (b.put x o).put y o = b.put (x ++ y) o := by
  cases o with
  | none => rfl
  | some o =>
    cases o with
    | own => cases h : b.ctl.o <;> simp [put, h]
    | file => cases h : b.file <;> simp [put, h]

/-- A round sends what it got to `o`, and goes on, also if it got nothing. -/
theorem recvRound_spec (hT : T.Lossless) {N : Net} (hN : N.toKernel = T.toKernel)
    (o : Option Sink) (buf : Nat → UInt8) {t : Transfer} (hc : t.c.buf.Awaits stream rest) :
    wp (recvRound N o buf)
      (fun turn t' => (∃ buf', turn = .again buf') ∧ t'.c.buf.Awaits stream (rest.drop 1024) ∧
        t'.ftp = t.ftp.put (rest.take 1024) o)
      (fun _ _ => False) t := by
  unfold recvRound onData onSession
  rw [wp_bind, wp_zoom, wp_zoom, hN]
  refine (sgetn_awaits hT 1024 hc).mono ?_ (fun _ _ h => h)
  rintro r s ⟨rfl, hs⟩
  have hcount : (((rest.take 1024).length : Nat) : Int) ≠ eof := by
    show _ ≠ (-1 : Int)
    omega
  show wp (if (((rest.take 1024).length : Nat) : Int) = eof then _ else _) _ _ _
  rw [if_neg hcount, slice_copyIn, wp_bind]
  exact ⟨⟨_, rfl⟩, hs, rfl⟩

/-- However many rounds the loop makes, it does not end. Induction on the rounds. -/
theorem recvLoop_spec (hT : T.Lossless) {N : Net} (hN : N.toKernel = T.toKernel)
    (o : Option Sink) (fuel : Nat) (buf : Nat → UInt8) {t : Transfer}
    (hc : t.c.buf.Awaits stream rest) :
    wp (loop (recvRound N o) .outOfFuel fuel buf) (fun _ _ => False)
      (fun e t' => e = .outOfFuel ∧ t'.ftp = t.ftp.put (rest.take (1024 * fuel)) o) t := by
  induction fuel generalizing rest buf t with
  | zero => exact ⟨rfl, (t.ftp.put_nil o).symm⟩
  | succ fuel ih =>
    rw [loop, wp_bind]
    refine (recvRound_spec hT hN o buf hc).mono ?_ (fun _ _ h => h.elim)
    rintro turn t1 ⟨⟨buf', rfl⟩, hc1, hftp⟩
    refine (ih buf' hc1).mono (fun _ _ h => h) ?_
    rintro e t2 ⟨rfl, hftp2⟩
    refine ⟨rfl, ?_⟩
    rw [hftp2, hftp, Ftpbuf.put_put, ← List.take_add, Nat.mul_succ, Nat.add_comm 1024]

end Receive

/-! ## Sending

The loop writes the file through a sockbuf, and the destructor of the sockbuf sends what is left and
closes. -/

section Send

variable {N : Net} {content rest : List UInt8} {b : Ftpbuf} {t : Transfer}

/-- What has been handed over, what is pending, and what is left to read of `i` are the file. -/
structure Sending (content rest : List UInt8) (b : Ftpbuf) (t : Transfer) : Prop where
  ftp : t.ftp = b
  putOpen : t.c.buf.PutOpen
  stmo : t.c.buf.rep.stmo = -1
  cnt : t.c.buf.rep.cnt = 1
  sent : t.c.buf.wire ++ t.c.buf.self.pending ++ rest = content

theorem sending_fresh (P : Platform) (sock : Int) (gbuf pbuf : Nat → UInt8) (errno : Errno)
    (content : List UInt8) (b : Ftpbuf) :
    Sending content content b ⟨Session.fresh P sock gbuf pbuf errno, b⟩ :=
  ⟨rfl, putOpen_fresh P sock gbuf pbuf errno, rfl, rfl, rfl⟩

/-- A round moves up to 1024 bytes, and the loop is left when none is left. -/
theorem sendRound_spec (hN : Willing N.toKernel) (buf : Nat → UInt8)
    (ht : Sending content rest b t) :
    wp (sendRound N (buf, rest))
      (fun turn t' => match turn with
        | .again x => x.2 = rest.drop 1024 ∧ rest ≠ [] ∧ Sending content x.2 b t'
        | .leave _ => Sending content [] b t')
      (fun _ _ => False) t := by
  unfold sendRound
  by_cases hsome : 0 < (rest.take 1024).length
  · have hne : rest ≠ [] := by
      rintro rfl
      simp at hsome
    simp only [if_pos hsome]
    rw [slice_copyIn, wp_bind]
    unfold onData onSession
    rw [wp_zoom, wp_zoom]
    refine (xsputn_willing hN _ ht.putOpen ht.stmo).mono ?_ (fun _ _ h => h)
    rintro wrsz s ⟨rfl, h⟩
    rw [if_neg (not_not.mpr rfl)]
    refine ⟨rfl, hne, ht.ftp, h.putOpen, ?_, ?_, ?_⟩
    · exact (congrArg Sockcnt.stmo h.rep).trans ht.stmo
    · exact (congrArg Sockcnt.cnt h.rep).trans ht.cnt
    · show s.wire ++ s.self.pending ++ rest.drop 1024 = content
      rw [h.sent, List.append_assoc, List.take_append_drop, ht.sent]
  · have hnil : rest = [] := by
      rw [List.length_take] at hsome
      exact List.length_eq_zero_iff.mp (by omega)
    simp only [if_neg hsome, wp_pure]
    exact hnil ▸ ht

/-- One round for each 1024 bytes begun, and one that finds the end. -/
theorem sendLoop_spec (hN : Willing N.toKernel) {fuel : Nat} (buf : Nat → UInt8)
    (ht : Sending content rest b t) (hfuel : (rest.length + 1023) / 1024 < fuel) :
    wp (loop (sendRound N) .outOfFuel fuel (buf, rest)) (fun _ t' => Sending content [] b t')
      (fun _ _ => False) t := by
  refine wp_loop_lt (I := fun x t => Sending content x.2 b t)
    (fun x _ => (x.2.length + 1023) / 1024) ?_ ht hfuel
  intro x t1 h1
  refine (sendRound_spec hN x.1 h1).mono ?_ (fun _ _ h => h)
  intro turn t2 h2
  cases turn with
  | leave a => exact h2
  | again y =>
    obtain ⟨hy, hne, h3⟩ := h2
    refine ⟨h3, ?_⟩
    have hpos := List.length_pos_iff.mpr hne
    show (y.2.length + 1023) / 1024 < (x.2.length + 1023) / 1024
    rw [hy, List.length_drop]
    omega

/-- The file has been handed to the kernel, in order and once, and the descriptor is closed. -/
structure Uploaded (N : Net) (content : List UInt8) (c : Session) : Prop where
  wire : c.buf.wire = content
  cnt : c.buf.rep.cnt = 0
  closed : N.close c.buf.sys.history (c.shut.map Prod.fst) c.buf.rep.sock = .ok ()

/-- The destructor sends what is pending and closes the descriptor, if `close` does not fail. -/
theorem destroy_uploads (hN : Willing N.toKernel) (ht : Sending content [] b t) :
    wp (Session.destroy N) (fun _ c => Uploaded N content c)
      (fun _ _ => ∃ h shut sock e, N.close h shut sock = .error e) t.c := by
  have hrelease : wp (release N.toKernel)
      (fun last s => last = true ∧ s.wire = content ∧ s.rep.cnt = 0) (fun _ _ => False)
      t.c.buf := by
    unfold release
    rw [wp_bind]
    refine (overflow_willing hN ht.putOpen ht.stmo).mono ?_ (fun _ _ h => h)
    intro r s ⟨_, h, hnil⟩
    have hcnt : s.rep.cnt - 1 = 0 := by
      rw [h.rep, ht.cnt]
      rfl
    have hsent := h.sent
    have hall := ht.sent
    rw [hnil, List.append_nil, List.append_nil] at hsent
    rw [List.append_nil] at hall
    exact ⟨decide_eq_true hcnt, hsent.trans hall, hcnt⟩
  unfold Session.destroy onSession
  rw [wp_bind, wp_zoom]
  refine hrelease.mono ?_ (fun _ _ h => h.elim)
  rintro last s ⟨rfl, hwire, hcnt⟩
  rw [if_pos rfl]
  unfold wp closeSock
  cases hclose : N.close s.sys.history (t.c.shut.map Prod.fst) s.rep.sock with
  | ok _ => exact ⟨hwire, hcnt, hclose⟩
  | error e => exact ⟨_, _, _, e, hclose⟩

/-- The branch for `i` leaves the `ftpbuf` alone, but for the note on the data connection. -/
theorem sendData_spec {port : DataPort} (hN : Willing port.net.toKernel) (content : List UInt8)
    {fuel : Nat} (hfuel : (content.length + 1023) / 1024 < fuel) (b : Ftpbuf) :
    wp (sendData port fuel content)
      (fun _ b' => ∃ c, Uploaded port.net content c ∧
        b' = { b with notes := .closed c :: b.notes })
      (fun _ b' => b'.notes = b.notes ∧ ((∃ e, port.accept = .error e) ∨
        ∃ h shut sock e, port.net.close h shut sock = .error e)) b := by
  unfold sendData
  rw [wp_withData]
  cases haccept : port.accept with
  | error e => exact ⟨rfl, .inl ⟨e, rfl⟩⟩
  | ok sock =>
    have hstart := sending_fresh port.platform sock port.gbuf port.pbuf port.errno content b
    show wp (inBlock port.net _) _ _ _
    unfold inBlock
    rw [wp_bind, wp_tryCatch]
    refine (sendLoop_spec hN port.buf hstart hfuel).mono ?_ (fun _ _ h => h.elim)
    intro _ t1 h1
    rw [wp_bind]
    unfold onData
    rw [wp_zoom]
    refine (destroy_uploads hN h1).mono ?_ ?_
    · intro _ c hc
      refine ⟨c, hc, ?_⟩
      rw [← h1.ftp]
    · intro e c hclose
      exact ⟨congrArg Ftpbuf.notes h1.ftp, .inr hclose⟩

theorem getResponse_notes (E : Env) (b : Ftpbuf) :
    wp (Ftpbuf.getResponse E)
      (fun code b' => b'.notes = .replied b.ctl b'.ctl code :: .asks :: b.notes)
      (fun _ b' => b'.notes = .asks :: b.notes) b := by
  unfold Ftpbuf.getResponse note onCtl
  rw [wp_bind, wp_get, wp_bind, wp_modify, wp_bind, wp_zoom]
  exact wp_of_forall (fun _ _ => rfl) (fun _ _ => rfl)

/-- The end of `ftpdata`: the file is sent, the data connection closed, and the reply asked for. -/
theorem sendData_getResponse (E : Env) {port : DataPort} (hN : Willing port.net.toKernel)
    (content : List UInt8) (hfuel : (content.length + 1023) / 1024 < E.fuel) (b : Ftpbuf) :
    wp (do
        sendData port E.fuel content
        Ftpbuf.getResponse E)
      (fun code b' => ∃ c before after, Uploaded port.net content c ∧
        b'.notes = .replied before after code :: .asks :: .closed c :: b.notes)
      (fun _ b' => (∃ c, Uploaded port.net content c ∧
        b'.notes = .asks :: .closed c :: b.notes) ∨ b'.notes = b.notes) b := by
  rw [wp_bind]
  refine (sendData_spec hN content hfuel b).mono ?_ (fun _ _ h => .inr h.1)
  rintro _ b1 ⟨c, hc, rfl⟩
  refine (getResponse_notes E _).mono ?_ (fun _ _ h => .inl ⟨c, hc, h⟩)
  exact fun _ _ h => ⟨c, _, _, hc, h⟩

end Send

/-! ## The replies that are asked for -/

/-- How often a reply was asked for. -/
def asked : List Note → Nat
  | [] => 0
  | .asks :: older => asked older + 1
  | _ :: older => asked older

/-- `o` is null in both clients, or in none. -/
def SameSink (t t' : Client (List UInt8)) : Prop := t'.o.isSome = t.o.isSome

instance : IsPreorder (Client (List UInt8)) SameSink where
  refl _ := rfl
  trans _ _ _ h h' := h'.trans h

/-- The program asks for `n` replies; if it throws, for at most as many. -/
def Asks {α : Type} (n : Nat) (c : FtpM α) : Prop := ∀ b,
  wp c (fun _ b' => asked b'.notes = asked b.notes + n ∧ SameSink b.ctl b'.ctl)
    (fun _ b' => asked b'.notes ≤ asked b.notes + n) b

section Asks

variable {α β : Type} {n : Nat} {c : FtpM α} {f : α → FtpM β} {b : Ftpbuf}

theorem Asks.of_eq (h : Within Eq c) : Asks 0 c := by
  intro b
  refine (h b).mono ?_ ?_
  · rintro a b' rfl
    exact ⟨rfl, rfl⟩
  · rintro e b' rfl
    exact Nat.le_refl _

theorem Asks.after (hc : Asks 0 c) (hf : ∀ a, Asks n (f a)) : Asks n (c >>= f) := by
  intro b
  rw [wp_bind]
  refine (hc b).mono ?_ (fun _ _ h => by omega)
  intro a b1 ⟨h1, hsink⟩
  refine (hf a b1).mono ?_ (fun _ _ h => by omega)
  intro _ b2 ⟨h2, hsink2⟩
  exact ⟨by omega, hsink2.trans hsink⟩

theorem asks_onBuf (c : M UInt8 α) : Asks 0 (onCtl (onBuf c)) := by
  intro b
  unfold onCtl onBuf
  rw [wp_zoom, wp_zoom]
  exact wp_of_forall (fun _ _ => ⟨rfl, rfl⟩) (fun _ _ => Nat.le_refl _)

theorem reading_sameSink (K : Kernel) : Reading K SameSink := by
  have honBuf : ∀ {γ : Type} (c : M UInt8 γ), Within SameSink (onBuf c) := fun c => by
    refine .of_rest ?_ c
    exact fun _ _ => rfl
  exact ⟨honBuf _, fun _ => honBuf _, fun _ _ => Option.isSome_map⟩

theorem asks_getResponse (E : Env) : Asks 1 (Ftpbuf.getResponse E) := by
  intro b
  unfold Ftpbuf.getResponse note onCtl Ftp.getResponse
  rw [wp_bind, wp_get, wp_bind, wp_modify, wp_bind, wp_zoom, wp_bind]
  have hloop := within_responseLoop (reading_sameSink E.K) (fun _ _ => rfl) E.fuel true
  exact (hloop b.ctl).mono (fun _ _ h => ⟨rfl, h⟩)
    (fun _ _ _ => Nat.le_refl _)

theorem asks_sendCmd (E : Env) (cmd : List UInt8) (arg : Option (List UInt8)) :
    Asks 1 (Ftpbuf.sendCmd E cmd arg) := by
  have hend : Asks 1 (do
      let _ ← onCtl (onBuf (xsputn E.K [13, 10]))
      let _ ← onCtl (onBuf (sync E.K))
      Ftpbuf.getResponse E) :=
    .after (asks_onBuf _) fun _ => .after (asks_onBuf _) fun _ => asks_getResponse E
  unfold Ftpbuf.sendCmd
  refine .after (asks_onBuf _) fun _ => ?_
  cases arg with
  | none => exact hend
  | some arg => exact .after (asks_onBuf _) fun _ => .after (asks_onBuf _) fun _ => hend

theorem asks_useraddr (E : Env) (sa : SockInetAddr) : Asks 1 (Ftpbuf.useraddr E sa) := by
  unfold Ftpbuf.useraddr
  refine .after (.of_eq (.ite ?_ (.pure _))) fun _ => asks_sendCmd E _ _
  cases E.hostAddr with
  | none => exact .throw _
  | some sAddr => exact .pure _

/-- A first step that asks for `n` replies. -/
theorem Asks.wp_bind {Q : β → Ftpbuf → Prop} {X : Exc → Ftpbuf → Prop} (hc : Asks n c)
    (hthrows : ∀ e b1, asked b1.notes ≤ asked b.notes + n → X e b1)
    (hf : ∀ a b1, asked b1.notes = asked b.notes + n → SameSink b.ctl b1.ctl →
      wp (f a) Q X b1) : wp (c >>= f) Q X b := by
  rw [Exec.wp_bind]
  exact (hc b).mono (fun a b1 h => hf a b1 h.1 h.2) hthrows

/-- The rule for `ftpdata`: two replies, for `PORT` and for the command, come before the file. -/
theorem wp_ftpdata {E : Env} {portno : Int} {i : Option (List UInt8)} {o : Option Sink}
    {cmd : List UInt8} {arg : Option (List UInt8)} {Q : Option UInt8 → Ftpbuf → Prop}
    {X : Exc → Ftpbuf → Prop}
    (hfew : ∀ e b1, asked b1.notes ≤ asked b.notes + 2 → X e b1)
    (hrefused : ∀ b1, b1.notes.head? = some .rejects → asked b1.notes = asked b.notes + 2 →
      Q (some rcaError) b1)
    (hmove : ∀ b1, asked b1.notes = asked b.notes + 2 → SameSink b.ctl b1.ctl →
      wp (do
          if b1.present o then recvData (E.port b.notes) E.fuel o
          else
            match i with
            | none => pure ()
            | some rest => sendData (E.port b.notes) E.fuel rest
          Ftpbuf.getResponse E)
        (fun ret b' => Q ret b' ∧ ∀ e, X e b') X b1) :
    wp (Ftpbuf.ftpdata E portno i o cmd arg) Q X b := by
  unfold Ftpbuf.ftpdata
  rw [Exec.wp_bind, wp_get]
  refine (Asks.of_eq (within_answered _)).wp_bind (fun e b1 h => hfew e b1 (by omega)) ?_
  intro _ b1 h1 hsink1
  refine (Asks.of_eq (within_bindUntilSuccess _ _ _)).wp_bind
    (fun e b2 h => hfew e b2 (by omega)) ?_
  intro _ b2 h2 hsink2
  refine (Asks.of_eq (within_answered _)).wp_bind (fun e b3 h => hfew e b3 (by omega)) ?_
  intro sa b3 h3 hsink3
  refine (asks_useraddr E sa).wp_bind (fun e b4 h => hfew e b4 (by omega)) ?_
  intro _ b4 h4 hsink4
  refine (Asks.of_eq (within_answered _)).wp_bind (fun e b5 h => hfew e b5 (by omega)) ?_
  intro _ b5 h5 hsink5
  refine (asks_sendCmd E cmd arg).wp_bind (fun e b6 h => hfew e b6 (by omega)) ?_
  intro code b6 h6 hsink6
  have hsink : SameSink b.ctl b6.ctl :=
    ((((hsink6.trans hsink5).trans hsink4).trans hsink3).trans hsink2).trans hsink1
  -- closing the socket that waits only makes `ftpdata` throw
  have hclose : ∀ {b'} ret, Q ret b' → (∀ e, X e b') →
      wp (do
        answered (E.port b.notes).close
        pure ret) Q X b' := by
    intro b' ret hret hthrows
    cases (E.port b.notes).close with
    | ok _ => exact hret
    | error e => exact hthrows _
  unfold note
  rw [Exec.wp_bind, wp_modify, Exec.wp_bind]
  by_cases hcode : refused code
  · rw [if_pos hcode]
    unfold Ftpbuf.reject note
    rw [Exec.wp_bind, wp_modify, wp_pure]
    have hasked : asked (.rejects :: .compared code :: b6.notes) = asked b.notes + 2 := by
      show asked b6.notes = _
      omega
    exact hclose _ (hrefused _ rfl hasked) fun e => hfew e _ (Nat.le_of_eq hasked)
  · rw [if_neg hcode]
    have hasked : asked (.compared code :: b6.notes) = asked b.notes + 2 := by
      show asked b6.notes = _
      omega
    refine (hmove { b6 with notes := .compared code :: b6.notes } hasked hsink).mono ?_
      (fun _ _ h => h)
    exact fun ret b' h => hclose ret h.1 h.2

end Asks

/-! ## The transfers

Which replies were asked for, and what was stored or sent, when a transfer ends, if it does. -/

section Transfers

variable {E : Env} {b : Ftpbuf} {content : List UInt8}

theorem asked_put (bytes : List UInt8) (o : Option Sink) (b : Ftpbuf) :
    asked (b.put bytes o).notes = asked b.notes := by
  cases o with
  | none => rfl
  | some o => cases o <;> rfl

theorem present_of_sameSink {b1 : Ftpbuf} {o : Sink} (h : SameSink b.ctl b1.ctl)
    (ho : b.present (some o)) : b1.present (some o) := by
  cases o with
  | own => exact h.trans ho
  | file => rfl

/-- The branch for `o` does not come to its end. -/
theorem recvData_never_returns {T : Transport content} (hT : T.Lossless) {port : DataPort}
    (hN : port.net.toKernel = T.toKernel) (fuel : Nat) (o : Option Sink) (b : Ftpbuf) :
    wp (recvData port fuel o) (fun _ _ => False)
      (fun _ b' => asked b'.notes = asked b.notes) b := by
  unfold recvData
  rw [wp_withData]
  cases port.accept with
  | error e => rfl
  | ok sock =>
    have hfresh : (fresh port.platform sock port.gbuf port.pbuf port.errno).Awaits content
        content := awaits_fresh port.platform sock port.gbuf port.pbuf port.errno
    show wp (inBlock port.net _) _ _ _
    unfold inBlock
    rw [wp_bind, wp_tryCatch]
    refine (recvLoop_spec hT hN o fuel port.buf hfresh).mono (fun _ _ h => h.elim) ?_
    rintro e t ⟨-, hftp⟩
    have hasked : asked t.ftp.notes = asked b.notes := hftp ▸ asked_put _ o b
    unfold onData
    rw [wp_bind, wp_zoom]
    exact wp_of_forall (fun _ _ => hasked) (fun _ _ => hasked)

/-- A download, of whatever file: the loop goes on for ever, with every byte of the file written,
and the reply after it is not asked for. -/
theorem download_never_ends {T : Transport content} (hT : T.Lossless)
    (hN : (E.port b.notes).net.toKernel = T.toKernel) {o : Sink} (ho : b.present (some o))
    (portno : Int) (i : Option (List UInt8)) (cmd : List UInt8) (arg : Option (List UInt8)) :
    (∀ fuel P sock gbuf pbuf errno buf b1,
      wp (loop (recvRound (E.port b.notes).net (some o)) .outOfFuel fuel buf)
        (fun _ _ => False)
        (fun e t => e = .outOfFuel ∧ t.ftp = b1.put (content.take (1024 * fuel)) (some o))
        ⟨Session.fresh P sock gbuf pbuf errno, b1⟩) ∧
      wp (Ftpbuf.ftpdata E portno i (some o) cmd arg)
        (fun _ b' => b'.notes.head? = some .rejects ∧ asked b'.notes = asked b.notes + 2)
        (fun _ b' => asked b'.notes ≤ asked b.notes + 2) b := by
  refine ⟨fun fuel P sock gbuf pbuf errno buf b1 => recvLoop_spec hT hN (some o) fuel buf
    (awaits_fresh P sock gbuf pbuf errno), ?_⟩
  refine wp_ftpdata (fun _ _ h => h) (fun _ hhead h => ⟨hhead, h⟩) ?_
  intro b1 h1 hsink
  rw [if_pos (present_of_sameSink hsink ho), wp_bind]
  refine (recvData_never_returns hT hN E.fuel (some o) b1).mono (fun _ _ h => h.elim) ?_
  intro e b2 h2
  omega

/-- A server that answers `200 ok` three times, with data connections over `N`. -/
def obliging (N : Net) : Env := .over (List.replicate 3 [50, 48, 48, 32, 111, 107, 13, 10]) 3 N

/-- A client that passes what it is sent on to a stream. -/
def listening : Ftpbuf :=
  .init (fresh .small 3 (fun _ => 0) (fun _ => 0) 0) (some []) [0, 0, 0, 0]

theorem download_never_ends_byte :
    wp (Ftpbuf.ftpdata (obliging (.over (Transport.upTo [65] 0).toKernel)) 10000 none (some .own)
        [76, 73, 83, 84] none)
      (fun _ b' => b'.notes.head? = some .rejects ∧ asked b'.notes = 2)
      (fun _ b' => asked b'.notes ≤ 2) listening :=
  (download_never_ends (E := obliging (.over (Transport.upTo [65] 0).toKernel)) (b := listening)
    (T := Transport.upTo [65] 0) (o := .own) (fun _ _ _ => ⟨_, rfl⟩) rfl rfl 10000 none
    [76, 73, 83, 84] none).2

/-- A file of one byte, and no number of rounds after which the loop has ended. -/
theorem download_byte_never_ends : ¬ ∃ fuel t,
    loop (recvRound (.over (Transport.upTo [65] 0).toKernel) (some .own)) .outOfFuel fuel
      (fun _ => 0) ⟨Session.fresh .small 4 (fun _ => 0) (fun _ => 0) 0, listening⟩
        = .ok () t := by
  rintro ⟨fuel, t, hrun⟩
  exact (recvLoop_spec (T := Transport.upTo [65] 0) (fun _ _ _ => ⟨_, rfl⟩) rfl (some .own) fuel
    (fun _ => 0) (awaits_fresh .small 4 _ _ 0)).of_ok hrun

/-- The reply after the file was asked for only when the file had been sent, and nothing came
between. -/
def SentFirst (N : Net) (content : List UInt8) (before notes : List Note) : Prop :=
  asked notes ≤ asked before + 2 ∨ ∃ c newer older, Uploaded N content c ∧
    notes = newer ++ .asks :: .closed c :: older ∧ asked newer = 0 ∧
    asked older = asked before + 2

/-- An upload: the branch for `i` sends the whole file and closes the data connection, and only then
does `ftpdata` go on to the reply. -/
theorem upload_complete (hN : Willing (E.port b.notes).net.toKernel)
    (hfuel : (content.length + 1023) / 1024 < E.fuel) (portno : Int) (cmd : List UInt8)
    (arg : Option (List UInt8)) :
    (∀ b1, wp (sendData (E.port b.notes) E.fuel content)
      (fun _ b' => ∃ c, Uploaded (E.port b.notes).net content c ∧
        b' = { b1 with notes := .closed c :: b1.notes })
      (fun _ b' => b'.notes = b1.notes ∧ ((∃ e, (E.port b.notes).accept = .error e) ∨
        ∃ h shut sock e, (E.port b.notes).net.close h shut sock = .error e)) b1) ∧
      wp (Ftpbuf.ftpdata E portno (some content) none cmd arg)
        (fun _ b' => SentFirst (E.port b.notes).net content b.notes b'.notes ∧
          (b'.notes.head? = some .rejects ∨ asked b'.notes = asked b.notes + 3))
        (fun _ b' => SentFirst (E.port b.notes).net content b.notes b'.notes) b := by
  refine ⟨fun b1 => sendData_spec hN content hfuel b1, ?_⟩
  refine wp_ftpdata (fun _ _ h => .inl h) (fun _ hhead h => ⟨.inl (Nat.le_of_eq h), .inl hhead⟩) ?_
  intro b1 h1 _
  rw [if_neg (show ¬ b1.present none = true from Bool.false_ne_true)]
  refine (sendData_getResponse E hN content hfuel b1).mono ?_ ?_
  · rintro code b2 ⟨c, before, after, hc, h2⟩
    have hsent : SentFirst (E.port b.notes).net content b.notes b2.notes :=
      .inr ⟨c, [.replied before after code], b1.notes, hc, h2, rfl, h1⟩
    have hasked : asked b2.notes = asked b.notes + 3 := by
      rw [h2]
      show asked b1.notes + 1 = _
      omega
    exact ⟨⟨hsent, .inr hasked⟩, fun _ => hsent⟩
  · rintro e b2 (⟨c, hc, h2⟩ | h2)
    · exact .inr ⟨c, [], b1.notes, hc, h2, rfl, h1⟩
    · exact .inl (by rw [h2]; omega)

/-- What a call returned, and how often a reply was asked for. -/
def outcome : EStateM.Result Exc Ftpbuf (Option UInt8) → Option (Option UInt8) × Nat
  | .ok code b => (some code, asked b.notes)
  | .error _ b => (none, asked b.notes)

/-- Five bytes, of which the network takes one at a time. -/
theorem upload_complete_hello :
    let E := obliging (.over .drip)
    let hello := [104, 101, 108, 108, 111]
    outcome (Ftpbuf.ftpdata E 10000 (some hello) none [83, 84, 79, 82] (some [97]) listening)
        = (some (some 50), 3) ∧
      wp (Ftpbuf.ftpdata E 10000 (some hello) none [83, 84, 79, 82] (some [97]))
        (fun _ b' => SentFirst (.over .drip) hello [] b'.notes ∧
          (b'.notes.head? = some .rejects ∨ asked b'.notes = 3))
        (fun _ b' => SentFirst (.over .drip) hello [] b'.notes) listening := by
  intro E hello
  exact ⟨by decide +kernel, (@upload_complete E listening hello willing_drip (by decide) 10000
    [83, 84, 79, 82] (some [97])).2⟩

end Transfers

end Ftp

end Sockstream
