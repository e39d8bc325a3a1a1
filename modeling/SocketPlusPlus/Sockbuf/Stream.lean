import SocketPlusPlus.Sockbuf.Get
import SocketPlusPlus.Transport

/-!
# Reading a stream to its end

Over a lossless transport the read members of a narrow sockbuf return, and what they return depends
on the bytes that are still to come and on nothing else: not on how these are cut, nor on how many
of them are buffered. `St.Awaits stream rest s` says that `rest` is still to come.
-/

namespace Sockstream

open Exec Memory

/-- A reader of `stream`, with the settings of a new sockbuf, to whom `rest` is still to come. -/
structure St.Awaits (stream rest : List UInt8) (s : St UInt8) : Prop where
  rtmo : s.rep.rtmo = -1
  oob : s.rep.oob = false
  room : 0 < s.rep.gend
  getOpen : s.GetOpen
  isPrefix : s.received <+: stream
  ahead : s.self.unread ++ stream.drop s.received.length = rest

section Reader

variable {stream rest cs : List UInt8} {s s' : St UInt8} {T : Transport stream}

theorem awaits_fresh (P : Platform) (sock : Int) (gbuf pbuf : Nat → UInt8) (errno : Errno) :
    (fresh P sock gbuf pbuf errno).Awaits stream stream where
  rtmo := rfl
  oob := rfl
  room := P.BUFSIZ_pos
  getOpen := getOpen_fresh P sock gbuf pbuf errno
  isPrefix := List.nil_prefix
  ahead := by
    have hnil : (fresh P sock gbuf pbuf errno).self.unread = [] := by
      simp [fresh, Streambuf.init, Streambuf.unread]
    rw [hnil]
    rfl

/-- What a call has consumed is no longer to come. -/
theorem St.Awaits.of_took (hs : s.Awaits stream (cs ++ rest)) (h : Took cs s s')
    (hpre : s'.received <+: stream) : s'.Awaits stream rest where
  rtmo := by rw [h.rep]; exact hs.rtmo
  oob := by rw [h.rep]; exact hs.oob
  room := by rw [h.rep]; exact hs.room
  getOpen := h.getOpen
  isPrefix := hpre
  ahead := by
    obtain ⟨ins, hins, hconsumed⟩ := h.consumed
    have hreceived : s'.received = s.received ++ ins.flatMap answerBytes := by
      simp [St.received, hins]
    obtain ⟨later, hlater⟩ := hpre
    have hdrop : stream.drop s'.received.length = later := by
      rw [← hlater, List.drop_left]
    have hbefore : stream.drop s.received.length = ins.flatMap answerBytes ++ later := by
      rw [← hlater, hreceived, List.append_assoc, List.drop_left]
    have hahead := hs.ahead
    rw [hbefore, ← List.append_assoc, hconsumed, List.append_assoc] at hahead
    rw [hdrop]
    exact List.append_cancel_left hahead

/-- A call that only moved bytes out of the get area has read nothing. -/
theorem Took.received_eq (h : Took cs s s')
    (hlen : s.self.unread.length = cs.length + s'.self.unread.length) :
    s'.received = s.received := by
  obtain ⟨ins, hins, hconsumed⟩ := h.consumed
  have hbytes := congrArg List.length hconsumed
  rw [List.length_append, List.length_append] at hbytes
  have hnil : ins.flatMap answerBytes = [] := List.length_eq_zero_iff.mp (by omega)
  rw [St.received, hins, List.flatMap_append, hnil, List.append_nil]
  rfl

theorem takeChars_awaits {E : Exc → St UInt8 → Prop} (hs : s.Awaits stream rest) {n : Nat}
    (hn : n ≤ s.self.unread.length) :
    wp (takeChars n)
      (fun _ s' => s'.Awaits stream (rest.drop n) ∧
        s'.self.copied = s.self.copied ++ rest.take n ∧ s'.self.unread = s.self.unread.drop n)
      E s := by
  have htake : rest.take n = s.self.unread.take n := by
    rw [← hs.ahead, List.take_append_of_le_length hn]
  refine (takeChars_spec hs.getOpen hn).mono ?_ (fun _ _ h => h)
  intro _ s1 ⟨h1, hcopied, hunread⟩
  have hlen : s.self.unread.length = (s.self.unread.take n).length + s1.self.unread.length := by
    rw [hunread, List.length_take_of_le hn, List.length_drop]
    omega
  have hpre : s1.received <+: stream := by
    rw [h1.received_eq hlen]
    exact hs.isPrefix
  have hrest : s.Awaits stream (s.self.unread.take n ++ rest.drop n) := by
    rw [← htake, List.take_append_drop]
    exact hs
  exact ⟨hrest.of_took h1 hpre, by rw [hcopied, htake], hunread⟩

/-- `underflow` answers with the first byte that is still to come, and has it unread then. -/
theorem underflow_awaits (hT : T.Lossless) (hs : s.Awaits stream rest) :
    wp (underflow T.toKernel)
      (fun r s' => r = peek rest ∧ s'.Awaits stream rest ∧ s'.self.copied = s.self.copied ∧
        Took [] s s' ∧ (rest ≠ [] → s'.self.unread ≠ []))
      (fun _ _ => False) s := by
  have hahead := hs.ahead
  cases hunread : s.self.unread with
  | cons c cs =>
    have hr : (c.toNat : Int) = peek rest := by
      rw [← hahead, hunread]
      rfl
    rw [wp_iff_of_ok (underflow_of_unread T.toKernel hunread)]
    refine ⟨hr, hs, rfl, .refl hs.getOpen, fun _ => ?_⟩
    rw [hunread]
    exact List.cons_ne_nil c cs
  | nil =>
    rw [hunread, List.nil_append] at hahead
    obtain ⟨g, hget, -⟩ := hs.getOpen
    have hread := (read_delivers T (s.rep.gend * CharType.sizeof UInt8) s).and
      (read_lossless hT (s.rep.gend * CharType.sizeof UInt8) hs.rtmo hs.oob)
    have hfill := (underflow_refill T.toKernel hs.getOpen hunread).and
      (underflow_read T.toKernel hget ((unread_nil_iff hget).mp hunread)
        ((read_spec T.toKernel _ s).and hread))
    refine hfill.mono ?_ (fun _ _ h => h.2.2.2)
    rintro r s1 ⟨⟨h1, hcopied, hr, hins⟩, bs, s2, ⟨⟨-, h2⟩, hdelivers, -⟩, hcases⟩
    have hbs : s1.self.unread = bs := by
      have hinputs : s2.inputs = s1.inputs := by
        rcases hcases with ⟨-, -, rfl⟩ | ⟨-, -, rfl⟩
        · rfl
        · rfl
      have hlast := h2.inputs.symm.trans (hinputs.trans hins)
      simpa using (List.append_cancel_left hlast).symm
    have hreceived : s1.received = s.received ++ bs := by
      simp [St.received, hins, hbs, answerBytes]
    have hpre : s1.received <+: stream := hreceived ▸ hdelivers.received_prefix hs.isPrefix
    have h1' : s1.Awaits stream rest := hs.of_took h1 hpre
    have hmore : rest ≠ [] → s1.self.unread ≠ [] := by
      intro hne hnil
      rcases hdelivers.progress (hbs.symm.trans hnil) with hzero | hend
      · have hroom : s.rep.gend * 1 = 0 := hzero
        have := hs.room
        omega
      · exact hne (hahead.symm.trans (List.drop_eq_nil_of_le hend))
    refine ⟨?_, h1', hcopied, h1, hmore⟩
    rw [hr, ← h1'.ahead]
    cases hhave : s1.self.unread with
    | cons c cs => rfl
    | nil =>
      have hrest : rest = [] := Classical.byContradiction fun hne => hmore hne hhave
      rw [List.nil_append, ← List.nil_append (stream.drop _), ← hhave, h1'.ahead, hrest, hhave]

/-- `xsgetn` hands out the next `n` bytes, or all that come if these are fewer. Induction on the
fuel, as for its specification. -/
theorem xsgetnRec_awaits (hT : T.Lossless) (fuel n : Nat) (hs : s.Awaits stream rest)
    (hfuel : n + 2 ≤ fuel ∨ n + 1 ≤ fuel ∧ s.self.unread ≠ []) :
    wp (xsgetnRec T.toKernel fuel n)
      (fun r s' => r = (rest.take n).length ∧ s'.Awaits stream (rest.drop n) ∧
        s'.self.copied = s.self.copied ++ rest.take n)
      (fun _ _ => False) s := by
  induction fuel generalizing n s rest with
  | zero => omega
  | succ fuel ih =>
    by_cases hfits : n ≤ s.self.unread.length
    · have hn : n = (rest.take n).length := by
        rw [List.length_take, ← hs.ahead, List.length_append]
        omega
      rw [wp_xsgetnRec_fits hfits]
      refine (takeChars_awaits hs hfits).mono ?_ (fun _ _ h => h)
      intro _ s1 ⟨h1, hcopied, _⟩
      exact ⟨hn, h1, hcopied⟩
    apply wp_xsgetnRec_refill hfits
    refine (takeChars_awaits hs (Nat.le_refl _)).mono ?_ (fun _ _ h => h)
    intro _ s1 ⟨h1, hcopied1, _⟩
    refine (underflow_awaits hT h1).mono ?_ (fun _ _ h => h)
    intro c s2 ⟨hc, h2, hcopied2, _, hmore⟩
    have hlen : s.self.unread.length ≤ rest.length := by
      rw [← hs.ahead, List.length_append]
      omega
    have hsplit : rest.take n = rest.take s.self.unread.length
        ++ (rest.drop s.self.unread.length).take (n - s.self.unread.length) := by
      rw [← List.take_add]
      congr 1
      omega
    have hrest : (rest.drop s.self.unread.length).drop (n - s.self.unread.length)
        = rest.drop n := by
      rw [List.drop_drop]
      congr 1
      omega
    by_cases heof : c = eof
    · -- nothing comes any more
      have hnil : rest.drop s.self.unread.length = [] := peek_eq_eof.mp (hc.symm.trans heof)
      rw [if_pos heof, hsplit, ← hrest, hnil, List.take_nil, List.drop_nil,
        List.append_nil, List.length_take_of_le hlen]
      exact ⟨rfl, hnil ▸ h2, hcopied2.trans hcopied1⟩
    rw [if_neg heof]
    have hne : rest.drop s.self.unread.length ≠ [] := fun hnil =>
      heof (hc.trans (peek_eq_eof.mpr hnil))
    refine (ih (n - s.self.unread.length) h2
      (.inr ⟨xsgetn_fuel hfuel hfits, hmore hne⟩)).mono ?_ (fun _ _ h => h)
    intro more s3 ⟨hmore3, h3, hcopied3⟩
    rw [hrest] at h3
    refine ⟨?_, h3, ?_⟩
    · rw [hsplit, List.length_append, List.length_take_of_le hlen, hmore3]
    · rw [hsplit, hcopied3, hcopied2, hcopied1, List.append_assoc]

theorem xsgetn_awaits (hT : T.Lossless) (n : Nat) (hs : s.Awaits stream rest) :
    wp (xsgetn T.toKernel n)
      (fun r s' => r = (rest.take n).length ∧ s'.Awaits stream (rest.drop n) ∧
        s'.self.copied = s.self.copied ++ rest.take n)
      (fun _ _ => False) s :=
  xsgetnRec_awaits hT _ n hs (.inl (Nat.le_refl _))

theorem sgetc_eq (K : Kernel) (s : St UInt8) : sgetc K s = underflow K s := by
  obtain ⟨rep, ⟨get, put, sockname, stored, copied⟩, sys⟩ := s
  cases get with
  | none => rfl
  | some g =>
    rw [underflow_of_get K rfl]
    show (if g.gptr < g.egptr then _ else underflow K : M UInt8 Int) _ = _
    by_cases hsome : g.gptr < g.egptr
    · rw [if_pos hsome, if_pos hsome]
      rfl
    · rw [if_neg hsome, if_neg hsome, underflow_of_get K rfl, if_neg hsome]

/-- `sgetc` looks at the first byte that is still to come. -/
theorem sgetc_awaits (hT : T.Lossless) (hs : s.Awaits stream rest) :
    wp (sgetc T.toKernel) (fun r s' => r = peek rest ∧ s'.Awaits stream rest)
      (fun _ _ => False) s :=
  (wp_congr (sgetc_eq T.toKernel s)).mpr <|
    (underflow_awaits hT hs).mono (fun _ _ h => ⟨h.1, h.2.1⟩) (fun _ _ h => h)

/-- `sbumpc` takes the first byte that is still to come. -/
theorem sbumpc_awaits (hT : T.Lossless) (hs : s.Awaits stream rest) :
    wp (sbumpc T.toKernel) (fun r s' => r = peek rest ∧ s'.Awaits stream rest.tail)
      (fun _ _ => False) s := by
  have hbump : ∀ {s : St UInt8}, s.Awaits stream rest → s.self.unread ≠ [] →
      wp (gbump 1) (fun _ s' => s'.Awaits stream rest.tail) (fun _ _ => False) s := by
    intro s hs hne
    obtain ⟨c, cs, hunread⟩ := List.exists_cons_of_ne_nil hne
    obtain ⟨more, hrest⟩ : ∃ more, rest = c :: more := ⟨_, by rw [← hs.ahead, hunread]; rfl⟩
    refine (gbump_spec hs.getOpen hunread).mono ?_ (fun _ _ h => h)
    intro _ s1 ⟨h1, _, hunread1⟩
    have hlen : s.self.unread.length = [c].length + s1.self.unread.length := by
      rw [hunread, hunread1, List.length_cons, List.length_singleton, Nat.add_comm]
    have hpre : s1.received <+: stream := by
      rw [h1.received_eq hlen]
      exact hs.isPrefix
    rw [hrest] at hs ⊢
    have hahead : s.Awaits stream ([c] ++ more) := hs
    exact hahead.of_took h1 hpre
  obtain ⟨g, hget, -⟩ := hs.getOpen
  rw [wp_congr (sbumpc_of_get T.toKernel hget)]
  by_cases hsome : g.gptr < g.egptr
  · -- the byte is there
    have hne : s.self.unread ≠ [] := by
      intro hnil
      have := (unread_nil_iff hget).mp hnil
      omega
    have hpeek : CharType.toInt (g.mem g.gptr) = peek rest := by
      obtain ⟨c, cs, hunread⟩ := List.exists_cons_of_ne_nil hne
      obtain ⟨g', hget', -, hhead, -⟩ := exists_of_unread hunread
      obtain rfl : g = g' := Option.some.inj (hget.symm.trans hget')
      rw [← hs.ahead, hunread, hhead]
      rfl
    rw [if_pos hsome, wp_bind]
    exact (hbump hs hne).mono (fun _ _ h => ⟨hpeek, h⟩) (fun _ _ h => h)
  · rw [if_neg hsome]
    unfold uflow
    rw [wp_bind]
    refine (underflow_awaits hT hs).mono ?_ (fun _ _ h => h)
    intro r s1 ⟨hr, h1, _, _, hmore⟩
    by_cases heof : r = eof
    · have hnil : rest = [] := peek_eq_eof.mp (hr.symm.trans heof)
      rw [hnil] at h1
      rw [if_pos heof, wp_pure, hnil]
      exact ⟨rfl, h1⟩
    · have hne : rest ≠ [] := fun hnil => heof (hr.trans (peek_eq_eof.mpr hnil))
      rw [if_neg heof, wp_bind]
      exact (hbump h1 (hmore hne)).mono (fun _ _ h => ⟨hr, h⟩) (fun _ _ h => h)

end Reader

end Sockstream
