import SocketPlusPlus.Protocol.Rounds

/-!
# Replies cut into chunks

A server's reply is a list of lines, and the network hands it over in chunks: each `::read` returns
the next one. `get_response` takes line by line out of the get area, but it does so only for a line
that lies in the chunk where it starts. What it does with the others is this:

* fewer than five bytes of the chunk are left: the loop calls `underflow`, which sees that bytes are
  unread and reads nothing, and goes round for ever;
* the line goes on in the next chunk: FTP sends what there is and one byte more, from behind the
  get area, and takes it for a line; SMTP sends nothing, and either stops there or, if the fourth
  byte is a `-`, goes round for ever.

`Unsplit` is the condition that no line is treated like this. The results say that `get_response`
reads exactly the reply if and only if it holds.
-/

namespace Sockstream

open Exec Memory

/-! ## Splits -/

/-- The line starts in a chunk that still has five bytes, and ends in it. `goesOn` is what else the
loop wants to see in the bytes from the line on, if the line is not the last. -/
structure Whole (goesOn : List UInt8 → Prop) (line : List UInt8) (lines : List (List UInt8))
    (v : Ahead) : Prop where
  long : 5 ≤ v.refill.1.length
  fits : (crlf line).length ≤ v.refill.1.length
  more : lines ≠ [] → goesOn v.refill.1

/-- No line is split. -/
def Unsplit (goesOn : List UInt8 → Prop) : List (List UInt8) → Ahead → Prop
  | [], _ => True
  | line :: lines, v => Whole goesOn line lines v ∧
      Unsplit goesOn lines (v.refill.1.drop (crlf line).length, v.refill.2)

/-- The client wrote exactly `reply` behind `w`, and what is ahead of it is exactly `rest`. -/
structure HasRead {ρ : Type} (chunks : List (List UInt8)) (w reply rest : List UInt8)
    (t : Client ρ) : Prop where
  written : t.o = some (w ++ reply)
  ahead : (t.buf.ahead chunks).bytes = rest

/-- The loop takes a line that is whole in one round, and ends behind the last one; from a line
that is split it does not get to the end of the reply. `noted` is what the loop has noted of the
first line. -/
structure TakesLines {ρ : Type} (chunks : List (List UInt8)) (code : List UInt8)
    (goesOn : List UInt8 → Prop) (noted : Bool → ρ → Prop)
    (loop : Nat → Bool → ClientM ρ Unit) : Prop where
  zero : ∀ first t, loop 0 first t = .error .outOfFuel t
  whole : ∀ (fuel) {first line lines rest v w} {t : Client ρ},
    Expects code first (line :: lines) → noted first t.own → ¬ [13, 10] <:+: line →
    Sees chunks v t → t.o = some w → v.bytes = linesBytes (line :: lines) ++ rest →
    Whole goesOn line lines v →
    ∃ t', Sees chunks (v.refill.1.drop (crlf line).length, v.refill.2) t' ∧
      t'.o = some (w ++ crlf line) ∧ noted false t'.own ∧
      loop (fuel + 1) first t = if lines = [] then .ok () t' else loop fuel false t'
  split : ∀ {fuel first line lines rest v w} {t : Client ρ},
    Expects code first (line :: lines) → noted first t.own → ¬ [13, 10] <:+: line →
    Sees chunks v t → t.o = some w → v.bytes = linesBytes (line :: lines) ++ rest →
    ¬ Whole goesOn line lines v →
    wp (loop fuel first) (fun _ t' => ¬ HasRead chunks w (linesBytes (line :: lines)) rest t')
      (fun _ _ => True) t

section Replies

variable {ρ : Type} {chunks : List (List UInt8)} {code : List UInt8} {goesOn : List UInt8 → Prop}
  {noted : Bool → ρ → Prop} {loop : Nat → Bool → ClientM ρ Unit} {first : Bool}
  {lines : List (List UInt8)} {rest w : List UInt8} {v : Ahead} {t : Client ρ}

/-- Behind a line that is whole: the rest of its chunk, and the chunks to come. -/
theorem Whole.bytes_behind {line : List UInt8} (hwhole : Whole goesOn line lines v)
    (hstream : v.bytes = linesBytes (line :: lines) ++ rest) :
    Ahead.bytes (v.refill.1.drop (crlf line).length, v.refill.2) = linesBytes lines ++ rest := by
  rw [← v.bytes_refill, linesBytes_cons, List.append_assoc] at hstream
  have hdrop := congrArg (List.drop (crlf line).length) hstream
  rwa [List.drop_left, Ahead.bytes, List.drop_append_of_le_length hwhole.fits] at hdrop

/-- A line that is whole is in front of what a round sees. -/
theorem Whole.line_there {line : List UInt8} (hwhole : Whole goesOn line lines v)
    (hstream : v.bytes = linesBytes (line :: lines) ++ rest) :
    ∃ more, v.refill.1 = crlf line ++ more := by
  rw [← v.bytes_refill, linesBytes_cons, List.append_assoc] at hstream
  have hfront : v.refill.1 <+: v.refill.bytes := List.prefix_append _ _
  have hline : crlf line <+: v.refill.bytes := ⟨_, hstream.symm⟩
  obtain ⟨more, hmore⟩ := List.prefix_of_prefix_length_le hline hfront hwhole.fits
  exact ⟨more, hmore.symm⟩

/-- Induction on the lines: each is taken by one round. -/
theorem reads_of_unsplit (hloop : TakesLines chunks code goesOn noted loop)
    (hlines : ∀ line ∈ lines, ¬ [13, 10] <:+: line) (hne : lines ≠ [])
    (hexp : Expects code first lines) (hnoted : noted first t.own) (h : Sees chunks v t)
    (ho : t.o = some w) (hstream : v.bytes = linesBytes lines ++ rest)
    (hunsplit : Unsplit goesOn lines v) :
    ∃ t', loop lines.length first t = .ok () t' ∧ HasRead chunks w (linesBytes lines) rest t' := by
  induction lines generalizing v t first w with
  | nil => exact absurd rfl hne
  | cons line lines ih =>
    obtain ⟨hwhole, htail⟩ := hunsplit
    obtain ⟨t1, h1, ho1, hnoted1, hround⟩ := hloop.whole lines.length hexp hnoted
      (hlines line List.mem_cons_self) h ho hstream hwhole
    have hbehind := hwhole.bytes_behind hstream
    rw [List.length_cons, hround]
    by_cases hlast : lines = []
    · -- the loop has stopped behind the last line
      rw [if_pos hlast]
      refine ⟨t1, rfl, ?_, ?_⟩
      · rw [ho1, hlast, linesBytes_cons]
        simp [linesBytes]
      · rw [h1.ahead, hbehind, hlast]
        rfl
    · rw [if_neg hlast]
      have hlines' : ∀ l ∈ lines, ¬ [13, 10] <:+: l := fun l hl =>
        hlines l (List.mem_cons_of_mem _ hl)
      obtain ⟨t2, hrun, hread⟩ := ih hlines' hlast (hexp.tail hlast) hnoted1 h1 ho1 hbehind htail
      refine ⟨t2, hrun, ?_, hread.ahead⟩
      rw [hread.written, linesBytes_cons, List.append_assoc]

/-- Induction on the lines up to the first that is split. -/
theorem misreads_of_split (hloop : TakesLines chunks code goesOn noted loop)
    (hlines : ∀ line ∈ lines, ¬ [13, 10] <:+: line)
    (hexp : Expects code first lines) (hnoted : noted first t.own) (h : Sees chunks v t)
    (ho : t.o = some w) (hstream : v.bytes = linesBytes lines ++ rest)
    (hsplit : ¬ Unsplit goesOn lines v) (fuel : Nat) :
    wp (loop fuel first) (fun _ t' => ¬ HasRead chunks w (linesBytes lines) rest t')
      (fun _ _ => True) t := by
  induction lines generalizing v t first w fuel with
  | nil => exact absurd trivial hsplit
  | cons line lines ih =>
    have hline := hlines line List.mem_cons_self
    by_cases hwhole : Whole goesOn line lines v
    · -- this line is taken, so a later one is split
      have htail : ¬ Unsplit goesOn lines (v.refill.1.drop (crlf line).length, v.refill.2) :=
        fun hrest => hsplit ⟨hwhole, hrest⟩
      have hmore : lines ≠ [] := by
        intro hlast
        rw [hlast] at htail
        exact htail trivial
      cases fuel with
      | zero => exact (wp_iff_of_error (hloop.zero first t)).mpr trivial
      | succ fuel =>
        obtain ⟨t1, h1, ho1, hnoted1, hround⟩ := hloop.whole fuel hexp hnoted hline h ho
          hstream hwhole
        rw [if_neg hmore] at hround
        rw [wp_congr hround]
        have hlines' : ∀ l ∈ lines, ¬ [13, 10] <:+: l := fun l hl =>
          hlines l (List.mem_cons_of_mem _ hl)
        refine (ih hlines' (hexp.tail hmore) hnoted1 h1 ho1 (hwhole.bytes_behind hstream) htail
          fuel).mono ?_ (fun _ _ _ => trivial)
        intro _ t2 hmissed hread
        refine hmissed ⟨?_, hread.ahead⟩
        rw [hread.written, linesBytes_cons, List.append_assoc]
    · exact hloop.split hexp hnoted hline h ho hstream hwhole

end Replies

/-! ## Where a line is to come -/

section Lines

variable {ρ β : Type} {K : Kernel} {chunks : List (List UInt8)} {v : Ahead} {t : Client ρ}
  {line rest : List UInt8} {lines : List (List UInt8)}

/-- Where a line is to come, the loop sees some bytes. -/
theorem Sees.refill_ne_nil_of_line (h : Sees chunks v t)
    (hstream : v.bytes = linesBytes (line :: lines) ++ rest) : v.refill.1 ≠ [] := by
  apply h.refill_ne_nil
  intro hnil
  rw [hnil, linesBytes_cons, List.append_assoc] at hstream
  have hlen := congrArg List.length hstream
  rw [List.length_append, length_crlf, List.length_nil] at hlen
  omega

/-- If it is cut, the search goes one byte too far. -/
theorem Ahead.lineEnd_cut (hline : ¬ [13, 10] <:+: line)
    (hstream : v.bytes = linesBytes (line :: lines) ++ rest)
    (hcut : v.refill.1.length < (crlf line).length) :
    lineEnd v.refill.1 = v.refill.1.length + 1 := by
  rw [← v.bytes_refill, linesBytes_cons, List.append_assoc] at hstream
  exact Sockstream.lineEnd_cut hline hstream hcut

/-- A loop that sees fewer than five bytes never ends. -/
theorem Sees.spins_short {round : β → ClientM ρ (Turn β Unit)} {b : β}
    {body : Client ρ → ClientM ρ (Turn β Unit)}
    (hround : round b = replyRound (K.chunked chunks) (.again b) body) (h : Sees chunks v t)
    (hsome : v.refill.1 ≠ []) (hshort : v.refill.1.length < 5) (e : Exc) (fuel : Nat) :
    wp (loop round e fuel b) (fun _ _ => False) (fun e' _ => e' = e) t := by
  obtain ⟨s, hs, -, hunread⟩ := h.underflow K
  rw [← hunread] at hsome hshort
  exact loop_short hround hs (by rw [← hunread]; exact peek_ne_eof hsome) hsome hshort e fuel

end Lines

/-! ## FTP

A line that is cut is written with one byte from behind the get area, so that what was written is
too long, or has a byte of another line. -/

namespace Ftp

variable {K : Kernel} {chunks : List (List UInt8)} {v : Ahead} {t : Client (List UInt8)}
  {firstline : Bool} {fuel : Nat}

/-- Behind the first line, `replycode` holds its digits. -/
def Noted (code : List UInt8) (firstline : Bool) (replycode : List UInt8) : Prop :=
  firstline = false → replycode = code ++ [32]

/-- No byte leaves the stream without being written: what is written and what is ahead do not get
less together. -/
theorem written_add_ahead {w : List UInt8} (h : Sees chunks v t) (ho : t.o = some w) (fuel : Nat) :
    wp (loop (round (K.chunked chunks)) .outOfFuel fuel firstline)
      (fun _ t' => ∃ w', t'.o = some w' ∧
        w.length + v.bytes.length ≤ w'.length + (t'.buf.ahead chunks).bytes.length)
      (fun _ _ => True) t := by
  refine wp_loop (I := fun _ t1 => ∃ v1 w1, Sees chunks v1 t1 ∧ t1.o = some w1 ∧
    w.length + v.bytes.length ≤ w1.length + v1.bytes.length) ?_ (fun _ _ _ => trivial)
    ⟨v, w, h, ho, Nat.le_refl _⟩ fuel
  rintro firstline t1 ⟨v1, w1, h1, ho1, hle⟩
  obtain ⟨s, hs, hsees, hunread⟩ := h1.underflow K
  -- a round ends the loop, or goes on without a step, or takes a line
  by_cases hend : v1.refill.1 = []
  · rw [hend] at hs
    rw [round, wp_iff_of_ok (replyRound_eof hs)]
    refine ⟨w1, ho1, ?_⟩
    rwa [hsees.ahead, v1.bytes_refill]
  by_cases hshort : v1.refill.1.length < 5
  · rw [round, wp_iff_of_ok (replyRound_short _ _ hs (peek_ne_eof hend) (hunread ▸ hshort))]
    refine ⟨_, w1, hsees, ho1, ?_⟩
    rwa [v1.bytes_refill]
  · rw [wp_iff_of_ok (round_passes firstline hs (by rw [hunread]; omega) (peek_ne_eof hend))]
    -- as many bytes are written as the pointer moves
    have hpass := hsees.pass (lineEnd s.self.unread)
    have hless := v1.refill.length_bytes_drop (lineEnd s.self.unread)
    have ho2 : (passed firstline { t1 with buf := s }).o
        = some (w1 ++ slice s.self.atGptr 0 (lineEnd s.self.unread)) := by
      show t1.o.map _ = _
      rw [ho1]
      rfl
    have hsees2 : Sees chunks (v1.refill.1.drop (lineEnd s.self.unread), v1.refill.2)
        (passed firstline { t1 with buf := s }) := ⟨hpass.reads, hpass.ahead⟩
    have hmore : w.length + v.bytes.length
        ≤ (w1 ++ slice s.self.atGptr 0 (lineEnd s.self.unread)).length
          + (Ahead.bytes (v1.refill.1.drop (lineEnd s.self.unread), v1.refill.2)).length := by
      rw [v1.bytes_refill] at hless
      rw [List.length_append, length_slice]
      omega
    by_cases hstops : Stops firstline t1.own s.self.unread
    · rw [if_pos hstops]
      exact ⟨_, ho2, by rw [hsees2.ahead]; exact hmore⟩
    · rw [if_neg hstops]
      exact ⟨_, _, hsees2, ho2, hmore⟩

/-- From a line that is cut, one byte is written that nobody sent. -/
theorem misreads_cut {line rest w : List UInt8} {lines : List (List UInt8)}
    (hline : ¬ [13, 10] <:+: line) (h : Sees chunks v t) (ho : t.o = some w)
    (hstream : v.bytes = linesBytes (line :: lines) ++ rest) (hlong : 5 ≤ v.refill.1.length)
    (hcut : v.refill.1.length < (crlf line).length) :
    wp (loop (round (K.chunked chunks)) .outOfFuel (fuel + 1) firstline)
      (fun _ t' => ¬ HasRead chunks w (linesBytes (line :: lines)) rest t')
      (fun _ _ => True) t := by
  obtain ⟨s, hs, hsees, hunread⟩ := h.underflow K
  have hround := round_passes firstline hs (by rwa [hunread])
    (peek_ne_eof (h.refill_ne_nil_of_line hstream))
  -- the search runs past the end, and so do `write` and `gbump`
  have hend : lineEnd s.self.unread = v.refill.1.length + 1 := by
    rw [hunread, v.lineEnd_cut hline hstream hcut]
  have hpass := hsees.pass (v.refill.1.length + 1)
  let t1 := passed firstline { t with buf := s }
  have ho1 : t1.o = some (w ++ slice s.self.atGptr 0 (v.refill.1.length + 1)) := by
    show t.o.map _ = _
    rw [ho, ← hend]
    rfl
  have h1 : Sees chunks (v.refill.1.drop (v.refill.1.length + 1), v.refill.2) t1 := by
    rw [← hend] at hpass ⊢
    exact ⟨hpass.reads, hpass.ahead⟩
  have hahead : Ahead.bytes (v.refill.1.drop (v.refill.1.length + 1), v.refill.2)
      = v.refill.2.flatten := by
    rw [List.drop_eq_nil_of_le (by omega)]
    rfl
  have htotal : v.bytes.length = v.refill.1.length + v.refill.2.flatten.length := by
    rw [← v.bytes_refill]
    exact List.length_append
  -- one byte more than there was
  have hmore : ∀ {t' : Client (List UInt8)},
      (∃ w', t'.o = some w' ∧ (w ++ slice s.self.atGptr 0 (v.refill.1.length + 1)).length
        + v.refill.2.flatten.length ≤ w'.length + (t'.buf.ahead chunks).bytes.length) →
      ¬ HasRead chunks w (linesBytes (line :: lines)) rest t' := by
    intro t' ⟨w', ho', hle⟩ hread
    rw [hread.written] at ho'
    have hw' := congrArg List.length (Option.some.inj ho')
    have hrest := congrArg List.length hstream
    rw [hread.ahead, List.length_append, length_slice] at hle
    rw [List.length_append] at hw' hrest
    omega
  by_cases hstops : Stops firstline t.own s.self.unread
  · rw [if_pos hstops] at hround
    rw [wp_iff_of_ok (loop_leave hround)]
    refine hmore ⟨_, ho1, ?_⟩
    rw [h1.ahead, hahead]
  · rw [if_neg hstops] at hround
    rw [wp_congr (loop_again hround)]
    refine (written_add_ahead h1 ho1 fuel).mono ?_ (fun _ _ _ => trivial)
    intro _ t' hle
    rw [hahead] at hle
    exact hmore hle

/-- The loop takes whole lines, and nothing else. -/
theorem takesLines (K : Kernel) (chunks : List (List UInt8)) {code : List UInt8}
    (hlen : code.length = 3) (hdigits : ∀ d ∈ code, 48 ≤ d ∧ d ≤ 57) :
    TakesLines chunks code (fun _ => True) (Noted code)
      (loop (round (K.chunked chunks)) .outOfFuel) where
  zero _ _ := rfl
  whole _ := by
    intro firstline line lines rest v w t hexp hnoted hline h ho hstream hwhole
    obtain ⟨s, hs, hsees, hunread⟩ := h.underflow K
    obtain ⟨more, hmore⟩ := hwhole.line_there hstream
    obtain ⟨t', hround, hbuf, ho', hown⟩ := round_line hlen hdigits hexp hnoted hline hs
      (peek_ne_eof (h.refill_ne_nil_of_line hstream)) (hunread ▸ hwhole.long) (hunread.trans hmore)
    have hpass := hsees.pass (crlf line).length
    refine ⟨t', ⟨hbuf ▸ hpass.reads, hbuf ▸ hpass.ahead⟩, ?_, fun _ => hown, ?_⟩
    · rw [ho', ho]
      rfl
    · by_cases hlast : lines = []
      · rw [if_pos hlast] at hround ⊢
        exact loop_leave hround
      · rw [if_neg hlast] at hround ⊢
        exact loop_again hround
  split := by
    intro fuel firstline line lines rest v w t hexp hnoted hline h ho hstream hsplit
    have hsome := h.refill_ne_nil_of_line hstream
    by_cases hshort : v.refill.1.length < 5
    · exact (h.spins_short rfl hsome hshort _ fuel).mono (fun _ _ hf => hf.elim)
        (fun _ _ _ => trivial)
    cases fuel with
    | zero => trivial
    | succ fuel =>
      have hlong := Nat.not_lt.mp hshort
      refine misreads_cut hline h ho hstream hlong (Nat.lt_of_not_le fun hfits => ?_)
      exact hsplit ⟨hlong, hfits, fun _ => trivial⟩

end Ftp

/-! ## SMTP

A line that is cut is not written. The loop stops, or it spins. -/

namespace Smtp

variable {K : Kernel} {chunks : List (List UInt8)} {v : Ahead} {t : Client Unit} {fuel : Nat}

/-- What the loop wants to see before it goes on: the `-` behind the digits. -/
def GoesOn (avail : List UInt8) : Prop := avail[3]? = some 45

instance (avail : List UInt8) : Decidable (GoesOn avail) := inferInstanceAs (Decidable (_ = _))

/-- From a line that is there the loop goes on, or not. -/
theorem loop_line {line rest w : List UInt8} {lines : List (List UInt8)}
    (hline : ¬ [13, 10] <:+: line) (h : Sees chunks v t) (ho : t.o = some w)
    (hstream : v.bytes = linesBytes (line :: lines) ++ rest) (hlong : 5 ≤ v.refill.1.length)
    (hfits : (crlf line).length ≤ v.refill.1.length) (fuel : Nat) :
    ∃ t', Sees chunks (v.refill.1.drop (crlf line).length, v.refill.2) t' ∧
      t'.o = some (w ++ crlf line) ∧ loop (round (K.chunked chunks)) .outOfFuel (fuel + 1) () t
        = if GoesOn v.refill.1 then loop (round (K.chunked chunks)) .outOfFuel fuel () t'
          else .ok () t' := by
  have hwhole : Whole (fun _ => True) line lines v := ⟨hlong, hfits, fun _ => trivial⟩
  obtain ⟨s, hs, hsees, hunread⟩ := h.underflow K
  obtain ⟨more, hmore⟩ := hwhole.line_there hstream
  obtain ⟨t', hround, hbuf, ho'⟩ := round_line hline hs
    (peek_ne_eof (h.refill_ne_nil_of_line hstream)) (hunread ▸ hlong) (hunread.trans hmore)
  have hpass := hsees.pass (crlf line).length
  refine ⟨t', ⟨hbuf ▸ hpass.reads, hbuf ▸ hpass.ahead⟩, ?_, ?_⟩
  · rw [ho', ho]
    rfl
  · rw [hunread] at hround
    by_cases hdash : GoesOn v.refill.1
    · rw [if_pos (show v.refill.1[3]? = some 45 from hdash)] at hround
      rw [if_pos hdash, loop_again hround]
    · rw [if_neg (show ¬ v.refill.1[3]? = some 45 from hdash)] at hround
      rw [if_neg hdash, loop_leave hround]

/-- Behind the digits of the last line there is a blank. -/
theorem not_goesOn_last {code line rest : List UInt8} {first : Bool} (hlen : code.length = 3)
    (hexp : Expects code first [line]) (hwhole : Whole GoesOn line [] v)
    (hstream : v.bytes = linesBytes [line] ++ rest) : ¬ GoesOn v.refill.1 := by
  obtain ⟨text, rfl⟩ := hexp.last
  obtain ⟨more, hmore⟩ := hwhole.line_there hstream
  unfold GoesOn
  rw [hmore, getElem?_fourth hlen]
  decide

/-- From a line that is cut nothing is taken: the loop stops, or goes round for ever. -/
theorem misreads_cut {line rest w : List UInt8} {lines : List (List UInt8)}
    (hline : ¬ [13, 10] <:+: line) (h : Sees chunks v t) (ho : t.o = some w)
    (hstream : v.bytes = linesBytes (line :: lines) ++ rest) (hlong : 5 ≤ v.refill.1.length)
    (hcut : v.refill.1.length < (crlf line).length) (fuel : Nat) :
    wp (loop (round (K.chunked chunks)) .outOfFuel fuel ())
      (fun _ t' => ¬ HasRead chunks w (linesBytes (line :: lines)) rest t')
      (fun _ _ => True) t := by
  have hsome := h.refill_ne_nil_of_line hstream
  -- one round, from any state that sees the same bytes
  have hround : ∀ (t1 : Client Unit) (v1 : Ahead), v1.refill = v.refill → Sees chunks v1 t1 →
      ∃ t', Sees chunks v.refill t' ∧ t'.o = t1.o ∧ round (K.chunked chunks) () t1
        = .ok (if GoesOn v.refill.1 then .again () else .leave ()) t' := by
    intro t1 v1 hv1 h1
    obtain ⟨s, hs, hsees, hunread⟩ := h1.underflow K
    rw [hv1] at hs hsees hunread
    have hpasses : passes s.self.unread = 0 := by
      unfold passes
      rw [hunread, v.lineEnd_cut hline hstream hcut, if_neg (by omega)]
    have hone := round_passes hs (by rwa [hunread]) (peek_ne_eof hsome)
    rw [hpasses, Client.pass_zero, hunread] at hone
    exact ⟨_, hsees, rfl, hone⟩
  by_cases hdash : GoesOn v.refill.1
  · -- the loop comes back to the same line for ever
    let stuck : Unit × Client Unit → Prop := fun x => ∃ v1, v1.refill = v.refill ∧ Sees chunks v1 x.2
    have hstay : ∀ x, stuck x → ∃ y, Turns (round (K.chunked chunks)) x y ∧ stuck y := by
      rintro ⟨⟨⟩, t1⟩ ⟨v1, hv1, h1⟩
      obtain ⟨t', h', -, hturn⟩ := hround t1 v1 hv1 h1
      rw [if_pos hdash] at hturn
      exact ⟨((), t'), hturn, v.refill, Ahead.refill_of_ne_nil hsome, h'⟩
    exact (loop_stuck hstay (x := ((), t)) ⟨v, rfl, h⟩ fuel).mono (fun _ _ hf => hf.elim)
      (fun _ _ _ => trivial)
  · -- the loop stops and has written nothing
    cases fuel with
    | zero => trivial
    | succ fuel =>
      obtain ⟨t', -, ho', hturn⟩ := hround t v rfl h
      rw [if_neg hdash] at hturn
      rw [wp_iff_of_ok (loop_leave hturn)]
      intro hread
      rw [hread.written, ho] at ho'
      have hnil := List.append_right_eq_self.mp (Option.some.inj ho')
      exact linesBytes_ne_nil (List.cons_ne_nil _ _) hnil

/-- The loop takes whole lines, and nothing else. -/
theorem takesLines (K : Kernel) (chunks : List (List UInt8)) {code : List UInt8}
    (hlen : code.length = 3) :
    TakesLines chunks code GoesOn (fun _ _ => True)
      (fun fuel _ => loop (round (K.chunked chunks)) .outOfFuel fuel ()) where
  zero _ _ := rfl
  whole fuel := by
    intro first line lines rest v w t hexp _ hline h ho hstream hwhole
    obtain ⟨t', h', ho', hloop⟩ := loop_line (K := K) hline h ho hstream hwhole.long hwhole.fits fuel
    refine ⟨t', h', ho', trivial, ?_⟩
    rw [hloop]
    by_cases hlast : lines = []
    · subst hlast
      rw [if_neg (not_goesOn_last hlen hexp hwhole hstream), if_pos rfl]
    · rw [if_pos (hwhole.more hlast), if_neg hlast]
  split := by
    intro fuel first line lines rest v w t hexp _ hline h ho hstream hsplit
    have hsome := h.refill_ne_nil_of_line hstream
    by_cases hshort : v.refill.1.length < 5
    · exact (h.spins_short rfl hsome hshort _ fuel).mono (fun _ _ hf => hf.elim)
        (fun _ _ _ => trivial)
    have hlong := Nat.not_lt.mp hshort
    by_cases hcut : v.refill.1.length < (crlf line).length
    · exact misreads_cut hline h ho hstream hlong hcut fuel
    · -- the line is there, but the loop does not go on to the next
      have hfits := Nat.not_lt.mp hcut
      have hmore : ¬ (lines ≠ [] → GoesOn v.refill.1) := fun hmore => hsplit ⟨hlong, hfits, hmore⟩
      obtain ⟨hlast, hdash⟩ := Classical.not_imp.mp hmore
      cases fuel with
      | zero => trivial
      | succ fuel =>
        obtain ⟨t', -, ho', hloop⟩ := loop_line (K := K) hline h ho hstream hlong hfits fuel
        rw [if_neg hdash] at hloop
        rw [wp_iff_of_ok hloop]
        intro hread
        rw [hread.written, linesBytes_cons, ← List.append_assoc] at ho'
        have hnil := List.append_right_eq_self.mp (Option.some.inj ho')
        exact linesBytes_ne_nil hlast hnil

end Smtp

/-! ## Replies in chunks

Both loops take the lines of a reply one by one, and `get_response` reads the reply if none of them
is split. -/

/-- A client with an output stream, and a server that sends the reply `R` and then `rest`. -/
structure Awaits {ρ : Type} (R : Reply) (chunks : List (List UInt8)) (rest w : List UInt8)
    (t : Client ρ) : Prop where
  reads : t.buf.Reads chunks
  written : t.o = some w
  stream : (t.buf.ahead chunks).bytes = R.bytes ++ rest

/-- Some run returns, and has read the reply and no more. -/
def ReadsReply {ρ α : Type} (run : Nat → ClientM ρ α) (R : Reply) (chunks : List (List UInt8))
    (rest w : List UInt8) (t : Client ρ) : Prop :=
  ∃ fuel a t', run fuel t = .ok a t' ∧ HasRead chunks w R.bytes rest t'

section Results

variable {ρ : Type} {R : Reply} {chunks : List (List UInt8)} {goesOn : List UInt8 → Prop}
  {noted : Bool → ρ → Prop} {loop : Nat → Bool → ClientM ρ Unit} {rest w : List UInt8}
  {t : Client ρ}

theorem loop_reads_iff (hloop : TakesLines chunks R.code goesOn noted loop)
    (hnoted : noted true t.own) (h : Awaits R chunks rest w t) :
    ReadsReply (fun fuel => loop fuel true) R chunks rest w t
      ↔ Unsplit goesOn R.lines (t.buf.ahead chunks) := by
  have hsees : Sees chunks (t.buf.ahead chunks) t := ⟨h.reads, rfl⟩
  have hexp : Expects R.code true R.lines := R.shape
  constructor
  · intro ⟨fuel, a, t', hrun, hread⟩
    by_contra hsplit
    have hmissed := misreads_of_split hloop R.noCrlf hexp hnoted hsees h.written h.stream hsplit
      fuel
    exact hmissed.of_ok hrun hread
  · intro hunsplit
    obtain ⟨t', hrun, hread⟩ := reads_of_unsplit hloop R.noCrlf R.shape.ne_nil hexp hnoted hsees
      h.written h.stream hunsplit
    exact ⟨_, _, t', hrun, hread⟩

/-- A reply that lies in one chunk is not split, as far as the lines go. -/
theorem Unsplit.of_chunk {code : List UInt8} {first : Bool} {lines : List (List UInt8)} {v : Ahead}
    (hlen : code.length = 3) (hexp : Expects code first lines)
    (hchunk : linesBytes lines <+: v.refill.1) : Unsplit (fun _ => True) lines v := by
  induction lines generalizing v first with
  | nil => trivial
  | cons line lines ih =>
    obtain ⟨more, hmore⟩ := hchunk
    have hsix := hexp.length_linesBytes hlen
    have hlength := congrArg List.length hmore
    rw [List.length_append] at hlength
    have hline : (crlf line).length ≤ (linesBytes (line :: lines)).length := by
      rw [linesBytes_cons, List.length_append]
      exact Nat.le_add_right _ _
    refine ⟨⟨by omega, by omega, fun _ => trivial⟩, ?_⟩
    by_cases hlast : lines = []
    · rw [hlast]
      trivial
    · -- what is left of the chunk is not empty, so the next round looks at it too
      have hbehind : v.refill.1.drop (crlf line).length = linesBytes lines ++ more := by
        rw [← hmore, linesBytes_cons, List.append_assoc, List.drop_left]
      have hsome : v.refill.1.drop (crlf line).length ≠ [] := by
        rw [hbehind]
        exact List.append_ne_nil_of_left_ne_nil (linesBytes_ne_nil hlast) more
      refine ih (hexp.tail hlast) ?_
      rw [Ahead.refill_of_ne_nil hsome, hbehind]
      exact List.prefix_append _ _

end Results

theorem Ftp.getResponse_reads_iff {K : Kernel} {R : Reply} {chunks : List (List UInt8)}
    {rest w : List UInt8} {t : Client (List UInt8)} (h : Awaits R chunks rest w t) :
    ReadsReply (Ftp.getResponse (K.chunked chunks)) R chunks rest w t
      ↔ Unsplit (fun _ => True) R.lines (t.buf.ahead chunks) := by
  have hloop := Ftp.takesLines K chunks R.code_length R.code_digits
  rw [← loop_reads_iff hloop (fun hfirst => by cases hfirst) h]
  constructor
  · intro ⟨fuel, a, t', hrun, hread⟩
    obtain ⟨_, t1, hrun1, hpure⟩ := of_bind_ok hrun
    cases hpure
    rw [Ftp.responseLoop_eq] at hrun1
    exact ⟨fuel, _, _, hrun1, hread⟩
  · intro ⟨fuel, a, t', hrun, hread⟩
    have hloop' : Ftp.responseLoop (K.chunked chunks) fuel true t = .ok a t' := by
      rw [Ftp.responseLoop_eq]
      exact hrun
    exact ⟨fuel, _, t', bind_ok hloop', hread⟩

/-- FTP reads a reply that arrives in one chunk. -/
theorem Ftp.getResponse_reads_of_chunk {K : Kernel} {R : Reply} {chunks : List (List UInt8)}
    {rest w : List UInt8} {t : Client (List UInt8)} (h : Awaits R chunks rest w t)
    (hchunk : R.bytes <+: (t.buf.ahead chunks).refill.1) :
    ReadsReply (Ftp.getResponse (K.chunked chunks)) R chunks rest w t := by
  have hexp : Expects R.code true R.lines := R.shape
  exact (Ftp.getResponse_reads_iff h).mpr (Unsplit.of_chunk R.code_length hexp hchunk)

theorem Smtp.getResponse_reads_iff {K : Kernel} {R : Reply} {chunks : List (List UInt8)}
    {rest w : List UInt8} {u : Client Unit} (h : Awaits R chunks rest w u) :
    ReadsReply (Smtp.getResponse (K.chunked chunks)) R chunks rest w u
      ↔ Unsplit Smtp.GoesOn R.lines (u.buf.ahead chunks) := by
  rw [← loop_reads_iff (Smtp.takesLines K chunks R.code_length) trivial h]
  have hloop : Smtp.getResponse (K.chunked chunks)
      = fun fuel => loop (Smtp.round (K.chunked chunks)) .outOfFuel fuel () :=
    funext fun fuel => Smtp.responseLoop_eq _ fuel
  rw [hloop]

/-- `get_response` reads a reply exactly if no line of it is split: FTP if each line lies in the
chunk where it starts and that chunk has five bytes left there, SMTP if besides each line but the
last has a `-` for its fourth byte. -/
theorem getResponse_reads_iff_unsplit (K : Kernel) (R : Reply) {chunks : List (List UInt8)}
    {rest w : List UInt8} {t : Client (List UInt8)} {u : Client Unit}
    (ht : Awaits R chunks rest w t) (hu : Awaits R chunks rest w u) :
    (ReadsReply (Ftp.getResponse (K.chunked chunks)) R chunks rest w t
      ↔ Unsplit (fun _ => True) R.lines (t.buf.ahead chunks)) ∧
    (ReadsReply (Smtp.getResponse (K.chunked chunks)) R chunks rest w u
      ↔ Unsplit Smtp.GoesOn R.lines (u.buf.ahead chunks)) :=
  ⟨Ftp.getResponse_reads_iff ht, Smtp.getResponse_reads_iff hu⟩

/-- `220-hi` and `220 ok`. -/
def greeting : Reply where
  code := [50, 50, 48]
  lines := [[50, 50, 48, 45, 104, 105], [50, 50, 48, 32, 111, 107]]
  code_length := rfl
  code_digits := by simp
  shape := .multi [104, 105] (.last [111, 107])
  noCrlf := by decide

/-- A client just connected. -/
def connected {ρ : Type} (own : ρ) : Client ρ :=
  ⟨fresh ⟨1024, by decide⟩ 3 (fun _ => 0) (fun _ => 0) 0, some [], own⟩

theorem awaits_greeting {ρ : Type} (own : ρ) {chunks : List (List UInt8)}
    (hfits : ∀ c ∈ chunks, c ≠ [] ∧ c.length ≤ 1024) (hbytes : chunks.flatten = greeting.bytes) :
    Awaits greeting chunks [] [] (connected own) where
  reads := ⟨⟨_, rfl⟩, hfits⟩
  written := rfl
  stream := by
    rw [List.append_nil, ← hbytes]
    rfl

/-- A line in each chunk. -/
theorem getResponse_reads_lines :
    let chunks := [[50, 50, 48, 45, 104, 105, 13, 10], [50, 50, 48, 32, 111, 107, 13, 10]]
    ReadsReply (Ftp.getResponse (Kernel.sink.chunked chunks)) greeting chunks [] []
      (connected []) ∧
    ReadsReply (Smtp.getResponse (Kernel.sink.chunked chunks)) greeting chunks [] []
      (connected ()) := by
  intro chunks
  have hftp : Awaits greeting chunks [] [] (connected ([] : List UInt8)) :=
    awaits_greeting [] (by decide) (by decide)
  have hsmtp : Awaits greeting chunks [] [] (connected ()) :=
    awaits_greeting () (by decide) (by decide)
  have hboth := getResponse_reads_iff_unsplit Kernel.sink greeting hftp hsmtp
  exact ⟨hboth.1.mpr ⟨⟨by decide, by decide, fun _ => trivial⟩,
      ⟨by decide, by decide, fun _ => trivial⟩, trivial⟩,
    hboth.2.mpr ⟨⟨by decide, by decide, fun _ => rfl⟩,
      ⟨by decide, by decide, fun h => absurd rfl h⟩, trivial⟩⟩

/-- The same bytes, cut between a CR and its LF. -/
theorem getResponse_misreads_cut :
    let chunks := [[50, 50, 48, 45, 104, 105, 13], [10, 50, 50, 48, 32, 111, 107, 13, 10]]
    Awaits greeting chunks [] [] (connected ([] : List UInt8)) ∧
    Awaits greeting chunks [] [] (connected ()) ∧
    ¬ ReadsReply (Ftp.getResponse (Kernel.sink.chunked chunks)) greeting chunks [] []
      (connected []) ∧
    ¬ ReadsReply (Smtp.getResponse (Kernel.sink.chunked chunks)) greeting chunks [] []
      (connected ()) := by
  intro chunks
  have hftp : Awaits greeting chunks [] [] (connected ([] : List UInt8)) :=
    awaits_greeting [] (by decide) (by decide)
  have hsmtp : Awaits greeting chunks [] [] (connected ()) :=
    awaits_greeting () (by decide) (by decide)
  refine ⟨hftp, hsmtp, ?_, ?_⟩
  · intro hreads
    obtain ⟨hwhole, -⟩ := (Ftp.getResponse_reads_iff hftp).mp hreads
    exact absurd hwhole.fits (by decide)
  · intro hreads
    obtain ⟨hwhole, -⟩ := (Smtp.getResponse_reads_iff hsmtp).mp hreads
    exact absurd hwhole.fits (by decide)

end Sockstream
