import SocketPlusPlus.Sockbuf.Get
import SocketPlusPlus.Sockbuf.Put

/-!
# Bulk transfers are character transfers

`xsputn` and `xsgetn` move whole blocks and recurse over flushes and refills. The reference programs
`sputcs` and `sbumpcs` move one character at a time. Both sides are compared as programs: equal
result, equal exception, equal memory, equal history of system calls.

The argument is the same on both sides.

* While the area has room (or characters) for the block, the block is the same as its characters.
* At the boundary the character program first flushes (or refills) and then goes on as if it had
  started after the flush. That is what the recursion of the bulk program does.
-/

namespace Sockstream

open Exec Memory

/-! ## The reference programs

What a caller would write who puts and takes one character at a time. -/

/-- `sputc` on one character after the other, until `eof` or an exception. -/
def sputcs (K : Kernel) : List UInt8 → M UInt8 Nat
  | [] => pure 0
  | c :: cs => do
    let r ← sputc K c
    if r = eof then pure 0
    else
      let k ← sputcs K cs
      pure (k + 1)

/-- `sbumpc` up to `n` times, until `eof` or an exception. -/
def sbumpcs (K : Kernel) : Nat → M UInt8 Nat
  | 0 => pure 0
  | n + 1 => do
    let r ← keep (sbumpc K)
    if r = eof then pure 0
    else
      let k ← sbumpcs K n
      pure (k + 1)

/-! ## Output

A block that fits is stored at once, and one that does not fit is cut where the put area is full.
There the loop of `sputc` comes to `overflow` as well. -/

section Output

variable {s : St UInt8}

theorem storeChars_nil : storeChars [] s = .ok () s := by
  cases hput : s.self.put with
  | none => exact storeChars_of_shut [] hput
  | some p =>
    rw [storeChars_of_put [] hput]
    obtain ⟨rep, ⟨get, put, sockname, stored, copied⟩, sys⟩ := s
    cases hput
    simp

theorem storeChars_cons (c : UInt8) (cs : List UInt8) :
    storeChars (c :: cs) s = (do storeChars [c]; storeChars cs : M UInt8 Unit) s := by
  cases hput : s.self.put with
  | none =>
    rw [bind_ok (storeChars_of_shut [c] hput), storeChars_of_shut _ hput, storeChars_of_shut _ hput]
  | some p =>
    have hmem : copyIn p.mem p.pptr (c :: cs)
        = copyIn (copyIn p.mem p.pptr [c]) (p.pptr + 1) cs := by
      rw [copyIn_cons, copyIn_cons, copyIn_nil]
    have hptr : p.pptr + (cs.length + 1) = p.pptr + 1 + cs.length := by omega
    have hstored : s.self.stored ++ c :: cs = (s.self.stored ++ [c]) ++ cs := by simp
    rw [bind_ok (storeChars_of_put [c] hput), storeChars_of_put _ hput, storeChars_of_put _ rfl,
      List.length_cons, hmem, hptr, hstored]
    rfl

/-- A store takes room from the put area, and only that. -/
theorem storeChars_ok {cs : List UInt8} {s' : St UInt8} (h : storeChars cs s = .ok () s') :
    s'.self.room = s.self.room - cs.length ∧
      (s.PutOpen → cs.length ≤ s.self.room → s'.PutOpen) := by
  refine ⟨?_, fun hs hroom =>
    (Exec.wp.of_ok (E := fun _ _ => True) (storeChars_spec cs hs hroom) h).putOpen⟩
  cases hput : s.self.put with
  | none =>
    rw [storeChars_of_shut cs hput] at h
    cases h
    simp [Streambuf.room, hput]
  | some p =>
    rw [storeChars_of_put cs hput] at h
    cases h
    show p.epptr - (p.pptr + cs.length) = s.self.room - cs.length
    simp only [Streambuf.room, hput]
    omega

theorem sputc_of_room (K : Kernel) (c : UInt8) (h : 0 < s.self.room) :
    sputc K c s = (do storeChars [c]; pure (CharType.toInt c) : M UInt8 Int) s := by
  show (if 0 < s.self.room then _ else _ : M UInt8 Int) s = _
  rw [if_pos h]

/-- While there is room, storing a block is storing its characters. Induction on the block. -/
theorem sputcs_append (K : Kernel) (cs ds : List UInt8) (h : cs.length ≤ s.self.room) :
    sputcs K (cs ++ ds) s
      = (do storeChars cs; let k ← sputcs K ds; pure (cs.length + k) : M UInt8 Nat) s := by
  induction cs generalizing s with
  | nil =>
    rw [bind_ok storeChars_nil]
    simp
  | cons c cs ih =>
    rw [List.length_cons] at h
    have hfirst := sputc_of_room K c (s := s) (by omega)
    calc sputcs K (c :: cs ++ ds) s
        = (do storeChars [c]; let k ← sputcs K (cs ++ ds); pure (k + 1) : M UInt8 Nat) s := by
          rw [List.cons_append, sputcs, bind_congr_left hfirst]
          simp [toInt_ne_eof]
      _ = (do
            storeChars [c]
            let j ← (do storeChars cs; let k ← sputcs K ds; pure (cs.length + k) : M UInt8 Nat)
            pure (j + 1) : M UInt8 Nat) s := by
          refine bind_congr_right fun _ s1 h1 => bind_congr_left (ih ?_)
          rw [(storeChars_ok h1).1]
          exact Nat.le_sub_of_add_le h
      _ = (do storeChars (c :: cs); let k ← sputcs K ds; pure ((c :: cs).length + k) :
            M UInt8 Nat) s := by
          rw [bind_congr_left (storeChars_cons c cs)]
          simp only [bind_assoc, pure_bind, List.length_cons]
          simp only [Nat.add_right_comm]

/-- At a full put area the next `sputc` flushes, and goes on as if called after the flush. -/
theorem sputc_of_full (K : Kernel) (hs : s.PutOpen) (c : UInt8) (h : s.self.room = 0) :
    sputc K c s = (do let _ ← sync K; sputc K c : M UInt8 Int) s := by
  have hopen := hs
  obtain ⟨p, hput, hle, hpend, hpos⟩ := hs
  have hfull : p.pptr = p.epptr := by
    simp only [Streambuf.room, hput] at h
    omega
  have hoverflow : sputc K c s = (do
      let _ ← sync K
      storeChars [CharType.ofInt (CharType.toInt c)]
      pure (CharType.toInt c) : M UInt8 Int) s := by
    show (if 0 < s.self.room then _ else overflow K (CharType.toInt c) : M UInt8 Int) s = _
    rw [if_neg (by omega), overflow_of_put K _ hput, if_neg (toInt_ne_eof c), if_pos hfull]
  rw [hoverflow, CharType.ofInt_toInt]
  refine bind_congr_right fun r s1 h1 => ?_
  obtain ⟨-, hw, hempty⟩ := (sync_spec K hopen).of_ok h1
  rw [sputc_of_room]
  rw [room_of_empty hw.putOpen hempty]
  exact hw.putOpen.pend_pos

theorem overflow_eof_eq (K : Kernel) (hs : s.PutOpen) : overflow K eof s = sync K s := by
  obtain ⟨p, hput, -⟩ := hs
  rw [overflow_of_put K eof hput, if_pos rfl]

/-- Induction on the fuel, as for `xsputnRec_spec`. -/
theorem xsputnRec_eq_sputcs (K : Kernel) (fuel : Nat) (cs : List UInt8) (hs : s.PutOpen)
    (hfuel : cs.length + 2 ≤ fuel ∨ cs.length + 1 ≤ fuel ∧ 0 < s.self.room) :
    xsputnRec K fuel cs s = sputcs K cs s := by
  induction fuel generalizing cs s with
  | zero => omega
  | succ fuel ih =>
    show (if cs.length ≤ s.self.room then _ else _ : M UInt8 Nat) s = _
    by_cases hfits : cs.length ≤ s.self.room
    · have hblock := sputcs_append K cs [] hfits
      rw [List.append_nil] at hblock
      rw [if_pos hfits, hblock]
      simp [sputcs]
    -- both programs first fill the area
    rw [if_neg hfits]
    have htake : (cs.take s.self.room).length = s.self.room := List.length_take_of_le (by omega)
    have hblock := sputcs_append K (cs.take s.self.room) (cs.drop s.self.room) (s := s) (by omega)
    rw [List.take_append_drop, htake] at hblock
    rw [hblock]
    refine bind_congr_right fun _ s1 h1 => ?_
    obtain ⟨hroom1, hopen1⟩ := storeChars_ok h1
    have hs1 : s1.PutOpen := hopen1 hs (by omega)
    -- the put area is full now, and at least one character is still to go
    obtain ⟨d, ds, hdrop⟩ : ∃ d ds, cs.drop s.self.room = d :: ds :=
      List.exists_cons_of_length_pos (by rw [List.length_drop]; omega)
    have hflush : sputcs K (cs.drop s.self.room) s1
        = (do let _ ← sync K; sputcs K (cs.drop s.self.room) : M UInt8 Nat) s1 := by
      rw [hdrop, sputcs, bind_congr_left (sputc_of_full K hs1 d (by omega))]
      simp only [bind_assoc]
    -- `overflow()` of the one is the flush of the other
    rw [bind_congr_left (overflow_eof_eq K hs1), bind_congr_left hflush, bind_assoc]
    refine bind_congr_right fun r s2 h2 => ?_
    obtain ⟨rfl, hw, hempty⟩ := (sync_spec K hs1).of_ok h2
    have hroom2 : 0 < s2.self.room := by
      rw [room_of_empty hw.putOpen hempty]
      exact hw.putOpen.pend_pos
    rw [if_pos (show (0 : Int) ≠ eof from by decide)]
    refine bind_congr_left (ih _ hw.putOpen (.inr ⟨?_, hroom2⟩))
    rw [List.length_drop]
    omega

/-- With the output shut down neither program does anything. -/
theorem xsputn_of_shut (K : Kernel) (cs : List UInt8) (h : s.self.put = none) :
    xsputn K cs s = .ok 0 s ∧ sputcs K cs s = .ok 0 s := by
  have hroom : s.self.room = 0 := by simp [Streambuf.room, h]
  cases cs with
  | nil =>
    have hnone : xsputn K [] s = (do storeChars []; pure 0 : M UInt8 Nat) s := rfl
    exact ⟨hnone.trans (bind_ok storeChars_nil), rfl⟩
  | cons c cs =>
    constructor
    · show (if cs.length + 1 ≤ s.self.room then _ else _ : M UInt8 Nat) s = _
      rw [if_neg (by omega), hroom, List.take_zero, bind_ok storeChars_nil,
        bind_ok (overflow_of_shut K eof h)]
      rfl
    · rw [sputcs, bind_ok (sputc_of_shut K c h)]
      rfl

end Output

/-! ## Input

The same for `xsgetn`: it takes what is unread, and asks `underflow` when nothing is. -/

section Input

variable {s : St UInt8}

theorem takeChars_succ (n : Nat) :
    takeChars (n + 1) s = (do takeChars 1; takeChars n : M UInt8 Unit) s := by
  cases hget : s.self.get with
  | none =>
    rw [bind_ok (takeChars_of_shut 1 hget), takeChars_of_shut _ hget, takeChars_of_shut _ hget]
  | some g =>
    have hptr : g.gptr + (n + 1) = g.gptr + 1 + n := by omega
    have hcopied : s.self.copied ++ slice g.mem g.gptr (n + 1)
        = (s.self.copied ++ slice g.mem g.gptr 1) ++ slice g.mem (g.gptr + 1) n := by
      rw [Nat.add_comm n 1, slice_add, List.append_assoc]
    rw [bind_ok (takeChars_of_get 1 hget), takeChars_of_get _ hget, takeChars_of_get _ rfl,
      hptr, hcopied]

/-- While characters are unread, `sbumpc` hands over the first one. -/
theorem keep_sbumpc_of_unread (K : Kernel) {c : UInt8} {cs : List UInt8}
    (hc : s.self.unread = c :: cs) :
    keep (sbumpc K) s = (do takeChars 1; pure (c.toNat : Int) : M UInt8 Int) s := by
  obtain ⟨g, hget, hlt, rfl, -⟩ := exists_of_unread hc
  have hne : ((g.mem g.gptr).toNat : Int) ≠ eof := toInt_ne_eof _
  have hback : (CharType.ofInt ((g.mem g.gptr).toNat : Int) : UInt8) = g.mem g.gptr :=
    CharType.ofInt_toInt (g.mem g.gptr)
  have hbump : sbumpc K s = .ok (g.mem g.gptr).toNat { s with self := { s.self with
      get := some { g with gptr := g.gptr + 1 } } } := by
    rw [sbumpc_of_get K hget, if_pos hlt]
    obtain ⟨rep, ⟨get, put, sockname, stored, copied⟩, sys⟩ := s
    cases hget
    rfl
  unfold keep
  rw [bind_ok hbump, bind_ok (takeChars_of_get 1 hget)]
  show EStateM.Result.ok ((g.mem g.gptr).toNat : Int) (if _ then _ else _) = .ok _ _
  rw [if_neg hne, hback]
  rfl

/-- While characters are unread, copying a block is copying its characters. -/
theorem sbumpcs_add (K : Kernel) (hs : s.GetOpen) (k n : Nat) (h : k ≤ s.self.unread.length) :
    sbumpcs K (k + n) s
      = (do takeChars k; let j ← sbumpcs K n; pure (k + j) : M UInt8 Nat) s := by
  induction k generalizing s with
  | zero =>
    rw [bind_ok takeChars_zero]
    simp
  | succ k ih =>
    obtain ⟨c, cs, hc⟩ := List.exists_cons_of_length_pos (Nat.lt_of_lt_of_le k.succ_pos h)
    have hne : (c.toNat : Int) ≠ eof := toInt_ne_eof c
    calc sbumpcs K (k + 1 + n) s
        = (do takeChars 1; let j ← sbumpcs K (k + n); pure (j + 1) : M UInt8 Nat) s := by
          rw [show k + 1 + n = (k + n) + 1 from by omega, sbumpcs,
            bind_congr_left (keep_sbumpc_of_unread K hc)]
          simp [hne]
      _ = (do
            takeChars 1
            let i ← (do takeChars k; let j ← sbumpcs K n; pure (k + j) : M UInt8 Nat)
            pure (i + 1) : M UInt8 Nat) s := by
          refine bind_congr_right fun _ s1 h1 => ?_
          obtain ⟨htook, -, hunread⟩ :=
            Exec.wp.of_ok (E := fun _ _ => True) (takeChars_spec hs (by omega)) h1
          refine bind_congr_left (ih htook.getOpen ?_)
          rw [hunread, List.length_drop]
          omega
      _ = (do takeChars (k + 1); let j ← sbumpcs K n; pure (k + 1 + j) : M UInt8 Nat) s := by
          rw [bind_congr_left (takeChars_succ k)]
          simp only [bind_assoc, pure_bind]
          simp only [Nat.add_right_comm]

/-- With nothing unread `sbumpc` refills, and goes on as if called after the refill. -/
theorem sbumpc_of_empty (K : Kernel) (hs : s.GetOpen) (h : s.self.unread = []) :
    sbumpc K s = (do
      let r ← underflow K
      if r = eof then pure eof else sbumpc K : M UInt8 Int) s := by
  have hopen := hs
  obtain ⟨g, hget, -, -⟩ := hs
  have hempty : ¬ g.gptr < g.egptr := Nat.not_lt.mpr ((unread_nil_iff hget).mp h)
  rw [sbumpc_of_get K hget, if_neg hempty]
  refine bind_congr_right fun r s1 h1 => ?_
  obtain ⟨htook, -, hr, -⟩ := (underflow_spec K hopen).of_ok h1
  by_cases heof : r = eof
  · rw [if_pos heof, if_pos heof]
  rw [if_neg heof, if_neg heof]
  -- behind the refill `uflow` and `sbumpc` do the same: they return the character at `gptr()`
  cases hunread : s1.self.unread with
  | nil =>
    rw [hunread] at hr
    exact absurd hr heof
  | cons c cs =>
    obtain ⟨g1, hget1, hlt, rfl, -⟩ := exists_of_unread hunread
    rw [hunread] at hr
    obtain rfl : r = (g1.mem g1.gptr).toNat := hr
    rw [sbumpc_of_get K hget1, if_pos hlt]
    rfl

theorem sbumpcs_of_empty (K : Kernel) (hs : s.GetOpen) (h : s.self.unread = []) (n : Nat) :
    sbumpcs K (n + 1) s = (do
      let r ← underflow K
      if r = eof then pure 0 else sbumpcs K (n + 1) : M UInt8 Nat) s := by
  have hkeep : keep (sbumpc K) s = (do
      let r ← underflow K
      if r = eof then pure eof else keep (sbumpc K) : M UInt8 Int) s := by
    unfold keep
    rw [bind_congr_left (sbumpc_of_empty K hs h), bind_assoc]
    refine bind_congr_right fun r s1 _ => ?_
    by_cases heof : r = eof
    · rw [if_pos heof, if_pos heof]
      rfl
    · rw [if_neg heof, if_neg heof]
  rw [sbumpcs, bind_congr_left hkeep, bind_assoc]
  refine bind_congr_right fun r s1 _ => ?_
  by_cases heof : r = eof
  · rw [if_pos heof, if_pos heof]
    rfl
  · rw [if_neg heof, if_neg heof]

/-- Induction on the fuel, as for `xsgetnRec_spec`. -/
theorem xsgetnRec_eq_sbumpcs (K : Kernel) (fuel n : Nat) (hs : s.GetOpen)
    (hfuel : n + 2 ≤ fuel ∨ n + 1 ≤ fuel ∧ s.self.unread ≠ []) :
    xsgetnRec K fuel n s = sbumpcs K n s := by
  induction fuel generalizing n s with
  | zero => omega
  | succ fuel ih =>
    have hrec : xsgetnRec K (fuel + 1) n s
        = (if n ≤ s.self.unread.length then (do takeChars n; pure n)
          else do
            takeChars s.self.unread.length
            let c ← underflow K
            if c ≠ eof then
              let rest ← xsgetnRec K fuel (n - s.self.unread.length)
              pure (s.self.unread.length + rest)
            else pure s.self.unread.length : M UInt8 Nat) s := by
      rw [← Streambuf.showmanyc_eq]
      rfl
    rw [hrec]
    by_cases hfits : n ≤ s.self.unread.length
    · have hblock := sbumpcs_add K hs n 0 hfits
      rw [Nat.add_zero] at hblock
      rw [if_pos hfits, hblock]
      simp [sbumpcs]
    -- both programs first empty the area
    rw [if_neg hfits]
    have hblock := sbumpcs_add K hs s.self.unread.length (n - s.self.unread.length) (Nat.le_refl _)
    rw [Nat.add_sub_cancel' (by omega)] at hblock
    rw [hblock]
    refine bind_congr_right fun _ s1 h1 => ?_
    obtain ⟨htook, -, hunread⟩ :=
      Exec.wp.of_ok (E := fun _ _ => True) (takeChars_spec hs (Nat.le_refl _)) h1
    have hempty : s1.self.unread = [] := by rw [hunread, List.drop_length]
    -- everything unread is gone, and at least one character is still wanted
    obtain ⟨m, hm⟩ : ∃ m, n - s.self.unread.length = m + 1 :=
      ⟨n - s.self.unread.length - 1, by omega⟩
    rw [hm, bind_congr_left (sbumpcs_of_empty K htook.getOpen hempty m), bind_assoc]
    refine bind_congr_right fun r s2 h2 => ?_
    obtain ⟨htook2, -, hr, -⟩ := (underflow_spec K htook.getOpen).of_ok h2
    by_cases heof : r = eof
    · rw [if_neg (not_not.mpr heof), if_pos heof]
      rfl
    rw [if_pos heof, if_neg heof]
    have hne : s2.self.unread ≠ [] := fun hnil => heof (hr.trans (peek_eq_eof.mpr hnil))
    refine bind_congr_left (ih (m + 1) htook2.getOpen (.inr ⟨?_, hne⟩))
    rcases hfuel with hfuel | ⟨hfuel, hsome⟩
    · omega
    · have hpos := List.length_pos_iff.mpr hsome
      omega

/-- With the input shut down neither program does anything. -/
theorem xsgetn_of_shut (K : Kernel) (n : Nat) (h : s.self.get = none) :
    xsgetn K n s = .ok 0 s ∧ sbumpcs K n s = .ok 0 s := by
  have hmany : s.self.showmanyc = 0 := by simp [Streambuf.showmanyc, h]
  cases n with
  | zero =>
    have hnone : xsgetn K 0 s = (do takeChars 0; pure 0 : M UInt8 Nat) s := rfl
    exact ⟨hnone.trans (bind_ok takeChars_zero), rfl⟩
  | succ n =>
    constructor
    · show (if n + 1 ≤ s.self.showmanyc then _ else _ : M UInt8 Nat) s = _
      rw [if_neg (by omega), hmany, bind_ok takeChars_zero, bind_ok (underflow_of_shut K h)]
      rfl
    · have hkeep : keep (sbumpc K) s = .ok eof s := by
        unfold keep
        rw [bind_ok (sbumpc_of_shut K h)]
        rfl
      rw [sbumpcs, bind_ok hkeep]
      rfl

end Input

/-! ## The result -/

/-- A put area with bounds, or none because the output was shut down. -/
def St.PutWf (s : St UInt8) : Prop := s.self.put = none ∨ s.PutOpen

/-- A get area with bounds, or none because the input was shut down. -/
def St.GetWf (s : St UInt8) : Prop := s.self.get = none ∨ s.GetOpen

theorem xsputn_eq_sputcs (K : Kernel) {s : St UInt8} (hs : s.PutWf) (cs : List UInt8) :
    xsputn K cs s = sputcs K cs s := by
  rcases hs with hshut | hopen
  · obtain ⟨hbulk, hchars⟩ := xsputn_of_shut K cs hshut
    rw [hbulk, hchars]
  · exact xsputnRec_eq_sputcs K _ cs hopen (.inl (Nat.le_refl _))

theorem xsgetn_eq_sbumpcs (K : Kernel) {s : St UInt8} (hs : s.GetWf) (n : Nat) :
    xsgetn K n s = sbumpcs K n s := by
  rcases hs with hshut | hopen
  · obtain ⟨hbulk, hchars⟩ := xsgetn_of_shut K n hshut
    rw [hbulk, hchars]
  · exact xsgetnRec_eq_sbumpcs K _ n hopen (.inl (Nat.le_refl _))

/-- The count `xsputn` returns is the number of characters it stored. -/
theorem xsputn_count (K : Kernel) {s : St UInt8} (hs : s.PutWf) (cs : List UInt8) :
    wp (xsputn K cs)
      (fun r s' => r ≤ cs.length ∧ s'.self.stored = s.self.stored ++ cs.take r)
      (fun _ _ => True) s := by
  rcases hs with hshut | hopen
  · have hbulk := (xsputn_of_shut K cs hshut).1
    rw [wp_iff_of_ok hbulk]
    exact ⟨Nat.zero_le _, by simp⟩
  · refine (xsputn_spec K cs hopen).mono ?_ (fun _ _ _ => trivial)
    rintro r s' ⟨rfl, h⟩
    exact ⟨Nat.le_refl _, by rw [List.take_length]; exact h.stored⟩

/-- The count `xsgetn` returns is the number of characters it copied. -/
theorem xsgetn_count (K : Kernel) {s : St UInt8} (hs : s.GetWf) (n : Nat) :
    wp (xsgetn K n)
      (fun r s' => r ≤ n ∧ ∃ ds, ds.length = r ∧ s'.self.copied = s.self.copied ++ ds)
      (fun _ _ => True) s := by
  rcases hs with hshut | hopen
  · have hbulk := (xsgetn_of_shut K n hshut).1
    rw [wp_iff_of_ok hbulk]
    exact ⟨Nat.zero_le _, [], rfl, by simp⟩
  · refine (xsgetn_spec K n hopen).mono ?_ (fun _ _ _ => trivial)
    intro r s' ⟨ds, _, hcopied, hr, hn⟩
    refine ⟨?_, ds, hr.symm, hcopied⟩
    rcases hn with hn | ⟨hlt, -⟩ <;> omega

/-- **The bulk paths agree with the character paths.** From every state, at every fill level and
also after a shutdown, `xsputn` and `xsgetn` are the loops over `sputc` and `sbumpc`: the same
result or exception, the same areas, the same system calls in the same order. -/
theorem bulk_eq_characters (K : Kernel) {s : St UInt8} (hput : s.PutWf) (hget : s.GetWf)
    (cs : List UInt8) (n : Nat) :
    xsputn K cs s = sputcs K cs s ∧ xsgetn K n s = sbumpcs K n s ∧
      wp (xsputn K cs)
        (fun r s' => r ≤ cs.length ∧ s'.self.stored = s.self.stored ++ cs.take r)
        (fun _ _ => True) s ∧
      wp (xsgetn K n)
        (fun r s' => r ≤ n ∧ ∃ ds, ds.length = r ∧ s'.self.copied = s.self.copied ++ ds)
        (fun _ _ => True) s :=
  ⟨xsputn_eq_sputcs K hput cs, xsgetn_eq_sbumpcs K hget n, xsputn_count K hput cs,
    xsgetn_count K hget n⟩

/-- Three characters through a put area of two. -/
theorem bulk_eq_characters_three :
    let s := fresh ⟨2, by decide⟩ 3 (fun _ => 0) (fun _ => 0) 0
    xsputn Kernel.sink [1, 2, 3] s = sputcs Kernel.sink [1, 2, 3] s ∧
      xsgetn Kernel.sink 3 s = sbumpcs Kernel.sink 3 s :=
  have h := bulk_eq_characters Kernel.sink (.inr (putOpen_fresh ⟨2, by decide⟩ 3 _ _ 0))
    (.inr (getOpen_fresh ⟨2, by decide⟩ 3 (fun _ => 0) (fun _ => 0) 0)) [1, 2, 3] 3
  ⟨h.1, h.2.1⟩

end Sockstream
