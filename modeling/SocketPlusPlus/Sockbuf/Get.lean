import SocketPlusPlus.Logic.Fifo
import SocketPlusPlus.Sockbuf.Exchange

/-!
# The read side

The read side of a narrow sockbuf is a queue: `::read` pushes bytes, the caller pops them.

* `Took cs s s'` says what any read call does: it consumed `cs`, and the bytes that input calls
  returned meanwhile went behind the unread ones. It is the specification of `underflow`, `uflow`,
  `sbumpc` and `xsgetn`, and two `Fifo` steps.
* `MetEnd s s'` says that the call ended on a `::read` of zero bytes with nothing left to hand out.
* `peek` is what `underflow` returns, as a function of the unread bytes alone. Every byte becomes a
  value between 0 and 255, so `eof` means that there is no byte.
-/

namespace Sockstream

open Exec Memory

/-! ## The unread characters -/

section Unread

variable {charT : Type} {s s' : St charT}

/-- The characters `gptr()..egptr()`. -/
def Streambuf.unread (b : Streambuf charT) : List charT :=
  match b.get with
  | none => []
  | some g => slice g.mem g.gptr (g.egptr - g.gptr)

/-- `eback() <= gptr() <= egptr() <= rep->gend` -/
def St.GetOpen (s : St charT) : Prop :=
  ∃ g, s.self.get = some g ∧ g.gptr ≤ g.egptr ∧ g.egptr ≤ s.rep.gend

theorem Streambuf.showmanyc_eq (b : Streambuf charT) : b.showmanyc = b.unread.length := by
  unfold showmanyc unread
  cases b.get with
  | none => rfl
  | some g =>
    have hsub : (if g.gptr < g.egptr then g.egptr - g.gptr else 0) = g.egptr - g.gptr := by
      split <;> omega
    simpa using hsub

theorem St.GetOpen.of_self (h : s.GetOpen) (hrep : s'.rep = s.rep) (hself : s'.self = s.self) :
    s'.GetOpen := by
  unfold St.GetOpen at h ⊢
  rwa [hrep, hself]

/-- Characters are unread exactly when there is an area whose pointers are apart. -/
theorem exists_of_unread {c : charT} {cs : List charT} (hc : s.self.unread = c :: cs) :
    ∃ g, s.self.get = some g ∧ g.gptr < g.egptr ∧ g.mem g.gptr = c ∧
      slice g.mem (g.gptr + 1) (g.egptr - (g.gptr + 1)) = cs := by
  unfold Streambuf.unread at hc
  cases hget : s.self.get with
  | none =>
    rw [hget] at hc
    cases hc
  | some g =>
    rw [hget] at hc
    change slice g.mem g.gptr (g.egptr - g.gptr) = c :: cs at hc
    have hlt : g.gptr < g.egptr := by
      have hlen := congrArg List.length hc
      simp only [length_slice, List.length_cons] at hlen
      omega
    rw [show g.egptr - g.gptr = (g.egptr - (g.gptr + 1)) + 1 from by omega, slice_succ] at hc
    exact ⟨g, rfl, hlt, List.cons.inj hc⟩

theorem unread_nil_iff {g : GetArea charT} (hget : s.self.get = some g) :
    s.self.unread = [] ↔ g.egptr ≤ g.gptr := by
  rw [← List.length_eq_zero_iff]
  simp only [Streambuf.unread, hget, length_slice]
  omega

theorem getOpen_fresh (P : Platform) (sock : Int) (gbuf pbuf : Nat → charT) (errno : Errno) :
    (fresh P sock gbuf pbuf errno).GetOpen :=
  ⟨_, rfl, Nat.le_refl _, Nat.le_refl _⟩

/-- `underflow` on an empty area makes one `::read`. The `n` bytes it returned, if any, become the
characters `0..n` of the area: the template counts bytes as characters. -/
theorem underflow_read [CharType charT] (K : Kernel) {g : GetArea charT}
    {R : List UInt8 → St charT → Prop} {E : Exc → St charT → Prop}
    (hget : s.self.get = some g) (hempty : g.egptr ≤ g.gptr)
    (hread : wp (read K (s.rep.gend * CharType.sizeof charT)) R E s) :
    wp (underflow K)
      (fun r s' => ∃ bs s1, R bs s1 ∧
        (bs = [] ∧ r = eof ∧ s' = s1 ∨
          bs ≠ [] ∧ r = (CharType.uchar (storeBytes g.mem bs 0)).toNat ∧
          s' = { s1 with self := { s1.self with
            get := some ⟨storeBytes g.mem bs, 0, bs.length⟩ } })) E s := by
  rw [wp_congr (underflow_of_get K hget), if_neg (by omega), wp_bind]
  refine hread.mono ?_ (fun _ _ h => h)
  intro bs s1 h1
  rw [wp_ite]
  by_cases hbs : bs.length = 0
  · rw [if_pos hbs, wp_pure]
    exact ⟨bs, s1, h1, .inl ⟨List.length_eq_zero_iff.mp hbs, rfl, rfl⟩⟩
  · rw [if_neg hbs, wp_bind]
    unfold resetg
    rw [wp_modify, wp_pure]
    exact ⟨bs, s1, h1, .inr ⟨fun h => hbs (by rw [h]; rfl), rfl, rfl⟩⟩

end Unread

/-! ## One call of `xsgetn` -/

section Xsgetn

variable {charT : Type} [CharType charT] {K : Kernel} {s : St charT} {fuel n : Nat}
  {Q : Nat → St charT → Prop} {E : Exc → St charT → Prop}

/-- The characters are there. -/
theorem wp_xsgetnRec_fits (hfits : n ≤ s.self.unread.length) :
    wp (xsgetnRec K (fuel + 1) n) Q E s ↔ wp (takeChars n) (fun _ s' => Q n s') E s := by
  rw [xsgetnRec, wp_bind, wp_get, Streambuf.showmanyc_eq]
  simp only [if_pos hfits, wp_bind]
  exact Iff.rfl

/-- Everything unread goes to the caller, then `underflow` is asked for more. -/
theorem wp_xsgetnRec_refill (hmore : ¬ n ≤ s.self.unread.length)
    (h : wp (takeChars s.self.unread.length)
      (fun _ s1 => wp (underflow K)
        (fun c s2 => if c = eof then Q s.self.unread.length s2
          else wp (xsgetnRec K fuel (n - s.self.unread.length))
            (fun rest s3 => Q (s.self.unread.length + rest) s3) E s2) E s1) E s) :
    wp (xsgetnRec K (fuel + 1) n) Q E s := by
  rw [xsgetnRec, wp_bind, wp_get, Streambuf.showmanyc_eq]
  simp only [if_neg hmore, wp_bind]
  refine h.mono ?_ (fun _ _ h => h)
  intro _ s1 h1
  rw [wp_bind]
  refine h1.mono ?_ (fun _ _ h => h)
  intro c s2 h2
  by_cases heof : c = eof
  · rw [if_pos heof] at h2
    rw [if_neg (not_not.mpr heof)]
    exact h2
  · rw [if_neg heof] at h2
    rw [if_pos heof, wp_bind]
    exact h2

omit [CharType charT] in
/-- Every call but the first finds a character, so the fuel of the next call is enough. -/
theorem xsgetn_fuel (hfuel : n + 2 ≤ fuel + 1 ∨ n + 1 ≤ fuel + 1 ∧ s.self.unread ≠ [])
    (hmore : ¬ n ≤ s.self.unread.length) : n - s.self.unread.length + 1 ≤ fuel := by
  rcases hfuel with hfuel | ⟨hfuel, hsome⟩
  · omega
  · have hpos := List.length_pos_iff.mpr hsome
    omega

end Xsgetn

/-- What `underflow` returns when `bytes` are unread. -/
def peek : List UInt8 → Int
  | [] => eof
  | c :: _ => c.toNat

theorem peek_eq_eof {bytes : List UInt8} : peek bytes = eof ↔ bytes = [] := by
  cases bytes with
  | nil => simp [peek]
  | cons c cs =>
    have hne : (c.toNat : Int) ≠ eof := toInt_ne_eof c
    simpa [peek] using hne

theorem peek_slice (m : Nat → UInt8) (a : Nat) {n : Nat} (h : 0 < n) :
    peek (slice m a n) = (m a).toNat := by
  rw [show n = (n - 1) + 1 from by omega, slice_succ]
  rfl

/-! ## What a read call does

`Took cs s s'`: a read call has handed out `cs`, and what it received is now unread behind what was,
or was handed out. -/

structure Took (cs : List UInt8) (s s' : St UInt8) : Prop where
  rep : s'.rep = s.rep
  put : s'.self.put = s.self.put
  sockname : s'.self.sockname = s.self.sockname
  stored : s'.self.stored = s.self.stored
  wire : s'.wire = s.wire
  getOpen : s'.GetOpen
  consumed : ∃ ins, s'.inputs = s.inputs ++ ins ∧
    s.self.unread ++ ins.flatMap answerBytes = cs ++ s'.self.unread

/-- Between `s` and `s'` a `::read` has returned 0, and nothing is left unread. -/
def MetEnd (s s' : St UInt8) : Prop :=
  s'.self.unread = [] ∧ ∃ ins, s'.inputs = s.inputs ++ (ins ++ [.ok []])

section Calls

variable {s s' s'' : St UInt8} {cs ds : List UInt8}

theorem Took.trans (h : Took cs s s') (h' : Took ds s' s'') : Took (cs ++ ds) s s'' := by
  obtain ⟨ins, hins, hcs⟩ := h.consumed
  obtain ⟨ins', hins', hds⟩ := h'.consumed
  refine ⟨h'.rep.trans h.rep, h'.put.trans h.put, h'.sockname.trans h.sockname,
    h'.stored.trans h.stored, h'.wire.trans h.wire, h'.getOpen, ins ++ ins', ?_, ?_⟩
  · rw [hins', hins, List.append_assoc]
  · calc s.self.unread ++ (ins ++ ins').flatMap answerBytes
        = (cs ++ s'.self.unread) ++ ins'.flatMap answerBytes := by
          rw [List.flatMap_append, ← List.append_assoc, hcs]
      _ = cs ++ (ds ++ s''.self.unread) := by rw [List.append_assoc, hds]
      _ = (cs ++ ds) ++ s''.self.unread := (List.append_assoc _ _ _).symm

theorem MetEnd.of_took (h : Took cs s s') (hend : MetEnd s' s'') : MetEnd s s'' := by
  obtain ⟨ins, hins, -⟩ := h.consumed
  obtain ⟨hnil, ins', hins'⟩ := hend
  exact ⟨hnil, ins ++ ins', by rw [hins', hins]; simp⟩

/-- A read that brought no byte. -/
theorem Took.of_exchanged (hs : s.GetOpen) {ins : List (Except Errno (List UInt8))}
    (hnone : ins.flatMap answerBytes = []) (h : Exchanged [] ins s s') : Took [] s s' := by
  refine ⟨h.rep, by rw [h.self], by rw [h.self], by rw [h.self], by simpa using h.wire,
    hs.of_self h.rep h.self, ins, h.inputs, ?_⟩
  rw [hnone, h.self, List.append_nil, List.nil_append]

theorem Took.refl (hs : s.GetOpen) : Took [] s s := .of_exchanged hs rfl (.refl s)

/-- The characters at `gptr()` leave by moving the pointer; `copied` is a history and may grow. -/
theorem Took.of_gbump {g : GetArea UInt8} (hget : s.self.get = some g)
    (hend : g.egptr ≤ s.rep.gend) {n : Nat} (hn : g.gptr + n ≤ g.egptr) (copied : List UInt8) :
    Took (slice g.mem g.gptr n) s { s with self := { s.self with
      get := some { g with gptr := g.gptr + n }, copied := copied } } := by
  refine ⟨rfl, rfl, rfl, rfl, rfl, ⟨_, rfl, hn, hend⟩, [], by simp [St.inputs], ?_⟩
  have hsplit : g.egptr - g.gptr = n + (g.egptr - (g.gptr + n)) := by omega
  simp only [Streambuf.unread, hget, List.flatMap_nil, List.append_nil]
  rw [hsplit, slice_add]

theorem takeChars_spec {E : Exc → St UInt8 → Prop} (hs : s.GetOpen) {n : Nat}
    (hn : n ≤ s.self.unread.length) :
    wp (takeChars n) (fun _ s' => Took (s.self.unread.take n) s s' ∧
      s'.self.copied = s.self.copied ++ s.self.unread.take n ∧
      s'.self.unread = s.self.unread.drop n) E s := by
  obtain ⟨g, hget, hle, hend⟩ := hs
  have hunread : s.self.unread = slice g.mem g.gptr (g.egptr - g.gptr) := by
    simp [Streambuf.unread, hget]
  have hbound : n ≤ g.egptr - g.gptr := by simpa [hunread] using hn
  unfold takeChars
  rw [wp_modify, hget, hunread, take_slice _ _ hbound, drop_slice _ _ hbound]
  refine ⟨.of_gbump hget hend (by omega) _, rfl, ?_⟩
  show slice g.mem (g.gptr + n) (g.egptr - (g.gptr + n)) = _
  rw [Nat.sub_add_eq]

theorem gbump_spec {E : Exc → St UInt8 → Prop} (hs : s.GetOpen) {c : UInt8}
    (hc : s.self.unread = c :: cs) :
    wp (gbump 1) (fun _ s' => Took [c] s s' ∧ s'.self.copied = s.self.copied ∧
      s'.self.unread = cs) E s := by
  obtain ⟨g, hget, hlt, hhead, htail⟩ := exists_of_unread hc
  have hend : g.egptr ≤ s.rep.gend := by
    obtain ⟨g', hget', -, hend'⟩ := hs
    obtain rfl : g = g' := Option.some.inj (hget.symm.trans hget')
    exact hend'
  have htook := Took.of_gbump hget hend (n := 1) (by omega) s.self.copied
  rw [slice_succ, slice_zero, hhead] at htook
  unfold gbump
  rw [wp_modify, hget]
  exact ⟨htook, rfl, htail⟩

/-- While bytes are unread `underflow` looks at the first one and does nothing else. -/
theorem underflow_of_unread (K : Kernel) {c : UInt8} (hc : s.self.unread = c :: cs) :
    underflow K s = .ok c.toNat s := by
  obtain ⟨g, hget, hlt, hhead, -⟩ := exists_of_unread hc
  rw [underflow_of_get K hget, if_pos hlt, hhead]
  rfl

theorem slice_storeBytes (m : Nat → UInt8) (bs : List UInt8) :
    slice (storeBytes m bs) 0 bs.length = bs := by
  apply slice_eq_of_getElem?
  intro i x hx
  show (bs[(0 + i) * 1 + 0]?).getD _ = x
  rw [show (0 + i) * 1 + 0 = i from by omega, hx]
  rfl

/-- With nothing unread `underflow` makes one `::read`, and what that returned is then unread. -/
theorem underflow_refill (K : Kernel) (hs : s.GetOpen) (hnil : s.self.unread = []) :
    wp (underflow K) (fun r s' => Took [] s s' ∧ s'.self.copied = s.self.copied ∧
        r = peek s'.self.unread ∧ s'.inputs = s.inputs ++ [.ok s'.self.unread])
      (fun e s' => e.IsInputError ∧ Took [] s s' ∧ s'.self.copied = s.self.copied) s := by
  have hopen := hs
  obtain ⟨g, hget, -, -⟩ := hs
  refine (underflow_read K hget ((unread_nil_iff hget).mp hnil) (read_spec K _ s)).mono ?_ ?_
  · rintro r s' ⟨bs, s1, ⟨hlen, h1⟩, ⟨rfl, rfl, rfl⟩ | ⟨hbs, rfl, rfl⟩⟩
    · -- the end of the file: `setg` is not called
      have hnil1 : s'.self.unread = [] := by rw [h1.self, hnil]
      exact ⟨.of_exchanged hopen rfl h1, by rw [h1.self], by rw [hnil1]; rfl,
        by rw [hnil1]; exact h1.inputs⟩
    · -- the bytes lie at the front of the array, and all of them are unread
      have hwire : s1.wire = s.wire := by simpa using h1.wire
      have hunread : slice (storeBytes g.mem bs) 0 (bs.length - 0) = bs := slice_storeBytes g.mem bs
      have hroom : bs.length ≤ s1.rep.gend := by
        rw [h1.rep]
        exact Nat.le_trans hlen (Nat.le_of_eq (Nat.mul_one _))
      refine ⟨⟨h1.rep, by rw [h1.self], by rw [h1.self], by rw [h1.self], hwire,
        ⟨_, rfl, Nat.zero_le _, hroom⟩, [.ok bs], h1.inputs, ?_⟩, by rw [h1.self], ?_, ?_⟩
      · show s.self.unread ++ (bs ++ []) = [] ++ slice (storeBytes g.mem bs) 0 (bs.length - 0)
        rw [hunread, hnil, List.append_nil]
      · show ((storeBytes g.mem bs 0).toNat : Int)
          = peek (slice (storeBytes g.mem bs) 0 (bs.length - 0))
        rw [peek_slice]
        exact List.length_pos_iff.mpr hbs
      · show s1.inputs = s.inputs ++ [.ok (slice (storeBytes g.mem bs) 0 (bs.length - 0))]
        rw [hunread]
        exact h1.inputs
  · intro e s1 ⟨he, ins, hins, h1⟩
    exact ⟨he, .of_exchanged hopen hins h1, by rw [h1.self]⟩

theorem underflow_spec (K : Kernel) (hs : s.GetOpen) :
    wp (underflow K) (fun r s' => Took [] s s' ∧ s'.self.copied = s.self.copied ∧
        r = peek s'.self.unread ∧ (r = eof → MetEnd s s'))
      (fun e s' => e.IsInputError ∧ Took [] s s' ∧ s'.self.copied = s.self.copied) s := by
  cases hunread : s.self.unread with
  | nil =>
    refine (underflow_refill K hs hunread).mono ?_ (fun _ _ h => h)
    intro r s1 ⟨h1, hcopied, hr, hins⟩
    refine ⟨h1, hcopied, hr, fun heof => ?_⟩
    have hnil : s1.self.unread = [] := peek_eq_eof.mp (hr.symm.trans heof)
    exact ⟨hnil, [], by rw [hins, hnil]; rfl⟩
  | cons c cs =>
    have hr : (c.toNat : Int) = peek s.self.unread := by rw [hunread]; rfl
    rw [wp_iff_of_ok (underflow_of_unread K hunread)]
    refine ⟨.refl hs, rfl, hr, fun heof => ?_⟩
    have hnil := peek_eq_eof.mp (hr.symm.trans heof)
    rw [hunread] at hnil
    cases hnil

/-- `uflow` consumes the byte it returns, and nothing if it returns `eof` or throws. -/
theorem uflow_spec (K : Kernel) (hs : s.GetOpen) :
    wp (uflow K)
      (fun r s' => s'.self.copied = s.self.copied ∧
        (r = eof ∧ Took [] s s' ∧ MetEnd s s' ∨ ∃ c : UInt8, r = c.toNat ∧ Took [c] s s'))
      (fun e s' => e.IsInputError ∧ Took [] s s' ∧ s'.self.copied = s.self.copied) s := by
  unfold uflow
  rw [wp_bind]
  refine (underflow_spec K hs).mono ?_ (fun _ _ h => h)
  intro r s1 ⟨h1, hcopied, hr, hend⟩
  by_cases heof : r = eof
  · rw [if_pos heof]
    exact ⟨hcopied, .inl ⟨rfl, h1, hend heof⟩⟩
  · rw [if_neg heof, wp_bind]
    cases hunread : s1.self.unread with
    | nil =>
      rw [hunread] at hr
      exact absurd hr heof
    | cons c rest =>
      rw [hunread] at hr
      refine (gbump_spec h1.getOpen hunread).mono ?_ (fun _ _ h => h)
      intro _ s2 ⟨h2, hcopied2, _⟩
      exact ⟨hcopied2.trans hcopied, .inr ⟨c, hr, h1.trans h2⟩⟩

theorem sbumpc_spec (K : Kernel) (hs : s.GetOpen) :
    wp (sbumpc K)
      (fun r s' => s'.self.copied = s.self.copied ∧
        (r = eof ∧ Took [] s s' ∧ MetEnd s s' ∨ ∃ c : UInt8, r = c.toNat ∧ Took [c] s s'))
      (fun e s' => e.IsInputError ∧ Took [] s s' ∧ s'.self.copied = s.self.copied) s := by
  have hopen := hs
  obtain ⟨g, hget, -, -⟩ := hs
  rw [wp_congr (sbumpc_of_get K hget)]
  by_cases hlt : g.gptr < g.egptr
  · rw [if_pos hlt, wp_bind]
    have hunread : s.self.unread
        = g.mem g.gptr :: slice g.mem (g.gptr + 1) (g.egptr - (g.gptr + 1)) := by
      simp only [Streambuf.unread, hget]
      rw [← slice_succ]
      congr 1
      omega
    refine (gbump_spec hopen hunread).mono ?_ (fun _ _ h => h)
    intro _ s1 ⟨h1, hcopied, _⟩
    exact ⟨hcopied, .inr ⟨g.mem g.gptr, rfl, h1⟩⟩
  · rw [if_neg hlt]
    exact uflow_spec K hopen

/-- Induction on the fuel. Every call after a refill has a byte to copy, so one unit of fuel for
each byte and one for the first call are enough. -/
theorem xsgetnRec_spec (K : Kernel) (fuel n : Nat) (hs : s.GetOpen)
    (hfuel : n + 2 ≤ fuel ∨ n + 1 ≤ fuel ∧ s.self.unread ≠ []) :
    wp (xsgetnRec K fuel n)
      (fun r s' => ∃ cs, Took cs s s' ∧ s'.self.copied = s.self.copied ++ cs ∧ r = cs.length ∧
        (r = n ∨ r < n ∧ MetEnd s s'))
      (fun e s' => e.IsInputError ∧ ∃ cs, Took cs s s' ∧ s'.self.copied = s.self.copied ++ cs ∧
        cs.length < n) s := by
  induction fuel generalizing n s with
  | zero => omega
  | succ fuel ih =>
    by_cases hfits : n ≤ s.self.unread.length
    · rw [wp_xsgetnRec_fits hfits]
      refine (takeChars_spec hs hfits).mono ?_ (fun _ _ h => h)
      rintro _ s1 ⟨h1, hcopied, _⟩
      exact ⟨_, h1, hcopied, by rw [List.length_take_of_le hfits], .inl rfl⟩
    apply wp_xsgetnRec_refill hfits
    have hall : s.self.unread.take s.self.unread.length = s.self.unread := List.take_length
    refine (takeChars_spec hs (Nat.le_refl _)).mono ?_ (fun _ _ h => h)
    rintro _ s1 ⟨h1, hcopied1, _⟩
    rw [hall] at h1 hcopied1
    refine (underflow_spec K h1.getOpen).mono ?_ ?_
    · rintro c s2 ⟨h2, hcopied2, hc, hend⟩
      have h12 : Took s.self.unread s s2 := by simpa using h1.trans h2
      have hcopied : s2.self.copied = s.self.copied ++ s.self.unread := hcopied2.trans hcopied1
      by_cases heof : c = eof
      · -- fewer than `n` bytes, and the end of the file
        rw [if_pos heof]
        exact ⟨_, h12, hcopied, rfl, .inr ⟨by omega, (hend heof).of_took h1⟩⟩
      rw [if_neg heof]
      have hne : s2.self.unread ≠ [] := fun hnil => heof (hc.trans (peek_eq_eof.mpr hnil))
      refine (ih (n - s.self.unread.length) h2.getOpen
        (.inr ⟨xsgetn_fuel hfuel hfits, hne⟩)).mono ?_ ?_
      · rintro rest s3 ⟨ds, h3, hcopied3, rfl, hlast⟩
        refine ⟨_, h12.trans h3, ?_, by rw [List.length_append], ?_⟩
        · rw [hcopied3, hcopied, List.append_assoc]
        · rcases hlast with hn | ⟨hlt, hend3⟩
          · exact .inl (by omega)
          · exact .inr ⟨by omega, hend3.of_took h12⟩
      · rintro e s3 ⟨he, ds, h3, hcopied3, hlt⟩
        refine ⟨he, _, h12.trans h3, ?_, ?_⟩
        · rw [hcopied3, hcopied, List.append_assoc]
        · rw [List.length_append]
          omega
    · -- what was copied before the exception is in the caller's memory
      rintro e s2 ⟨he, h2, hcopied2⟩
      exact ⟨he, s.self.unread, by simpa using h1.trans h2, hcopied2.trans hcopied1, by omega⟩

theorem xsgetn_spec (K : Kernel) (n : Nat) (hs : s.GetOpen) :
    wp (xsgetn K n)
      (fun r s' => ∃ cs, Took cs s s' ∧ s'.self.copied = s.self.copied ++ cs ∧ r = cs.length ∧
        (r = n ∨ r < n ∧ MetEnd s s'))
      (fun e s' => e.IsInputError ∧ ∃ cs, Took cs s s' ∧ s'.self.copied = s.self.copied ++ cs ∧
        cs.length < n) s :=
  xsgetnRec_spec K _ n hs (.inl (Nat.le_refl _))

end Calls

/-! ## Runs of read calls

The caller of `uflow` and `sbumpc` is handed one character, which `keep` enters in the history
`copied`; `xsgetn` enters what it copies itself. The settings `recvtimeout` and `oob` are part of a
run because they switch the tests before a `::read` on and off.
-/

/-- A caller who keeps the character a call returns. -/
def keep {charT : Type} [CharType charT] (call : M charT Int) : M charT Int := do
  let r ← call
  modify fun s =>
    if r = eof then s
    else { s with self := { s.self with copied := s.self.copied ++ [CharType.ofInt r] } }
  pure r

inductive GetCall where
  | underflow
  | uflow
  | sbumpc
  | xsgetn (n : Nat)
  | recvtimeout (wp : Int)
  | oob (b : Bool)

def GetCall.run (K : Kernel) : GetCall → M UInt8 Int
  | .underflow => Sockstream.underflow K
  | .uflow => keep (Sockstream.uflow K)
  | .sbumpc => keep (Sockstream.sbumpc K)
  | .xsgetn n => Int.ofNat <$> Sockstream.xsgetn K n
  | .recvtimeout wp => Sockstream.recvtimeout wp
  | .oob b => (fun old : Bool => if old then 1 else 0) <$> setOob b

/-- The state after one byte was handed out, or after the end of the input was met. -/
def HandedOne (s : St UInt8) (r : Int) (s' : St UInt8) : Prop :=
  r = eof ∧ s'.self.copied = s.self.copied ∧ MetEnd s s' ∨
    ∃ c : UInt8, r = c.toNat ∧ s'.self.copied = s.self.copied ++ [c]

/-- What a normal return reports, and what it has consumed. -/
def GetCall.returns (s : St UInt8) : GetCall → Int → St UInt8 → Prop
  | .underflow, r, s' =>
    s'.self.copied = s.self.copied ∧ r = peek s'.self.unread ∧ (r = eof → MetEnd s s')
  | .uflow, r, s' => HandedOne s r s'
  | .sbumpc, r, s' => HandedOne s r s'
  | .xsgetn n, r, s' => ∃ cs, s'.self.copied = s.self.copied ++ cs ∧ r = cs.length ∧
      (r = n ∨ r < n ∧ MetEnd s s')
  | .recvtimeout _, _, s' => s'.self = s.self
  | .oob _, _, s' => s'.self = s.self

/-- What a call that throws has consumed: only `xsgetn` can have handed bytes over. -/
def GetCall.throws (s : St UInt8) : GetCall → St UInt8 → Prop
  | .xsgetn n, s' => ∃ cs, s'.self.copied = s.self.copied ++ cs ∧ cs.length < n
  | _, s' => s'.self.copied = s.self.copied

/-- The queue behind a narrow read side. -/
def St.ReadBy (s : St UInt8) (q : Fifo UInt8) : Prop :=
  s.received = q.pushed ∧ s.self.copied = q.popped ∧ s.self.unread = q.held

/-- The invariant of the read side. -/
def St.GetInv (s : St UInt8) : Prop :=
  s.GetOpen ∧ ∃ q, Fifo.Steps Fifo.empty q ∧ s.ReadBy q

section Runs

variable {s s' : St UInt8} {cs : List UInt8}

/-- A read call pushes what `::read` returned and pops what the caller was handed. -/
theorem St.GetInv.of_took (hs : s.GetInv) (h : Took cs s s')
    (hcopied : s'.self.copied = s.self.copied ++ cs) : s'.GetInv := by
  obtain ⟨-, q, hq, hpushed, hpopped, hheld⟩ := hs
  obtain ⟨ins, hins, hconsumed⟩ := h.consumed
  have hreceived : s'.received = s.received ++ ins.flatMap answerBytes := by
    unfold St.received
    rw [hins, List.flatMap_append]
  -- first what came in is pushed, then what was consumed is popped
  have hsteps : Fifo.Steps q ((q.push (ins.flatMap answerBytes)).pop cs.length) :=
    .tail (.single (.push q _)) (.pop _ _)
  refine ⟨h.getOpen, _, hq.trans hsteps, ?_, ?_, ?_⟩
  · rw [hreceived, hpushed]
    rfl
  · show s'.self.copied = q.popped ++ (q.held ++ ins.flatMap answerBytes).take cs.length
    rw [hcopied, hpopped, ← hheld, hconsumed, List.take_left]
  · show s'.self.unread = (q.held ++ ins.flatMap answerBytes).drop cs.length
    rw [← hheld, hconsumed, List.drop_left]

theorem St.GetInv.conserves (hs : s.GetInv) : s.self.copied ++ s.self.unread = s.received := by
  obtain ⟨-, q, -, hpushed, hpopped, hheld⟩ := hs
  rw [hpushed, hpopped, hheld, q.balance]

/-- A change of the settings. -/
theorem St.GetInv.of_self (hs : s.GetInv) (hgend : s'.rep.gend = s.rep.gend)
    (hself : s'.self = s.self) (hsys : s'.sys = s.sys) : s'.GetInv := by
  obtain ⟨⟨g, hget, hle, hend⟩, q, hq, hpushed, hpopped, hheld⟩ := hs
  refine ⟨⟨g, by rw [hself, hget], hle, by rwa [hgend]⟩, q, hq, ?_, ?_, ?_⟩
  · rw [← hpushed]
    unfold St.received St.inputs
    rw [hsys]
  · rw [hself, hpopped]
  · rw [hself, hheld]

theorem keep_spec {call : M UInt8 Int} (hs : s.GetInv)
    (h : wp call
      (fun r s' => s'.self.copied = s.self.copied ∧
        (r = eof ∧ Took [] s s' ∧ MetEnd s s' ∨ ∃ c : UInt8, r = c.toNat ∧ Took [c] s s'))
      (fun e s' => e.IsInputError ∧ Took [] s s' ∧ s'.self.copied = s.self.copied) s) :
    wp (keep call) (fun r s' => s'.GetInv ∧ HandedOne s r s')
      (fun _ s' => s'.GetInv ∧ s'.self.copied = s.self.copied) s := by
  unfold keep
  rw [wp_bind]
  refine h.mono ?_ ?_
  · rintro r s1 ⟨hcopied, ⟨rfl, h1, hend⟩ | ⟨c, rfl, h1⟩⟩
    · rw [wp_bind, wp_modify, if_pos rfl]
      exact ⟨hs.of_took h1 (by rw [hcopied, List.append_nil]), .inl ⟨rfl, hcopied, hend⟩⟩
    · have hne : (c.toNat : Int) ≠ eof := toInt_ne_eof c
      have hback : (CharType.ofInt c.toNat : UInt8) = c := CharType.ofInt_toInt c
      rw [wp_bind, wp_modify, if_neg hne, hback]
      have htook : Took [c] s
          { s1 with self := { s1.self with copied := s1.self.copied ++ [c] } } :=
        ⟨h1.rep, h1.put, h1.sockname, h1.stored, h1.wire, h1.getOpen, h1.consumed⟩
      have hkept : s1.self.copied ++ [c] = s.self.copied ++ [c] := by rw [hcopied]
      exact ⟨hs.of_took htook hkept, .inr ⟨c, rfl, hkept⟩⟩
  · intro e s1 ⟨_, h1, hcopied⟩
    exact ⟨hs.of_took h1 (by rw [hcopied, List.append_nil]), hcopied⟩

/-- One call keeps the invariant, thrown or not. -/
theorem GetCall.run_spec (K : Kernel) (call : GetCall) (hs : s.GetInv) :
    wp (call.run K) (fun r s' => s'.GetInv ∧ call.returns s r s')
      (fun _ s' => s'.GetInv ∧ call.throws s s') s := by
  cases call with
  | underflow =>
    refine (underflow_spec K hs.1).mono ?_ ?_
    · intro r s1 ⟨h1, hcopied, hr, hend⟩
      exact ⟨hs.of_took h1 (by rw [hcopied, List.append_nil]), hcopied, hr, hend⟩
    · intro e s1 ⟨_, h1, hcopied⟩
      exact ⟨hs.of_took h1 (by rw [hcopied, List.append_nil]), hcopied⟩
  | uflow => exact keep_spec hs (uflow_spec K hs.1)
  | sbumpc => exact keep_spec hs (sbumpc_spec K hs.1)
  | xsgetn n =>
    refine wp_map.mpr ((xsgetn_spec K n hs.1).mono ?_ ?_)
    · intro r s1 ⟨cs, h1, hcopied, hr, hn⟩
      refine ⟨hs.of_took h1 hcopied, cs, hcopied, congrArg Int.ofNat hr, ?_⟩
      rcases hn with hn | ⟨hlt, hend⟩
      · exact .inl (congrArg Int.ofNat hn)
      · exact .inr ⟨Int.ofNat_lt.mpr hlt, hend⟩
    · intro e s1 ⟨_, cs, h1, hcopied, hlt⟩
      exact ⟨hs.of_took h1 hcopied, cs, hcopied, hlt⟩
  | recvtimeout t => exact ⟨hs.of_self rfl rfl rfl, rfl⟩
  | oob b => exact ⟨hs.of_self rfl rfl rfl, rfl⟩

theorem getInv_fresh (P : Platform) (sock : Int) (gbuf pbuf : Nat → UInt8) (errno : Errno) :
    (fresh P sock gbuf pbuf errno).GetInv := by
  refine ⟨getOpen_fresh P sock gbuf pbuf errno, _, .refl, rfl, rfl, ?_⟩
  show slice gbuf P.BUFSIZ (P.BUFSIZ - P.BUFSIZ) = []
  rw [Nat.sub_self, slice_zero]

theorem getInv_runAll (P : Platform) (K : Kernel) (sock : Int) (gbuf pbuf : Nat → UInt8)
    (errno : Errno) (calls : List GetCall) :
    (runAll (calls.map (GetCall.run K)) (fresh P sock gbuf pbuf errno)).2.GetInv := by
  apply runAll_invariant
  · intro c hc s hs
    obtain ⟨call, -, rfl⟩ := List.mem_map.mp hc
    exact (call.run_spec K hs).mono (fun _ _ h => h.1) (fun _ _ h => h.1)
  · exact getInv_fresh P sock gbuf pbuf errno

end Runs

/-- **The read side neither loses, repeats nor reorders a byte.** After any run on a new narrow
sockbuf, with any kernel and with calls that threw in between: the bytes handed to the caller,
followed by the unread ones, are the bytes `::read` returned; the get area is in bounds; and the
next call returns or throws as `GetCall.returns` and `GetCall.throws` say, `eof` standing for a
`::read` of zero bytes and for nothing else. -/
theorem get_runs_conserve (P : Platform) (K : Kernel) (sock : Int) (gbuf pbuf : Nat → UInt8)
    (errno : Errno) (calls : List GetCall) :
    let s := (runAll (calls.map (GetCall.run K)) (fresh P sock gbuf pbuf errno)).2
    s.self.copied ++ s.self.unread = s.received ∧ s.GetOpen ∧
      ∀ call : GetCall, wp (call.run K) (fun r s' => call.returns s r s')
        (fun _ s' => call.throws s s') s := by
  intro s
  have hs : s.GetInv := getInv_runAll P K sock gbuf pbuf errno calls
  refine ⟨hs.conserves, hs.1, fun call => ?_⟩
  exact (call.run_spec K hs).mono (fun _ _ h => h.2) (fun _ _ h => h.2)

end Sockstream
