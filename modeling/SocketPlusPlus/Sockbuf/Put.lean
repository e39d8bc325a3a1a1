import SocketPlusPlus.Logic.Fifo
import SocketPlusPlus.Sockbuf.Exchange

/-!
# The write side

Three descriptions of the write side, each proved of the one below it.

* The code: `sync`, `overflow`, `sputc` and `xsputn` over memory, pointers and system calls.
* `Out`: what has gone out, what is pending, what was ever stored. A call moves along `Out.Step`:
  it stores characters, or the kernel takes `k` bytes and `k` characters are dropped. The step is
  the template's for any character type, so it counts bytes and characters alike.
* `Fifo UInt8`: for a narrow sockbuf an `Out` is a queue with its history. Here nothing can be
  lost, repeated or reordered.

`Wrote cs s s'` is the specification the calls share: they stored `cs`, moved along `Out.Step`,
and left the read side alone.
-/

namespace Sockstream

open Exec Memory

variable {charT : Type} [CharType charT]

/-! ## Object representations

The wire has bytes and a sockbuf has characters. For `char` the two are the same. -/

/-- The bytes of a character array. -/
def bytesOf (cs : List charT) : List UInt8 :=
  cs.flatMap fun c => List.ofFn (CharType.repr c)

theorem length_bytesOf (cs : List charT) :
    (bytesOf cs).length = cs.length * CharType.sizeof charT := by
  simp [bytesOf, List.length_flatMap]

theorem length_le_bytesOf (cs : List charT) : cs.length ≤ (bytesOf cs).length := by
  rw [length_bytesOf]
  exact Nat.le_mul_of_pos_right _ CharType.sizeof_pos

@[simp] theorem bytesOf_narrow (cs : List UInt8) : bytesOf cs = cs := by
  unfold bytesOf
  induction cs with
  | nil => rfl
  | cons c cs ih => rw [List.flatMap_cons, ih]; rfl

/-- The bytes of one character of an array, read through a `char*`. -/
theorem slice_byteAt_char (m : Nat → charT) (i : Nat) :
    slice (byteAt m) (i * CharType.sizeof charT) (CharType.sizeof charT)
      = List.ofFn (CharType.repr (m i)) := by
  apply List.ext_getElem
  · simp
  · intro j hj _
    have hjlt : j < CharType.sizeof charT := by simpa using hj
    have hdiv : (i * CharType.sizeof charT + j) / CharType.sizeof charT = i := by
      rw [Nat.mul_comm, Nat.mul_add_div CharType.sizeof_pos, Nat.div_eq_of_lt hjlt, Nat.add_zero]
    have hmod : (i * CharType.sizeof charT + j) % CharType.sizeof charT = j := by
      rw [Nat.mul_comm, Nat.mul_add_mod, Nat.mod_eq_of_lt hjlt]
    simp [slice, byteAt, hdiv, hmod]

theorem slice_byteAt (m : Nat → charT) (n : Nat) :
    slice (byteAt m) 0 (n * CharType.sizeof charT) = bytesOf (slice m 0 n) := by
  induction n with
  | zero => simp [bytesOf]
  | succ n ih =>
    rw [Nat.succ_mul, slice_add, ih, Nat.zero_add, slice_byteAt_char, slice_succ_last]
    simp [bytesOf]

/-- The first `k ≤ n` bytes of an array of `n` characters. -/
theorem slice_byteAt_take (m : Nat → charT) {n k : Nat} (h : k ≤ n) :
    slice (byteAt m) 0 k = (bytesOf (slice m 0 n)).take k := by
  have hn : k ≤ n * CharType.sizeof charT :=
    Nat.le_trans h (Nat.le_mul_of_pos_right _ CharType.sizeof_pos)
  rw [← slice_byteAt, take_slice _ _ hn]

/-! ## The abstract write side

Characters are stored at one end of a buffer and leave at the other, and nothing else happens to
them. -/

structure Out (charT : Type) where
  wire : List UInt8
  pending : List charT
  stored : List charT

inductive Out.Step : Out charT → Out charT → Prop where
  | store (o : Out charT) (cs : List charT) :
      Step o ⟨o.wire, o.pending ++ cs, o.stored ++ cs⟩
  | flush (o : Out charT) (k : Nat) (hk : k ≤ o.pending.length) :
      Step o ⟨o.wire ++ (bytesOf o.pending).take k, o.pending.drop k, o.stored⟩

def Out.Steps : Out charT → Out charT → Prop := Relation.ReflTransGen Out.Step

/-- For every character type, as many bytes went out as characters were dropped. -/
theorem Out.Steps.count {o o' : Out charT} (h : Out.Steps o o')
    (ho : o.wire.length + o.pending.length = o.stored.length) :
    o'.wire.length + o'.pending.length = o'.stored.length := by
  induction h with
  | refl => exact ho
  | tail _ hstep ih =>
    cases hstep with
    | store cs => simp; omega
    | flush k hk =>
      have hle := Nat.le_trans hk (length_le_bytesOf _)
      simp only [List.length_append, List.length_take, List.length_drop]
      omega

/-- The queue behind a narrow write side. -/
def Out.Represents (o : Out UInt8) (q : Fifo UInt8) : Prop :=
  o.wire = q.popped ∧ o.pending = q.held ∧ o.stored = q.pushed

theorem Out.Step.simulates {o o' : Out UInt8} {q : Fifo UInt8} (h : Out.Step o o')
    (hq : o.Represents q) : ∃ q', Fifo.Step q q' ∧ o'.Represents q' := by
  obtain ⟨hw, hp, hs⟩ := hq
  cases h with
  | store cs => exact ⟨q.push cs, .push q cs, by simp [Represents, Fifo.push, hw, hp, hs]⟩
  | flush k hk =>
    refine ⟨q.pop k, .pop q k, ?_⟩
    simp [Represents, Fifo.pop, hw, hp, hs]

theorem Out.Steps.simulates {o o' : Out UInt8} {q : Fifo UInt8} (h : Out.Steps o o')
    (hq : o.Represents q) : ∃ q', Fifo.Steps q q' ∧ o'.Represents q' := by
  induction h with
  | refl => exact ⟨q, .refl, hq⟩
  | tail _ hstep ih =>
    obtain ⟨q1, hq1, h1⟩ := ih
    obtain ⟨q2, hq2, h2⟩ := hstep.simulates h1
    exact ⟨q2, hq1.tail hq2, h2⟩

/-! ## The calls

Every call of the write side is a run of the abstract one: it stores some characters, and sends some
of what is pending. -/

/-- The characters `pbase()..pptr()`. -/
def Streambuf.pending (b : Streambuf charT) : List charT :=
  match b.put with
  | none => []
  | some p => slice p.mem 0 p.pptr

def St.out (s : St charT) : Out charT := ⟨s.wire, s.self.pending, s.self.stored⟩

/-- `pbase() <= pptr() <= epptr() = rep->pend`, with room for at least one character. -/
def St.PutOpen (s : St charT) : Prop :=
  ∃ p, s.self.put = some p ∧ p.pptr ≤ p.epptr ∧ p.epptr = s.rep.pend ∧ 0 < s.rep.pend

structure Wrote (cs : List charT) (s s' : St charT) : Prop where
  rep : s'.rep = s.rep
  get : s'.self.get = s.self.get
  copied : s'.self.copied = s.self.copied
  sockname : s'.self.sockname = s.self.sockname
  inputs : s'.inputs = s.inputs
  putOpen : s'.PutOpen
  stored : s'.self.stored = s.self.stored ++ cs
  steps : Out.Steps s.out s'.out

theorem Wrote.trans {cs ds : List charT} {s s' s'' : St charT} (h : Wrote cs s s')
    (h' : Wrote ds s' s'') : Wrote (cs ++ ds) s s'' where
  rep := h'.rep.trans h.rep
  get := h'.get.trans h.get
  copied := h'.copied.trans h.copied
  sockname := h'.sockname.trans h.sockname
  inputs := h'.inputs.trans h.inputs
  putOpen := h'.putOpen
  stored := by rw [h'.stored, h.stored, List.append_assoc]
  steps := h.steps.trans h'.steps

section Calls

variable {s s' s1 : St charT}

omit [CharType charT] in
theorem St.PutOpen.of_self (h : s.PutOpen) (hrep : s'.rep = s.rep) (hself : s'.self = s.self) :
    s'.PutOpen := by
  unfold St.PutOpen at h ⊢
  rwa [hrep, hself]

/-- Traffic that took no byte from the put area. -/
theorem Wrote.of_exchanged (hs : s.PutOpen) (h : Exchanged [] [] s s') : Wrote [] s s' := by
  have hout : s'.out = s.out := by
    simp only [St.out, h.wire, h.self, List.append_nil]
  exact ⟨h.rep, by rw [h.self], by rw [h.self], by rw [h.self], by simpa using h.inputs,
    hs.of_self h.rep h.self, by simp [h.self], by rw [hout]; exact .refl⟩

/-- The kernel has taken the first `k` bytes of the put area, and the put area now holds the
characters behind the first `k`. -/
theorem Wrote.of_flush {p : PutArea charT} (mem : Nat → charT) {k : Nat}
    (hput : s.self.put = some p) (hpend : p.pptr ≤ s.rep.pend) (hpos : 0 < s.rep.pend)
    (hk : k ≤ p.pptr) (h : Exchanged (slice (byteAt p.mem) 0 k) [] s s1)
    (hmem : slice mem 0 (p.pptr - k) = slice p.mem k (p.pptr - k)) :
    Wrote [] s { s1 with self := { s1.self with put := some ⟨mem, p.pptr - k, s1.rep.pend⟩ } } := by
  have hpending : s.self.pending = slice p.mem 0 p.pptr := by simp [Streambuf.pending, hput]
  have hout : Out.Step s.out ⟨s.wire ++ (bytesOf s.self.pending).take k, s.self.pending.drop k,
      s.self.stored⟩ := .flush s.out k (by simpa [St.out, hpending] using hk)
  have hnew : (⟨s1.wire, slice mem 0 (p.pptr - k), s1.self.stored⟩ : Out charT) =
      ⟨s.wire ++ (bytesOf s.self.pending).take k, s.self.pending.drop k, s.self.stored⟩ := by
    rw [h.wire, h.self, slice_byteAt_take _ hk, hmem, hpending, drop_slice _ _ hk, Nat.zero_add]
  have hinputs : s1.inputs = s.inputs := by simpa using h.inputs
  refine ⟨h.rep, by simp [h.self], by simp [h.self], by simp [h.self], hinputs,
    ⟨_, rfl, ?_, rfl, ?_⟩, by simp [h.self], .single ?_⟩
  · show p.pptr - k ≤ s1.rep.pend
    rw [h.rep]; omega
  · show 0 < s1.rep.pend
    rwa [h.rep]
  · show Out.Step s.out ⟨s1.wire, slice mem 0 (p.pptr - k), s1.self.stored⟩
    rw [hnew]
    exact hout

theorem storeChars_spec {E : Exc → St charT → Prop} (cs : List charT) (hs : s.PutOpen)
    (hroom : cs.length ≤ s.self.room) :
    wp (storeChars cs) (fun _ s' => Wrote cs s s') E s := by
  obtain ⟨p, hput, hle, hpend, hpos⟩ := hs
  have hroom' : p.pptr + cs.length ≤ p.epptr := by
    simp only [Streambuf.room, hput] at hroom; omega
  unfold storeChars
  rw [wp_modify, hput]
  have hstep := Out.Step.store s.out cs
  have hnew : slice (copyIn p.mem p.pptr cs) 0 (p.pptr + cs.length) = s.self.pending ++ cs := by
    simp only [Streambuf.pending, hput]
    exact slice_copyIn_append _ _ _
  refine ⟨rfl, rfl, rfl, rfl, rfl, ⟨_, rfl, hroom', hpend, hpos⟩, rfl, .single ?_⟩
  show Out.Step s.out ⟨s.wire, slice (copyIn p.mem p.pptr cs) 0 (p.pptr + cs.length),
    s.self.stored ++ cs⟩
  rw [hnew]
  exact hstep

/-- `sync` empties the put area, or throws and leaves in it what did not go out. -/
theorem sync_spec (K : Kernel) (hs : s.PutOpen) :
    wp (sync K) (fun r s' => r = 0 ∧ Wrote [] s s' ∧ s'.self.pending = [])
      (fun e s' => e.IsSockerr ∧ Wrote [] s s') s := by
  have hopen := hs
  obtain ⟨p, hput, hle, hpend, hpos⟩ := hs
  unfold sync
  rw [wp_bind, wp_get]
  simp only [hput]
  by_cases hsome : 0 < p.pptr ∧ p.pptr ≤ p.epptr
  · rw [if_pos hsome, wp_bind, wp_tryCatch, wp_bind]
    refine (write_spec K _ _ s).mono ?_ ?_
    · -- `setp` empties the area, so nothing has to move
      intro r s1 ⟨_, h1⟩
      have hw := Wrote.of_flush p.mem hput (by omega) hpos (Nat.le_refl _) h1 (by simp)
      simp only [Nat.sub_self] at hw
      exact ⟨rfl, hw, rfl⟩
    · rintro e s1 (⟨k, hk, rfl, h1⟩ | ⟨he, h1⟩)
      · -- the kernel took `k` bytes before it failed
        unfold syncCatch
        rw [wp_bind, wp_get]
        by_cases hk0 : k ≠ 0
        · simp only [if_pos hk0, wp_bind, resetp, wp_modify, wp_throw]
          refine ⟨Exc.isSockerr_sockerr _,
            Wrote.of_flush _ hput (by omega) hpos (Nat.le_of_lt hk) h1 ?_⟩
          -- the loop of the handler moves what did not go out to the front
          exact slice_slide p.mem (Nat.zero_le k)
        · simp only [if_neg hk0, wp_throw]
          rw [not_not.mp hk0] at h1
          exact ⟨Exc.isSockerr_sockerr _, .of_exchanged hopen h1⟩
      · -- the timeout passes the handler
        obtain ⟨err, rfl⟩ := he
        exact ⟨Exc.isSockerr_sockerr _, .of_exchanged hopen h1⟩
  · rw [if_neg hsome]
    have hempty : s.self.pending = [] := by
      have : p.pptr = 0 := by omega
      simp [Streambuf.pending, hput, this]
    exact ⟨rfl, .of_exchanged hopen (.refl s), hempty⟩

omit [CharType charT] in
/-- An empty put area has room for `rep->pend - pbase()` characters. -/
theorem room_of_empty (hs : s.PutOpen) (hempty : s.self.pending = []) :
    s.self.room = s.rep.pend := by
  obtain ⟨p, hput, -, hpend, -⟩ := hs
  have hptr : p.pptr = 0 := by
    have := congrArg List.length hempty
    simpa [Streambuf.pending, hput] using this
  simp [Streambuf.room, hput, hptr, hpend]

omit [CharType charT] in
theorem St.PutOpen.pend_pos (hs : s.PutOpen) : 0 < s.rep.pend := by
  obtain ⟨p, -, -, -, hpos⟩ := hs
  exact hpos

theorem overflow_eof (K : Kernel) (hs : s.PutOpen) {Q : Int → St charT → Prop}
    {E : Exc → St charT → Prop} : wp (overflow K eof) Q E s ↔ wp (sync K) Q E s := by
  obtain ⟨p, hput, -⟩ := hs
  unfold overflow
  rw [wp_bind, wp_get]
  simp only [hput, if_pos]

theorem overflow_spec (K : Kernel) (hs : s.PutOpen) {c : Int} (hc : c ≠ eof) :
    wp (overflow K c) (fun r s' => r = c ∧ Wrote [CharType.ofInt c] s s')
      (fun e s' => e.IsSockerr ∧ Wrote [] s s') s := by
  have hstore : ∀ s1, Wrote [] s s1 → 0 < s1.self.room →
      wp (storeChars [CharType.ofInt c] >>= fun _ => pure c)
        (fun r s' => r = c ∧ Wrote [CharType.ofInt c] s s')
        (fun e s' => e.IsSockerr ∧ Wrote [] s s') s1 := by
    intro s1 h1 hroom
    rw [wp_bind]
    refine (storeChars_spec [CharType.ofInt c] h1.putOpen hroom).mono ?_
      (fun _ _ h => h)
    intro _ s2 h2
    exact ⟨rfl, h1.trans h2⟩
  have hopen := hs
  obtain ⟨p, hput, hle, -⟩ := hs
  unfold overflow
  rw [wp_bind, wp_get]
  simp only [hput, if_neg hc]
  rw [wp_bind]
  by_cases hfull : p.pptr = p.epptr
  · -- the flush makes room
    rw [if_pos hfull]
    refine (sync_spec K hopen).mono ?_ (fun e s1 h => h)
    intro r s1 ⟨_, h1, hempty⟩
    apply hstore s1 h1
    rw [room_of_empty h1.putOpen hempty]
    exact h1.putOpen.pend_pos
  · rw [if_neg hfull]
    apply hstore s (.of_exchanged hopen (.refl s))
    simp only [Streambuf.room, hput]
    omega

/-- `sputc` stores the character. The side condition is about wide characters: one that converts
to `eof` is only stored while the put area has room. -/
theorem sputc_spec (K : Kernel) (hs : s.PutOpen) {c : charT}
    (hc : CharType.toInt c = eof → 0 < s.self.room) :
    wp (sputc K c) (fun r s' => r = CharType.toInt c ∧ Wrote [c] s s')
      (fun e s' => e.IsSockerr ∧ Wrote [] s s') s := by
  unfold sputc
  rw [wp_bind, wp_get]
  by_cases hroom : 0 < s.self.room
  · rw [if_pos hroom, wp_bind]
    refine (storeChars_spec [c] hs hroom).mono ?_ (fun _ _ h => h)
    intro _ s1 h1
    exact ⟨rfl, h1⟩
  · rw [if_neg hroom]
    refine (overflow_spec K hs (fun h => hroom (hc h))).mono ?_ (fun _ _ h => h)
    intro r s1 ⟨hr, h1⟩
    rw [CharType.ofInt_toInt] at h1
    exact ⟨hr, h1⟩

section Xsputn

variable {K : Kernel} {fuel : Nat} {cs : List charT} {Q : Nat → St charT → Prop}
  {E : Exc → St charT → Prop}

/-- There is room for the characters. -/
theorem wp_xsputnRec_fits (hfits : cs.length ≤ s.self.room) :
    wp (xsputnRec K (fuel + 1) cs) Q E s ↔
      wp (storeChars cs) (fun _ s' => Q cs.length s') E s := by
  rw [xsputnRec, wp_bind, wp_get]
  simp only [if_pos hfits, wp_bind]
  exact Iff.rfl

/-- The area is filled up and flushed, and the rest is a call of its own. -/
theorem wp_xsputnRec_flush (hmore : ¬ cs.length ≤ s.self.room)
    (h : wp (storeChars (cs.take s.self.room))
      (fun _ s1 => wp (overflow K eof)
        (fun r s2 => r ≠ eof ∧ wp (xsputnRec K fuel (cs.drop s.self.room))
          (fun rest s3 => Q (s.self.room + rest) s3) E s2) E s1) E s) :
    wp (xsputnRec K (fuel + 1) cs) Q E s := by
  rw [xsputnRec, wp_bind, wp_get]
  simp only [if_neg hmore, wp_bind]
  refine h.mono ?_ (fun _ _ h => h)
  intro _ s1 h1
  rw [wp_bind]
  refine h1.mono ?_ (fun _ _ h => h)
  intro r s2 h2
  rw [if_pos h2.1, wp_bind]
  exact h2.2

end Xsputn

/-- Induction on the fuel. Every call after a flush has room, hence consumes a character, so one
unit of fuel for each character and one for the first call are enough. -/
theorem xsputnRec_spec (K : Kernel) (fuel : Nat) (cs : List charT) (hs : s.PutOpen)
    (hfuel : cs.length + 2 ≤ fuel ∨ cs.length + 1 ≤ fuel ∧ 0 < s.self.room) :
    wp (xsputnRec K fuel cs) (fun r s' => r = cs.length ∧ Wrote cs s s')
      (fun e s' => e.IsSockerr ∧ ∃ p, p <+: cs ∧ Wrote p s s') s := by
  induction fuel generalizing cs s with
  | zero => omega
  | succ fuel ih =>
    by_cases hfits : cs.length ≤ s.self.room
    · rw [wp_xsputnRec_fits hfits]
      refine (storeChars_spec cs hs hfits).mono ?_ (fun _ _ h => h)
      intro _ s1 h1
      exact ⟨rfl, h1⟩
    apply wp_xsputnRec_flush hfits
    have htake : (cs.take s.self.room).length ≤ s.self.room := List.length_take_le _ _
    refine (storeChars_spec _ hs htake).mono ?_ (fun _ _ h => h)
    intro _ s1 h1
    rw [overflow_eof K h1.putOpen]
    refine (sync_spec K h1.putOpen).mono ?_ ?_
    · rintro r s2 ⟨rfl, h2, hempty⟩
      refine ⟨by decide, ?_⟩
      have h12 : Wrote (cs.take s.self.room) s s2 := by simpa using h1.trans h2
      have hroom2 : 0 < s2.self.room := by
        rw [room_of_empty h2.putOpen hempty]
        exact h2.putOpen.pend_pos
      have hfuel2 : (cs.drop s.self.room).length + 1 ≤ fuel := by
        rw [List.length_drop]; omega
      refine (ih (cs.drop s.self.room) h2.putOpen (.inr ⟨hfuel2, hroom2⟩)).mono ?_ ?_
      · rintro rest s3 ⟨rfl, h3⟩
        have h13 := h12.trans h3
        rw [List.take_append_drop] at h13
        exact ⟨by rw [List.length_drop]; omega, h13⟩
      · rintro e s3 ⟨he, q, hq, h3⟩
        refine ⟨he, cs.take s.self.room ++ q, ?_, h12.trans h3⟩
        obtain ⟨t, ht⟩ := hq
        exact ⟨t, by rw [List.append_assoc, ht, List.take_append_drop]⟩
    · -- the flush threw: what fitted has been stored
      rintro e s2 ⟨he, h2⟩
      exact ⟨he, cs.take s.self.room, List.take_prefix _ _, by simpa using h1.trans h2⟩

theorem xsputn_spec (K : Kernel) (cs : List charT) (hs : s.PutOpen) :
    wp (xsputn K cs) (fun r s' => r = cs.length ∧ Wrote cs s s')
      (fun e s' => e.IsSockerr ∧ ∃ p, p <+: cs ∧ Wrote p s s') s :=
  xsputnRec_spec K _ cs hs (.inl (Nat.le_refl _))

end Calls

/-! ## Programs that only write

A program that calls nothing but members of the write side hands them a text. If it returns, all of
it was stored; if it throws, the beginning of it. -/

/-- Whatever is stored comes behind what went out or is pending. -/
theorem Out.Steps.grows {o o' : Out UInt8} (h : Out.Steps o o') :
    ∃ cs, o'.stored = o.stored ++ cs ∧ o'.wire ++ o'.pending = o.wire ++ o.pending ++ cs := by
  induction h with
  | refl => exact ⟨[], by simp, by simp⟩
  | tail _ hstep ih =>
    obtain ⟨cs, hstored, hsent⟩ := ih
    cases hstep with
    | store ds =>
      refine ⟨cs ++ ds, ?_, ?_⟩
      · rw [hstored, List.append_assoc]
      · rw [← List.append_assoc, hsent, List.append_assoc]
    | flush k hk =>
      refine ⟨cs, hstored, ?_⟩
      rw [bytesOf_narrow, List.append_assoc, List.take_append_drop, hsent]

theorem Out.Steps.wire_prefix {o o' : Out charT} (h : Out.Steps o o') : o.wire <+: o'.wire := by
  induction h with
  | refl => exact List.prefix_rfl
  | tail _ hstep ih =>
    cases hstep with
    | store cs => exact ih
    | flush k hk => exact ih.trans (List.prefix_append _ _)

theorem Wrote.sent {cs : List UInt8} {s s' : St UInt8} (h : Wrote cs s s') :
    s'.wire ++ s'.self.pending = s.wire ++ s.self.pending ++ cs := by
  obtain ⟨ds, hstored, hsent⟩ := h.steps.grows
  have hds : cs = ds := List.append_cancel_left (h.stored.symm.trans hstored)
  rw [hds]
  exact hsent

/-- What went out meanwhile is the front of what was to go out. -/
theorem Wrote.sent_part {cs : List UInt8} {s s' : St UInt8} (h : Wrote cs s s') :
    ∃ part, part <+: s.self.pending ++ cs ∧ s'.wire = s.wire ++ part := by
  obtain ⟨part, hpart⟩ := h.steps.wire_prefix
  have hwire : s'.wire = s.wire ++ part := hpart.symm
  have hsent := h.sent
  rw [hwire, List.append_assoc, List.append_assoc] at hsent
  exact ⟨part, ⟨_, List.append_cancel_left hsent⟩, hwire⟩

/-- The program hands `cs` to the put area; if it throws, only a part of it. -/
def Hands {α : Type} (cs : List UInt8) (c : M UInt8 α) : Prop :=
  ∀ s : St UInt8, s.PutOpen →
    wp c (fun _ s' => Wrote cs s s') (fun e s' => e.IsSockerr ∧ ∃ p, p <+: cs ∧ Wrote p s s') s

section Hands

variable {α β : Type} {cs ds : List UInt8}

theorem Hands.pure (a : α) : Hands [] (pure a : M UInt8 α) :=
  fun s hs => .of_exchanged hs (.refl s)

theorem Hands.bind {c : M UInt8 α} {f : α → M UInt8 β} (hc : Hands cs c)
    (hf : ∀ a, Hands ds (f a)) : Hands (cs ++ ds) (c >>= f) := by
  intro s hs
  rw [wp_bind]
  refine (hc s hs).mono ?_ ?_
  · intro a s1 h1
    refine (hf a s1 h1.putOpen).mono (fun _ s2 h2 => h1.trans h2) ?_
    intro e s2 ⟨he, p, hp, h2⟩
    exact ⟨he, cs ++ p, (List.prefix_append_right_inj cs).mpr hp, h1.trans h2⟩
  · intro e s1 ⟨he, p, hp, h1⟩
    exact ⟨he, p, hp.trans (List.prefix_append _ _), h1⟩

theorem Hands.sputc (K : Kernel) (c : UInt8) : Hands [c] (sputc K c) := by
  intro s hs
  refine (sputc_spec K hs (fun h => absurd h (toInt_ne_eof c))).mono (fun _ _ h => h.2) ?_
  intro e s' ⟨he, h⟩
  exact ⟨he, [], List.nil_prefix, h⟩

theorem Hands.xsputn (K : Kernel) (cs : List UInt8) : Hands cs (xsputn K cs) := by
  intro s hs
  exact (xsputn_spec K cs hs).mono (fun _ _ h => h.2) (fun _ _ h => h)

theorem Hands.ite {p : Prop} [Decidable p] {c d : M UInt8 α} (hc : Hands cs c) (hd : Hands ds d) :
    Hands (if p then cs else ds) (if p then c else d) := by
  by_cases hp : p
  · rwa [if_pos hp, if_pos hp]
  · rwa [if_neg hp, if_neg hp]

end Hands

/-! ## Runs over a narrow sockbuf -/

inductive PutCall where
  | sputc (c : UInt8)
  | overflow (c : Int)
  | xsputn (s : List UInt8)
  | sync
  | sendtimeout (wp : Int)

def PutCall.run (K : Kernel) : PutCall → M UInt8 Int
  | .sputc c => Sockstream.sputc K c
  | .overflow c => Sockstream.overflow K c
  | .xsputn s => Int.ofNat <$> Sockstream.xsputn K s
  | .sync => Sockstream.sync K
  | .sendtimeout wp => Sockstream.sendtimeout wp

/-- The characters the caller hands to the call. -/
def PutCall.input : PutCall → List UInt8
  | .sputc c => [c]
  | .overflow c => if c = eof then [] else [CharType.ofInt c]
  | .xsputn s => s
  | .sync => []
  | .sendtimeout _ => []

/-- The calls that flush: `sync()` and `overflow(eof)`. -/
def PutCall.flushes : PutCall → Prop
  | .overflow c => c = eof
  | .sync => True
  | _ => False

/-- What a normal return reports. -/
def PutCall.returns : PutCall → Int → Prop
  | .sputc c, r => r = c.toNat
  | .overflow c, r => r = if c = eof then 0 else c
  | .xsputn s, r => r = s.length
  | .sync, r => r = 0
  | .sendtimeout _, _ => True

/-- One call, from any state with an open put area. -/
theorem PutCall.run_spec (K : Kernel) (call : PutCall) {s : St UInt8} (hs : s.PutOpen) :
    wp (call.run K)
      (fun r s' => (s'.PutOpen ∧ Out.Steps s.out s'.out) ∧ call.returns r ∧
        s'.self.stored = s.self.stored ++ call.input ∧ (call.flushes → s'.self.pending = []))
      (fun _ s' => (s'.PutOpen ∧ Out.Steps s.out s'.out) ∧
        ∃ p, p <+: call.input ∧ s'.self.stored = s.self.stored ++ p) s := by
  have hthrow : ∀ (e : Exc) s', e.IsSockerr ∧ Wrote [] s s' →
      (s'.PutOpen ∧ Out.Steps s.out s'.out) ∧
        ∃ p, p <+: call.input ∧ s'.self.stored = s.self.stored ++ p :=
    fun e s' h => ⟨⟨h.2.putOpen, h.2.steps⟩, [], List.nil_prefix, h.2.stored⟩
  have hflush : wp (Sockstream.sync K)
      (fun r s' => (s'.PutOpen ∧ Out.Steps s.out s'.out) ∧ r = 0 ∧
        s'.self.stored = s.self.stored ++ [] ∧ (True → s'.self.pending = []))
      (fun _ s' => (s'.PutOpen ∧ Out.Steps s.out s'.out) ∧
        ∃ p, p <+: call.input ∧ s'.self.stored = s.self.stored ++ p) s :=
    (sync_spec K hs).mono
      (fun r s' h => ⟨⟨h.2.1.putOpen, h.2.1.steps⟩, h.1, h.2.1.stored, fun _ => h.2.2⟩) hthrow
  cases call with
  | sputc c =>
    refine (sputc_spec K hs (fun h => absurd h (toInt_ne_eof c))).mono ?_ hthrow
    intro r s' ⟨hr, h⟩
    exact ⟨⟨h.putOpen, h.steps⟩, hr, h.stored, False.elim⟩
  | overflow c =>
    by_cases hc : c = eof
    · subst hc
      refine (overflow_eof K hs).mpr (hflush.mono ?_ (fun _ _ h => h))
      intro r s' ⟨hopen, hr, hstored, hempty⟩
      exact ⟨hopen, by simpa [returns] using hr, by simpa [input] using hstored,
        fun _ => hempty trivial⟩
    · refine (overflow_spec K hs hc).mono ?_ hthrow
      intro r s' ⟨hr, h⟩
      refine ⟨⟨h.putOpen, h.steps⟩, ?_, ?_, fun h => absurd h hc⟩
      · simpa [returns, hc] using hr
      · simpa [input, hc] using h.stored
  | xsputn cs =>
    refine wp_map.mpr ((xsputn_spec K cs hs).mono ?_ ?_)
    · rintro r s' ⟨rfl, h⟩
      exact ⟨⟨h.putOpen, h.steps⟩, rfl, h.stored, False.elim⟩
    · intro e s' ⟨_, q, hq, h⟩
      exact ⟨⟨h.putOpen, h.steps⟩, q, hq, h.stored⟩
  | sync => exact hflush
  | sendtimeout t =>
    obtain ⟨p, hput, hle, hpend, hpos⟩ := hs
    exact ⟨⟨⟨p, hput, hle, hpend, hpos⟩, .refl⟩, trivial, by simp [input], False.elim⟩

omit [CharType charT] in
theorem putOpen_fresh (P : Platform) (sock : Int) (gbuf pbuf : Nat → charT) (errno : Errno) :
    (fresh P sock gbuf pbuf errno).PutOpen :=
  ⟨_, rfl, Nat.zero_le _, rfl, P.BUFSIZ_pos⟩

/-- A new sockbuf is an empty queue. -/
theorem represents_fresh (P : Platform) (sock : Int) (gbuf pbuf : Nat → UInt8) (errno : Errno) :
    (fresh P sock gbuf pbuf errno).out.Represents Fifo.empty := ⟨rfl, rfl, rfl⟩

/-- The invariant of the write side: the put area is in bounds, and what it holds and what has gone
out is a queue that grew from the empty one. -/
def St.PutInv (s : St UInt8) : Prop :=
  s.PutOpen ∧ ∃ q, Fifo.Steps Fifo.empty q ∧ s.out.Represents q

theorem St.PutInv.of_steps {s s' : St UInt8} (hs : s.PutInv) (hopen : s'.PutOpen)
    (hsteps : Out.Steps s.out s'.out) : s'.PutInv := by
  obtain ⟨-, q, hq, hrep⟩ := hs
  obtain ⟨q', hq', hrep'⟩ := hsteps.simulates hrep
  exact ⟨hopen, q', hq.trans hq', hrep'⟩

theorem St.PutInv.conserves {s : St UInt8} (hs : s.PutInv) :
    s.wire ++ s.self.pending = s.self.stored := by
  obtain ⟨-, q, -, hw, hp, hstored⟩ := hs
  show s.out.wire ++ s.out.pending = s.out.stored
  rw [hw, hp, hstored, q.balance]

theorem putInv_runAll (P : Platform) (K : Kernel) (sock : Int) (gbuf pbuf : Nat → UInt8)
    (errno : Errno) (calls : List PutCall) :
    (runAll (calls.map (PutCall.run K)) (fresh P sock gbuf pbuf errno)).2.PutInv := by
  apply runAll_invariant
  · intro c hc s hs
    obtain ⟨call, -, rfl⟩ := List.mem_map.mp hc
    exact (call.run_spec K hs.1).mono (fun _ _ h => hs.of_steps h.1.1 h.1.2)
      (fun _ _ h => hs.of_steps h.1.1 h.1.2)
  · exact ⟨putOpen_fresh P sock gbuf pbuf errno, _, .refl, represents_fresh P sock gbuf pbuf errno⟩

/-- **The write side neither loses, repeats nor reorders a byte.** After any run on a new narrow
sockbuf, with any kernel and with calls that threw in between: the bytes the kernel accepted,
followed by those still pending, are the bytes stored; the put area is in bounds; a call that
returns has stored its whole input, one that throws a prefix of it; and a flush that returns leaves
nothing pending. -/
theorem put_runs_conserve (P : Platform) (K : Kernel) (sock : Int) (gbuf pbuf : Nat → UInt8)
    (errno : Errno) (calls : List PutCall) :
    let s := (runAll (calls.map (PutCall.run K)) (fresh P sock gbuf pbuf errno)).2
    s.wire ++ s.self.pending = s.self.stored ∧ s.PutOpen ∧
      ∀ call : PutCall, wp (call.run K)
        (fun r s' => call.returns r ∧ s'.self.stored = s.self.stored ++ call.input ∧
          (call.flushes → s'.self.pending = []))
        (fun _ s' => ∃ p, p <+: call.input ∧ s'.self.stored = s.self.stored ++ p) s := by
  intro s
  have hs : s.PutInv := putInv_runAll P K sock gbuf pbuf errno calls
  refine ⟨hs.conserves, hs.1, fun call => ?_⟩
  exact (call.run_spec K hs.1).mono (fun _ _ h => h.2) (fun _ _ h => h.2)

end Sockstream
