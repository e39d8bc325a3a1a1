import Mathlib.Data.List.Forall2
import Mathlib.Data.List.Perm.Basic
import SocketPlusPlus.Sockbuf.Bulk
import SocketPlusPlus.Transport

/-!
# Copies of a sockbuf

The copy constructor of `basic_sockbuf` copies the pointer `rep` and counts the new owner. The
base class `streambuf` is not copied: its initializer is commented out, so the default constructor
leaves a copy without a get area and without a put area, although a comment next to it assumes that
`streambuf` takes care of them. The copy constructor of `basic_sockinetbuf` and the constructors of
`isockinet`, `osockinet` and `iosockinet` that take a `sockinetbuf` go the same way.

So a copy is dead: its output members report `eof` or a count of 0, its input members report the
end of the input, and none of them touches the socket. The result says that a run over a sockbuf
and its copies does what its callers expect exactly if everything goes through the original.
-/

namespace Sockstream

open Exec Memory

/-! ## Objects that share a socket

A copy is made of a sockbuf or of a copy, and has no areas of its own: the base class is not copied.
Its calls go to members that look at areas. -/

/-- A sockbuf, and what its callers have written through it. -/
structure Obj where
  buf : Streambuf UInt8
  written : List UInt8

/-- The objects that point to one `rep`, in the order in which they were built. -/
structure World where
  rep : Sockcnt
  objs : List Obj
  sys : Sys

def World.wire (w : World) : List UInt8 := Sockstream.wire w.sys.history

/-- The state a member function of the object sees. -/
def World.state (w : World) (o : Obj) : St UInt8 := ⟨w.rep, o.buf, w.sys⟩

/-- What the default constructors of `streambuf` and `string` leave. -/
def Streambuf.blank : Streambuf UInt8 where
  get := none
  put := none
  sockname := ""
  stored := []
  copied := []

/-- `basic_sockbuf(const basic_sockbuf& sb)` for the `i`-th object. -/
def World.copy (i : Nat) : EStateM Exc World Int := fun w =>
  match w.objs[i]? with
  | none => .ok 0 w
  | some _ =>
    .ok 0 { w with
      rep := { w.rep with cnt := w.rep.cnt + 1 }
      objs := w.objs ++ [⟨.blank, []⟩] }

inductive Call where
  | sputc (c : UInt8)
  | xsputn (s : List UInt8)
  | sync
  | underflow
  | uflow
  | sbumpc
  | xsgetn (n : Nat)
  | sendtimeout (wp : Int)
  | recvtimeout (wp : Int)
  | oob (b : Bool)

def Call.run (K : Kernel) : Call → M UInt8 Int
  | .sputc c => Sockstream.sputc K c
  | .xsputn s => Int.ofNat <$> Sockstream.xsputn K s
  | .sync => Sockstream.sync K
  | .underflow => Sockstream.underflow K
  | .uflow => Sockstream.uflow K
  | .sbumpc => Sockstream.sbumpc K
  | .xsgetn n => Int.ofNat <$> Sockstream.xsgetn K n
  | .sendtimeout wp => Sockstream.sendtimeout wp
  | .recvtimeout wp => Sockstream.recvtimeout wp
  | .oob b => (fun old : Bool => if old then 1 else 0) <$> setOob b

/-- The bytes the caller hands to the call. -/
def Call.input : Call → List UInt8
  | .sputc c => [c]
  | .xsputn s => s
  | _ => []

/-- The calls that ask for a byte. -/
def Call.reads : Call → Prop
  | .underflow => True
  | .uflow => True
  | .sbumpc => True
  | .xsgetn n => 0 < n
  | _ => False

/-- How a call reports that there is none. -/
def Call.saysEof : Call → Int → Prop
  | .xsgetn _, r => r = 0
  | _, r => r = eof

/-- A call of the `i`-th object. Of the bytes of a call that throws, those count as written that
were stored. -/
def World.call (K : Kernel) (i : Nat) (c : Call) : EStateM Exc World Int := fun w =>
  match w.objs[i]? with
  | none => .ok 0 w
  | some o =>
    match c.run K (w.state o) with
    | .ok r s => .ok r ⟨s.rep, w.objs.set i ⟨s.self, o.written ++ c.input⟩, s.sys⟩
    | .error e s =>
      let part := s.self.stored.drop o.buf.stored.length
      .error e ⟨s.rep, w.objs.set i ⟨s.self, o.written ++ part⟩, s.sys⟩

theorem World.call_of_none {K : Kernel} {i : Nat} {c : Call} {w : World}
    (hnone : w.objs[i]? = none) : World.call K i c w = .ok 0 w := by
  unfold World.call
  rw [hnone]

theorem World.call_of_some {K : Kernel} {i : Nat} {c : Call} {w : World} {o : Obj}
    (ho : w.objs[i]? = some o) : World.call K i c w = match c.run K (w.state o) with
      | .ok r s => .ok r ⟨s.rep, w.objs.set i ⟨s.self, o.written ++ c.input⟩, s.sys⟩
      | .error e s =>
        let part := s.self.stored.drop o.buf.stored.length
        .error e ⟨s.rep, w.objs.set i ⟨s.self, o.written ++ part⟩, s.sys⟩ := by
  unfold World.call
  rw [ho]

inductive Action where
  | copy (i : Nat)
  | call (i : Nat) (c : Call)

def Action.run (K : Kernel) : Action → EStateM Exc World Int
  | .copy i => World.copy i
  | .call i c => World.call K i c

/-- A sockbuf just built, and no copies. -/
def World.fresh (P : Platform) (sock : Int) (gbuf pbuf : Nat → UInt8) (errno : Errno) : World :=
  ⟨.init P sock, [⟨.init P gbuf pbuf, []⟩], ⟨[], errno⟩⟩

/-! ## What the callers expect

Whoever is handed a sockbuf expects it to work: what is written through any of the objects comes to
the wire once it was flushed, and who reads with data there gets a character. -/

/-- What was written through the objects and is no longer pending in them is on the wire, each byte
once. -/
def World.ExactlyOnce (w : World) : Prop :=
  ∃ flushed : List (List UInt8),
    List.Forall₂ (fun o bytes => bytes ++ o.buf.pending = o.written) w.objs flushed ∧
    w.wire.Perm flushed.flatten

/-- Whatever is done before it, the next `::read` returns data. -/
def Kernel.HasData (K : Kernel) (history : List Event) : Prop :=
  ∀ h, inputs h = inputs history → ∀ len, 0 < len → ∃ bs, K.input h .read len = .ok bs ∧ bs.1 ≠ []

/-- What a call that returns has done: a flush has left nothing pending, and a read has found data
if there was some. -/
def Call.Returned (K : Kernel) (w : World) (i : Nat) (c : Call) (r : Int) (w' : World) : Prop :=
  (c = .sync → ∀ o, w'.objs[i]? = some o → o.buf.pending = []) ∧
    (c.reads → ∀ o, w.objs[i]? = some o → K.HasData w.sys.history → ¬ c.saysEof r)

def Action.Returned (K : Kernel) (w : World) : Action → Int → World → Prop
  | .copy _, _, _ => True
  | .call i c, r, w' => c.Returned K w i r w'

/-- The step does what its caller expects, and leaves no byte lost or repeated. -/
def Works (K : Kernel) (a : Action) (w : World) : Prop :=
  wp (a.run K) (fun r w' => w'.ExactlyOnce ∧ a.Returned K w r w') (fun _ w' => w'.ExactlyOnce) w

/-- Bytes are written through the original only, and while there is data only the original reads. -/
def ThroughOriginal (K : Kernel) : Action → World → Prop
  | .copy _, _ => True
  | .call i c, w => ∀ o, w.objs[i]? = some o →
      i = 0 ∨ c.input = [] ∧ (c.reads → ¬ K.HasData w.sys.history)

/-! ## A call of the original

The original does what it would do without copies. -/

section Original

variable {K : Kernel} {s s' : St UInt8}

/-- Both areas are there and in bounds. -/
structure St.Open (s : St UInt8) : Prop where
  putOpen : s.PutOpen
  getOpen : s.GetOpen
  gend : 0 < s.rep.gend

/-- The two counts may differ in their settings. -/
structure Sockcnt.SameEnds (r r' : Sockcnt) : Prop where
  gend : r'.gend = r.gend
  pend : r'.pend = r.pend

theorem St.Open.of_settings (hs : s.Open) (hself : s'.self = s.self)
    (hrep : s.rep.SameEnds s'.rep) : s'.Open := by
  obtain ⟨⟨p, hp, hle, hpend, hpos⟩, ⟨g, hg, hgle, hend⟩, hgend⟩ := hs
  refine ⟨⟨p, ?_, hle, ?_, ?_⟩, ⟨g, ?_, hgle, ?_⟩, ?_⟩
  · rw [hself, hp]
  · rw [hrep.pend, hpend]
  · rwa [hrep.pend]
  · rw [hself, hg]
  · rwa [hrep.gend]
  · rwa [hrep.gend]

/-- What a call hands over comes behind what it found. -/
structure Passed (cs : List UInt8) (s s' : St UInt8) : Prop where
  isOpen : s'.Open
  stored : s'.self.stored = s.self.stored ++ cs
  sent : s'.wire ++ s'.self.pending = s.wire ++ s.self.pending ++ cs

theorem Passed.of_wrote {cs : List UInt8} (hs : s.Open) (h : Wrote cs s s') : Passed cs s s' := by
  have hget : s'.GetOpen := by
    obtain ⟨g, hg, hle, hend⟩ := hs.getOpen
    exact ⟨g, h.get.trans hg, hle, by rw [h.rep]; exact hend⟩
  exact ⟨⟨h.putOpen, hget, by rw [h.rep]; exact hs.gend⟩, h.stored, h.sent⟩

theorem Passed.of_settings (hs : s.Open) {rep : Sockcnt} (hrep : s.rep.SameEnds rep) :
    Passed [] s { s with rep := rep } :=
  ⟨hs.of_settings rfl hrep, (List.append_nil _).symm, (List.append_nil _).symm⟩

theorem Passed.of_took {cs : List UInt8} (hs : s.Open) (h : Took cs s s') : Passed [] s s' := by
  have hput : s'.PutOpen := by
    obtain ⟨p, hp, hle, hpend, hpos⟩ := hs.putOpen
    exact ⟨p, h.put.trans hp, hle, by rw [h.rep]; exact hpend, by rw [h.rep]; exact hpos⟩
  have hpending : s'.self.pending = s.self.pending := by
    unfold Streambuf.pending
    rw [h.put]
  refine ⟨⟨hput, h.getOpen, by rw [h.rep]; exact hs.gend⟩, ?_, ?_⟩
  · rw [h.stored, List.append_nil]
  · rw [h.wire, hpending, List.append_nil]

/-- While the kernel has data, a `::read` that returns brings some. -/
theorem read_hasData {len : Nat} (hlen : 0 < len) (hdata : K.HasData s.sys.history) :
    wp (read K len) (fun bs _ => bs ≠ []) (fun _ _ => True) s := by
  unfold read
  rw [wp_bind]
  refine (awaitReadready_spec K _ s).mono ?_ (fun _ _ _ => trivial)
  intro _ s1 h1
  have hinputs : s1.inputs = s.inputs := by rw [h1.inputs, List.append_nil]
  obtain ⟨bs, hbs, hne⟩ := hdata s1.sys.history hinputs len hlen
  obtain ⟨s2, hs2, -⟩ := input_ok hbs
  rw [wp_bind_of_ok hs2]
  exact hne

theorem underflow_hasData (hs : s.Open) (hdata : K.HasData s.sys.history) :
    wp (underflow K) (fun r _ => r ≠ eof) (fun _ _ => True) s := by
  cases hunread : s.self.unread with
  | cons c cs =>
    rw [wp_iff_of_ok (underflow_of_unread K hunread)]
    exact toInt_ne_eof c
  | nil =>
    obtain ⟨g, hget, -, -⟩ := hs.getOpen
    have hroom : 0 < s.rep.gend * CharType.sizeof UInt8 := Nat.mul_pos hs.gend CharType.sizeof_pos
    have hread := read_hasData hroom hdata
    refine (underflow_read K hget ((unread_nil_iff hget).mp hunread) hread).mono ?_ (fun _ _ h => h)
    intro r s' ⟨bs, s1, hne, hcase⟩
    rcases hcase with ⟨hnil, -, -⟩ | ⟨-, hr, -⟩
    · exact absurd hnil hne
    · rw [hr]
      exact toInt_ne_eof _

theorem uflow_hasData (hs : s.Open) (hdata : K.HasData s.sys.history) :
    wp (uflow K) (fun r _ => r ≠ eof) (fun _ _ => True) s := by
  unfold uflow
  rw [wp_bind]
  refine (underflow_hasData hs hdata).mono ?_ (fun _ _ h => h)
  intro r s1 hr
  rw [if_neg hr, wp_bind]
  unfold gbump
  rw [wp_modify]
  exact hr

theorem sbumpc_hasData (hs : s.Open) (hdata : K.HasData s.sys.history) :
    wp (sbumpc K) (fun r _ => r ≠ eof) (fun _ _ => True) s := by
  obtain ⟨g, hget, -, -⟩ := hs.getOpen
  rw [wp_congr (sbumpc_of_get K hget)]
  by_cases hlt : g.gptr < g.egptr
  · rw [if_pos hlt, wp_bind]
    unfold gbump
    rw [wp_modify]
    exact toInt_ne_eof _
  · rw [if_neg hlt]
    exact uflow_hasData hs hdata

/-- One round of `xsgetn` with bytes unread copies at least one. -/
theorem xsgetnRec_pos (fuel : Nat) {n : Nat} (hn : 0 < n) (hsome : s.self.unread ≠ []) :
    wp (xsgetnRec K fuel n) (fun r _ => 0 < r) (fun _ _ => True) s := by
  have hpos := List.length_pos_iff.mpr hsome
  cases fuel with
  | zero => trivial
  | succ fuel =>
    by_cases hfits : n ≤ s.self.unread.length
    · rw [wp_xsgetnRec_fits hfits]
      exact wp_of_forall (fun _ _ => hn) (fun _ _ => trivial)
    · apply wp_xsgetnRec_refill hfits
      refine wp_of_forall (fun _ _ => wp_of_forall (fun c s2 => ?_) (fun _ _ => trivial))
        (fun _ _ => trivial)
      by_cases heof : c = eof
      · rw [if_pos heof]
        exact hpos
      · rw [if_neg heof]
        exact wp_of_forall (fun rest _ => Nat.add_pos_left hpos rest) (fun _ _ => trivial)

theorem xsgetn_hasData (hs : s.Open) (hdata : K.HasData s.sys.history) {n : Nat} (hn : 0 < n) :
    wp (xsgetn K n) (fun r _ => 0 < r) (fun _ _ => True) s := by
  cases hunread : s.self.unread with
  | cons c cs =>
    exact xsgetnRec_pos _ hn (by rw [hunread]; exact List.cons_ne_nil _ _)
  | nil =>
    have hnone : ¬ n ≤ s.self.unread.length := by
      rw [hunread, List.length_nil]
      omega
    -- the first round copies nothing, the second has what `underflow` found
    unfold xsgetn
    apply wp_xsgetnRec_refill hnone
    rw [hunread, List.length_nil, wp_iff_of_ok takeChars_zero]
    refine ((underflow_hasData hs hdata).and (underflow_spec K hs.getOpen)).mono ?_
      (fun _ _ _ => trivial)
    intro c s1 ⟨hne, _, _, hc, _⟩
    rw [if_neg hne]
    have hsome : s1.self.unread ≠ [] := fun hnil => hne (hc.trans (peek_eq_eof.mpr hnil))
    refine (xsgetnRec_pos (n + 1) (by omega) hsome).mono ?_ (fun _ _ _ => trivial)
    intro rest s2 hrest
    show 0 < 0 + rest
    omega

theorem took_of_byte {r : Int} (h : r = eof ∧ Took [] s s' ∧ MetEnd s s' ∨
    ∃ c : UInt8, r = c.toNat ∧ Took [c] s s') : ∃ cs, Took cs s s' := by
  rcases h with ⟨_, h, _⟩ | ⟨_, _, h⟩
  · exact ⟨_, h⟩
  · exact ⟨_, h⟩

/-- What a call of an open object guarantees if it returns. -/
def Call.Good (K : Kernel) (s : St UInt8) (c : Call) (r : Int) (s' : St UInt8) : Prop :=
  Passed c.input s s' ∧ (c = .sync → s'.self.pending = []) ∧
    (c.reads → K.HasData s.sys.history → ¬ c.saysEof r)

theorem Call.good_of_took {c : Call} (hs : s.Open) (hsync : c ≠ .sync) (hinput : c.input = [])
    (htook : wp (c.run K) (fun _ s' => ∃ cs, Took cs s s') (fun _ s' => ∃ cs, Took cs s s') s)
    (hdata : c.reads → K.HasData s.sys.history →
      wp (c.run K) (fun r _ => ¬ c.saysEof r) (fun _ _ => True) s) :
    wp (c.run K) (c.Good K s) (fun _ s' => ∃ part, Passed part s s') s := by
  have hthrow : ∀ s', (∃ cs, Took cs s s') → ∃ part, Passed part s s' :=
    fun s' ⟨_, h⟩ => ⟨[], .of_took hs h⟩
  have hpassed : ∀ s', (∃ cs, Took cs s s') → Passed c.input s s' := by
    intro s' ⟨_, h⟩
    rw [hinput]
    exact .of_took hs h
  by_cases hsome : c.reads ∧ K.HasData s.sys.history
  · refine (htook.and (hdata hsome.1 hsome.2)).mono ?_ (fun _ s' h => hthrow s' h.1)
    intro r s' ⟨h, hr⟩
    exact ⟨hpassed s' h, fun h => absurd h hsync, fun _ _ => hr⟩
  · refine htook.mono ?_ (fun _ s' h => hthrow s' h)
    intro r s' h
    exact ⟨hpassed s' h, fun h => absurd h hsync, fun hreads hd => absurd ⟨hreads, hd⟩ hsome⟩

theorem Call.good_of_settings {c : Call} {r : Int} (hs : s.Open) {rep : Sockcnt}
    (hrep : s.rep.SameEnds rep) (hinput : c.input = []) (hsync : c ≠ .sync) (hreads : ¬ c.reads) :
    c.Good K s r { s with rep := rep } := by
  refine ⟨?_, fun h => absurd h hsync, fun h => absurd h hreads⟩
  rw [hinput]
  exact .of_settings hs hrep

/-- The original keeps its areas, hands over what it is given, and finds data if there is some. -/
theorem Call.run_spec (K : Kernel) (c : Call) (hs : s.Open) :
    wp (c.run K) (c.Good K s) (fun _ s' => ∃ part, Passed part s s') s := by
  have hthrow : ∀ (e : Exc) s', (e.IsSockerr ∧ ∃ p, p <+: c.input ∧ Wrote p s s') →
      ∃ part, Passed part s s' := fun e s' ⟨_, p, _, h⟩ => ⟨p, .of_wrote hs h⟩
  cases c with
  | sputc b =>
    refine (Hands.sputc K b s hs.putOpen).mono ?_ hthrow
    intro r s' h
    refine ⟨.of_wrote hs h, ?_, fun hreads => False.elim hreads⟩
    intro hsync
    cases hsync
  | xsputn bytes =>
    refine wp_map.mpr ((Hands.xsputn K bytes s hs.putOpen).mono ?_ hthrow)
    intro r s' h
    refine ⟨.of_wrote hs h, ?_, fun hreads => False.elim hreads⟩
    intro hsync
    cases hsync
  | sync =>
    refine (sync_spec K hs.putOpen).mono ?_ (fun e s' h => ⟨[], .of_wrote hs h.2⟩)
    intro r s' ⟨_, h, hempty⟩
    exact ⟨.of_wrote hs h, fun _ => hempty, fun hreads => False.elim hreads⟩
  | underflow =>
    refine good_of_took hs Call.noConfusion rfl ?_ (fun _ hdata => underflow_hasData hs hdata)
    exact (underflow_spec K hs.getOpen).mono (fun _ _ h => ⟨_, h.1⟩) (fun _ _ h => ⟨_, h.2.1⟩)
  | uflow =>
    refine good_of_took hs Call.noConfusion rfl ?_ (fun _ hdata => uflow_hasData hs hdata)
    exact (uflow_spec K hs.getOpen).mono (fun _ _ h => took_of_byte h.2) (fun _ _ h => ⟨_, h.2.1⟩)
  | sbumpc =>
    refine good_of_took hs Call.noConfusion rfl ?_ (fun _ hdata => sbumpc_hasData hs hdata)
    exact (sbumpc_spec K hs.getOpen).mono (fun _ _ h => took_of_byte h.2) (fun _ _ h => ⟨_, h.2.1⟩)
  | xsgetn n =>
    refine good_of_took hs Call.noConfusion rfl ?_ (fun hn hdata => ?_)
    · refine wp_map.mpr ((xsgetn_spec K n hs.getOpen).mono ?_ ?_)
      · intro r s' ⟨cs, h, _⟩
        exact ⟨cs, h⟩
      · intro e s' ⟨_, cs, h, _⟩
        exact ⟨cs, h⟩
    · refine wp_map.mpr ((xsgetn_hasData hs hdata hn).mono ?_ (fun _ _ h => h))
      intro r s' hr hzero
      have hnat : r = 0 := Int.ofNat.inj hzero
      omega
  | sendtimeout wp => exact good_of_settings hs ⟨rfl, rfl⟩ rfl Call.noConfusion id
  | recvtimeout wp => exact good_of_settings hs ⟨rfl, rfl⟩ rfl Call.noConfusion id
  | oob b => exact good_of_settings hs ⟨rfl, rfl⟩ rfl Call.noConfusion id

end Original

/-! ## A call of a copy -/

/-- A copy has no areas, so its members do nothing, and say so. Only the settings, which are in
`rep`, can be changed through it. -/
theorem run_of_shut (K : Kernel) (c : Call) {s : St UInt8} (hget : s.self.get = none)
    (hput : s.self.put = none) :
    ∃ r rep, c.run K s = .ok r { s with rep := rep } ∧ s.rep.SameEnds rep ∧
      (c.reads → c.saysEof r) := by
  have hsame : s.rep.SameEnds s.rep := ⟨rfl, rfl⟩
  cases c with
  | sputc b => exact ⟨eof, s.rep, sputc_of_shut K b hput, hsame, fun hreads => hreads.elim⟩
  | xsputn bytes =>
    have hxsputn := (xsputn_of_shut K bytes hput).1
    exact ⟨0, s.rep, map_ok hxsputn, hsame, fun hreads => hreads.elim⟩
  | sync => exact ⟨0, s.rep, sync_of_shut K hput, hsame, fun hreads => hreads.elim⟩
  | underflow => exact ⟨eof, s.rep, underflow_of_shut K hget, hsame, fun _ => rfl⟩
  | uflow => exact ⟨eof, s.rep, uflow_of_shut K hget, hsame, fun _ => rfl⟩
  | sbumpc => exact ⟨eof, s.rep, sbumpc_of_shut K hget, hsame, fun _ => rfl⟩
  | xsgetn n =>
    have hxsgetn := (xsgetn_of_shut K n hget).1
    exact ⟨0, s.rep, map_ok hxsgetn, hsame, fun _ => rfl⟩
  | sendtimeout wp => exact ⟨_, _, rfl, ⟨rfl, rfl⟩, fun hreads => hreads.elim⟩
  | recvtimeout wp => exact ⟨_, _, rfl, ⟨rfl, rfl⟩, fun hreads => hreads.elim⟩
  | oob b => exact ⟨_, _, rfl, ⟨rfl, rfl⟩, fun hreads => hreads.elim⟩

/-! ## The invariant

Every object but the original is dead: it has no areas, so nothing is pending in it and nothing
unread. -/

/-- An object whose callers have written nothing, and that could not take anything. -/
structure Obj.Dead (o : Obj) : Prop where
  get : o.buf.get = none
  put : o.buf.put = none
  written : o.written = []

theorem Obj.Dead.pending {o : Obj} (h : o.Dead) : o.buf.pending = [] := by
  unfold Streambuf.pending
  rw [h.put]

/-- The original is open and has handed on what was written through it, and the copies are dead. -/
structure World.Inv (w : World) (o : Obj) (copies : List Obj) : Prop where
  objs : w.objs = o :: copies
  isOpen : (w.state o).Open
  sent : w.wire ++ o.buf.pending = o.written
  dead : ∀ c ∈ copies, c.Dead

section Invariant

variable {K : Kernel} {w w' : World} {o : Obj} {copies : List Obj}

theorem World.Inv.getElem?_succ (h : w.Inv o copies) (i : Nat) : w.objs[i + 1]? = copies[i]? := by
  rw [h.objs]
  rfl

theorem World.Inv.exactlyOnce (h : w.Inv o copies) : w.ExactlyOnce := by
  have hcopies : List.Forall₂ (fun o bytes => bytes ++ o.buf.pending = o.written) copies
      (copies.map fun _ => []) := by
    rw [List.forall₂_map_right_iff, List.forall₂_same]
    intro c hc
    rw [(h.dead c hc).pending, (h.dead c hc).written]
    rfl
  refine ⟨w.wire :: copies.map fun _ => [], ?_, ?_⟩
  · rw [h.objs]
    exact .cons h.sent hcopies
  · have hnone : (copies.map fun _ => ([] : List UInt8)).flatten = [] := by
      rw [List.flatten_eq_nil_iff]
      intro l hl
      obtain ⟨_, _, rfl⟩ := List.mem_map.mp hl
      rfl
    rw [List.flatten_cons, hnone, List.append_nil]

theorem exists_of_forall₂ {α β : Type} {R : α → β → Prop} {xs : List α} {ys : List β}
    (h : List.Forall₂ R xs ys) {x : α} (hx : x ∈ xs) : ∃ y ∈ ys, R x y := by
  obtain ⟨i, rfl⟩ := List.mem_iff_get.mp hx
  have hlt : i < ys.length := by
    rw [← h.length_eq]
    exact i.isLt
  exact ⟨ys.get ⟨i, hlt⟩, List.get_mem _ _, h.get i.isLt hlt⟩

/-- Bytes written through a copy are on the wire not even once. -/
theorem World.Inv.not_exactlyOnce (h : w.Inv o copies) {i : Nat} {c : Obj}
    (hi : copies[i]? = some c) {bytes : List UInt8} (hne : bytes ≠ []) (hwire : w'.wire = w.wire)
    (hobjs : w'.objs = w.objs.set (i + 1) ⟨c.buf, c.written ++ bytes⟩) : ¬ w'.ExactlyOnce := by
  intro ⟨flushed, hflushed, hperm⟩
  have hdead := h.dead c (List.mem_of_getElem? hi)
  rw [hobjs, h.objs, List.set_cons_succ] at hflushed
  obtain ⟨first, rest, hfirst, hrest, rfl⟩ := List.forall₂_cons_left_iff.mp hflushed
  -- the original has all of the wire
  have hall : first = w.wire := List.append_cancel_right (hfirst.trans h.sent.symm)
  obtain ⟨hlt, -⟩ := List.getElem?_eq_some_iff.mp hi
  have hmem : ⟨c.buf, c.written ++ bytes⟩ ∈ copies.set i ⟨c.buf, c.written ++ bytes⟩ :=
    List.mem_set hlt _
  obtain ⟨l, hl, hlbytes⟩ := exists_of_forall₂ hrest hmem
  have hlbytes : l = bytes := by
    simpa only [hdead.pending, hdead.written, List.append_nil, List.nil_append] using hlbytes
  have hlen := hperm.length_eq
  have hle := (List.sublist_flatten_of_mem hl).length_le
  have hpos := List.length_pos_iff.mpr hne
  rw [List.flatten_cons, List.length_append, hall, hwire] at hlen
  rw [hlbytes] at hle
  omega

theorem World.Inv.of_settings (h : w.Inv o copies) {rep : Sockcnt} (hrep : w.rep.SameEnds rep) :
    World.Inv { w with rep := rep } o copies :=
  ⟨h.objs, h.isOpen.of_settings rfl hrep, h.sent, h.dead⟩

/-- A copy is one more dead object. -/
theorem inv_copy (h : w.Inv o copies) (i : Nat) :
    wp (World.copy i) (fun _ w' => ∃ copies', w'.Inv o copies') (fun _ _ => False) w := by
  unfold wp World.copy
  cases w.objs[i]? with
  | none => exact ⟨copies, h⟩
  | some _ =>
    have hopen : ({ w.state o with rep := { w.rep with cnt := w.rep.cnt + 1 } } : St UInt8).Open :=
      h.isOpen.of_settings rfl ⟨rfl, rfl⟩
    refine ⟨copies ++ [⟨.blank, []⟩], ?_, hopen, h.sent, ?_⟩
    · show w.objs ++ [_] = _
      rw [h.objs]
      rfl
    · intro c hc
      rcases List.mem_append.mp hc with hc | hc
      · exact h.dead c hc
      · rw [List.mem_singleton.mp hc]
        exact ⟨rfl, rfl, rfl⟩

/-- A call of the original keeps the invariant, and does what its caller expects. -/
theorem inv_call_original (h : w.Inv o copies) (c : Call) :
    wp (World.call K 0 c) (fun r w' => (∃ o', w'.Inv o' copies) ∧ c.Returned K w 0 r w')
      (fun _ w' => ∃ o', w'.Inv o' copies) w := by
  have hobj : w.objs[0]? = some o := by
    rw [h.objs]
    rfl
  -- what was written behind what was sent
  have hinv : ∀ {part : List UInt8} {s : St UInt8}, Passed part (w.state o) s →
      World.Inv ⟨s.rep, w.objs.set 0 ⟨s.self, o.written ++ part⟩, s.sys⟩ ⟨s.self, o.written ++ part⟩
        copies := by
    intro part s hs
    refine ⟨?_, hs.isOpen, ?_, h.dead⟩
    · show w.objs.set 0 _ = _
      rw [h.objs]
      rfl
    · show s.wire ++ s.self.pending = o.written ++ part
      rw [hs.sent, ← h.sent]
      rfl
  have hspec := c.run_spec K h.isOpen
  cases hrun : c.run K (w.state o) with
  | ok r s =>
    -- all the input counts as written
    obtain ⟨hs, hempty, hdata⟩ := hspec.of_ok hrun
    have hcall : World.call K 0 c w
        = .ok r ⟨s.rep, w.objs.set 0 ⟨s.self, o.written ++ c.input⟩, s.sys⟩ := by
      rw [World.call_of_some hobj, hrun]
    rw [wp_iff_of_ok hcall]
    refine ⟨⟨_, hinv hs⟩, ?_, fun hreads _ _ => hdata hreads⟩
    intro hsync o' ho'
    rw [(hinv hs).objs] at ho'
    cases ho'
    exact hempty hsync
  | error e s =>
    obtain ⟨part, hs⟩ := hspec.of_error hrun
    -- what was stored before the exception counts as written
    have hpart : s.self.stored.drop o.buf.stored.length = part := by
      rw [hs.stored]
      exact List.drop_left
    have hcall : World.call K 0 c w
        = .error e ⟨s.rep, w.objs.set 0 ⟨s.self, o.written ++ part⟩, s.sys⟩ := by
      rw [World.call_of_some hobj, hrun, ← hpart]
    exact (wp_iff_of_error hcall).mpr ⟨_, hinv hs⟩

/-- A call of a copy changes nothing but settings and the account of what its caller has
written. -/
theorem call_copy (h : w.Inv o copies) {i : Nat} {d : Obj} (hi : copies[i]? = some d) (c : Call) :
    ∃ r rep, World.call K (i + 1) c w
        = .ok r ⟨rep, w.objs.set (i + 1) ⟨d.buf, d.written ++ c.input⟩, w.sys⟩ ∧
      w.rep.SameEnds rep ∧ (c.reads → c.saysEof r) := by
  have hdead := h.dead d (List.mem_of_getElem? hi)
  have hobj : w.objs[i + 1]? = some d := (h.getElem?_succ i).trans hi
  obtain ⟨r, rep, hrun, hrep, hr⟩ := run_of_shut K c (s := w.state d) hdead.get hdead.put
  refine ⟨r, rep, ?_, hrep, hr⟩
  rw [World.call_of_some hobj, hrun]
  rfl

/-- A call behind the original that hands nothing to a copy changes only settings. -/
theorem call_quiet (h : w.Inv o copies) {i : Nat} {c : Call}
    (hquiet : ∀ d, w.objs[i + 1]? = some d → c.input = []) :
    ∃ r rep, World.call K (i + 1) c w = .ok r { w with rep := rep } ∧ w.rep.SameEnds rep ∧
      ∀ d, w.objs[i + 1]? = some d → c.reads → c.saysEof r := by
  cases hobj : w.objs[i + 1]? with
  | none =>
    refine ⟨0, w.rep, World.call_of_none hobj, ⟨rfl, rfl⟩, ?_⟩
    intro d hd
    cases hd
  | some d =>
    have hi : copies[i]? = some d := (h.getElem?_succ i).symm.trans hobj
    obtain ⟨r, rep, hcall, hrep, hr⟩ := call_copy (K := K) h hi c
    refine ⟨r, rep, ?_, hrep, fun _ _ => hr⟩
    obtain ⟨hlt, hget⟩ := List.getElem?_eq_some_iff.mp hobj
    have hsame : w.objs.set (i + 1) ⟨d.buf, d.written ++ c.input⟩ = w.objs := by
      rw [hquiet d hobj, List.append_nil, ← hget]
      exact List.set_getElem_self hlt
    rw [hcall, hsame]

end Invariant

/-! ## The result -/

section Result

variable {K : Kernel} {w : World} {o : Obj} {copies : List Obj}

/-- There is an original, open, and the other objects are dead copies. -/
def World.Sound (w : World) : Prop := ∃ o copies, w.Inv o copies

/-- What goes through the original keeps the invariant. -/
theorem sound_step (hw : w.Sound) {a : Action} (hthrough : ThroughOriginal K a w) :
    wp (a.run K) (fun _ => World.Sound) (fun _ => World.Sound) w := by
  obtain ⟨o, copies, h⟩ := hw
  cases a with
  | copy i =>
    refine (inv_copy h i).mono ?_ (fun _ _ hf => hf.elim)
    intro r w' ⟨copies', h'⟩
    exact ⟨o, copies', h'⟩
  | call i c =>
    cases i with
    | zero =>
      refine (inv_call_original h c).mono ?_ ?_
      · intro r w' ⟨⟨o', h'⟩, _⟩
        exact ⟨o', copies, h'⟩
      · intro e w' ⟨o', h'⟩
        exact ⟨o', copies, h'⟩
    | succ i =>
      have hquiet : ∀ d, w.objs[i + 1]? = some d → c.input = [] := by
        intro d hd
        rcases hthrough d hd with hzero | ⟨hinput, -⟩
        · cases hzero
        · exact hinput
      obtain ⟨r, rep, hcall, hrep, -⟩ := call_quiet (K := K) h hquiet
      exact (wp_iff_of_ok (c := World.call K (i + 1) c) hcall).mpr ⟨o, copies, h.of_settings hrep⟩

/-- A call of a copy works exactly if it hands nothing over and, while there is data, does not
read. -/
theorem works_copy_iff (h : w.Inv o copies) (i : Nat) (c : Call) :
    Works K (.call (i + 1) c) w ↔ ThroughOriginal K (.call (i + 1) c) w := by
  have hobj := h.getElem?_succ i
  by_cases hquiet : ∀ d, w.objs[i + 1]? = some d → c.input = []
  · -- no byte moves, so only the answer to a read can be wrong
    obtain ⟨r, rep, hcall, hrep, hr⟩ := call_quiet (K := K) h hquiet
    have hworks : Works K (.call (i + 1) c) w ↔ World.ExactlyOnce { w with rep := rep } ∧
        c.Returned K w (i + 1) r { w with rep := rep } :=
      wp_iff_of_ok (c := World.call K (i + 1) c) hcall
    rw [hworks]
    constructor
    · intro ⟨_, _, hread⟩ d hd
      exact .inr ⟨hquiet d hd, fun hreads hdata => hread hreads d hd hdata (hr d hd hreads)⟩
    · intro hthrough
      refine ⟨(h.of_settings hrep).exactlyOnce, ?_, ?_⟩
      · intro _ d hd
        exact (h.dead d (List.mem_of_getElem? (hobj.symm.trans hd))).pending
      · intro hreads d hd hdata
        rcases hthrough d hd with hzero | ⟨-, hno⟩
        · cases hzero
        · exact absurd hdata (hno hreads)
  · -- the bytes are lost
    simp only [not_forall] at hquiet
    obtain ⟨d, hd, hinput⟩ := hquiet
    have hi : copies[i]? = some d := hobj.symm.trans hd
    obtain ⟨r, rep, hcall, -⟩ := call_copy (K := K) h hi c
    refine iff_of_false ?_ ?_
    · intro hworks
      obtain ⟨hafter, -⟩ := hworks.of_ok hcall
      refine h.not_exactlyOnce hi hinput ?_ ?_ hafter
      · rfl
      · rfl
    · intro hthrough
      rcases hthrough d hd with hzero | ⟨hnil, -⟩
      · cases hzero
      · exact hinput hnil

/-- Under the invariant, a step works exactly if it goes through the original. -/
theorem works_iff (hw : w.Sound) (a : Action) : Works K a w ↔ ThroughOriginal K a w := by
  obtain ⟨o, copies, h⟩ := hw
  cases a with
  | copy i =>
    refine iff_of_true ?_ trivial
    refine (inv_copy h i).mono ?_ (fun _ _ hf => hf.elim)
    intro r w' ⟨_, h'⟩
    exact ⟨h'.exactlyOnce, trivial⟩
  | call i c =>
    cases i with
    | zero =>
      refine iff_of_true ?_ (fun _ _ => .inl rfl)
      refine (inv_call_original h c).mono ?_ ?_
      · intro r w' ⟨⟨o', h'⟩, hr⟩
        exact ⟨h'.exactlyOnce, hr⟩
      · intro e w' ⟨o', h'⟩
        exact h'.exactlyOnce
    | succ i => exact works_copy_iff h i c

end Result

/-- **When copies of a sockbuf work.** In a run over a sockbuf and its copies, every step does what
its caller expects exactly if every step that hands bytes over, and every read while there is data,
goes through the original. -/
theorem copies_work_iff (P : Platform) (K : Kernel) (sock : Int) (gbuf pbuf : Nat → UInt8)
    (errno : Errno) (acts : List Action) :
    StepsMeet (Action.run K) (Works K) acts (World.fresh P sock gbuf pbuf errno) ↔
      StepsMeet (Action.run K) (ThroughOriginal K) acts (World.fresh P sock gbuf pbuf errno) := by
  have hstart : (World.fresh P sock gbuf pbuf errno).Sound := by
    refine ⟨⟨.init P gbuf pbuf, []⟩, [], rfl, ?_, rfl, ?_⟩
    · have hput := putOpen_fresh P sock gbuf pbuf errno
      have hget := getOpen_fresh P sock gbuf pbuf errno
      exact ⟨hput, hget, P.BUFSIZ_pos⟩
    · intro c hc
      cases hc
  refine stepsMeet_iff (I := World.Sound) (fun a w hw => works_iff hw a) ?_ acts hstart
  intro a w hw hthrough
  exact sound_step hw hthrough

/-- A run over a new sockbuf on a socket whose peer takes everything and has sent one byte. -/
def runCopies (acts : List Action) : List (Except Exc Int) × World :=
  runAll (acts.map (Action.run (Transport.upTo [7] 0).toKernel))
    (.fresh ⟨2, by decide⟩ 3 (fun _ => 0) (fun _ => 0) 0)

/-- A byte written through a copy is gone after a `sync` without error, and a read through a copy
reports the end of an input in which the original finds a byte. -/
theorem copy_loses_byte :
    ((runCopies [.copy 0, .call 1 (.xsputn [65]), .call 1 .sync]).1 = [.ok 0, .ok 0, .ok 0] ∧
      (runCopies [.copy 0, .call 1 (.xsputn [65]), .call 1 .sync]).2.wire = [] ∧
      ¬ (runCopies [.copy 0, .call 1 (.xsputn [65]), .call 1 .sync]).2.ExactlyOnce) ∧
      (runCopies [.copy 0, .call 1 .underflow, .call 0 .underflow]).1
        = [.ok 0, .ok eof, .ok 7] := by
  have hwire : (runCopies [.copy 0, .call 1 (.xsputn [65]), .call 1 .sync]).2.wire = [] := by
    decide +kernel
  have hobjs : (runCopies [.copy 0, .call 1 (.xsputn [65]), .call 1 .sync]).2.objs.map
      (fun o => (o.buf.pending, o.written)) = [([], []), ([], [65])] := by decide +kernel
  refine ⟨⟨by decide +kernel, hwire, ?_⟩, by decide +kernel⟩
  intro ⟨flushed, hflushed, hperm⟩
  have hmem : ([], [65]) ∈ (runCopies [.copy 0, .call 1 (.xsputn [65]), .call 1 .sync]).2.objs.map
      (fun o => (o.buf.pending, o.written)) := by
    rw [hobjs]
    exact .tail _ (.head _)
  obtain ⟨o, ho, hpair⟩ := List.mem_map.mp hmem
  obtain ⟨hpending, hwritten⟩ := Prod.mk.inj hpair
  obtain ⟨l, hl, hlo⟩ := exists_of_forall₂ hflushed ho
  rw [hwire] at hperm
  have hnil : l = [] := List.flatten_eq_nil_iff.mp hperm.nil_eq.symm l hl
  rw [hnil, hpending, hwritten] at hlo
  cases hlo

end Sockstream
