import SocketPlusPlus.Logic.Sharing
import SocketPlusPlus.Sockbuf.Copy
import SocketPlusPlus.Sockbuf.Frame

/-!
# The lifetime of a descriptor

A sockbuf and its copies share one `rep`, whose `cnt` says how many they are. The destructor first
flushes the put area (`overflow(eof)`), then lowers `cnt`, and the last owner closes the descriptor
and deletes the `rep`.

The flush may throw. The exception leaves the destructor before `cnt` is lowered, so that the object
is gone and still counted: the `rep` is never deleted and the descriptor never closed. The result
says that this is the only way in which the count can go wrong.
-/

namespace Sockstream

open Exec Memory Sharing

/-! ## The destructor

The last owner of a descriptor closes it. `~sockbuf()` flushes first, so an exception of the flush
comes before the count goes down. -/

/-- `~basic_sockbuf()` up to the count: `overflow(eof)`, then `--rep->cnt == 0`. -/
def release (K : Kernel) : M UInt8 Bool := do
  let _ ← overflow K eof
  modify fun s => { s with rep := { s.rep with cnt := s.rep.cnt - 1 } }
  pure ((← get).rep.cnt = 0)

/-- A sockbuf object, and which `rep` it points to. -/
structure Owner where
  rep : Nat
  buf : Streambuf UInt8

/-- All objects and all `rep`s ever built, by number, with `none` for what is deleted, and the
`rep`s whose descriptor was closed, in that order. -/
structure Heap where
  reps : List (Option Sockcnt)
  objs : List (Option Owner)
  closes : List Nat
  sys : Sys

/-- The answers of the system for every descriptor. -/
structure Host where
  kernel : Int → Kernel
  close : List Event → List Nat → Int → Except Errno Unit

/-- `basic_sockbuf(const socket& sd)`: `gbuf` and `pbuf` are the arrays `new` returned. -/
def Heap.build (P : Platform) (sock : Int) (gbuf pbuf : Nat → UInt8) : EStateM Exc Heap Unit :=
  modify fun w => { w with
    reps := w.reps ++ [some (.init P sock)]
    objs := w.objs ++ [some ⟨w.reps.length, .init P gbuf pbuf⟩] }

/-- The `i`-th object and its `rep`, while both are there. -/
def Heap.owner? (w : Heap) (i : Nat) : Option (Owner × Sockcnt) := do
  let o ← w.objs[i]?.join
  let rep ← w.reps[o.rep]?.join
  pure (o, rep)

/-- `basic_sockbuf(const basic_sockbuf& sb)` for the `i`-th object. -/
def Heap.copy (i : Nat) : EStateM Exc Heap Unit := modify fun w =>
  match w.owner? i with
  | none => w
  | some (o, rep) =>
    { w with
      reps := w.reps.set o.rep (some { rep with cnt := rep.cnt + 1 })
      objs := w.objs ++ [some ⟨o.rep, .blank⟩] }

/-- The heap after the `i`-th object and its `rep` have changed. -/
def Heap.store (w : Heap) (i r : Nat) (s : St UInt8) : Heap :=
  { w with
    reps := w.reps.set r (some s.rep), objs := w.objs.set i (some ⟨r, s.self⟩), sys := s.sys }

/-- The heap after the `i`-th object is gone and its `rep` has become `rep`. -/
def Heap.discard (w : Heap) (i r : Nat) (rep : Option Sockcnt) (sys : Sys) : Heap :=
  { w with reps := w.reps.set r rep, objs := w.objs.set i none, sys := sys }

/-- A call of the `i`-th object. -/
def Heap.call (H : Host) (i : Nat) (c : Call) : EStateM Exc Heap Unit := fun w =>
  match w.owner? i with
  | none => .ok () w
  | some (o, rep) =>
    match c.run (H.kernel rep.sock) ⟨rep, o.buf, w.sys⟩ with
    | .ok _ s => .ok () (w.store i o.rep s)
    | .error e s => .error e (w.store i o.rep s)

/-- `~basic_sockbuf()` of the `i`-th object. However it ends, the object is gone. -/
def Heap.destroy (H : Host) (i : Nat) : EStateM Exc Heap Unit := fun w =>
  match w.owner? i with
  | none => .ok () w
  | some (o, rep) =>
    match release (H.kernel rep.sock) ⟨rep, o.buf, w.sys⟩ with
    | .error e s => .error e (w.discard i o.rep (some s.rep) s.sys)
    | .ok false s => .ok () (w.discard i o.rep (some s.rep) s.sys)
    | .ok true s =>
      -- `close(rep->sock)`, and `delete rep` whatever it returned
      let w' := { w.discard i o.rep none s.sys with closes := w.closes ++ [o.rep] }
      match H.close s.sys.history w.closes s.rep.sock with
      | .ok () => .ok () w'
      | .error e =>
        .error (.sockerr (.ofSpecification e "sockbuf::~sockbuf" o.buf.sockname))
          { w' with sys := { s.sys with errno := e } }

/-- What a program can do with sockbufs. -/
inductive Life where
  | build (sock : Int) (gbuf pbuf : Nat → UInt8)
  | copy (i : Nat)
  | call (i : Nat) (c : Call)
  | destroy (i : Nat)

def Life.run (P : Platform) (H : Host) : Life → EStateM Exc Heap Unit
  | .build sock gbuf pbuf => Heap.build P sock gbuf pbuf
  | .copy i => Heap.copy i
  | .call i c => Heap.call H i c
  | .destroy i => Heap.destroy H i

def Heap.empty (errno : Errno) : Heap := ⟨[], [], [], ⟨[], errno⟩⟩

/-! ## What is expected of the count

As many owners as objects that were not destroyed, and a descriptor that was closed once when the
last of them was. -/

/-- How many sockbufs that live point to the `r`-th `rep`. -/
def Heap.sharers (w : Heap) (r : Nat) : Nat := (w.objs.map (Option.map Owner.rep)).count (some r)

/-- Every count is the number of owners, no owner has its descriptor closed, and the descriptor of
a `rep` without owners has been closed once. -/
structure Heap.Accounted (w : Heap) : Prop where
  cnt : ∀ r rep, w.reps[r]? = some (some rep) → rep.cnt = (w.sharers r : Int)
  held : ∀ r, 0 < w.sharers r → w.closes.count r = 0
  closed : ∀ r, r < w.reps.length → w.sharers r = 0 → w.closes.count r = 1

/-- The kernel takes all of `buf`, in as many calls of `::write` as it likes. -/
inductive Kernel.Takes (K : Kernel) : List Event → List UInt8 → Prop where
  | nil (history : List Event) : Takes K history []
  | cons {history : List Event} {buf : List UInt8} {k : Accepted buf.length}
      (hout : K.output history .write buf = .ok k)
      (hrest : Takes K (history ++ [.output .write buf (.ok k)]) (buf.drop k)) : Takes K history buf

/-- What is pending can go out now: the descriptor is writable in time, if a time is set, and the
kernel takes all of it. -/
def St.CanFlush (K : Kernel) (s : St UInt8) : Prop :=
  ∀ p, s.self.put = some p → 0 < p.pptr → p.pptr ≤ p.epptr →
    s.rep.stmo = -1 ∧ K.Takes s.sys.history (slice p.mem 0 p.pptr) ∨
    s.rep.stmo ≠ -1 ∧ K.writeready s.sys.history s.rep.stmo = .ok true ∧
      K.Takes (s.sys.history ++ [.writeready s.rep.stmo (.ok true)]) (slice p.mem 0 p.pptr)

/-- An object is destroyed only while what is pending in it can go out. -/
def FlushesFirst (H : Host) : Life → Heap → Prop
  | .destroy i, w => ∀ o rep, w.owner? i = some (o, rep) →
      St.CanFlush (H.kernel rep.sock) ⟨rep, o.buf, w.sys⟩
  | _, _ => True

/-! ## When a flush goes through

A flush throws if the socket does not become writable in time, or if the kernel refuses or cuts a
write. Whether it does is decided before the call by the put area and the kernel's answers. -/

section Flush

variable {K : Kernel} {history : List Event} {buf : List UInt8} {s : St UInt8}

theorem Kernel.takes_of_ok {k : Accepted buf.length} (hout : K.output history .write buf = .ok k) :
    K.Takes history buf ↔ K.Takes (history ++ [.output .write buf (.ok k)]) (buf.drop k) := by
  constructor
  · intro h
    cases h with
    | nil => exact absurd k.2 (by simp; omega)
    | cons hout' hrest =>
      cases hout.symm.trans hout'
      exact hrest
  · exact fun h => .cons hout h

theorem Kernel.not_takes_of_error {e : Errno} (hne : buf ≠ [])
    (hout : K.output history .write buf = .error e) : ¬ K.Takes history buf := by
  intro h
  cases h with
  | nil => exact hne rfl
  | cons hout' _ => cases hout.symm.trans hout'

theorem byteAt_narrow (m : Nat → UInt8) : byteAt m = m := by
  funext b
  show m (b / 1) = m b
  rw [Nat.div_one]

/-- The loop of `write` returns exactly if the kernel takes all it is given. Induction on the bytes
still to go. -/
theorem outputLoop_takes (pbuf : Nat → UInt8) (wlen len : Nat) (s : St UInt8) :
    wp (outputLoop K .write pbuf wlen len)
      (fun _ _ => K.Takes s.sys.history (slice pbuf wlen len))
      (fun _ _ => ¬ K.Takes s.sys.history (slice pbuf wlen len)) s := by
  induction len using Nat.strongRecOn generalizing wlen s with
  | _ len ih =>
    rw [outputLoop]
    by_cases hlen : len = 0
    · subst hlen
      exact .nil _
    rw [if_neg hlen, wp_bind]
    unfold wp output
    cases hout : K.output s.sys.history .write (slice pbuf wlen len) with
    | ok k =>
      have hk : 0 < k.1 ∧ k.1 ≤ len := by simpa using k.2
      rw [Kernel.takes_of_ok hout, drop_slice _ _ hk.2]
      exact ih (len - k) (by omega) (wlen + k) _
    | error e =>
      refine Kernel.not_takes_of_error ?_ hout
      intro hnil
      have := congrArg List.length hnil
      simp at this
      omega

theorem syncCatch_throws (p : PutArea UInt8) (e : Exc) (s : St UInt8) :
    wp (syncCatch p e) (fun _ _ => False) (fun _ _ => True) s := by
  cases e with
  | count wlen =>
    unfold syncCatch
    rw [wp_bind, wp_get]
    by_cases hwlen : wlen ≠ 0
    · rw [if_pos hwlen]
      trivial
    · rw [if_neg hwlen]
      trivial
  | sockerr err => trivial
  | sockoob => trivial
  | outOfFuel => trivial

theorem isWriteready_of_ok {sec : Int} {ready : Bool}
    (h : K.writeready s.sys.history sec = .ok ready) :
    isWriteready K sec s
      = .ok ready { s with sys := s.sys.record (.writeready sec (.ok ready)) } := by
  simp only [isWriteready, query, h]

theorem isWriteready_of_error {sec : Int} {e : Errno}
    (h : K.writeready s.sys.history sec = .error e) :
    isWriteready K sec s = (throwErrno "sockbuf::is_writeready" : M UInt8 Bool)
      { s with sys := s.sys.fail (.writeready sec (.error e)) e } := by
  simp only [isWriteready, query, h]

/-- `write` of the put area returns exactly if what is in it can go out. -/
theorem write_canFlush {p : PutArea UInt8} (hput : s.self.put = some p)
    (hsome : 0 < p.pptr ∧ p.pptr ≤ p.epptr) :
    wp (write K (byteAt p.mem) p.pptr) (fun _ _ => s.CanFlush K) (fun _ _ => ¬ s.CanFlush K) s := by
  have hiff : s.CanFlush K ↔ s.rep.stmo = -1 ∧ K.Takes s.sys.history (slice p.mem 0 p.pptr) ∨
      s.rep.stmo ≠ -1 ∧ K.writeready s.sys.history s.rep.stmo = .ok true ∧
        K.Takes (s.sys.history ++ [.writeready s.rep.stmo (.ok true)]) (slice p.mem 0 p.pptr) := by
    constructor
    · intro h
      exact h p hput hsome.1 hsome.2
    · intro h q hq _ _
      cases hput.symm.trans hq
      exact h
  rw [byteAt_narrow, hiff]
  unfold write awaitWriteready
  rw [wp_bind, wp_bind, wp_get, wp_bind]
  by_cases hstmo : s.rep.stmo ≠ -1
  · -- the descriptor has to be writable in time
    rw [if_pos hstmo]
    cases hready : K.writeready s.sys.history s.rep.stmo with
    | ok ready =>
      rw [wp_iff_of_ok (isWriteready_of_ok hready)]
      cases ready with
      | true =>
        simp only [hstmo, ne_eq, not_false_eq_true, false_and, false_or, true_and, if_true, wp_pure]
        exact outputLoop_takes p.mem 0 p.pptr _
      | false => simp [hstmo]
    | error e => simp [wp_congr (isWriteready_of_error hready), throwErrno, hstmo]
  · have hstmo' : s.rep.stmo = -1 := not_not.mp hstmo
    simp only [hstmo', ne_eq, not_true_eq_false, false_and, true_and, or_false]
    exact outputLoop_takes p.mem 0 p.pptr s

/-- The flush of the destructor returns exactly if what is pending can go out. -/
theorem flush_canFlush (s : St UInt8) :
    wp (overflow K eof) (fun _ _ => s.CanFlush K) (fun _ _ => ¬ s.CanFlush K) s := by
  cases hput : s.self.put with
  | none =>
    refine (wp_iff_of_ok (overflow_of_shut K eof hput)).mpr ?_
    intro p hp
    cases hput.symm.trans hp
  | some p =>
    rw [wp_congr (overflow_of_put K eof hput), if_pos rfl]
    unfold sync
    rw [wp_bind, wp_get]
    simp only [hput]
    by_cases hsome : 0 < p.pptr ∧ p.pptr ≤ p.epptr
    · rw [if_pos hsome, wp_bind, wp_tryCatch, wp_bind]
      refine (write_canFlush hput hsome).mono (fun _ _ h => h) ?_
      intro e s1 hno
      exact (syncCatch_throws p e s1).mono (fun _ _ h => h.elim) (fun _ _ _ => hno)
    · rw [if_neg hsome]
      intro q hq hpos hle
      cases hput.symm.trans hq
      exact absurd ⟨hpos, hle⟩ hsome

/-- The count is lowered exactly if the flush goes through. -/
theorem release_spec (s : St UInt8) :
    wp (release K)
      (fun last s' => s.CanFlush K ∧ s'.rep.cnt = s.rep.cnt - 1 ∧ last = decide (s'.rep.cnt = 0))
      (fun _ s' => ¬ s.CanFlush K ∧ s'.rep.cnt = s.rep.cnt) s := by
  unfold release
  rw [wp_bind]
  refine ((flush_canFlush s).and (within_overflow K eof s)).mono ?_ (fun _ _ h => ⟨h.1, h.2.cnt⟩)
  intro _ s1 ⟨hcan, hlater⟩
  refine ⟨hcan, ?_, rfl⟩
  show s1.rep.cnt - 1 = _
  rw [hlater.cnt]

end Flush

theorem within_call (K : Kernel) (c : Call) : Within St.Later (c.run K) := by
  cases c with
  | sputc c => exact within_sputc K c
  | xsputn bytes => exact .map (within_xsputn K bytes)
  | sync => exact within_sync K
  | underflow => exact within_underflow K
  | uflow => exact within_uflow K
  | sbumpc => exact within_sbumpc K
  | xsgetn n => exact .map (within_xsgetn K n)
  | sendtimeout wp => exact within_sendtimeout wp
  | recvtimeout wp => exact within_recvtimeout wp
  | oob b => exact .map (within_setOob b)

/-! ## The heap as a pool of counted resources

The counting itself is that of `Logic.Sharing`; what is to be shown here is that the steps of the
heap are steps of a pool. -/

/-- What the heap says about owners and counts. -/
def Heap.pool (w : Heap) : Pool where
  owners := w.objs.map (Option.map Owner.rep)
  counts := w.reps.map (Option.map Sockcnt.cnt)
  freed := w.closes

section Refinement

variable {P : Platform} {H : Host} {w : Heap} {i : Nat} {o : Owner} {rep : Sockcnt}

theorem Heap.of_owner? (h : w.owner? i = some (o, rep)) :
    w.objs[i]? = some (some o) ∧ w.reps[o.rep]? = some (some rep) := by
  obtain ⟨o', ho, h⟩ := Option.bind_eq_some_iff.mp h
  obtain ⟨rep', hrep, h⟩ := Option.bind_eq_some_iff.mp h
  cases h
  exact ⟨Option.join_eq_some_iff.mp ho, Option.join_eq_some_iff.mp hrep⟩

theorem Heap.pool_owner (h : w.owner? i = some (o, rep)) :
    w.pool.owners[i]? = some (some o.rep) := by
  show (w.objs.map (Option.map Owner.rep))[i]? = _
  rw [List.getElem?_map, (Heap.of_owner? h).1]
  rfl

theorem Heap.pool_count (h : w.owner? i = some (o, rep)) :
    w.pool.counts[o.rep]? = some (some rep.cnt) := by
  show (w.reps.map (Option.map Sockcnt.cnt))[o.rep]? = _
  rw [List.getElem?_map, (Heap.of_owner? h).2]
  rfl

theorem set_of_getElem? {α : Type} {l : List α} {j : Nat} {a : α} (h : l[j]? = some a) :
    l.set j a = l := by
  obtain ⟨hlt, rfl⟩ := List.getElem?_eq_some_iff.mp h
  exact List.set_getElem_self hlt

/-- A call changes neither owners nor counts. -/
theorem Heap.pool_store (h : w.owner? i = some (o, rep)) {s : St UInt8}
    (hcnt : s.rep.cnt = rep.cnt) : (w.store i o.rep s).pool = w.pool := by
  have howners : (w.objs.set i (some ⟨o.rep, s.self⟩)).map (Option.map Owner.rep)
      = w.objs.map (Option.map Owner.rep) := by
    have hsame := set_of_getElem? (Heap.pool_owner h)
    rw [List.map_set]
    exact hsame
  have hcounts : (w.reps.set o.rep (some s.rep)).map (Option.map Sockcnt.cnt)
      = w.reps.map (Option.map Sockcnt.cnt) := by
    rw [List.map_set]
    refine set_of_getElem? ?_
    rw [Option.map_some, hcnt]
    exact Heap.pool_count h
  unfold Heap.pool Heap.store
  rw [howners, hcounts]

theorem Heap.pool_discard (w : Heap) (i r : Nat) (rep' : Option Sockcnt) (sys : Sys) :
    (w.discard i r rep' sys).pool
      = ⟨w.pool.owners.set i none, w.pool.counts.set r (rep'.map Sockcnt.cnt), w.closes⟩ := by
  unfold Heap.pool Heap.discard
  rw [List.map_set, List.map_set]
  rfl

theorem Heap.pool_build (P : Platform) (sock : Int) (gbuf pbuf : Nat → UInt8) (w : Heap) :
    wp (Heap.build P sock gbuf pbuf) (fun _ w' => w'.pool = w.pool.build) (fun _ _ => False) w := by
  unfold Heap.build Heap.pool Pool.build
  rw [wp_modify, List.map_append, List.map_append, List.length_map]
  rfl

theorem Heap.step_copy (i : Nat) (w : Heap) :
    wp (Heap.copy i) (fun _ w' => Pool.Step w.pool w'.pool) (fun _ _ => False) w := by
  unfold Heap.copy
  rw [wp_modify]
  cases howner : w.owner? i with
  | none => exact .idle _
  | some found =>
    obtain ⟨o, rep⟩ := found
    have hpool : Heap.pool { w with
        reps := w.reps.set o.rep (some { rep with cnt := rep.cnt + 1 })
        objs := w.objs ++ [some ⟨o.rep, .blank⟩] } = w.pool.share o.rep rep.cnt := by
      unfold Heap.pool Pool.share
      rw [List.map_set, List.map_append]
      rfl
    rw [hpool]
    exact .share _ (Heap.pool_count howner)

theorem Heap.step_call (H : Host) (i : Nat) (c : Call) (w : Heap) :
    wp (Heap.call H i c) (fun _ w' => w'.pool = w.pool) (fun _ w' => w'.pool = w.pool) w := by
  unfold wp Heap.call
  cases howner : w.owner? i with
  | none => rfl
  | some found =>
    obtain ⟨o, rep⟩ := found
    have hlater := within_call (H.kernel rep.sock) c ⟨rep, o.buf, w.sys⟩
    cases hrun : c.run (H.kernel rep.sock) ⟨rep, o.buf, w.sys⟩ with
    | ok r s =>
      simp only [hrun]
      exact Heap.pool_store howner (hlater.of_ok hrun).cnt
    | error e s =>
      simp only [hrun]
      exact Heap.pool_store howner (hlater.of_error hrun).cnt

/-- A destructor whose flush goes through drops the owner. -/
theorem Heap.step_destroy (hflush : FlushesFirst H (.destroy i) w) :
    wp (Heap.destroy H i) (fun _ w' => Pool.Step w.pool w'.pool)
      (fun _ w' => Pool.Step w.pool w'.pool) w := by
  unfold wp Heap.destroy
  cases howner : w.owner? i with
  | none => exact .idle _
  | some found =>
    obtain ⟨o, rep⟩ := found
    have hdrop := Pool.Step.drop w.pool (Heap.pool_owner howner) (Heap.pool_count howner)
    have hrelease := release_spec (K := H.kernel rep.sock) ⟨rep, o.buf, w.sys⟩
    cases hrun : release (H.kernel rep.sock) ⟨rep, o.buf, w.sys⟩ with
    | error e s =>
      -- what can go out does not throw
      exact absurd (hflush o rep howner) (hrelease.of_error hrun).1
    | ok last s =>
      obtain ⟨-, hcnt, hlast⟩ := hrelease.of_ok hrun
      simp only at hcnt
      cases last with
      | false =>
        have hmore : ¬ rep.cnt - 1 = 0 := by
          rw [← hcnt]
          exact of_decide_eq_false hlast.symm
        have hpool : (w.discard i o.rep (some s.rep) s.sys).pool = w.pool.drop i o.rep rep.cnt := by
          rw [Heap.pool_discard, Option.map_some, hcnt]
          unfold Pool.drop
          rw [if_neg hmore]
          rfl
        simp only [hrun, hpool]
        exact hdrop
      | true =>
        -- the last owner frees the `rep`, whatever `close` answers
        have hnone : rep.cnt - 1 = 0 := by
          rw [← hcnt]
          exact of_decide_eq_true hlast.symm
        have hfreed : ∀ sys, Pool.Step w.pool (Heap.pool { w.discard i o.rep none s.sys with
            closes := w.closes ++ [o.rep], sys := sys }) := by
          intro sys
          unfold Pool.drop at hdrop
          rw [if_pos hnone] at hdrop
          unfold Heap.pool Heap.discard
          rw [List.map_set, List.map_set]
          exact hdrop
        simp only [hrun]
        cases H.close s.sys.history w.closes s.rep.sock with
        | ok _ => exact hfreed s.sys
        | error e => exact hfreed { s.sys with errno := e }

/-- A destructor whose flush throws leaves the count behind. -/
theorem Heap.destroy_throws (howner : w.owner? i = some (o, rep))
    (hno : ¬ St.CanFlush (H.kernel rep.sock) ⟨rep, o.buf, w.sys⟩) :
    ∃ e w', Heap.destroy H i w = .error e w' ∧ w'.pool = w.pool.leave i := by
  have hrelease := release_spec (K := H.kernel rep.sock) ⟨rep, o.buf, w.sys⟩
  cases hrun : release (H.kernel rep.sock) ⟨rep, o.buf, w.sys⟩ with
  | ok last s => exact absurd (hrelease.of_ok hrun).1 hno
  | error e s =>
    have hcnt := (hrelease.of_error hrun).2
    refine ⟨e, w.discard i o.rep (some s.rep) s.sys, ?_, ?_⟩
    · simp only [Heap.destroy, howner, hrun]
    · rw [Heap.pool_discard, Option.map_some, hcnt, set_of_getElem? (Heap.pool_count howner)]
      rfl

/-- **One step follows the protocol**, if a destructor finds nothing that cannot go out. -/
theorem Life.step {a : Life} (hflush : FlushesFirst H a w) :
    wp (a.run P H) (fun _ w' => Pool.Step w.pool w'.pool) (fun _ w' => Pool.Step w.pool w'.pool)
      w := by
  cases a with
  | build sock gbuf pbuf =>
    refine (Heap.pool_build P sock gbuf pbuf w).mono ?_ (fun _ _ h => h.elim)
    intro _ w' h
    rw [h]
    exact .build _
  | copy i => exact (Heap.step_copy i w).mono (fun _ _ h => h) (fun _ _ h => h.elim)
  | call i c =>
    have hidle : ∀ w' : Heap, w'.pool = w.pool → Pool.Step w.pool w'.pool := by
      intro w' h
      rw [h]
      exact .idle _
    exact (Heap.step_call H i c w).mono (fun _ w' h => hidle w' h) (fun _ w' h => hidle w' h)
  | destroy i => exact Heap.step_destroy hflush

theorem Heap.accounted_of_exact (hw : w.pool.Exact) : w.Accounted where
  cnt r rep hrep := by
    have hr := hw r
    have hcount : w.pool.counts[r]? = some (some rep.cnt) := by
      show (w.reps.map (Option.map Sockcnt.cnt))[r]? = _
      rw [List.getElem?_map, hrep]
      rfl
    rw [hcount] at hr
    exact hr.1
  held r hpos := by
    obtain ⟨i, hi⟩ := List.mem_iff_getElem?.mp (List.count_pos_iff.mp hpos)
    obtain ⟨c, -, -, hfreed⟩ := hw.count_of_owner hi
    exact hfreed
  closed r hlt hnone := by
    have hr := hw r
    obtain ⟨c, hc⟩ : ∃ c, w.pool.counts[r]? = some c := by
      have : r < w.pool.counts.length := by
        show r < (w.reps.map (Option.map Sockcnt.cnt)).length
        rwa [List.length_map]
      exact ⟨_, List.getElem?_eq_getElem this⟩
    rw [hc] at hr
    cases c with
    | none => exact hr.2
    | some c => exact absurd hnone (Nat.pos_iff_ne_zero.mp hr.2.1)

/-- A `rep` whose count is one too high is not accounted for. -/
theorem Heap.not_accounted_of_leave {w' : Heap} (hw : w.pool.Exact)
    (howner : w.owner? i = some (o, rep)) (hpool : w'.pool = w.pool.leave i) :
    ¬ w'.Accounted := by
  intro h
  -- the owner has gone, and the count is what it was
  obtain ⟨c, hc, hcount⟩ := hw.count_leave (Heap.pool_owner howner)
  rw [← hpool] at hc hcount
  change (w'.reps.map (Option.map Sockcnt.cnt))[o.rep]? = _ at hc
  rw [List.getElem?_map, Option.map_eq_some_iff] at hc
  obtain ⟨found, hfound, hcnt⟩ := hc
  obtain ⟨rep', rfl, rfl⟩ := Option.map_eq_some_iff.mp hcnt
  have hright : rep'.cnt = (w'.sharers o.rep : Int) := h.cnt o.rep rep' hfound
  have hwrong : rep'.cnt = (w'.sharers o.rep : Int) + 1 := hcount
  omega

/-- Under an exact count, a step leaves it right exactly if it is no destructor whose flush cannot
go through. -/
theorem Life.accounted_iff (hw : w.pool.Exact) (a : Life) :
    wp (a.run P H) (fun _ => Heap.Accounted) (fun _ => Heap.Accounted) w ↔ FlushesFirst H a w := by
  constructor
  · intro h
    cases a with
    | destroy i =>
      intro o rep howner
      by_contra hno
      obtain ⟨e, w', hrun, hpool⟩ := Heap.destroy_throws howner hno
      exact Heap.not_accounted_of_leave hw howner hpool (h.of_error (c := Heap.destroy H i) hrun)
    | build sock gbuf pbuf => trivial
    | copy i => trivial
    | call i c => trivial
  · intro hflush
    have hafter : ∀ w' : Heap, Pool.Step w.pool w'.pool → w'.Accounted :=
      fun w' h => Heap.accounted_of_exact (h.exact hw)
    exact (Life.step hflush).mono (fun _ w' h => hafter w' h) (fun _ w' h => hafter w' h)

end Refinement

/-! ## The result -/

/-- **When every descriptor is accounted for.** In a run that builds, copies, uses and destroys
sockbufs in any order, every step leaves the counts equal to the numbers of owners, no owner's
descriptor closed, and every other descriptor closed once, exactly if whatever is pending in an
object when it is destroyed can go out. -/
theorem descriptors_accounted_iff (P : Platform) (H : Host) (errno : Errno) (acts : List Life) :
    StepsMeet (Life.run P H)
        (fun a w => wp (a.run P H) (fun _ => Heap.Accounted) (fun _ => Heap.Accounted) w) acts
        (Heap.empty errno) ↔
      StepsMeet (Life.run P H) (FlushesFirst H) acts (Heap.empty errno) := by
  refine stepsMeet_iff (I := fun w : Heap => w.pool.Exact) ?_ ?_ acts Pool.exact_nil
  · exact fun a w hw => Life.accounted_iff hw a
  · intro a w hw hflush
    exact (Life.step hflush).mono (fun _ _ h => h.exact hw) (fun _ _ h => h.exact hw)

/-- A host on which every `::write` fails with `EPIPE`. -/
def Host.broken : Host where
  kernel _ := { Kernel.sink with output := fun _ _ _ => .error 32 }
  close _ _ _ := .ok ()

/-- The only owner of a descriptor is destroyed with one byte pending: it is gone, its `rep` still
counts one owner, and nothing has closed the descriptor. -/
theorem failed_flush_leaks_descriptor :
    let w := (runAll ([Life.build 3 (fun _ => 0) (fun _ => 0), .call 0 (.sputc 65),
      .destroy 0].map (Life.run ⟨2, by decide⟩ .broken)) (Heap.empty 0)).2
    (w.reps.map (Option.map Sockcnt.cnt) = [some 1] ∧ w.sharers 0 = 0 ∧ w.closes = []) ∧
      ¬ w.Accounted := by
  intro w
  have hstate : w.reps.map (Option.map Sockcnt.cnt) = [some 1] ∧ w.sharers 0 = 0 ∧
      w.closes = [] := by
    decide +kernel
  refine ⟨hstate, ?_⟩
  intro h
  have hlen : 0 < w.reps.length := by
    have := congrArg List.length hstate.1
    rw [List.length_map] at this
    rw [this]
    exact Nat.one_pos
  have hclosed := h.closed 0 hlen hstate.2.1
  rw [hstate.2.2] at hclosed
  cases hclosed

end Sockstream
