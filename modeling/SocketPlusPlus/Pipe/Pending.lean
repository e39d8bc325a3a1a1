import Mathlib.Data.Fin.VecNotation
import SocketPlusPlus.Pipe.Basic

/-!
# The list of pending streams

A stream enters the list at `head` when it is built from a socket type and leaves it when a `fork`
has handled it. The destructor does not look at the list. A stream that is destroyed in between
stays in it, and the next `fork` closes descriptors and builds a sockbuf through it. The result says
that this is the only way to a list with a destroyed stream.
-/

namespace Pipe

open Exec Linked

/-! ## What is expected

Whoever is in the list waits: it is alive, was not forked, and has no sockbuf. -/

/-- Every stream that is reached from `head` is alive and was not forked yet. -/
def Image.Pending (im : Image) : Prop :=
  ∀ a, Reach Iopipestream.next im.streams im.head a →
    ∃ s, cell? im.streams a = some s ∧ s.cpid = -1 ∧ s.rdbuf = none

def AllPending (w : World) : Prop := ∀ im ∈ w.images, im.Pending

/-- What the source can throw. -/
def Fault.Tame (e : Fault) : Prop := e = .sockerr ∨ e = .noProcess

/-- No stream is destroyed before it has its sockbuf. -/
def Settled : Op → World → Prop
  | .destroy i a, w => ∀ im s, w.images[i]? = some im → cell? im.streams a = some s → s.rdbuf ≠ none
  | _, _ => True

/-! ## One process

A stream that is destroyed while it waits stays in the list. No other call leaves a stream in it
that is not waiting. -/

/-- The list holds exactly the streams that have no sockbuf yet. -/
structure Image.Inv (im : Image) (l : List Nat) : Prop where
  chain : Chain Iopipestream.next im.streams im.head l
  mem_iff : ∀ a, a ∈ l ↔ ∃ s, cell? im.streams a = some s ∧ s.rdbuf = none
  cpid : ∀ a ∈ l, ∀ s, cell? im.streams a = some s → s.cpid = -1

/-- A process without streams. -/
theorem inv_init : Image.Inv ⟨[], none, fun _ => none, []⟩ [] where
  chain := .nil
  mem_iff a := by simp [cell?]
  cpid a ha := by cases ha

/-- Whether it returns or throws, `c` leaves such a list. -/
def Image.Keeps {α : Type} (im : Image) (c : ImageM α) : Prop :=
  wp c (fun _ im' => ∃ l, im'.Inv l) (fun e im' => e.Tame ∧ ∃ l, im'.Inv l) im

section Images

variable {im im' : Image} {l l1 l2 : List Nat} {a : Nat} {s : Iopipestream}

theorem Image.Inv.pending (h : im.Inv l) : im.Pending := by
  intro a hreach
  have ha := h.chain.reach_iff.mp hreach
  obtain ⟨s, hs, hrdbuf⟩ := (h.mem_iff a).mp ha
  exact ⟨s, hs, h.cpid a ha s hs, hrdbuf⟩

/-- The open descriptors do not matter. -/
theorem Image.Inv.of_eq (h : im.Inv l) (hstreams : im'.streams = im.streams)
    (hhead : im'.head = im.head) : im'.Inv l := by
  constructor
  · rw [hstreams, hhead]
    exact h.chain
  · rw [hstreams]
    exact h.mem_iff
  · rw [hstreams]
    exact h.cpid

theorem Image.Inv.create (h : im.Inv l) (sp : Fin 2 → Nat)
    (hstreams : im'.streams = im.streams ++ [some ⟨sp, -1, im.head, none⟩])
    (hhead : im'.head = some im.streams.length) : im'.Inv (im.streams.length :: l) := by
  have hnew : cell? im'.streams im.streams.length = some ⟨sp, -1, im.head, none⟩ := by
    rw [hstreams, cell?_append_self]
  have hold : ∀ b, b ≠ im.streams.length → cell? im'.streams b = cell? im.streams b := by
    intro b hb
    rw [hstreams, cell?_append_ne _ hb]
  constructor
  · rw [hhead]
    apply Chain.push _ hnew rfl
    rw [hstreams]
    exact h.chain.append _
  · intro b
    rw [List.mem_cons]
    by_cases hb : b = im.streams.length
    · simp [hb, hnew]
    · simp [hb, hold b hb, h.mem_iff b]
  · intro b hb s hs
    rcases List.mem_cons.mp hb with rfl | hb
    · cases hnew.symm.trans hs
      rfl
    · obtain ⟨n, hn⟩ := h.chain.cell_of_mem hb
      rw [hold b (Nat.ne_of_lt (lt_of_cell? hn))] at hs
      exact h.cpid b hb s hs

/-- A change of one stream that is not in the list and, if it is still there, has its sockbuf. -/
theorem Image.Inv.of_others (h : im.Inv l)
    (hchain : Chain Iopipestream.next im'.streams im'.head l) (hnot : a ∉ l)
    (hold : ∀ b, b ≠ a → cell? im'.streams b = cell? im.streams b)
    (hrdbuf : ∀ s, cell? im'.streams a = some s → s.rdbuf ≠ none) : im'.Inv l := by
  constructor
  · exact hchain
  · intro b
    by_cases hb : b = a
    · subst hb
      constructor
      · intro hin
        exact absurd hin hnot
      · rintro ⟨s, hs, hnone⟩
        exact absurd hnone (hrdbuf s hs)
    · rw [hold b hb]
      exact h.mem_iff b
  · intro b hb t ht
    have hne : b ≠ a := by
      rintro rfl
      exact hnot hb
    rw [hold b hne] at ht
    exact h.cpid b hb t ht

/-- A stream that comes with its sockbuf. -/
theorem Image.Inv.append (h : im.Inv l) (hrdbuf : s.rdbuf ≠ none)
    (hstreams : im'.streams = im.streams ++ [some s]) (hhead : im'.head = im.head) :
    im'.Inv l := by
  have hnot : im.streams.length ∉ l := by
    intro hin
    obtain ⟨n, hn⟩ := h.chain.cell_of_mem hin
    exact Nat.lt_irrefl _ (lt_of_cell? hn)
  apply h.of_others (a := im.streams.length) _ hnot
  · intro b hb
    rw [hstreams, cell?_append_ne _ hb]
  · intro t ht
    rw [hstreams, cell?_append_self] at ht
    cases ht
    exact hrdbuf
  · rw [hhead, hstreams]
    exact h.chain.append _

/-- A stream that has its sockbuf is in no list. -/
theorem Image.Inv.destroy (h : im.Inv l) (ha : cell? im.streams a = some s)
    (hrdbuf : s.rdbuf ≠ none) (hstreams : im'.streams = im.streams.set a none)
    (hhead : im'.head = im.head) : im'.Inv l := by
  have hnot : a ∉ l := by
    intro hin
    obtain ⟨t, ht, hnone⟩ := (h.mem_iff a).mp hin
    cases ha.symm.trans ht
    exact hrdbuf hnone
  apply h.of_others _ hnot
  · intro b hb
    rw [hstreams, cell?_set_ne _ (Ne.symm hb)]
  · intro t ht
    rw [hstreams, cell?_set_none_self] at ht
    cases ht
  · rw [hhead, hstreams]
    exact h.chain.set_of_not_mem hnot _

theorem Image.Inv.handled {keep : Fin 2} {cpid : Int} (h : im.Inv (l1 ++ l2))
    (hdone : Handled keep cpid l1 im im')
    (hchain : Chain Iopipestream.next im'.streams im'.head l2) : im'.Inv l2 := by
  have hdisjoint := List.disjoint_of_nodup_append h.chain.nodup
  have hsame : ∀ b ∈ l2, cell? im'.streams b = cell? im.streams b :=
    fun b hb => hdone.others b fun hb1 => hdisjoint hb1 hb
  refine ⟨hchain, ?_, ?_⟩
  · intro b
    by_cases hb1 : b ∈ l1
    · obtain ⟨t, ht⟩ := h.chain.cell_of_mem (List.mem_append_left _ hb1)
      have hnot : b ∉ l2 := fun hb2 => hdisjoint hb1 hb2
      simp [hnot, hdone.done b hb1 t ht]
    · rw [hdone.others b hb1, ← h.mem_iff b, List.mem_append]
      simp [hb1]
  · intro b hb t ht
    rw [hsame b hb] at ht
    exact h.cpid b (List.mem_append_right _ hb) t ht

theorem iopipestream_inv (h : im.Inv l) (pair : Nat) (answer : Option (Fin 2 → Nat)) :
    im.Keeps (iopipestream pair answer) := by
  apply (iopipestream_spec pair answer im).mono
  · rintro _ im' ⟨sp, -, rfl⟩
    exact ⟨_, h.create sp rfl rfl⟩
  · rintro e im' ⟨rfl, rfl⟩
    exact ⟨.inl rfl, l, h⟩

theorem iopipestreamCmd_inv (h : im.Inv l) (pair : Nat) (answer : Option (Fin 2 → Nat))
    (vforks closes : Bool) (junk : Fin 2 → Nat) :
    im.Keeps (iopipestreamCmd pair answer vforks closes junk) := by
  apply (iopipestreamCmd_spec pair answer vforks closes junk im).mono
  · rintro _ im' ⟨sp, -, rfl⟩
    exact ⟨l, h.append (s := ⟨junk, -1, none, some (sp 1)⟩) (by simp) rfl rfl⟩
  · rintro e im' ⟨rfl, rfl | ⟨sp, -, rfl⟩⟩
    · exact ⟨.inl rfl, l, h⟩
    · exact ⟨.inl rfl, l, h.of_eq rfl rfl⟩

theorem destroy_inv (h : im.Inv l)
    (hsettled : ∀ s, cell? im.streams a = some s → s.rdbuf ≠ none) :
    im.Keeps (Pipe.destroy a) := by
  unfold Image.Keeps
  cases ha : cell? im.streams a with
  | none =>
    rw [wp_iff_of_ok (destroy_gone ha)]
    exact ⟨l, h⟩
  | some s =>
    have hrdbuf := hsettled s ha
    rw [wp_congr (destroy_some ha)]
    cases hfd : s.rdbuf with
    | none => exact absurd hfd hrdbuf
    | some fd =>
      apply (close_spec true fd _).mono
      · rintro _ im' rfl
        exact ⟨l, h.destroy ha hrdbuf rfl rfl⟩
      · rintro e im' ⟨rfl, rfl⟩
        exact ⟨.inl rfl, l, h.destroy ha hrdbuf rfl rfl⟩

theorem forkLoop_inv (h : im.Inv l) (keep : Fin 2) (cpid : Int) (fail : Option Nat) :
    im.Keeps (forkLoop keep cpid (im.streams.length + 1) fail) := by
  have hfuel : l.length < im.streams.length + 1 := Nat.lt_succ_of_le h.chain.length_le
  apply (forkLoop_spec h.chain hfuel fail).mono
  · rintro _ im' ⟨hdone, hnone⟩
    have hnil : Chain Iopipestream.next im'.streams im'.head [] := by
      rw [hnone]
      exact .nil
    exact ⟨[], Image.Inv.handled (by simpa using h) hdone hnil⟩
  · rintro e im' ⟨he, l1, l2, rfl, hdone, hchain⟩
    exact ⟨.inl he, l2, h.handled hdone hchain⟩

theorem forkParent_inv (h : im.Inv l) (pid : Int) (fail : Option Nat) :
    im.Keeps (forkParent pid fail) := by
  unfold Image.Keeps forkParent
  rw [wp_bind, wp_get, wp_bind]
  exact forkLoop_inv h 0 pid fail

theorem forkChild_inv (h : im.Inv l) (fail : Option Nat) :
    im.Keeps (forkChild fail) := by
  unfold Image.Keeps forkChild
  rw [wp_bind, wp_get, wp_bind]
  exact forkLoop_inv h 1 0 fail

/-- A pending stream that is destroyed is still reached from `head`. -/
theorem destroy_pending (h : im.Inv l) (ha : cell? im.streams a = some s) (hnone : s.rdbuf = none) :
    wp (Pipe.destroy a) (fun _ im' => ¬ im'.Pending) (fun _ _ => False) im := by
  obtain ⟨pre, rest, rfl⟩ := List.append_of_mem ((h.mem_iff a).mpr ⟨s, ha, hnone⟩)
  rw [wp_congr (destroy_some ha), hnone, wp_pure]
  intro hpending
  -- nothing has moved the links that lead to it
  obtain ⟨t, ht, -⟩ := hpending a h.chain.reach_deleted
  cases cell?_set_none_self.symm.trans ht

end Images

/-! ## All processes -/

def AllInv (w : World) : Prop := ∀ im ∈ w.images, ∃ l, im.Inv l

section Worlds

variable {w : World} {i : Nat}

theorem AllInv.allPending (h : AllInv w) : AllPending w := by
  intro im him
  obtain ⟨l, hl⟩ := h im him
  exact hl.pending

theorem AllInv.set {im : Image} (h : AllInv w) (him : ∃ l, im.Inv l) :
    AllInv { w with images := w.images.set i im } := by
  intro d hd
  rcases List.mem_or_eq_of_mem_set hd with hd | rfl
  · exact h d hd
  · exact him

theorem onImage_spec {α : Type} {c : ImageM α} (hw : AllInv w)
    (hc : ∀ im l, w.images[i]? = some im → im.Inv l → im.Keeps c) :
    wp (onImage i c) (fun _ w' => AllInv w') (fun e w' => e.Tame ∧ AllInv w') w := by
  cases hi : w.images[i]? with
  | none =>
    rw [wp_onImage_none hi]
    exact ⟨.inr rfl, hw⟩
  | some im =>
    obtain ⟨l, hl⟩ := hw im (List.mem_of_getElem? hi)
    rw [wp_onImage hi]
    apply (hc im l hi hl).mono
    · intro _ im' him
      exact hw.set him
    · rintro e im' ⟨he, him⟩
      exact ⟨he, hw.set him⟩

theorem withPair_spec {α : Type} {c : Nat → ImageM α} (hw : AllInv w)
    (hc : ∀ pair (im : Image) l, im.Inv l → im.Keeps (c pair)) :
    wp (withPair i c) (fun _ w' => AllInv w') (fun e w' => e.Tame ∧ AllInv w') w := by
  unfold withPair
  rw [wp_bind, wp_get, wp_bind, wp_modify]
  exact onImage_spec hw fun im l _ hl => hc w.pairs im l hl

theorem Image.Keeps.leaves {α : Type} {im : Image} {c : ImageM α} (h : im.Keeps c) :
    ∃ l, (attempt c im).2.Inv l :=
  (h.mono (fun _ _ hi => hi) (fun _ _ hi => hi.2)).attempt

theorem Image.Keeps.tame {α : Type} {im : Image} {c : ImageM α} (h : im.Keeps c) {e : Fault}
    (he : (attempt c im).1 = .error e) : e.Tame := by
  unfold attempt at he
  cases hrun : c im with
  | ok x im' =>
    rw [hrun] at he
    cases he
  | error e' im' =>
    rw [hrun] at he
    cases he
    exact (h.of_error hrun).1

theorem joined_spec {c : WorldM Unit} {w' : World} {p q : Except Fault Int}
    (hrun : c w = joined w' p q) (hw' : AllInv w') (hp : ∀ e, p = .error e → e.Tame)
    (hq : ∀ e, q = .error e → e.Tame) :
    wp c (fun _ w' => AllInv w') (fun e w' => e.Tame ∧ AllInv w') w := by
  cases p with
  | error e =>
    rw [wp_iff_of_error hrun]
    exact ⟨hp e rfl, hw'⟩
  | ok _ =>
    cases q with
    | error e =>
      rw [wp_iff_of_error hrun]
      exact ⟨hq e rfl, hw'⟩
    | ok _ =>
      rw [wp_iff_of_ok hrun]
      exact hw'

theorem forkWorld_spec (hw : AllInv w) (answer : Option Int) (failParent failChild : Option Nat) :
    wp (forkWorld i answer failParent failChild) (fun _ w' => AllInv w')
      (fun e w' => e.Tame ∧ AllInv w') w := by
  apply wp_forkWorld_intro ⟨.inr rfl, hw⟩ ⟨.inl rfl, hw⟩
  intro im pid hi hpid
  obtain ⟨l, hl⟩ := hw im (List.mem_of_getElem? hi)
  have hparent := forkParent_inv hl pid failParent
  have hchild := forkChild_inv hl failChild
  apply joined_spec (forkWorld_joined hi hpid failParent failChild) _
    (fun e he => hparent.tame he) (fun e he => hchild.tame he)
  -- both processes keep their lists, also the one that throws
  intro d hd
  rcases List.mem_append.mp hd with hd | hd
  · exact hw.set hparent.leaves d hd
  · rw [List.mem_singleton.mp hd]
    exact hchild.leaves

theorem inv_op (hw : AllInv w) {op : Op} (hsettled : Settled op w) :
    wp op.run (fun _ w' => AllInv w') (fun e w' => e.Tame ∧ AllInv w') w := by
  cases op with
  | create i answer => exact withPair_spec hw fun pair im l hl => iopipestream_inv hl pair answer
  | createCmd i answer vforks closes junk =>
    exact withPair_spec hw fun pair im l hl => iopipestreamCmd_inv hl pair answer vforks closes junk
  | destroy i a => exact onImage_spec hw fun im l hi hl => destroy_inv hl fun s => hsettled im s hi
  | fork i answer failParent failChild => exact forkWorld_spec hw answer failParent failChild

/-- The destructor of a stream that waits for a fork leaves the list with a destroyed stream. -/
theorem unsettled_op (hw : AllInv w) {op : Op} (hnot : ¬ Settled op w) :
    wp op.run (fun _ w' => ¬ AllPending w') (fun _ _ => False) w := by
  cases op with
  | destroy i a =>
    simp only [Settled, not_forall, not_not] at hnot
    obtain ⟨im, s, hi, ha, hnone⟩ := hnot
    obtain ⟨l, hl⟩ := hw im (List.mem_of_getElem? hi)
    obtain ⟨_, im', hrun, hbad⟩ := (destroy_pending hl ha hnone).exists_ok
    have hstep : (Op.destroy i a).run w = .ok () { w with images := w.images.set i im' } := by
      show onImage i (Pipe.destroy a) w = _
      simp only [onImage, hi, hrun]
    rw [wp_iff_of_ok hstep]
    intro hall
    obtain ⟨hlt, -⟩ := List.getElem?_eq_some_iff.mp hi
    exact hbad (hall im' (List.mem_set hlt _))
  | _ => exact absurd trivial hnot

theorem pending_op_iff (hw : AllInv w) (op : Op) :
    wp op.run (fun _ => AllPending) (fun e w' => e.Tame ∧ AllPending w') w ↔ Settled op w := by
  constructor
  · intro h
    by_contra hnot
    obtain ⟨_, w', hrun, hbad⟩ := (unsettled_op hw hnot).exists_ok
    exact hbad (h.of_ok hrun)
  · intro hsettled
    exact (inv_op hw hsettled).mono (fun _ _ h => h.allPending)
      (fun _ _ h => ⟨h.1, h.2.allPending⟩)

end Worlds

/-- **The list of pending streams.** In a run over a process and everything it forks, every step
follows live pointers only and leaves in every process only live streams that were not forked yet
to be reached from `head`, exactly if no stream is destroyed before a fork has given it its
sockbuf. -/
theorem pending_live_iff (ops : List Op) :
    StepsMeet Op.run
        (fun op w => wp op.run (fun _ => AllPending) (fun e w' => e.Tame ∧ AllPending w') w) ops
        World.init ↔
      StepsMeet Op.run Settled ops World.init := by
  apply stepsMeet_iff (I := AllInv) (fun op w hw => pending_op_iff hw op) _ ops _
  · intro op w hw hsettled
    exact (inv_op hw hsettled).mono (fun _ _ h => h) (fun _ _ h => h.2)
  · intro im him
    rw [List.mem_singleton.mp him]
    exact ⟨[], inv_init⟩

/-- A stream that is destroyed before the fork is still the head of the list, and `fork` closes a
descriptor through it. -/
theorem destroyed_stream_forked :
    (runAll ([.create 0 (some ![3, 4]), .destroy 0 0].map Op.run) World.init).2.images.map
      (fun im => (im.head, cell? im.streams 0 |>.isNone)) = [(some 0, true)] ∧
    (runAll ([.create 0 (some ![3, 4]), .destroy 0 0, .fork 0 (some 10) none none].map Op.run)
      World.init).1 = [.ok (), .ok (), .error (.dangling 0)] := by
  constructor
  · decide +kernel
  · decide +kernel

end Pipe
