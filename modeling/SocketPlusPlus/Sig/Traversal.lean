import Mathlib.Data.List.Forall2
import Mathlib.Data.List.TakeWhile
import SocketPlusPlus.Logic.Chain
import SocketPlusPlus.Sig.Registry

/-!
# Handlers that remove themselves

A delivery goes through the list of a signal with `for_each`, whose iterator is a pointer to a node.
A handler that is called may take itself out of the list, by `sig::unset` or by `delete`, while the
iterator stands on its node. Here the list is one of nodes that are allocated and freed, and to step
on from an erased node, which the language leaves undefined, is a fault.

Where no handler removes itself the traversal calls what `Sig.kill` of the registry calls.
-/

namespace Sig.Traversal

open Exec Linked

/-- A node of a `phndlist`. -/
structure Node where
  hnd : Nat
  next : Option Nat
deriving DecidableEq, Repr

/-- The list of the signal: its nodes, and `begin()`, where `none` is `end()`. With it the handlers
that are alive, and the calls so far. -/
structure Lists where
  nodes : List (Option Node)
  head : Option Nat
  live : List Nat
  called : List Nat
deriving DecidableEq, Repr

inductive Fault where
  | null
  | erased (a : Nat)
  | destroyed (hnd : Nat)
  | outOfFuel
deriving DecidableEq, Repr

/-- What a handler does with itself when it is called. -/
inductive Act where
  | stay
  | unset
  | delete
deriving DecidableEq, Repr

abbrev M := EStateM Fault Lists

/-- The node at `a`. -/
def deref : Option Nat → M Node
  | none => throw .null
  | some a => fun s =>
    match cell? s.nodes a with
    | some n => .ok n s
    | none => .error (.erased a) s

/-- `v.erase(j)` of the node `cur` behind `prev`. -/
def erase (prev : Option Nat) (cur : Nat) (next : Option Nat) : M Unit := do
  let _ ← (match prev with
    | none => modify fun s => { s with head := next }
    | some b => do
      let nb ← deref (some b)
      modify fun s => { s with nodes := s.nodes.set b (some { nb with next := next }) } : M Unit)
  modify fun s => { s with nodes := s.nodes.set cur none }

/-- `find`, and the `erase` of what it has found. -/
def unsetLoop (hnd : Nat) : Nat → Option Nat → Option Nat → M Bool
  | _, _, none => pure false
  | 0, _, some _ => throw .outOfFuel
  | fuel + 1, prev, some cur => do
    let n ← deref (some cur)
    if n.hnd = hnd then do
      erase prev cur n.next
      pure true
    else unsetLoop hnd fuel (some cur) n.next

/-- `unset(signo, hnd)` -/
def unset (hnd : Nat) : M Bool := do
  let s ← get
  unsetLoop hnd (s.nodes.length + 1) none s.head

/-- `delete` of a handler, with `~hnd()`. -/
def destroy (hnd : Nat) : M Unit := do
  let _ ← unset hnd
  modify fun s => { s with live := s.live.erase hnd }

/-- `(*ph)(signo)` -/
def procsig (act : Nat → Act) (ph : Nat) : M Unit := do
  let s ← get
  if ph ∈ s.live then do
    modify fun s => { s with called := s.called ++ [ph] }
    match act ph with
    | .stay => pure ()
    | .unset => do
      let _ ← unset ph
    | .delete => destroy ph
  else throw (.destroyed ph)

/-- `for_each(first, v.end(), procsig(signo))`: after the call, `++first` reads the node again. -/
def forEach (act : Nat → Act) : Nat → Option Nat → M Unit
  | _, none => pure ()
  | 0, some _ => throw .outOfFuel
  | fuel + 1, some first => do
    let n ← deref (some first)
    procsig act n.hnd
    let n ← deref (some first)
    forEach act fuel n.next

/-- `kill(signo)` -/
def kill (act : Nat → Act) : M Unit := do
  let s ← get
  forEach act (s.nodes.length + 1) s.head

/-! ## The list in memory

A list that is erased from has a node less, and the iterators that stood on the node stand on
nothing. -/

/-- The nodes `l` hold the handlers `v`. -/
def Shows (nodes : List (Option Node)) (l v : List Nat) : Prop :=
  List.Forall₂ (fun a h => ∃ n, cell? nodes a = some n ∧ n.hnd = h) l v

/-- The list is `v`, in the nodes `l`. As in every list that `set` builds, no handler is there
twice; and all are alive. -/
structure Holds (s : Lists) (l v : List Nat) : Prop where
  chain : Chain Node.next s.nodes s.head l
  shows : Shows s.nodes l v
  nodup : v.Nodup
  live : ∀ h ∈ v, h ∈ s.live

/-- The node `a` between `l1` and `l2` is erased. -/
structure Erased (a : Nat) (l1 l2 : List Nat) (s s' : Lists) : Prop where
  chain : Chain Node.next s'.nodes s'.head (l1 ++ l2)
  gone : cell? s'.nodes a = none
  others : ∀ b n, b ≠ a → cell? s.nodes b = some n → ∃ n', cell? s'.nodes b = some n' ∧
    n'.hnd = n.hnd
  live : s'.live = s.live
  called : s'.called = s.called

section Specs

variable {s : Lists} {a h : Nat} {n : Node} {pre mid post l v : List Nat} {act : Nat → Act}

theorem deref_some (ha : cell? s.nodes a = some n) : deref (some a) s = .ok n s := by
  simp only [deref, ha]

theorem deref_erased (ha : cell? s.nodes a = none) :
    deref (some a) s = .error (.erased a) s := by
  simp only [deref, ha]

theorem erase_spec (hchain : Chain Node.next s.nodes s.head (pre ++ a :: post))
    (ha : cell? s.nodes a = some n) :
    ∃ s', erase pre.getLast? a n.next s = .ok () s' ∧ Erased a pre post s s' := by
  have hnodup := List.nodup_middle.mp hchain.nodup
  have hnot : a ∉ pre ++ post := (List.nodup_cons.mp hnodup).1
  rcases List.eq_nil_or_concat pre with rfl | ⟨pre', b, rfl⟩
  · obtain ⟨-, n', hn', hrest⟩ := hchain.of_cons
    cases ha.symm.trans hn'
    refine ⟨{ s with head := n.next, nodes := s.nodes.set a none }, rfl,
      hrest.set_of_not_mem hnot _, cell?_set_none_self, ?_, rfl, rfl⟩
    intro c m hc hm
    exact ⟨m, (cell?_set_ne _ (Ne.symm hc)).trans hm, rfl⟩
  · rw [List.concat_eq_append] at hchain hnot ⊢
    rw [List.append_assoc] at hchain
    obtain ⟨nb, hb⟩ := hchain.cell_of_mem (a := b) (by simp)
    have hba : b ≠ a := by
      rintro rfl
      exact hnot (by simp)
    let s1 : Lists := { s with nodes := s.nodes.set b (some { nb with next := n.next }) }
    have hchain1 : Chain Node.next s1.nodes s1.head (pre' ++ [b] ++ post) := by
      rw [List.append_assoc]
      exact hchain.unlink ha rfl
    refine ⟨{ s1 with nodes := s1.nodes.set a none }, ?_, hchain1.set_of_not_mem hnot _,
      cell?_set_none_self, ?_, rfl, rfl⟩
    · have hlink : (deref (some b) >>= fun nb => modify fun s =>
          { s with nodes := s.nodes.set b (some { nb with next := n.next }) } : M Unit) s
          = .ok () s1 := bind_ok (deref_some hb)
      rw [List.getLast?_concat]
      show ((deref (some b) >>= _ : M Unit) >>= _) s = _
      rw [bind_ok hlink]
      rfl
    · intro c m hc hm
      by_cases hcb : b = c
      · subst hcb
        cases hb.symm.trans hm
        exact ⟨_, (cell?_set_ne _ (Ne.symm hc)).trans (cell?_set_self _ (lt_of_cell? hb)), rfl⟩
      · exact ⟨m, (cell?_set_ne _ (Ne.symm hc)).trans ((cell?_set_ne _ hcb).trans hm), rfl⟩

/-- The search of `unset`, behind `pre`. Induction on the nodes it has still to pass. -/
theorem unsetLoop_spec {cur : Option Nat} {fuel : Nat}
    (hchain : Chain Node.next s.nodes s.head (pre ++ mid ++ a :: post))
    (hcur : Chain Node.next s.nodes cur (mid ++ a :: post))
    (hmid : ∀ b ∈ mid, ∀ n, cell? s.nodes b = some n → n.hnd ≠ h)
    (ha : cell? s.nodes a = some n) (hn : n.hnd = h) (hfuel : mid.length < fuel) :
    ∃ s', unsetLoop h fuel pre.getLast? cur s = .ok true s' ∧ Erased a (pre ++ mid) post s s' := by
  induction mid generalizing pre cur fuel with
  | nil =>
    obtain ⟨rfl, -⟩ := hcur.of_cons
    obtain ⟨fuel, rfl⟩ := Nat.exists_eq_succ_of_ne_zero (Nat.ne_of_gt hfuel)
    rw [List.append_nil] at hchain ⊢
    obtain ⟨s', herase, herased⟩ := erase_spec hchain ha
    refine ⟨s', ?_, herased⟩
    show (deref (some a) >>= _ : M Bool) s = _
    rw [bind_ok (deref_some ha), if_pos hn, bind_ok herase]
    rfl
  | cons b mid ih =>
    obtain ⟨rfl, nb, hb, hrest⟩ := hcur.of_cons
    obtain ⟨fuel, rfl⟩ := Nat.exists_eq_succ_of_ne_zero (Nat.ne_of_gt (Nat.zero_lt_of_lt hfuel))
    have hother : nb.hnd ≠ h := hmid b List.mem_cons_self nb hb
    have hsplit : pre ++ [b] ++ mid = pre ++ b :: mid := by simp
    have hchain' : Chain Node.next s.nodes s.head (pre ++ [b] ++ mid ++ a :: post) := by
      rw [hsplit]
      exact hchain
    have hih := ih hchain' hrest (fun c hc => hmid c (List.mem_cons_of_mem _ hc))
      (by simpa using hfuel)
    rw [hsplit, List.getLast?_concat] at hih
    obtain ⟨s', hloop, herased⟩ := hih
    refine ⟨s', ?_, herased⟩
    show (deref (some b) >>= _ : M Bool) s = _
    rw [bind_ok (deref_some hb), if_neg hother, hloop]

theorem shows_append {nodes : List (Option Node)} {v1 v2 : List Nat}
    (hshows : Shows nodes l (v1 ++ v2)) :
    ∃ l1 l2, Shows nodes l1 v1 ∧ Shows nodes l2 v2 ∧ l = l1 ++ l2 :=
  ⟨_, _, List.forall₂_take_append l v1 v2 hshows, List.forall₂_drop_append l v1 v2 hshows,
    (List.take_append_drop _ l).symm⟩

/-- The nodes that are left show what they showed. -/
theorem Erased.shows {s' : Lists} {l1 l2 l3 v3 : List Nat} (h : Erased a l1 l2 s s')
    (hnot : a ∉ l3) (hshows : Shows s.nodes l3 v3) : Shows s'.nodes l3 v3 := by
  induction hshows with
  | nil => exact .nil
  | @cons b g l3 v3 hnode _ ih =>
    rw [List.mem_cons, not_or] at hnot
    obtain ⟨n, hn, rfl⟩ := hnode
    exact .cons (h.others b n (Ne.symm hnot.1) hn) (ih hnot.2)

/-- What is in front of a handler in the list are other handlers. -/
theorem shows_ne {l1 v1 : List Nat} (hshows : Shows s.nodes l1 v1) (hnot : h ∉ v1) :
    ∀ b ∈ l1, ∀ n, cell? s.nodes b = some n → n.hnd ≠ h := by
  induction hshows with
  | nil => simp
  | @cons b g l1 v1 hb hrest ih =>
    rw [List.mem_cons, not_or] at hnot
    intro c hc m hm
    rcases List.mem_cons.mp hc with rfl | hc
    · obtain ⟨n, hn, rfl⟩ := hb
      cases hn.symm.trans hm
      exact Ne.symm hnot.1
    · exact ih hnot.2 c hc m hm

/-- A handler that is in the list is taken out. -/
theorem unset_spec {l1 l2 v1 : List Nat}
    (hchain : Chain Node.next s.nodes s.head (l1 ++ a :: l2)) (hshows : Shows s.nodes l1 v1)
    (hnot : n.hnd ∉ v1) (ha : cell? s.nodes a = some n) :
    ∃ s', unset n.hnd s = .ok true s' ∧ Erased a l1 l2 s s' := by
  have hfuel : l1.length < s.nodes.length + 1 := by
    have hlen := hchain.length_le
    simp only [List.length_append, List.length_cons] at hlen
    omega
  have hall : Chain Node.next s.nodes s.head ([] ++ l1 ++ a :: l2) := hchain
  exact unsetLoop_spec hall hchain (shows_ne hshows hnot) ha rfl hfuel

/-! ## The traversal

`for_each` calls the handler of a node and then steps on from the node. If the call has erased the
node, there is nothing to step on from. -/

/-- Handlers that stay are called one after the other. Induction on their nodes. -/
theorem forEach_stay {l1 l2 v1 : List Nat} {cur : Option Nat}
    (hchain : Chain Node.next s.nodes cur (l1 ++ l2)) (hshows : Shows s.nodes l1 v1)
    (hlive : ∀ h ∈ v1, h ∈ s.live) (hstay : ∀ h ∈ v1, act h = .stay) (fuel : Nat) :
    ∃ cur', Chain Node.next s.nodes cur' l2 ∧
      forEach act (l1.length + fuel) cur s
        = forEach act fuel cur' { s with called := s.called ++ v1 } := by
  induction l1 generalizing cur s v1 with
  | nil =>
    cases hshows
    refine ⟨cur, hchain, ?_⟩
    rw [List.append_nil, List.length_nil, Nat.zero_add]
  | cons b l1 ih =>
    obtain ⟨rfl, nb, hb, hrest⟩ := hchain.of_cons
    cases hshows with
    | @cons _ g _ v1 hnode hshows =>
      obtain ⟨n, hn, rfl⟩ := hnode
      cases hb.symm.trans hn
      let s1 : Lists := { s with called := s.called ++ [nb.hnd] }
      have hcall : procsig act nb.hnd s = .ok () s1 := by
        show (if nb.hnd ∈ s.live then _ else _ : M Unit) s = _
        rw [if_pos (hlive _ List.mem_cons_self), hstay _ List.mem_cons_self]
        rfl
      obtain ⟨cur', hcur', hloop⟩ := ih (s := s1) hrest hshows
        (fun h hh => hlive h (List.mem_cons_of_mem _ hh))
        (fun h hh => hstay h (List.mem_cons_of_mem _ hh))
      refine ⟨cur', hcur', ?_⟩
      have hfuel : (b :: l1).length + fuel = l1.length + fuel + 1 := by
        rw [List.length_cons]
        omega
      rw [hfuel]
      show (deref (some b) >>= fun n => procsig act n.hnd >>= fun _ => deref (some b) >>= fun n =>
        forEach act (l1.length + fuel) n.next : M Unit) s = _
      have hb1 : deref (some b) s1 = .ok nb s1 := deref_some hb
      rw [bind_ok (deref_some hb), bind_ok hcall, bind_ok hb1, hloop]
      show forEach act fuel cur' { s with called := s.called ++ [nb.hnd] ++ v1 } = _
      rw [List.append_assoc, List.singleton_append]

/-- A handler that removes itself takes the node away on which the iterator stands. -/
theorem procsig_removes {l1 l2 v1 : List Nat} (hact : act n.hnd ≠ .stay)
    (hchain : Chain Node.next s.nodes s.head (l1 ++ a :: l2)) (hshows : Shows s.nodes l1 v1)
    (hnot : n.hnd ∉ v1) (ha : cell? s.nodes a = some n) (hlive : n.hnd ∈ s.live) :
    ∃ s', procsig act n.hnd s = .ok () s' ∧ cell? s'.nodes a = none := by
  let s1 : Lists := { s with called := s.called ++ [n.hnd] }
  have hbody : procsig act n.hnd s
      = (match act n.hnd with
        | .stay => pure ()
        | .unset => unset n.hnd >>= fun _ => pure ()
        | .delete => destroy n.hnd : M Unit) s1 := by
    show (if n.hnd ∈ s.live then _ else _ : M Unit) s = _
    rw [if_pos hlive]
    rfl
  obtain ⟨s', hunset, herased⟩ := unset_spec (s := s1) hchain hshows hnot ha
  rw [hbody]
  cases hact' : act n.hnd with
  | stay => exact absurd hact' hact
  | unset => exact ⟨s', bind_ok hunset, herased.gone⟩
  | delete => exact ⟨_, bind_ok hunset, herased.gone⟩

end Specs

section Delivery

variable {s : Lists} {l v : List Nat} (act : Nat → Act)

theorem Holds.fuel (hs : Holds s l v) : ∃ fuel, s.nodes.length + 1 = l.length + (fuel + 1) := by
  have hlen := hs.chain.length_le
  exact ⟨s.nodes.length - l.length, by omega⟩

/-- Without removals the whole list is called. -/
theorem kill_stay (hs : Holds s l v) (hstay : ∀ h ∈ v, act h = .stay) :
    kill act s = .ok () { s with called := s.called ++ v } := by
  obtain ⟨fuel, hfuel⟩ := hs.fuel
  have hchain : Chain Node.next s.nodes s.head (l ++ []) := by
    rw [List.append_nil]
    exact hs.chain
  obtain ⟨cur', hcur', hloop⟩ := forEach_stay hchain hs.shows hs.live hstay (fuel + 1)
  show forEach act (s.nodes.length + 1) s.head s = _
  rw [hfuel, hloop, hcur'.head]
  rfl

/-- The first handler that removes itself leaves the iterator on an erased node. -/
theorem kill_removes (hs : Holds s l v) {v1 v2 : List Nat} {h : Nat} (hv : v = v1 ++ h :: v2)
    (hstay : ∀ g ∈ v1, act g = .stay) (hact : act h ≠ .stay) :
    ∃ a s', kill act s = .error (.erased a) s' := by
  subst hv
  obtain ⟨l1, l2', hl1, hl2', rfl⟩ := shows_append hs.shows
  cases hl2' with
  | @cons a _ l2 _ hnode hl2 =>
    obtain ⟨n, hn, rfl⟩ := hnode
    obtain ⟨fuel, hfuel⟩ := hs.fuel
    have hfuel' : s.nodes.length + 1 = l1.length + (l2.length + fuel + 1 + 1) := by
      rw [hfuel, List.length_append, List.length_cons]
      omega
    have hnot : n.hnd ∉ v1 := (List.nodup_middle.mp hs.nodup |> List.nodup_cons.mp).1 ∘
      List.mem_append_left _
    obtain ⟨cur', hcur', hloop⟩ := forEach_stay hs.chain hl1
      (fun g hg => hs.live g (List.mem_append_left _ hg)) hstay (l2.length + fuel + 1 + 1)
    obtain ⟨rfl, -⟩ := hcur'.of_cons
    let s1 : Lists := { s with called := s.called ++ v1 }
    obtain ⟨s', hcall, hgone⟩ := procsig_removes (s := s1) hact hs.chain hl1 hnot hn
      (hs.live _ (by simp))
    refine ⟨a, s', ?_⟩
    show forEach act (s.nodes.length + 1) s.head s = _
    rw [hfuel', hloop]
    show (deref (some a) >>= fun n => procsig act n.hnd >>= fun _ => deref (some a) >>= fun n =>
      forEach act (l2.length + fuel + 1) n.next : M Unit) s1 = _
    have hn1 : deref (some a) s1 = .ok n s1 := deref_some hn
    rw [bind_ok hn1, bind_ok hcall]
    exact bind_error (deref_erased hgone)

/-- It calls what `kill` of the registry calls. -/
theorem kill_refines {r : Registry} {signo : Int} (hs : Holds s l (r.smap signo))
    (hstay : ∀ h ∈ r.smap signo, act h = .stay) (n : Nat) : ∃ calls,
    kill act s = .ok () { s with called := s.called ++ calls } ∧
    Sig.kill signo ⟨r, n⟩
      = .ok () ⟨{ r with called := r.called ++ calls.map fun h => (h, signo) }, n⟩ :=
  ⟨r.smap signo, kill_stay act hs hstay, forM_procsig signo (r.smap signo) r⟩

/-- Outside of a delivery `unset` leaves the list without the handler. -/
theorem unset_refines (hs : Holds s l v) {h : Nat} (hmem : h ∈ v) :
    ∃ s' l', unset h s = .ok true s' ∧ Holds s' l' (v.erase h) := by
  obtain ⟨v1, v2, hnot, rfl, herase⟩ := List.exists_erase_eq hmem
  obtain ⟨l1, l2', hl1, hl2', rfl⟩ := shows_append hs.shows
  cases hl2' with
  | @cons a _ l2 _ hnode hl2 =>
    obtain ⟨n, hn, rfl⟩ := hnode
    obtain ⟨s', hunset, herased⟩ := unset_spec hs.chain hl1 hnot hn
    have hapart := List.nodup_cons.mp (List.nodup_middle.mp hs.chain.nodup)
    refine ⟨s', l1 ++ l2, hunset, herased.chain, ?_, ?_, ?_⟩
    · rw [herase]
      refine List.rel_append ?_ ?_
      · exact herased.shows (fun hin => hapart.1 (List.mem_append_left _ hin)) hl1
      · exact herased.shows (fun hin => hapart.1 (List.mem_append_right _ hin)) hl2
    · exact hs.nodup.erase _
    · intro g hg
      rw [herased.live]
      exact hs.live g (List.mem_of_mem_erase hg)

/-- **When a delivery survives.** It goes through the list without a step from an erased node, and
calls every handler of the list exactly once, if and only if none of them removes itself. -/
theorem delivery_survives_iff (hs : Holds s l v) :
    wp (kill act)
      (fun _ s' => ∃ calls, s'.called = s.called ++ calls ∧ ∀ h ∈ v, calls.count h = 1)
      (fun _ _ => False) s ↔
    ∀ h ∈ v, act h = .stay := by
  constructor
  · intro hwp
    have hsplit := List.takeWhile_append_dropWhile (p := fun h => act h = .stay) (l := v)
    have hstay : ∀ h ∈ v.takeWhile (act · = .stay), act h = .stay := by
      intro h hh
      simpa using List.mem_takeWhile_imp hh
    cases hdrop : v.dropWhile (act · = .stay) with
    | nil =>
      rw [hdrop, List.append_nil] at hsplit
      rwa [hsplit] at hstay
    | cons h v2 =>
      -- `h` is the first that removes itself
      have hact : act h ≠ .stay := by
        have hfirst := List.head?_dropWhile_not (act · = .stay) v
        rw [hdrop] at hfirst
        simpa using hfirst
      rw [hdrop] at hsplit
      obtain ⟨a, s', hrun⟩ := kill_removes act hs hsplit.symm hstay hact
      exact ((wp_iff_of_error hrun).mp hwp).elim
  · intro hstay
    rw [wp_iff_of_ok (kill_stay act hs hstay)]
    exact ⟨v, rfl, fun h hh => List.count_eq_one_of_mem hs.nodup hh⟩

end Delivery

/-- The list of a signal with the handlers 1 and 2. -/
def twoHandlers : Lists := ⟨[some ⟨1, some 1⟩, some ⟨2, none⟩], some 0, [1, 2], []⟩

theorem holds_twoHandlers : Holds twoHandlers [0, 1] [1, 2] where
  chain := .cons rfl (.cons rfl .nil)
  shows := .cons ⟨_, rfl, rfl⟩ (.cons ⟨_, rfl, rfl⟩ .nil)
  nodup := by decide
  live := by decide

/-- Neither of them removes itself. -/
theorem delivery_survives_iff_two :
    wp (kill fun _ => .stay)
      (fun _ s' => ∃ calls, s'.called = twoHandlers.called ++ calls ∧ ∀ h ∈ [1, 2],
        calls.count h = 1)
      (fun _ _ => False) twoHandlers ↔
    ∀ h ∈ [1, 2], (fun _ : Nat => Act.stay) h = .stay :=
  delivery_survives_iff (fun _ => .stay) holds_twoHandlers

/-- If the first deletes itself, the iterator is moved on from its erased node, and the second is
not called. -/
theorem delivery_follows_erased :
    ∃ s', kill (fun h => if h = 1 then .delete else .stay) twoHandlers = .error (.erased 0) s' ∧
      s'.called = [1] :=
  ⟨_, rfl, rfl⟩

end Sig.Traversal
