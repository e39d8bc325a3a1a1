import SocketPlusPlus.Fork.Family

/-!
# Objects and their children

A family says what becomes of the children. The other direction is about the objects: a positive
`pid` in an object promises that a child with this number has not been waited for. Where the
destructor is between `reap_child` and the end, the promise is broken for the one object it is at,
and the family is still that of before: `Proc.plus` puts the child back for the statements.
-/

namespace Fork

open Exec Linked

/-- No object is new, and each of those that are left has the pid it had. -/
def Kept (p p' : Proc) : Prop :=
  ∀ b n', cell? p'.nodes b = some n' → ∃ n, cell? p.nodes b = some n ∧ n.pid = n'.pid

/-- Every object with a positive pid, but for `but`, is that of a child. -/
def Proc.Honest (p : Proc) (but : Option Nat) : Prop :=
  ∀ b n, but ≠ some b → cell? p.nodes b = some n → 0 < n.pid → ∃ c ∈ p.children, c.owner = b

/-- The process with the children `ghost` put back. -/
def Proc.plus (p : Proc) (ghost : List Child) : Proc := { p with running := ghost ++ p.running }

/-- `new ForkProcess` in the parent, or the only process if `fork()` fails. An `answer` that the
kernel cannot give is no call. -/
def construct (kill giveReason : Bool) : Option Int → M Unit
  | none => modify fun p => p.alloc kill giveReason (-1)
  | some pid => do
    let p ← get
    if p.Free pid then
      modify fun p => p.allocParent kill giveReason pid
      linkNext p.nodes.length
      linkList p.nodes.length

/-- A process between two operations. -/
structure Household (p : Proc) (l : List Nat) : Prop where
  family : Family p l none
  honest : p.Honest none

section Objects

variable {p p' : Proc} {l l1 l2 : List Nat} {extra but : Option Nat} {a : Nat} {c : Child}
  {n : ForkProcess} {g : List Child}

theorem household_init : Household .init [] where
  family := family_init
  honest b n _ hb := by
    have := lt_of_cell? hb
    cases this

theorem Kept.of_nodes (h : p'.nodes = p.nodes) : Kept p p' := by
  intro b n' hb
  rw [h] at hb
  exact ⟨n', hb, rfl⟩

theorem kept_set (ha : cell? p.nodes a = some n) {n' : ForkProcess} (hpid : n'.pid = n.pid) :
    Kept p { p with nodes := p.nodes.set a (some n') } := by
  intro b m hb
  by_cases hab : a = b
  · subst hab
    rw [cell?_set_self _ (lt_of_cell? ha)] at hb
    cases hb
    exact ⟨n, ha, hpid.symm⟩
  · rw [cell?_set_ne _ hab] at hb
    exact ⟨m, hb, rfl⟩

theorem kept_free (a : Nat) : Kept p { p with nodes := p.nodes.set a none } := by
  intro b m hb
  by_cases hab : a = b
  · rw [← hab, cell?_set_none_self] at hb
    cases hb
  · rw [cell?_set_ne _ hab] at hb
    exact ⟨m, hb, rfl⟩

theorem Removed.kept (h : Removed a l1 l2 p p')
    (hchain : Chain ForkProcess.next p.nodes p.list (l1 ++ a :: l2)) : Kept p p' := by
  intro b n' hb
  have hne : b ≠ a := by
    rintro rfl
    cases h.gone.symm.trans hb
  by_cases hl1 : b ∈ l1
  · obtain ⟨n, hn⟩ := hchain.cell_of_mem (List.mem_append_left _ hl1)
    obtain ⟨m, hm, hpid⟩ := h.others b n hne hn
    cases hb.symm.trans hm
    exact ⟨n, hn, hpid.symm⟩
  · exact ⟨n', (h.outside b hne hl1).symm.trans hb, rfl⟩

theorem Proc.Honest.mono (h : p.Honest none) : p.Honest but := by
  intro b n _ hb hpos
  exact h b n (Option.some_ne_none _).symm hb hpos

/-- A child can only go with its object, or with the object that is excepted. -/
theorem Proc.Honest.of_kept (h : p.Honest but) (hkept : Kept p p')
    (hchildren : ∀ c ∈ p.children,
      c ∈ p'.children ∨ cell? p'.nodes c.owner = none ∨ but = some c.owner) : p'.Honest but := by
  intro b n' hbut hb hpos
  obtain ⟨n, hn, hpid⟩ := hkept b n' hb
  obtain ⟨c, hc, rfl⟩ := h b n hbut hn (hpid ▸ hpos)
  rcases hchildren c hc with hc' | hgone | hexcept
  · exact ⟨c, hc', rfl⟩
  · cases hgone.symm.trans hb
  · exact absurd hexcept hbut

/-- The object of a child knows its pid. -/
theorem Proc.Honest.child (h : p.Honest but) (hfamily : Family (p.plus g) l extra)
    (hbut : but ≠ some a) (ha : cell? p.nodes a = some n) (hpos : 0 < n.pid) :
    ∃ c ∈ p.children, c.owner = a ∧ c.pid = n.pid := by
  obtain ⟨c, hc, rfl⟩ := h a n hbut ha hpos
  have hin : c ∈ (p.plus g).children := by
    simp only [Proc.plus, Proc.children, List.mem_append] at hc ⊢
    tauto
  obtain ⟨-, m, hm, hpid⟩ := hfamily.node c hin
  cases ha.symm.trans hm
  exact ⟨c, hc, rfl, hpid.symm⟩

/-- The object at the place `a` of the list. -/
theorem Family.object (h : Family p l none) (ha : a ∈ l) :
    ∃ c n, c ∈ p.children ∧ c.owner = a ∧ cell? p.nodes a = some n ∧ n.pid = c.pid ∧ 0 < c.pid := by
  obtain ⟨c, hc, rfl⟩ := (h.listed a).mpr (.inl ha)
  obtain ⟨hpos, n, hn, hpid⟩ := h.node c hc
  exact ⟨c, n, hc, rfl, hn, hpid, hpos⟩

/-! ## Operations

One step for each operation of `Fork.Process`: it keeps the list, and every object with a positive
`pid` has a child. -/

/-- Only who the children are matters. -/
theorem Household.of_perm (h : Household p l) (hnodes : p'.nodes = p.nodes)
    (hlist : p'.list = p.list) (hperm : p'.children.Perm p.children) : Household p' l where
  family := h.family.of_perm hnodes hlist hperm
  honest := h.honest.of_kept (.of_nodes hnodes) fun _ hc => .inl (hperm.mem_iff.mpr hc)

/-- A child exits. -/
theorem exitChild_run (p : Proc) (pick : Nat) :
    ∃ p', exitChild pick p = .ok () p' ∧ p'.nodes = p.nodes ∧ p'.list = p.list ∧
      p'.effects = p.effects ∧ p'.children.Perm p.children := by
  obtain ⟨_, p', hrun, hnodes, hlist, hperm, -⟩ := (exitChild_spec p pick).exists_ok
  have heffects : wp (exitChild pick) (fun _ p' => p'.effects = p.effects) (fun _ _ => True) p := by
    unfold exitChild
    rw [wp_modify]
    cases p.running[pick % p.running.length]? <;> rfl
  exact ⟨p', hrun, hnodes, hlist, heffects.of_ok hrun, hperm⟩

/-- The handler reaps a child whose object is in the list. -/
theorem handler_step (h : Family (p.plus g) l extra) (hhonest : p.Honest but) {pick : Nat}
    (hpick : p.zombies[pick % p.zombies.length]? = some c) (hlinked : extra ≠ some c.owner) :
    ∃ p' l1 l2, l = l1 ++ c.owner :: l2 ∧ reaperNohang pick p = .ok () p' ∧
      Removed c.owner l1 l2 { p with zombies := p.zombies.erase c } p' ∧ Kept p p' ∧
      Family (p'.plus g) (l1 ++ l2) extra ∧ p'.Honest but ∧ p'.signalled = p.signalled := by
  have hmem := List.mem_of_getElem? hpick
  have hchild : c ∈ (p.plus g).children := List.mem_append.mpr (.inr hmem)
  obtain ⟨p', l1, l2, rfl, hrun, hremoved, hsilent⟩ :=
    h.handler (p := p) rfl rfl hpick hchild hlinked
  have hkept : Kept p p' := hremoved.kept h.chain
  refine ⟨p', l1, l2, rfl, hrun, hremoved, hkept, ?_, ?_, hsilent⟩
  · refine h.of_gone ?_ rfl hlinked hremoved.chain hremoved.others
    show (c :: (g ++ p'.running ++ p'.zombies)).Perm (g ++ p.running ++ p.zombies)
    rw [hremoved.running, hremoved.zombies]
    refine List.perm_middle.symm.trans ?_
    exact (List.perm_cons_erase hmem).symm.append_left _
  · refine hhonest.of_kept hkept fun d hd => ?_
    unfold Proc.children at hd ⊢
    rw [hremoved.running, hremoved.zombies]
    by_cases hdc : d = c
    · rw [hdc]
      exact .inr (.inl hremoved.gone)
    · simp only [List.mem_append] at hd ⊢
      exact .inl (hd.imp_right fun hz => (List.mem_erase_of_ne hdc).mpr hz)

/-- `fork()` fails. -/
theorem Household.alloc (h : Household p l) (kill giveReason : Bool) {pid : Int} (hpid : pid ≤ 0) :
    Household (p.alloc kill giveReason pid) l where
  family := h.family.alloc kill giveReason pid
  honest b n hbut hb hpos := by
    by_cases hnew : b = p.nodes.length
    · rw [hnew, Proc.alloc, cell?_append_self] at hb
      cases hb
      exact absurd hpos (Int.not_lt.mpr hpid)
    · exact h.honest b n hbut ((cell?_append_ne _ hnew).symm.trans hb) hpos

/-- The object that is being built is that of the new child. -/
theorem Household.allocParent (h : Household p l) {pid : Int} (hfree : p.Free pid)
    (kill giveReason : Bool) :
    Family (p.allocParent kill giveReason pid) l (some p.nodes.length) ∧
      (p.allocParent kill giveReason pid).Honest none := by
  refine ⟨h.family.allocParent hfree kill giveReason, ?_⟩
  intro b n hbut hb hpos
  by_cases hnew : b = p.nodes.length
  · refine ⟨⟨pid, p.nodes.length⟩, ?_, hnew.symm⟩
    simp [Proc.allocParent, Proc.children]
  · obtain ⟨c, hc, hcb⟩ := h.honest b n hbut ((cell?_append_ne _ hnew).symm.trans hb) hpos
    refine ⟨c, ?_, hcb⟩
    simp only [Proc.allocParent, Proc.alloc, Proc.children, List.mem_append] at hc ⊢
    tauto

/-- `next = list` -/
theorem linkNext_step (h : Family p l (some a)) (hhonest : p.Honest but) :
    ∃ p', Fork.linkNext a p = .ok () p' ∧ Family p' l (some a) ∧ p'.Honest but ∧
      (∃ n, cell? p'.nodes a = some n ∧ n.next = p'.list) ∧ Kept p p' ∧
      p'.children = p.children ∧ p'.effects = p.effects ∧ p'.list = p.list := by
  obtain ⟨p', hrun, hfamily, hrunning, hzombies, hlink, -⟩ := h.linkNext
  obtain ⟨c, hc, hca⟩ := (h.listed a).mpr (.inr rfl)
  obtain ⟨-, n, hn, -⟩ := h.node c hc
  rw [hca] at hn
  have hstore : p' = { p with nodes := p.nodes.set a (some { n with next := p.list }) } := by
    unfold Fork.linkNext at hrun
    rw [bind_ok (deref_some hn)] at hrun
    cases hrun
    rfl
  have hchildren : p'.children = p.children := by
    unfold Proc.children
    rw [hrunning, hzombies]
  have hkept : Kept p p' := by
    rw [hstore]
    exact kept_set hn rfl
  refine ⟨p', hrun, hfamily, ?_, hlink, hkept, hchildren, ?_, ?_⟩
  · refine hhonest.of_kept hkept fun d hd => .inl ?_
    rw [hchildren]
    exact hd
  · rw [hstore]
  · rw [hstore]

/-- A child more, and its object in front of the others. -/
theorem Household.construct (h : Household p l) {pid : Int} (hfree : p.Free pid)
    (kill giveReason : Bool) :
    ∃ p', construct kill giveReason (some pid) p = .ok () p' ∧
      Household p' (p.nodes.length :: l) ∧ Kept (p.allocParent kill giveReason pid) p' ∧
      p'.children = (p.allocParent kill giveReason pid).children ∧ p'.effects = p.effects := by
  obtain ⟨hfamily, hhonest⟩ := h.allocParent hfree kill giveReason
  obtain ⟨p', hnext, hfamily', hhonest', hlink, hkept, hchildren, heffects, -⟩ :=
    linkNext_step hfamily hhonest
  refine ⟨{ p' with list := some p.nodes.length }, ?_, ⟨hfamily'.linkList hlink, hhonest'⟩, hkept,
    hchildren, heffects⟩
  show (if p.Free pid then _ else _ : M Unit) p = _
  rw [if_pos hfree]
  show (linkNext p.nodes.length >>= fun _ => linkList p.nodes.length : M Unit)
    (p.allocParent kill giveReason pid) = _
  rw [bind_ok hnext]
  rfl

/-- What has been sent and printed does not matter. -/
theorem Household.noted (h : Household p l) (es : List Effect) :
    Household { p with effects := es } l where
  family := h.family.of_perm rfl rfl (.refl _)
  honest := h.honest

/-- An object without a child is deleted. -/
theorem Household.free (h : Household p l) (ha : cell? p.nodes a = some n) (hpid : n.pid ≤ 0) :
    Household { p with nodes := p.nodes.set a none } l where
  family := h.family.of_delete (h.family.not_listed ha hpid)
  honest := h.honest.of_kept (kept_free a) fun _ hc => .inl hc

/-- The object of a child is deleted. -/
theorem Household.delete (h : Household p l) (hc : c ∈ p.children) :
    ∃ p' l1 l2 n, cell? p.nodes c.owner = some n ∧ n.pid = c.pid ∧ l = l1 ++ c.owner :: l2 ∧
      delete c.owner p = .ok () p' ∧ Removed c.owner l1 l2 (p.waited c.pid) p' ∧
      (c :: p'.children).Perm p.children ∧ Household p' (l1 ++ l2) ∧
      p'.effects = p.effects ++ n.parting := by
  obtain ⟨p', l1, l2, n, hn, hpid, rfl, hrun, hremoved, hfamily, heffects⟩ := h.family.delete hc
  have hchildren : p'.children = (p.waited c.pid).children := by
    unfold Proc.children
    rw [hremoved.running, hremoved.zombies]
  have hperm : (c :: p'.children).Perm p.children := by
    rw [hchildren]
    exact h.family.perm_waited hc
  have hkept : Kept (p.waited c.pid) p' := hremoved.kept h.family.chain
  refine ⟨p', l1, l2, n, hn, hpid, rfl, hrun, hremoved, hperm, ⟨hfamily, ?_⟩, heffects⟩
  refine h.honest.of_kept hkept fun d hd => ?_
  rcases List.mem_cons.mp (hperm.mem_iff.mpr hd) with rfl | hd
  · exact .inr (.inl hremoved.gone)
  · exact .inl hd

end Objects

/-- A process with one child, whose flag is `kill`. -/
def oneChild (kill : Bool) : Proc := ⟨[some ⟨10, kill, false, none⟩], some 0, [⟨10, 0⟩], [], []⟩

theorem household_oneChild (kill : Bool) : Household (oneChild kill) [0] := by
  have hfree : Proc.init.Free 10 := by decide
  obtain ⟨p, hrun, hhouse, -⟩ := household_init.construct hfree kill false
  have hone : construct kill false (some 10) .init = .ok () (oneChild kill) := by
    cases kill <;> rfl
  cases hrun.symm.trans hone
  exact hhouse

/-- A process with two children, the older one first. -/
def siblings (kill kill' : Bool) : Proc :=
  ⟨[some ⟨10, kill, false, none⟩, some ⟨11, kill', false, some 0⟩], some 1, [⟨10, 0⟩, ⟨11, 1⟩], [],
    []⟩

theorem household_siblings (kill kill' : Bool) : Household (siblings kill kill') [1, 0] := by
  have hfree : (oneChild kill).Free 11 := by cases kill <;> decide
  obtain ⟨p, hrun, hhouse, -⟩ := (household_oneChild kill).construct hfree kill' false
  have htwo : construct kill' false (some 11) (oneChild kill) = .ok () (siblings kill kill') := by
    cases kill <;> cases kill' <;> rfl
  cases hrun.symm.trans htwo
  exact hhouse

end Fork
