import SocketPlusPlus.Fork.Process

/-!
# The children and the list

`Family p l extra` ties the kernel's table of children to `ForkProcess::list`: the list is `l`, it
holds exactly the objects of the children that have not been waited for, and each object knows the
pid of its child. `extra` is an object that is still being linked: it has a child already and is not
in the list yet. Each operation has one lemma here that says which family it leaves.
-/

namespace Fork

open Exec Linked

structure Family (p : Proc) (l : List Nat) (extra : Option Nat) : Prop where
  chain : Chain ForkProcess.next p.nodes p.list l
  apart : ∀ a, extra = some a → a ∉ l
  nodup : p.children.Nodup
  pid_inj : ∀ c ∈ p.children, ∀ c' ∈ p.children, c.pid = c'.pid → c = c'
  owner_inj : ∀ c ∈ p.children, ∀ c' ∈ p.children, c.owner = c'.owner → c = c'
  node : ∀ c ∈ p.children, 0 < c.pid ∧ ∃ n, cell? p.nodes c.owner = some n ∧ n.pid = c.pid
  listed : ∀ a, (∃ c ∈ p.children, c.owner = a) ↔ a ∈ l ∨ extra = some a

section Family

variable {p p' q q' : Proc} {l l1 l2 : List Nat} {extra : Option Nat} {a : Nat} {c : Child}

/-- A process that has no children has an empty list. -/
theorem family_none (nodes : List (Option ForkProcess)) (effects : List Effect) :
    Family ⟨nodes, none, [], [], effects⟩ [] none where
  chain := .nil
  apart a h := by cases h
  nodup := List.nodup_nil
  pid_inj c h := by cases h
  owner_inj c h := by cases h
  node c h := by cases h
  listed a := by simp [Proc.children]

theorem family_init : Family .init [] none := family_none [] []

/-- Only who the children are matters, not in which state they are. -/
theorem Family.of_perm (h : Family p l extra) (hnodes : p'.nodes = p.nodes)
    (hlist : p'.list = p.list) (hperm : p'.children.Perm p.children) : Family p' l extra where
  chain := by rw [hnodes, hlist]; exact h.chain
  apart := h.apart
  nodup := hperm.nodup_iff.mpr h.nodup
  pid_inj c hc c' hc' := h.pid_inj c (hperm.mem_iff.mp hc) c' (hperm.mem_iff.mp hc')
  owner_inj c hc c' hc' := h.owner_inj c (hperm.mem_iff.mp hc) c' (hperm.mem_iff.mp hc')
  node c hc := by rw [hnodes]; exact h.node c (hperm.mem_iff.mp hc)
  listed a := by simp only [hperm.mem_iff]; exact h.listed a

/-- An exit makes a zombie of a running child. -/
theorem exitChild_spec (p : Proc) (pick : Nat) :
    wp (exitChild pick) (fun _ p' => p'.nodes = p.nodes ∧ p'.list = p.list ∧
      p'.children.Perm p.children ∧ p'.zombies.length ≤ p.zombies.length + 1)
      (fun _ _ => False) p := by
  unfold exitChild
  rw [wp_modify]
  cases hpick : p.running[pick % p.running.length]? with
  | none => exact ⟨rfl, rfl, .refl _, Nat.le_succ _⟩
  | some c =>
    have hmem := List.mem_of_getElem? hpick
    refine ⟨rfl, rfl, ?_, ?_⟩
    · have hmove : (p.running.erase c ++ (p.zombies ++ [c])).Perm
          (c :: p.running.erase c ++ p.zombies) := by
        rw [← List.append_assoc]
        exact List.perm_append_singleton c _
      exact hmove.trans ((List.perm_cons_erase hmem).symm.append_right _)
    · exact Nat.le_of_eq List.length_append

/-- Without a zombie `waitpid` returns 0, and the handler does nothing. -/
theorem reaperNohang_idle {pick : Nat} (hpick : p.zombies[pick % p.zombies.length]? = none) :
    reaperNohang pick p = .ok () p := by
  have hwait : waitAny pick p = .ok 0 p := by
    unfold waitAny
    rw [hpick]
  unfold reaperNohang
  rw [bind_ok hwait, if_neg (by decide)]
  rfl

/-- A child that is done has been waited for, and its object is out of the list and deleted. Of the
kernel's children the handler looks at the zombies only, so that the family may be that of a process
`q` with more of them. -/
theorem Family.handler (h : Family q l extra) (hnodes : q.nodes = p.nodes) (hlist : q.list = p.list)
    {pick : Nat} (hpick : p.zombies[pick % p.zombies.length]? = some c) (hchild : c ∈ q.children)
    (hlinked : extra ≠ some c.owner) :
    ∃ p' l1 l2, l = l1 ++ c.owner :: l2 ∧ reaperNohang pick p = .ok () p' ∧
      Removed c.owner l1 l2 { p with zombies := p.zombies.erase c } p' ∧
      p'.signalled = p.signalled := by
  obtain ⟨hpos, n, hn, hpid⟩ := h.node c hchild
  have howner : c.owner ∈ l := by
    rcases (h.listed c.owner).mp ⟨c, hchild, rfl⟩ with hin | hextra
    · exact hin
    · exact absurd hextra hlinked
  obtain ⟨l1, l2, hl⟩ := List.append_of_mem howner
  let p1 : Proc := { p with zombies := p.zombies.erase c }
  have hwait : waitAny pick p = .ok c.pid p1 := by
    unfold waitAny
    rw [hpick]
  have hchain : Chain ForkProcess.next p1.nodes p1.list ([] ++ l1 ++ c.owner :: l2) := by
    show Chain _ p.nodes p.list _
    rw [List.nil_append, ← hl, ← hnodes, ← hlist]
    exact h.chain
  have hn1 : cell? p1.nodes c.owner = some n := by
    rw [← hn, hnodes]
  -- the objects in front belong to other children
  have hother : ∀ b ∈ l1, ∀ m, cell? p1.nodes b = some m → m.pid ≠ c.pid := by
    intro b hb m hm heq
    obtain ⟨c', hc', rfl⟩ := (h.listed b).mpr (.inl (by rw [hl]; simp [hb]))
    obtain ⟨-, m', hm', hpid'⟩ := h.node c' hc'
    rw [hnodes] at hm'
    cases hm.symm.trans hm'
    have hsame : c' = c := h.pid_inj c' hc' c hchild (hpid'.symm.trans heq)
    have hnodup := h.chain.nodup
    rw [hl, List.nodup_append] at hnodup
    rw [hsame] at hb
    exact hnodup.2.2 c.owner hb c.owner List.mem_cons_self rfl
  have hfuel : l1.length < p1.nodes.length + 1 := by
    have hlen := h.chain.length_le
    rw [hl, hnodes] at hlen
    simp only [List.length_append, List.length_cons] at hlen
    show l1.length < p.nodes.length + 1
    omega
  obtain ⟨p', hloop, hremoved, hsilent⟩ :=
    reapLoop_spec (w := c.pid) hchain hchain hother hn1 hpid hfuel
  refine ⟨p', l1, l2, hl, ?_, hremoved, hsilent⟩
  have hget : (get : M Proc) p1 = .ok p1 p1 := rfl
  unfold Fork.reaperNohang
  rw [bind_ok hwait, if_pos hpos, bind_ok hget]
  exact hloop

theorem Family.reaperNohang (h : Family p l extra) {pick : Nat}
    (hpick : p.zombies[pick % p.zombies.length]? = some c) (hlinked : extra ≠ some c.owner) :
    ∃ p' l1 l2, l = l1 ++ c.owner :: l2 ∧ reaperNohang pick p = .ok () p' ∧
      Removed c.owner l1 l2 { p with zombies := p.zombies.erase c } p' := by
  have hchild : c ∈ p.children := List.mem_append.mpr (.inr (List.mem_of_getElem? hpick))
  obtain ⟨p', l1, l2, hl, hrun, hremoved, -⟩ := h.handler rfl rfl hpick hchild hlinked
  exact ⟨p', l1, l2, hl, hrun, hremoved⟩

/-- Without a child and its object the rest is a family. -/
theorem Family.of_gone (h : Family q l extra) (hperm : (c :: q'.children).Perm q.children)
    (hl : l = l1 ++ c.owner :: l2) (hlinked : extra ≠ some c.owner)
    (hchain : Chain ForkProcess.next q'.nodes q'.list (l1 ++ l2))
    (hothers : ∀ b n, b ≠ c.owner → cell? q.nodes b = some n →
      ∃ n', cell? q'.nodes b = some n' ∧ n'.pid = n.pid) : Family q' (l1 ++ l2) extra := by
  have hchild : c ∈ q.children := hperm.mem_iff.mp List.mem_cons_self
  have hnodup' : (c :: q'.children).Nodup := hperm.nodup_iff.mpr h.nodup
  have hmem' : ∀ d, d ∈ q'.children ↔ d ∈ q.children ∧ d ≠ c := by
    intro d
    rw [← hperm.mem_iff, List.mem_cons]
    constructor
    · intro hd
      refine ⟨.inr hd, ?_⟩
      rintro rfl
      exact (List.nodup_cons.mp hnodup').1 hd
    · rintro ⟨rfl | hd, hne⟩
      · exact absurd rfl hne
      · exact hd
  have hlnodup := h.chain.nodup
  rw [hl] at hlnodup
  have hnot : c.owner ∉ l1 ++ l2 := by
    have := List.nodup_middle.mp hlnodup
    exact (List.nodup_cons.mp this).1
  have hin : ∀ b, b ∈ l ↔ b = c.owner ∨ b ∈ l1 ++ l2 := by
    intro b
    rw [hl]
    simp only [List.mem_append, List.mem_cons]
    tauto
  refine ⟨hchain, ?_, (List.nodup_cons.mp hnodup').2, ?_, ?_, ?_, ?_⟩
  · intro b hb hbl
    exact h.apart b hb ((hin b).mpr (.inr hbl))
  · intro d hd d' hd'
    exact h.pid_inj d ((hmem' d).mp hd).1 d' ((hmem' d').mp hd').1
  · intro d hd d' hd'
    exact h.owner_inj d ((hmem' d).mp hd).1 d' ((hmem' d').mp hd').1
  · intro d hd
    obtain ⟨hd, hne⟩ := (hmem' d).mp hd
    obtain ⟨hpos, n, hn, hpid⟩ := h.node d hd
    -- no other child lost its object
    have howner : d.owner ≠ c.owner := fun heq => hne (h.owner_inj d hd c hchild heq)
    obtain ⟨n', hn', hpid'⟩ := hothers d.owner n howner hn
    exact ⟨hpos, n', hn', hpid'.trans hpid⟩
  · intro b
    constructor
    · rintro ⟨d, hd, rfl⟩
      obtain ⟨hd, hne⟩ := (hmem' d).mp hd
      rcases (h.listed d.owner).mp ⟨d, hd, rfl⟩ with hbl | hextra
      · rcases (hin d.owner).mp hbl with heq | hbl
        · exact absurd (h.owner_inj d hd c hchild heq) hne
        · exact .inl hbl
      · exact .inr hextra
    · intro hb
      have hne : b ≠ c.owner := by
        rintro rfl
        rcases hb with hbl | hextra
        · exact hnot hbl
        · exact hlinked hextra
      have hold : b ∈ l ∨ extra = some b := hb.imp_left fun hbl => (hin b).mpr (.inr hbl)
      obtain ⟨d, hd, rfl⟩ := (h.listed b).mpr hold
      refine ⟨d, (hmem' d).mpr ⟨hd, ?_⟩, rfl⟩
      rintro rfl
      exact hne rfl

theorem Family.of_removed (h : Family p l extra) (hmem : c ∈ p.zombies)
    (hl : l = l1 ++ c.owner :: l2) (hlinked : extra ≠ some c.owner)
    (hremoved : Removed c.owner l1 l2 { p with zombies := p.zombies.erase c } p') :
    Family p' (l1 ++ l2) extra := by
  refine h.of_gone ?_ hl hlinked hremoved.chain hremoved.others
  unfold Proc.children
  rw [hremoved.running, hremoved.zombies]
  refine List.perm_middle.symm.trans ?_
  exact (List.perm_cons_erase hmem).symm.append_left _

/-! ## The destructor

It takes the child away and the object with it, wherever the object is in the list. -/

/-- To wait for a child takes that child, and no other, off the kernel's table. -/
theorem Family.perm_waited (h : Family p l extra) (hc : c ∈ p.children) :
    (c :: (p.waited c.pid).children).Perm p.children := by
  have hfilter : (p.waited c.pid).children = p.children.filter (·.pid ≠ c.pid) :=
    (List.filter_append ..).symm
  rw [hfilter]
  refine (List.perm_ext_iff_of_nodup ?_ h.nodup).mpr fun d => ?_
  · refine List.nodup_cons.mpr ⟨?_, h.nodup.filter _⟩
    simp
  · simp only [List.mem_cons, List.mem_filter, decide_eq_true_eq]
    constructor
    · rintro (rfl | hd)
      · exact hc
      · exact hd.1
    · intro hd
      by_cases hpid : d.pid = c.pid
      · exact .inl (h.pid_inj d hd c hc hpid)
      · exact .inr ⟨hd, hpid⟩

/-- `delete` of the object of a child: the child has got its signal and has been waited for. -/
theorem Family.delete (h : Family p l none) (hc : c ∈ p.children) :
    ∃ p' l1 l2 n, cell? p.nodes c.owner = some n ∧ n.pid = c.pid ∧ l = l1 ++ c.owner :: l2 ∧
      delete c.owner p = .ok () p' ∧ Removed c.owner l1 l2 (p.waited c.pid) p' ∧
      Family p' (l1 ++ l2) none ∧ p'.effects = p.effects ++ n.parting := by
  have hextra : (none : Option Nat) ≠ some c.owner := fun h => by cases h
  obtain ⟨hpos, n, hn, hpid⟩ := h.node c hc
  have hlisted : c.owner ∈ l := ((h.listed c.owner).mp ⟨c, hc, rfl⟩).resolve_right hextra
  obtain ⟨l1, l2, hl⟩ := List.append_of_mem hlisted
  have hchain := h.chain
  rw [hl] at hchain
  obtain ⟨p', hrun, hremoved, heffects⟩ :=
    delete_listed hchain hn (hpid ▸ hpos) ⟨c, hc, hpid.symm⟩
  rw [hpid] at hremoved
  refine ⟨p', l1, l2, n, hn, hpid, hl, hrun, hremoved, ?_, heffects⟩
  refine h.of_gone ?_ hl hextra hremoved.chain hremoved.others
  have hchildren : p'.children = (p.waited c.pid).children := by
    unfold Proc.children
    rw [hremoved.running, hremoved.zombies]
  rw [hchildren]
  exact h.perm_waited hc

/-! ## The constructor

Between `fork()` and `list = this` there is a child whose object is not in the list yet. -/

/-- More storage changes nothing for the family. -/
theorem Family.alloc (h : Family p l extra) (kill giveReason : Bool) (pid : Int) :
    Family (p.alloc kill giveReason pid) l extra where
  chain := h.chain.append _
  apart := h.apart
  nodup := h.nodup
  pid_inj := h.pid_inj
  owner_inj := h.owner_inj
  node c hc := by
    obtain ⟨hpos, n, hn, hpid⟩ := h.node c hc
    exact ⟨hpos, n, cell?_append_of_some _ hn, hpid⟩
  listed := h.listed

/-- A child that `fork()` has just made, whose object is not linked yet. -/
theorem Family.allocParent (h : Family p l none) {pid : Int} (hfree : p.Free pid)
    (kill giveReason : Bool) :
    Family (p.allocParent kill giveReason pid) l (some p.nodes.length) := by
  let child : Child := ⟨pid, p.nodes.length⟩
  have hold : ∀ c ∈ p.children, c.owner < p.nodes.length := by
    intro c hc
    obtain ⟨-, n, hn, -⟩ := h.node c hc
    exact lt_of_cell? hn
  have hmem : ∀ c, c ∈ (p.running ++ [child]) ++ p.zombies ↔ c = child ∨ c ∈ p.children := by
    intro c
    simp only [Proc.children, List.mem_append, List.mem_singleton]
    tauto
  have hpid : ∀ c ∈ p.children, c.pid ≠ child.pid := hfree.2
  have howner : ∀ c ∈ p.children, c.owner ≠ child.owner := fun c hc => Nat.ne_of_lt (hold c hc)
  -- its number is free and its object is behind all others, so it is nobody's
  have hnew : child ∉ p.children := fun hc => hpid child hc rfl
  refine ⟨h.chain.append _, ?_, ?_, ?_, ?_, ?_, ?_⟩
  · intro a ha hal
    cases ha
    obtain ⟨n, hn⟩ := h.chain.cell_of_mem hal
    exact Nat.lt_irrefl _ (lt_of_cell? hn)
  · show ((p.running ++ [child]) ++ p.zombies).Nodup
    rw [List.append_assoc]
    exact List.nodup_middle.mpr (List.nodup_cons.mpr ⟨hnew, h.nodup⟩)
  · intro c hc c' hc' heq
    rcases (hmem c).mp hc with rfl | hc
    · rcases (hmem c').mp hc' with rfl | hc'
      · rfl
      · exact absurd heq.symm (hpid c' hc')
    · rcases (hmem c').mp hc' with rfl | hc'
      · exact absurd heq (hpid c hc)
      · exact h.pid_inj c hc c' hc' heq
  · intro c hc c' hc' heq
    rcases (hmem c).mp hc with rfl | hc
    · rcases (hmem c').mp hc' with rfl | hc'
      · rfl
      · exact absurd heq.symm (howner c' hc')
    · rcases (hmem c').mp hc' with rfl | hc'
      · exact absurd heq (howner c hc)
      · exact h.owner_inj c hc c' hc' heq
  · intro c hc
    rcases (hmem c).mp hc with rfl | hc
    · exact ⟨hfree.1, _, cell?_append_self _ _, rfl⟩
    · obtain ⟨hpos, n, hn, hpid⟩ := h.node c hc
      exact ⟨hpos, n, cell?_append_of_some _ hn, hpid⟩
  · intro a
    have hiff := h.listed a
    constructor
    · rintro ⟨c, hc, rfl⟩
      rcases (hmem c).mp hc with rfl | hc
      · exact .inr rfl
      · rcases hiff.mp ⟨c, hc, rfl⟩ with hin | hnone
        · exact .inl hin
        · cases hnone
    · rintro (hin | hextra)
      · obtain ⟨c, hc, hca⟩ := hiff.mpr (.inl hin)
        exact ⟨c, (hmem c).mpr (.inr hc), hca⟩
      · cases hextra
        exact ⟨child, (hmem child).mpr (.inl rfl), rfl⟩

/-- `next = list` of the object that is not linked yet. -/
theorem Family.linkNext (h : Family p l (some a)) :
    ∃ p', linkNext a p = .ok () p' ∧ Family p' l (some a) ∧ p'.running = p.running ∧
      p'.zombies = p.zombies ∧ (∃ n, cell? p'.nodes a = some n ∧ n.next = p'.list) ∧
      ∀ b m, cell? p.nodes b = some m → ∃ m', cell? p'.nodes b = some m' := by
  obtain ⟨c, hc, hca⟩ := (h.listed a).mpr (.inr rfl)
  obtain ⟨-, n, hn, -⟩ := h.node c hc
  rw [hca] at hn
  have hself := cell?_set_self (some { n with next := p.list }) (lt_of_cell? hn)
  refine ⟨{ p with nodes := p.nodes.set a (some { n with next := p.list }) }, ?_, ?_, rfl, rfl,
    ⟨_, hself, rfl⟩, ?_⟩
  · unfold Fork.linkNext
    rw [bind_ok (deref_some hn)]
    rfl
  · refine ⟨h.chain.set_of_not_mem (h.apart a rfl) _, h.apart, h.nodup, h.pid_inj, h.owner_inj, ?_,
      h.listed⟩
    intro d hd
    obtain ⟨hpos, m, hm, hpid⟩ := h.node d hd
    refine ⟨hpos, ?_⟩
    by_cases had : a = d.owner
    · rw [← had] at hm ⊢
      cases hn.symm.trans hm
      exact ⟨_, hself, hpid⟩
    · exact ⟨m, (cell?_set_ne _ had).trans hm, hpid⟩
  · intro b m hm
    by_cases hab : a = b
    · subst hab
      exact ⟨_, hself⟩
    · exact ⟨m, (cell?_set_ne _ hab).trans hm⟩

/-- `list = this` -/
theorem Family.linkList (h : Family p l (some a))
    (hnext : ∃ n, cell? p.nodes a = some n ∧ n.next = p.list) :
    Family { p with list := some a } (a :: l) none := by
  obtain ⟨n, hn, hlink⟩ := hnext
  refine ⟨h.chain.push hn hlink, ?_, h.nodup, h.pid_inj, h.owner_inj, h.node, ?_⟩
  · intro b hb
    cases hb
  · intro b
    have hiff := h.listed b
    simp only [Option.some.injEq] at hiff
    show _ ↔ b ∈ a :: l ∨ none = some b
    rw [List.mem_cons]
    constructor
    · intro hb
      rcases hiff.mp hb with hin | rfl
      · exact .inl (.inr hin)
      · exact .inl (.inl rfl)
    · rintro ((rfl | hin) | hnone)
      · exact hiff.mpr (.inr rfl)
      · exact hiff.mpr (.inl hin)
      · cases hnone

/-! ## What else happens to objects -/

/-- An object without a child is not in the list. -/
theorem Family.not_listed (h : Family p l none) {n : ForkProcess} (ha : cell? p.nodes a = some n)
    (hpid : n.pid ≤ 0) : ¬ ∃ c ∈ p.children, c.owner = a := by
  rintro ⟨c, hc, rfl⟩
  obtain ⟨hpos, m, hm, hmpid⟩ := h.node c hc
  cases ha.symm.trans hm
  omega

/-- It can be deleted. -/
theorem Family.of_delete (h : Family p l none) (hnot : ¬ ∃ c ∈ p.children, c.owner = a) :
    Family { p with nodes := p.nodes.set a none } l none := by
  have hal : a ∉ l := fun hin => hnot ((h.listed a).mpr (.inl hin))
  refine ⟨h.chain.set_of_not_mem hal _, h.apart, h.nodup, h.pid_inj, h.owner_inj, ?_, h.listed⟩
  intro c hc
  obtain ⟨hpos, n, hn, hpid⟩ := h.node c hc
  have hne : a ≠ c.owner := fun heq => hnot ⟨c, hc, heq.symm⟩
  exact ⟨hpos, n, (cell?_set_ne _ hne).trans hn, hpid⟩

/-- The loop in the child deletes what is in the list, and nothing else. Induction on the list. -/
theorem clearLoop_spec {cur : Option Nat} {fuel : Nat}
    (hchain : Chain ForkProcess.next p.nodes cur l) (hfuel : l.length ≤ fuel) :
    ∃ nodes, clearLoop fuel cur p = .ok () { p with nodes := nodes } ∧
      (∀ a, a ∈ l → cell? nodes a = none) ∧ ∀ a, a ∉ l → cell? nodes a = cell? p.nodes a := by
  induction l generalizing cur fuel p with
  | nil =>
    have hcur := hchain.head
    subst hcur
    refine ⟨p.nodes, ?_, fun a h => (by cases h), fun _ _ => rfl⟩
    cases fuel <;> rfl
  | cons b l ih =>
    obtain ⟨rfl, n, hb, hrest⟩ := hchain.of_cons
    obtain ⟨hbl, -⟩ := List.nodup_cons.mp hchain.nodup
    obtain ⟨fuel, rfl⟩ := Nat.exists_eq_succ_of_ne_zero (Nat.ne_of_gt (Nat.zero_lt_of_lt hfuel))
    let n0 : ForkProcess := { n with pid := 0 }
    let p1 : Proc := { p with nodes := p.nodes.set b (some n0) }
    let p2 : Proc := { p with nodes := p1.nodes.set b none }
    have hb1 : cell? p1.nodes b = some n0 := cell?_set_self _ (lt_of_cell? hb)
    have hdelete : delete b p1 = .ok () p2 := delete_idle hb1 (Int.le_refl _)
    -- the rest of the list does not lead through the object that is gone
    have hrest2 : Chain ForkProcess.next p2.nodes n.next l :=
      (hrest.set_of_not_mem hbl _).set_of_not_mem hbl _
    obtain ⟨nodes, hloop, hgone, hsame⟩ := ih hrest2 (Nat.le_of_succ_le_succ hfuel)
    have hne2 : ∀ a, a ≠ b → cell? p2.nodes a = cell? p.nodes a := fun a hab =>
      (cell?_set_ne _ (Ne.symm hab)).trans (cell?_set_ne _ (Ne.symm hab))
    refine ⟨nodes, ?_, ?_, ?_⟩
    · have hstore : store b n0 p = .ok () p1 := rfl
      show (deref (some b) >>= _ : M Unit) p = _
      rw [bind_ok (deref_some hb), bind_ok hstore, bind_ok hdelete, hloop]
    · intro a ha
      rcases List.mem_cons.mp ha with rfl | ha
      · rw [hsame a hbl]
        exact cell?_set_none_self
      · exact hgone a ha
    · intro a ha
      rw [List.mem_cons, not_or] at ha
      rw [hsame a ha.2, hne2 a ha.1]

end Family

end Fork
