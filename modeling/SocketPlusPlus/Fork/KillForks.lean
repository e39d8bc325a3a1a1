import SocketPlusPlus.Fork.Household

/-!
# `Fork::KillForks`

The destructor of the static object `killall`, at the end of a program: it is to kill the children
that are to be killed, and to wait for the others. Its first loop deletes objects of the list while
it walks along the list, and takes the next object from the one it has just looked at.
-/

namespace Fork

open Exec Linked

/-- `for (cur = list; cur; cur = cur->next) if (cur->kill_child) delete cur;` -/
def killLoop : Nat → Option Nat → M Unit
  | _, none => pure ()
  | 0, some _ => throw .outOfFuel
  | fuel + 1, some cur => do
    let n ← deref (some cur)
    let _ ← (if n.killChild then delete cur else pure ())
    let cur ← deref (some cur)
    killLoop fuel cur.next

/-- `wait(0)`: waits until one of the children has exited, and `pick` says which. -/
def waitChild (pick : Nat) : M Int := fun p =>
  match p.children[pick % p.children.length]? with
  | none => .ok (-1) p
  | some c => .ok c.pid { p with running := p.running.erase c, zombies := p.zombies.erase c }

/-- `while (list && wait(0) > 0);` -/
def waitLoop (picks : Nat → Nat) : Nat → M Unit
  | 0 => throw .outOfFuel
  | fuel + 1 => do
    let p ← get
    if p.list ≠ none then
      let pid ← waitChild (picks fuel)
      if 0 < pid then waitLoop picks fuel

/-- `~KillForks()` -/
def killForks (picks : Nat → Nat) (fuel : Nat) : M Unit := do
  let p ← get
  killLoop (p.nodes.length + 1) p.list
  waitLoop picks fuel

/-! ## What is expected

Every child that is to be killed gets its `SIGTERM`, and all children are waited for. The flags are
tested on the objects of the list. -/

/-- The child's object has `kill_child` set. -/
def Proc.flagged (p : Proc) (c : Child) : Bool := (cell? p.nodes c.owner).any (·.killChild)

/-- Every child with the flag gets one `SIGTERM`, no child gets another signal, all children have
been waited for at the end, no deleted object is looked at, and the loops end: the last one needs a
round for each child. -/
def Proc.CleansUp (p : Proc) : Prop :=
  ∀ picks fuel, p.children.length < fuel →
    wp (killForks picks fuel)
      (fun _ p' => (∃ es, p'.effects = p.effects ++ es ∧
          (es.filter (·.signal?.isSome)).Perm
            ((p.children.filter p.flagged).map fun c => .sigterm c.pid)) ∧ p'.children = [])
      (fun _ _ => False) p

section KillForks

variable {p : Proc} {l : List Nat} {cur : Option Nat} {fuel : Nat}

theorem Family.flagged_iff (h : Family p l none) :
    (∃ c ∈ p.children, p.flagged c = true) ↔
      ∃ a ∈ l, ∃ n, cell? p.nodes a = some n ∧ n.killChild = true := by
  constructor
  · rintro ⟨c, hc, hflag⟩
    obtain ⟨-, n, hn, -⟩ := h.node c hc
    have hin : c.owner ∈ l :=
      ((h.listed c.owner).mp ⟨c, hc, rfl⟩).resolve_right fun h => by cases h
    refine ⟨c.owner, hin, n, hn, ?_⟩
    rwa [Proc.flagged, hn] at hflag
  · rintro ⟨a, ha, n, hn, hflag⟩
    obtain ⟨c, m, hc, rfl, -⟩ := h.object ha
    refine ⟨c, hc, ?_⟩
    rwa [Proc.flagged, hn]

/-- Without a flag the first loop changes nothing. Induction on the list. -/
theorem killLoop_idle (hcur : Chain ForkProcess.next p.nodes cur l)
    (hno : ∀ a ∈ l, ∀ n, cell? p.nodes a = some n → n.killChild = false)
    (hfuel : l.length ≤ fuel) : killLoop fuel cur p = .ok () p := by
  induction l generalizing cur fuel with
  | nil =>
    rw [hcur.head]
    cases fuel <;> rfl
  | cons a l ih =>
    obtain ⟨rfl, n, hn, hrest⟩ := hcur.of_cons
    obtain ⟨fuel, rfl⟩ := Nat.exists_eq_succ_of_ne_zero (Nat.ne_of_gt (Nat.zero_lt_of_lt hfuel))
    have hflag := hno a List.mem_cons_self n hn
    show (deref (some a) >>= fun n => (if n.killChild = true then delete a else pure ()) >>= _ :
      M Unit) p = _
    rw [bind_ok (deref_some hn), hflag]
    show (deref (some a) >>= _ : M Unit) p = _
    rw [bind_ok (deref_some hn)]
    exact ih hrest (fun b hb => hno b (List.mem_cons_of_mem _ hb)) (Nat.le_of_succ_le_succ hfuel)

/-- Behind the first object with a flag the loop follows the link of an object it has deleted. -/
theorem killLoop_dangles (hcur : Chain ForkProcess.next p.nodes cur l)
    (hdelete : ∀ a ∈ l, ∃ p', delete a p = .ok () p' ∧ cell? p'.nodes a = none)
    (hflag : ∃ a ∈ l, ∃ n, cell? p.nodes a = some n ∧ n.killChild = true)
    (hfuel : l.length ≤ fuel) : ∃ a p', killLoop fuel cur p = .error (.dangling a) p' := by
  induction l generalizing cur fuel with
  | nil =>
    obtain ⟨a, ha, -⟩ := hflag
    cases ha
  | cons a l ih =>
    obtain ⟨rfl, n, hn, hrest⟩ := hcur.of_cons
    obtain ⟨fuel, rfl⟩ := Nat.exists_eq_succ_of_ne_zero (Nat.ne_of_gt (Nat.zero_lt_of_lt hfuel))
    show ∃ a' p', (deref (some a) >>= fun n =>
      (if n.killChild = true then delete a else pure ()) >>= _ : M Unit) p = _
    rw [bind_ok (deref_some hn)]
    cases hset : n.killChild with
    | true =>
      obtain ⟨p1, hrun, hgone⟩ := hdelete a List.mem_cons_self
      have hderef : deref (some a) p1 = .error (.dangling a) p1 := by
        simp only [deref, hgone]
      refine ⟨a, p1, ?_⟩
      rw [if_pos rfl, bind_ok hrun, bind_error hderef]
    | false =>
      show ∃ a' p', (deref (some a) >>= _ : M Unit) p = _
      rw [bind_ok (deref_some hn)]
      refine ih hrest (fun b hb => hdelete b (List.mem_cons_of_mem _ hb)) ?_
        (Nat.le_of_succ_le_succ hfuel)
      obtain ⟨b, hb, m, hm, hmflag⟩ := hflag
      rcases List.mem_cons.mp hb with rfl | hb
      · cases hn.symm.trans hm
        rw [hset] at hmflag
        cases hmflag
      · exact ⟨b, hb, m, hm, hmflag⟩

/-- The last loop waits for all children, one a round. -/
theorem waitLoop_ends (picks : Nat → Nat) (hpos : ∀ c ∈ p.children, 0 < c.pid)
    (hlist : p.list = none → p.children = []) (hfuel : p.children.length < fuel) :
    ∃ p', waitLoop picks fuel p = .ok () p' ∧ p'.children = [] ∧ p'.effects = p.effects := by
  induction fuel generalizing p with
  | zero => omega
  | succ fuel ih =>
    by_cases hnone : p.list = none
    · refine ⟨p, ?_, hlist hnone, rfl⟩
      show (if p.list ≠ none then _ else pure () : M Unit) p = _
      rw [if_neg (not_not_intro hnone)]
      rfl
    · have hround : waitLoop picks (fuel + 1) p = (waitChild (picks fuel) >>= fun pid =>
          if 0 < pid then waitLoop picks fuel else pure () : M Unit) p := by
        show (if p.list ≠ none then _ else pure () : M Unit) p = _
        rw [if_pos hnone]
      rw [hround]
      cases hpick : p.children[picks fuel % p.children.length]? with
      | none =>
        -- no child is left
        have hwait : waitChild (picks fuel) p = .ok (-1) p := by
          simp only [waitChild, hpick]
        refine ⟨p, ?_, ?_, rfl⟩
        · rw [bind_ok hwait, if_neg (by decide)]
          rfl
        · rw [List.getElem?_eq_none_iff] at hpick
          refine List.eq_nil_of_length_eq_zero (Nat.eq_zero_of_not_pos fun hlen => ?_)
          exact absurd (Nat.mod_lt (picks fuel) hlen) (by omega)
      | some c =>
        have hmem := List.mem_of_getElem? hpick
        let p1 : Proc := { p with running := p.running.erase c, zombies := p.zombies.erase c }
        have hwait : waitChild (picks fuel) p = .ok c.pid p1 := by
          simp only [waitChild, hpick, p1]
        have hsub : ∀ d ∈ p1.children, d ∈ p.children := by
          intro d hd
          rcases List.mem_append.mp hd with hd | hd
          · exact List.mem_append_left _ (List.mem_of_mem_erase hd)
          · exact List.mem_append_right _ (List.mem_of_mem_erase hd)
        have hless : p1.children.length < p.children.length := by
          have hrunning := List.length_erase_le (a := c) (l := p.running)
          have hzombies := List.length_erase_le (a := c) (l := p.zombies)
          show (p.running.erase c ++ p.zombies.erase c).length < (p.running ++ p.zombies).length
          rw [List.length_append, List.length_append]
          rcases List.mem_append.mp hmem with hin | hin
          · have := List.length_erase_of_mem hin
            have := List.length_pos_of_mem hin
            omega
          · have := List.length_erase_of_mem hin
            have := List.length_pos_of_mem hin
            omega
        obtain ⟨p', hloop, hdone, heffects⟩ := ih (p := p1) (fun d hd => hpos d (hsub d hd))
          (fun hlist => absurd hlist hnone) (by omega)
        refine ⟨p', ?_, hdone, heffects⟩
        rw [bind_ok hwait, if_pos (hpos c hmem), hloop]

end KillForks

/-- **When the end of the program cleans up.** `~KillForks()` signals and waits for the children as
it is to, and follows live links only, exactly if no object of the list has its flag set. No handler
runs here in the meantime; what `reaper_nohang` does between the steps of a destructor is the
business of `Fork.Stepwise`. -/
theorem killForks_cleansUp_iff {p : Proc} {l : List Nat} (h : Family p l none) :
    p.CleansUp ↔ ∀ a ∈ l, ∀ n, cell? p.nodes a = some n → n.killChild = false := by
  have hfuel : l.length ≤ p.nodes.length + 1 := Nat.le_succ_of_le h.chain.length_le
  have hget : (get : M Proc) p = .ok p p := rfl
  constructor
  · intro hclean a ha n hn
    by_contra hflag
    have hset : n.killChild = true := by simpa using hflag
    have hdelete : ∀ b ∈ l, ∃ p', delete b p = .ok () p' ∧ cell? p'.nodes b = none := by
      intro b hb
      obtain ⟨c, -, hc, rfl, -⟩ := h.object hb
      obtain ⟨p', _, _, _, -, -, -, hrun, hremoved, -⟩ := h.delete hc
      exact ⟨p', hrun, hremoved.gone⟩
    obtain ⟨b, p', hloop⟩ := killLoop_dangles h.chain hdelete ⟨a, ha, n, hn, hset⟩ hfuel
    have hrun := hclean (fun _ => 0) _ (Nat.lt_succ_self _)
    unfold killForks at hrun
    rw [wp_bind_of_ok hget, wp_bind_of_error hloop] at hrun
    exact hrun
  · intro hno picks fuel hrounds
    have hpos : ∀ c ∈ p.children, 0 < c.pid := fun c hc => (h.node c hc).1
    have hlist : p.list = none → p.children = [] := by
      intro hnone
      have hchain := h.chain
      rw [hnone] at hchain
      refine List.eq_nil_iff_forall_not_mem.mpr fun c hc => ?_
      have hin := (h.listed c.owner).mp ⟨c, hc, rfl⟩
      rw [hchain.nil_of_none] at hin
      rcases hin with hin | hin
      · cases hin
      · cases hin
    obtain ⟨p', hwait, hdone, heffects⟩ := waitLoop_ends picks hpos hlist hrounds
    unfold killForks
    rw [wp_bind_of_ok hget, wp_bind_of_ok (killLoop_idle h.chain hno hfuel), wp_iff_of_ok hwait]
    refine ⟨⟨[], ?_, ?_⟩, hdone⟩
    · rw [heffects, List.append_nil]
    · have hnone : p.children.filter p.flagged = [] := by
        rw [List.filter_eq_nil_iff]
        intro c hc hflag
        obtain ⟨a, ha, n, hn, hset⟩ := h.flagged_iff.mp ⟨c, hc, hflag⟩
        rw [hno a ha n hn] at hset
        cases hset
      rw [hnone]
      exact .refl _

/-- Two children that are waited for, and two of which the older one is to be killed. -/
theorem killForks_cleansUp_iff_siblings :
    (siblings false false).CleansUp ∧ ¬ (siblings true false).CleansUp := by
  have hall := fun kill kill' => killForks_cleansUp_iff (household_siblings kill kill').family
  constructor
  · rw [hall]
    intro a ha n hn
    rcases List.mem_pair.mp ha with rfl | rfl <;> cases hn <;> rfl
  · rw [hall]
    intro hno
    cases hno 0 (by simp) ⟨10, true, false, none⟩ rfl

/-- With one child that is to be killed, the loop reads `next` of the object it has deleted. -/
theorem killForks_follows_deleted :
    (∀ picks fuel, (attempt (killForks picks fuel) (oneChild true)).1 = .error (.dangling 0)) ∧
      ¬ (oneChild true).CleansUp := by
  have hrun : ∀ picks fuel,
      (attempt (killForks picks fuel) (oneChild true)).1 = .error (.dangling 0) :=
    fun _ _ => rfl
  refine ⟨hrun, ?_⟩
  intro hclean
  obtain ⟨_, p', hok, -⟩ := (hclean (fun _ => 0) 2 (by decide)).exists_ok
  have herror := hrun (fun _ => 0) 2
  unfold attempt at herror
  rw [hok] at herror
  cases herror

end Fork
