import SocketPlusPlus.Fork.Family

/-!
# Fork objects

A `Fork` object keeps a pointer to its `ForkProcess`. Three places delete a `ForkProcess`: `~Fork`,
the `SIGCHLD` handler, and the loop with which a new child clears the list it inherited. Only the
first knows the object. So a `Fork` object dangles as soon as its child has been reaped, and in
every child that its process forks while it lives.

An `Image` is the memory of one process with its `Fork` objects, and a world is all processes. A
fork adds an image that starts as a copy of the parent's. The result says that these two are the
only ways to a dangling `Fork` object.
-/

namespace Fork

open Exec Linked

/-- `process` of every `Fork` object, by number, with `none` for those destroyed. -/
structure Image where
  proc : Proc
  forks : List (Option Nat)
deriving DecidableEq, Repr

abbrev ImageM := EStateM Fault Image

abbrev WorldM := EStateM Fault (List Image)

/-- A program without `Fork` objects. -/
def Image.init : Image := ⟨.init, []⟩

/-! ## The operations

The members of `Fork`, and of `ForkProcess` as far as they delete something, in one process or, for
`fork()`, in two. -/

def inProc {α : Type} (c : M α) : ImageM α := zoom Image.proc (fun im p => { im with proc := p }) c

/-- The members that read `process->pid`. -/
inductive Query where
  | isChild
  | isParent
  | processId
deriving DecidableEq, Repr

def Query.answer : Query → Int → Int
  | .isChild, pid => if pid = 0 then 1 else 0
  | .isParent, pid => if 0 < pid then 1 else 0
  | .processId, pid => pid

/-- `process->pid` of the `f`-th `Fork` object, as the member `q` returns it. -/
def Image.query (q : Query) (f : Nat) : ImageM Int := do
  let im ← get
  match cell? im.forks f with
  | none => pure 0
  | some a =>
    let n ← inProc (deref (some a))
    pure (q.answer n.pid)

/-- `~Fork()` of the `f`-th `Fork` object. -/
def Image.destroy (f : Nat) : ImageM Unit := do
  let im ← get
  match cell? im.forks f with
  | none => pure ()
  | some a =>
    let n ← inProc (deref (some a))
    let _ ← (if n.pid ≤ 0 then inProc (delete a) else pure ())
    modify fun im => { im with forks := im.forks.set f none }

/-- The new `Fork` object points to the object that `new` has just returned. -/
def Image.adopt (im : Image) (p : Proc) : Image :=
  ⟨p, im.forks ++ [some im.proc.nodes.length]⟩

/-- The constructor when `fork()` fails. -/
def Image.failed (kill giveReason : Bool) : ImageM Unit :=
  modify fun im => im.adopt (im.proc.alloc kill giveReason (-1))

/-- The constructor in the parent. -/
def Image.parent (kill giveReason : Bool) (pid : Int) : ImageM Unit := do
  let im ← get
  let this := im.proc.nodes.length
  modify fun im => im.adopt (im.proc.allocParent kill giveReason pid)
  inProc (linkNext this)
  inProc (linkList this)

/-- The constructor in the child. The kernel's table of children starts empty. -/
def Image.child (kill giveReason : Bool) : ImageM Unit := do
  modify fun im => im.adopt { im.proc.alloc kill giveReason 0 with running := [], zombies := [] }
  let im ← get
  inProc (clearLoop (im.proc.nodes.length + 1) im.proc.list)
  inProc (setList none)

/-- A step of the `i`-th process. -/
def onImage {α : Type} (i : Nat) (c : ImageM α) : WorldM Unit := fun w =>
  match w[i]? with
  | none => .ok () w
  | some im =>
    match c im with
    | .ok _ im' => .ok () (w.set i im')
    | .error e im' => .error e (w.set i im')

/-- A new process whose memory starts as a copy of `im`. -/
def spawn (im : Image) (c : ImageM Unit) : WorldM Unit := fun w =>
  match c im with
  | .ok _ im' => .ok () (w ++ [im'])
  | .error e im' => .error e (w ++ [im'])

inductive Op where
  | construct (i : Nat) (kill giveReason : Bool) (answer : Option Int)
  | destroy (i f : Nat)
  | query (i : Nat) (q : Query) (f : Nat)
  | exit (i pick : Nat)
  | reap (i pick : Nat)
deriving DecidableEq, Repr

def Op.run : Op → WorldM Unit
  | .construct i kill giveReason none => onImage i (Image.failed kill giveReason)
  | .construct i kill giveReason (some pid) => do
    let w ← get
    match w[i]? with
    | none => pure ()
    | some im =>
      if im.proc.Free pid then
        onImage i (Image.parent kill giveReason pid)
        spawn im (Image.child kill giveReason)
      else pure ()
  | .destroy i f => onImage i (Image.destroy f)
  | .query i q f => onImage i (Image.query q f)
  | .exit i pick => onImage i (inProc (exitChild pick))
  | .reap i pick => onImage i (inProc (reaperNohang pick))

/-! ## What is expected

A `Fork` object points to its `ForkProcess` as long as it lives. -/

/-- Every `Fork` object that lives points to a `ForkProcess` that lives. -/
def Image.Sound (im : Image) : Prop :=
  ∀ a, some a ∈ im.forks → ∃ n, cell? im.proc.nodes a = some n

/-- In each process. -/
def AllSound (w : List Image) : Prop := ∀ im ∈ w, im.Sound

/-- No process forks while one of its `Fork` objects has its `ForkProcess` in the list, and no
process reaps a child whose `Fork` object it still has. -/
def HandlesFree : Op → List Image → Prop
  | .construct i _ _ (some pid), w => ∀ im, w[i]? = some im → im.proc.Free pid →
      ∀ a, some a ∈ im.forks → ¬ Reach ForkProcess.next im.proc.nodes im.proc.list a
  | .reap i pick, w => ∀ im, w[i]? = some im →
      ∀ c, im.proc.zombies[pick % im.proc.zombies.length]? = some c → some c.owner ∉ im.forks
  | _, _ => True

/-! ## One process

The object of a child may be deleted only when no `Fork` object points to it. -/

/-- The children and the list are a family, and the `Fork` objects are sound and share nothing. -/
structure Image.Inv (im : Image) (l : List Nat) : Prop where
  family : Family im.proc l none
  sound : im.Sound
  distinct : ∀ f g a, cell? im.forks f = some a → cell? im.forks g = some a → f = g

section Images

variable {im : Image} {l l' : List Nat} {p : Proc} {f a : Nat}

theorem inv_image_init : Image.init.Inv [] where
  family := family_init
  sound a h := by cases h
  distinct f g a h := by
    have := lt_of_cell? h
    cases this

theorem mem_of_cell? {α : Type} {cells : List (Option α)} {i : Nat} {x : α}
    (h : cell? cells i = some x) : some x ∈ cells :=
  List.mem_of_getElem? (Option.join_eq_some_iff.mp h)

theorem cell?_of_mem {α : Type} {cells : List (Option α)} {x : α} (h : some x ∈ cells) :
    ∃ i, cell? cells i = some x := by
  obtain ⟨i, hi⟩ := List.mem_iff_getElem?.mp h
  exact ⟨i, Option.join_eq_some_iff.mpr hi⟩

/-- A change of the process that leaves the objects of the `Fork` objects alive. -/
theorem Image.Inv.of_proc (h : im.Inv l) (hfamily : Family p l' none)
    (hlive : ∀ a, some a ∈ im.forks → ∃ n, cell? p.nodes a = some n) :
    Image.Inv { im with proc := p } l' :=
  ⟨hfamily, hlive, h.distinct⟩

/-- One more `Fork` object, for an object that is new. -/
theorem Image.Inv.adopt (h : im.Inv l) (hfamily : Family p l' none)
    (hnew : ∃ n, cell? p.nodes im.proc.nodes.length = some n)
    (hlive : ∀ a, some a ∈ im.forks → ∃ n, cell? p.nodes a = some n) : (im.adopt p).Inv l' := by
  -- an old `Fork` object points to an old object
  have hold : ∀ f, cell? im.forks f ≠ some im.proc.nodes.length := by
    intro f hf
    obtain ⟨n, hn⟩ := h.sound _ (mem_of_cell? hf)
    exact Nat.lt_irrefl _ (lt_of_cell? hn)
  have hcell : ∀ f a, cell? (im.forks ++ [some im.proc.nodes.length]) f = some a →
      f = im.forks.length ∧ a = im.proc.nodes.length ∨ cell? im.forks f = some a := by
    intro f a hf
    by_cases hlast : f = im.forks.length
    · rw [hlast, cell?_append_self] at hf
      cases hf
      exact .inl ⟨hlast, rfl⟩
    · rw [cell?_append_ne _ hlast] at hf
      exact .inr hf
  refine ⟨hfamily, ?_, ?_⟩
  · intro a ha
    rcases List.mem_append.mp ha with ha | ha
    · exact hlive a ha
    · cases List.mem_singleton.mp ha
      exact hnew
  · intro f g a hf hg
    rcases hcell f a hf with ⟨rfl, rfl⟩ | hf
    · rcases hcell g _ hg with ⟨rfl, -⟩ | hg
      · rfl
      · exact absurd hg (hold g)
    · rcases hcell g a hg with ⟨rfl, rfl⟩ | hg
      · exact absurd hf (hold f)
      · exact h.distinct f g a hf hg

theorem inProc_ok {α : Type} {c : M α} {x : α} (h : c im.proc = .ok x p) :
    inProc c im = .ok x { im with proc := p } := zoom_ok h

theorem wp_inProc {α : Type} {c : M α} {x : α} {Q : α → Image → Prop}
    {E : Fault → Image → Prop} (h : c im.proc = .ok x p) :
    wp (inProc c) Q E im ↔ Q x { im with proc := p } := wp_iff_of_ok (inProc_ok h)

theorem Image.query_spec (h : im.Inv l) (q : Query) (f : Nat) :
    wp (Image.query q f) (fun _ im' => im'.Inv l) (fun _ _ => False) im := by
  unfold Image.query
  rw [wp_bind, wp_get]
  split
  · exact h
  · next a ha =>
    obtain ⟨n, hn⟩ := h.sound a (mem_of_cell? ha)
    rw [wp_bind, wp_inProc (deref_some hn)]
    exact h

/-- The handle is gone, and with it, if the child is done, the object. -/
theorem Image.destroy_spec (h : im.Inv l) (f : Nat) :
    wp (Image.destroy f) (fun _ im' => im'.Inv l) (fun _ _ => False) im := by
  unfold Image.destroy
  rw [wp_bind, wp_get]
  split
  · exact h
  · next a ha =>
    obtain ⟨n, hn⟩ := h.sound a (mem_of_cell? ha)
    have hcell : ∀ g b, cell? (im.forks.set f none) g = some b →
        f ≠ g ∧ cell? im.forks g = some b := by
      intro g b hg
      by_cases hfg : f = g
      · rw [hfg, cell?_set_none_self] at hg
        cases hg
      · rw [cell?_set_ne _ hfg] at hg
        exact ⟨hfg, hg⟩
    have hdistinct : ∀ g g' b, cell? (im.forks.set f none) g = some b →
        cell? (im.forks.set f none) g' = some b → g = g' :=
      fun g g' b hg hg' => h.distinct g g' b (hcell g b hg).2 (hcell g' b hg').2
    rw [wp_bind, wp_inProc (deref_some hn), wp_bind]
    by_cases hpid : n.pid ≤ 0
    · rw [if_pos hpid, wp_inProc (delete_idle hn hpid), wp_modify]
      refine ⟨h.family.of_delete (h.family.not_listed hn hpid), ?_, hdistinct⟩
      intro b hb
      obtain ⟨g, hg⟩ := cell?_of_mem hb
      obtain ⟨hfg, hg⟩ := hcell g b hg
      obtain ⟨m, hm⟩ := h.sound b (mem_of_cell? hg)
      -- no other `Fork` object points to the object that is deleted
      have hne : a ≠ b := fun hab => hfg (h.distinct f g a ha (hab ▸ hg))
      exact ⟨m, (cell?_set_ne _ hne).trans hm⟩
    · rw [if_neg hpid, wp_pure, wp_modify]
      refine ⟨h.family, ?_, hdistinct⟩
      intro b hb
      obtain ⟨g, hg⟩ := cell?_of_mem hb
      exact h.sound b (mem_of_cell? (hcell g b hg).2)

theorem Image.failed_spec (h : im.Inv l) (kill giveReason : Bool) :
    wp (Image.failed kill giveReason) (fun _ im' => im'.Inv l) (fun _ _ => False) im := by
  unfold Image.failed
  rw [wp_modify]
  refine h.adopt (h.family.alloc _ _ _) ⟨_, cell?_append_self _ _⟩ ?_
  intro a ha
  obtain ⟨n, hn⟩ := h.sound a ha
  exact ⟨n, cell?_append_of_some _ hn⟩

theorem Image.parent_spec (h : im.Inv l) {pid : Int} (hfree : im.proc.Free pid)
    (kill giveReason : Bool) :
    wp (Image.parent kill giveReason pid) (fun _ im' => ∃ l', im'.Inv l') (fun _ _ => False)
      im := by
  have halloc := h.family.allocParent hfree kill giveReason
  obtain ⟨p, hnext, hfamily, -, -, hlink, hkeep⟩ := halloc.linkNext
  have hnew : ∃ n, cell? p.nodes im.proc.nodes.length = some n := hkeep _ _ (cell?_append_self _ _)
  have hlist : linkList im.proc.nodes.length p
      = .ok () { p with list := some im.proc.nodes.length } := rfl
  unfold Image.parent
  rw [wp_bind, wp_get, wp_bind, wp_modify, wp_bind, wp_inProc hnext, wp_inProc hlist]
  refine ⟨_, h.adopt (hfamily.linkList hlink) hnew ?_⟩
  intro a ha
  obtain ⟨n, hn⟩ := h.sound a ha
  exact hkeep a n (cell?_append_of_some _ hn)

/-- The child has lost the objects of the list, and with them the `Fork` objects it inherited that
point there. -/
theorem Image.child_run (h : im.Inv l) (kill giveReason : Bool) :
    ∃ p, Image.child kill giveReason im = .ok () (im.adopt p) ∧ Family p [] none ∧
      (∃ n, cell? p.nodes im.proc.nodes.length = some n) ∧
      (∀ a, a ∈ l → cell? p.nodes a = none) ∧
      ∀ a n, a ∉ l → cell? im.proc.nodes a = some n → cell? p.nodes a = some n := by
  let p0 : Proc := { im.proc.alloc kill giveReason 0 with running := [], zombies := [] }
  have hchain : Chain ForkProcess.next p0.nodes p0.list l := h.family.chain.append _
  have hfuel : l.length ≤ p0.nodes.length + 1 := Nat.le_succ_of_le hchain.length_le
  obtain ⟨nodes, hloop, hgone, hsame⟩ := clearLoop_spec hchain hfuel
  have hnot : im.proc.nodes.length ∉ l := by
    intro hin
    obtain ⟨n, hn⟩ := h.family.chain.cell_of_mem hin
    exact Nat.lt_irrefl _ (lt_of_cell? hn)
  refine ⟨{ p0 with nodes := nodes, list := none }, ?_, family_none _ _, ?_, hgone, ?_⟩
  · have hclear : inProc (clearLoop (p0.nodes.length + 1) p0.list) (im.adopt p0)
        = .ok () { im.adopt p0 with proc := { p0 with nodes := nodes } } := inProc_ok hloop
    show (inProc (clearLoop (p0.nodes.length + 1) p0.list) >>= fun _ =>
      inProc (setList none) : ImageM Unit) (im.adopt p0) = _
    rw [bind_ok hclear]
    rfl
  · exact ⟨_, (hsame _ hnot).trans (cell?_append_self _ _)⟩
  · intro a n hal hn
    exact (hsame a hal).trans (cell?_append_of_some _ hn)

end Images

/-! ## All processes -/

def AllInv (w : List Image) : Prop := ∀ im ∈ w, ∃ l, im.Inv l

section Worlds

variable {w : List Image} {i : Nat}

theorem AllInv.allSound (h : AllInv w) : AllSound w := by
  intro im him
  obtain ⟨l, hl⟩ := h im him
  exact hl.sound

theorem onImage_ok {α : Type} {c : ImageM α} {im im' : Image} {x : α} (hi : w[i]? = some im)
    (hc : c im = .ok x im') : onImage i c w = .ok () (w.set i im') := by
  simp only [onImage, hi, hc]

/-- A step of one process leaves the others as they are. -/
theorem onImage_spec {α : Type} {c : ImageM α} (hw : AllInv w)
    (hc : ∀ im l, w[i]? = some im → im.Inv l →
      wp c (fun _ im' => ∃ l', im'.Inv l') (fun _ _ => False) im) :
    wp (onImage i c) (fun _ w' => AllInv w') (fun _ _ => False) w := by
  cases hi : w[i]? with
  | none =>
    have hrun : onImage i c w = .ok () w := by simp only [onImage, hi]
    rw [wp_iff_of_ok hrun]
    exact hw
  | some im =>
    obtain ⟨l, hl⟩ := hw im (List.mem_of_getElem? hi)
    obtain ⟨x, im', hrun, hl'⟩ := (hc im l hi hl).exists_ok
    rw [wp_iff_of_ok (onImage_ok hi hrun)]
    intro d hd
    rcases List.mem_or_eq_of_mem_set hd with hd | rfl
    · exact hw d hd
    · exact hl'

theorem construct_eq (kill giveReason : Bool) (pid : Int) :
    (Op.construct i kill giveReason (some pid)).run w
      = (match w[i]? with
        | none => pure ()
        | some im => if im.proc.Free pid then do
            onImage i (Image.parent kill giveReason pid)
            spawn im (Image.child kill giveReason)
          else pure () : WorldM Unit) w := rfl

theorem construct_run {kill giveReason : Bool} {pid : Int} {im : Image} (hi : w[i]? = some im)
    (hfree : im.proc.Free pid) :
    (Op.construct i kill giveReason (some pid)).run w = (do
      onImage i (Image.parent kill giveReason pid)
      spawn im (Image.child kill giveReason) : WorldM Unit) w := by
  simp only [construct_eq, hi, if_pos hfree]

theorem construct_idle {kill giveReason : Bool} {pid : Int}
    (hno : ∀ im, w[i]? = some im → ¬ im.proc.Free pid) :
    (Op.construct i kill giveReason (some pid)).run w = .ok () w := by
  rw [construct_eq]
  cases hi : w[i]? with
  | none => rfl
  | some im =>
    simp only [if_neg (hno im hi)]
    rfl

/-- What a fork leaves: the parent with one object more, and a child whose image may be unsound. -/
theorem construct_spec (hw : AllInv w) {kill giveReason : Bool} {pid : Int} {im : Image}
    {l : List Nat} (hi : w[i]? = some im) (hl : im.Inv l) (hfree : im.proc.Free pid) :
    ∃ w' p, (Op.construct i kill giveReason (some pid)).run w = .ok () (w' ++ [im.adopt p]) ∧
      AllInv w' ∧ Family p [] none ∧ (∃ n, cell? p.nodes im.proc.nodes.length = some n) ∧
      (∀ a, a ∈ l → cell? p.nodes a = none) ∧
      ∀ a n, a ∉ l → cell? im.proc.nodes a = some n → cell? p.nodes a = some n := by
  have hparent : wp (onImage i (Image.parent kill giveReason pid)) (fun _ w' => AllInv w')
      (fun _ _ => False) w := by
    refine onImage_spec hw fun im' l' hi' hl' => ?_
    cases hi.symm.trans hi'
    exact Image.parent_spec hl' hfree kill giveReason
  obtain ⟨_, w', hrun, hw'⟩ := hparent.exists_ok
  obtain ⟨p, hchild, hfamily, hnew, hgone, hkeep⟩ := Image.child_run hl kill giveReason
  refine ⟨w', p, ?_, hw', hfamily, hnew, hgone, hkeep⟩
  rw [construct_run hi hfree, bind_ok hrun]
  simp only [spawn, hchild]

/-- The handler deletes the object of a child; its `Fork` object must be gone by then. -/
theorem reap_run {pick : Nat} {im : Image} {l : List Nat} {c : Child} (hl : im.Inv l)
    (hpick : im.proc.zombies[pick % im.proc.zombies.length]? = some c) :
    ∃ p l', inProc (reaperNohang pick) im = .ok () { im with proc := p } ∧ Family p l' none ∧
      cell? p.nodes c.owner = none ∧
      ∀ a n, a ≠ c.owner → cell? im.proc.nodes a = some n → ∃ n', cell? p.nodes a = some n' := by
  have hextra : (none : Option Nat) ≠ some c.owner := fun h => by cases h
  have hmem := List.mem_of_getElem? hpick
  obtain ⟨p, l1, l2, hsplit, hrun, hremoved⟩ := hl.family.reaperNohang hpick hextra
  refine ⟨p, l1 ++ l2, inProc_ok hrun, hl.family.of_removed hmem hsplit hextra hremoved,
    hremoved.gone, ?_⟩
  intro a n hne hn
  obtain ⟨n', hn', -⟩ := hremoved.others a n hne hn
  exact ⟨n', hn'⟩

theorem inv_op (hw : AllInv w) {op : Op} (hfree : HandlesFree op w) :
    wp op.run (fun _ w' => AllInv w') (fun _ _ => False) w := by
  cases op with
  | construct i kill giveReason answer =>
    cases answer with
    | none =>
      refine onImage_spec (c := Image.failed kill giveReason) hw fun im l _ hl => ?_
      exact (Image.failed_spec hl kill giveReason).mono (fun _ _ h => ⟨l, h⟩) (fun _ _ h => h)
    | some pid =>
      by_cases hfork : ∃ im, w[i]? = some im ∧ im.proc.Free pid
      · obtain ⟨im, hi, hpid⟩ := hfork
        obtain ⟨l, hl⟩ := hw im (List.mem_of_getElem? hi)
        obtain ⟨w', p, hrun, hw', hfamily, hnew, -, hkeep⟩ := construct_spec hw hi hl hpid
        rw [wp_iff_of_ok hrun]
        -- no `Fork` object points to what the child has deleted
        have hlive : ∀ a, some a ∈ im.forks → ∃ n, cell? p.nodes a = some n := by
          intro a ha
          obtain ⟨n, hn⟩ := hl.sound a ha
          have hal : a ∉ l := fun hin =>
            hfree im hi hpid a ha (hl.family.chain.reach_iff.mpr hin)
          exact ⟨n, hkeep a n hal hn⟩
        intro d hd
        rcases List.mem_append.mp hd with hd | hd
        · exact hw' d hd
        · rw [List.mem_singleton.mp hd]
          exact ⟨[], hl.adopt hfamily hnew hlive⟩
      · rw [wp_iff_of_ok (construct_idle fun im hi hpid => hfork ⟨im, hi, hpid⟩)]
        exact hw
  | destroy i f =>
    refine onImage_spec hw fun im l _ hl => ?_
    exact (Image.destroy_spec hl f).mono (fun _ _ h => ⟨l, h⟩) (fun _ _ h => h)
  | query i q f =>
    refine onImage_spec hw fun im l _ hl => ?_
    exact (Image.query_spec hl q f).mono (fun _ _ h => ⟨l, h⟩) (fun _ _ h => h)
  | exit i pick =>
    refine onImage_spec (c := inProc (exitChild pick)) hw fun im l _ hl => ?_
    obtain ⟨_, p, hrun, hnodes, hlist, hperm, -⟩ := (exitChild_spec im.proc pick).exists_ok
    rw [wp_inProc hrun]
    -- an exit moves a child from one of the kernel's tables to the other
    refine ⟨l, hl.of_proc (hl.family.of_perm hnodes hlist hperm) ?_⟩
    rw [hnodes]
    exact hl.sound
  | reap i pick =>
    refine onImage_spec hw fun im l hi hl => ?_
    cases hpick : im.proc.zombies[pick % im.proc.zombies.length]? with
    | none =>
      rw [wp_inProc (reaperNohang_idle hpick)]
      exact ⟨l, hl⟩
    | some c =>
      obtain ⟨p, l', hrun, hfamily, -, hkeep⟩ := reap_run hl hpick
      rw [wp_iff_of_ok hrun]
      -- only the object of the reaped child is gone, and no `Fork` object points there
      refine ⟨l', hl.of_proc hfamily ?_⟩
      intro a ha
      obtain ⟨n, hn⟩ := hl.sound a ha
      have hne : a ≠ c.owner := fun heq => hfree im hi c hpick (heq ▸ ha)
      exact hkeep a n hne hn

/-- A step that is not free of handles leaves one that dangles. -/
theorem unsound_op (hw : AllInv w) {op : Op} (hnot : ¬ HandlesFree op w) :
    wp op.run (fun _ w' => ¬ AllSound w') (fun _ _ => False) w := by
  cases op with
  | construct i kill giveReason answer =>
    cases answer with
    | none => exact absurd trivial hnot
    | some pid =>
      simp only [HandlesFree, not_forall, not_not] at hnot
      obtain ⟨im, hi, hpid, a, ha, hreach⟩ := hnot
      obtain ⟨l, hl⟩ := hw im (List.mem_of_getElem? hi)
      obtain ⟨w', p, hrun, -, -, -, hgone, -⟩ := construct_spec hw hi hl hpid
      rw [wp_iff_of_ok hrun]
      -- the child has inherited it, and deleted what it points to
      intro hsound
      have hchild := hsound (im.adopt p) (List.mem_append_right _ List.mem_cons_self)
      obtain ⟨n, hn⟩ := hchild a (List.mem_append_left _ ha)
      cases (hgone a (hl.family.chain.reach_iff.mp hreach)).symm.trans hn
  | destroy i f => exact absurd trivial hnot
  | query i q f => exact absurd trivial hnot
  | exit i pick => exact absurd trivial hnot
  | reap i pick =>
    simp only [HandlesFree, not_forall, not_not] at hnot
    obtain ⟨im, hi, c, hpick, hc⟩ := hnot
    obtain ⟨l, hl⟩ := hw im (List.mem_of_getElem? hi)
    obtain ⟨p, l', hrun, -, hgone, -⟩ := reap_run hl hpick
    have hop : (Op.reap i pick).run w = .ok () (w.set i { im with proc := p }) := onImage_ok hi hrun
    rw [wp_iff_of_ok hop]
    intro hsound
    obtain ⟨hlt, -⟩ := List.getElem?_eq_some_iff.mp hi
    obtain ⟨n, hn⟩ := hsound { im with proc := p } (List.mem_set hlt _) c.owner hc
    cases hgone.symm.trans hn

theorem sound_op_iff (hw : AllInv w) (op : Op) :
    wp op.run (fun _ => AllSound) (fun _ _ => False) w ↔ HandlesFree op w := by
  constructor
  · intro h
    by_contra hnot
    obtain ⟨_, w', hrun, hunsound⟩ := (unsound_op hw hnot).exists_ok
    exact hunsound (h.of_ok hrun)
  · intro hfree
    exact (inv_op hw hfree).mono (fun _ _ h => h.allSound) (fun _ _ h => h)

end Worlds

/-- **When Fork objects do not dangle.** In a run over a process and everything it forks, every step
follows live pointers only and leaves all `Fork` objects of all processes with a `ForkProcess` that
lives, exactly if no process forks while it has a `Fork` object whose child is not reaped, and none
reaps a child whose `Fork` object it still has. -/
theorem handles_sound_iff (ops : List Op) :
    StepsMeet Op.run (fun op w => wp op.run (fun _ => AllSound) (fun _ _ => False) w) ops
        [Image.init] ↔
      StepsMeet Op.run HandlesFree ops [Image.init] := by
  refine stepsMeet_iff (I := AllInv) (fun op w hw => sound_op_iff hw op) ?_ ops ?_
  · intro op w hw hfree
    exact (inv_op hw hfree).mono (fun _ _ h => h) (fun _ _ h => h.elim)
  · intro im him
    rw [List.mem_singleton.mp him]
    exact ⟨[], inv_image_init⟩

/-- A child that exits is reaped, and the next look at its `Fork` object reads deleted memory; so
does a process that inherited a `Fork` object whose child was still running. -/
theorem fork_object_dangles :
    (runAll ([.construct 0 false false (some 10), .exit 0 0, .reap 0 0, .query 0 .isParent 0].map
        Op.run) [Image.init]).1
      = [.ok (), .ok (), .ok (), .error (.dangling 0)] ∧
    (runAll ([.construct 0 true true (some 10), .construct 0 true true (some 11),
        .query 0 .isChild 0, .query 2 .isChild 0, .destroy 2 0].map Op.run) [Image.init]).1
      = [.ok (), .ok (), .ok (), .error (.dangling 0), .error (.dangling 0)] := by
  constructor
  · decide +kernel
  · decide +kernel

end Fork
