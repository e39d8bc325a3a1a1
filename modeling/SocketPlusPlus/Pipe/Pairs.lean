import SocketPlusPlus.Logic.History
import SocketPlusPlus.Pipe.Pending

/-!
# Pairing by `fork`

Two processes that come out of `fork` hold opposite ends of the pair of every pending stream, and
neither holds the other end. What makes the loop right is ownership: a stream that waits owns both
descriptors of its pair, one that has its sockbuf owns the descriptor of the sockbuf, and no two
streams own the same descriptor (`Image.Tidy`). Which streams wait is read from the history.
-/

namespace Pipe

open Exec Linked History

/-- The stream will close the descriptor, or keep it. -/
def Iopipestream.Owns (s : Iopipestream) (fd : Nat) : Prop :=
  match s.rdbuf with
  | some d => fd = d
  | none => ∃ side, fd = s.sp side

/-- The books of a process with the pending streams `l`, when `n` pairs were made. -/
structure Image.Tidy (im : Image) (l : List Nat) (n : Nat) : Prop where
  inv : im.Inv l
  below : ∀ fd e, im.fds fd = some e → e.pair < n
  isOpen : ∀ a s, cell? im.streams a = some s → ∀ fd, s.Owns fd → im.fds fd ≠ none
  disjoint : ∀ a b s t, cell? im.streams a = some s → cell? im.streams b = some t →
    ∀ fd, s.Owns fd → t.Owns fd → a = b
  ends : ∀ a ∈ l, ∀ s, cell? im.streams a = some s →
    ∃ p, ∀ fd side, im.fds fd = some ⟨p, side⟩ ↔ fd = s.sp side

section Images

variable {im im' : Image} {l : List Nat} {n a fd : Nat} {s : Iopipestream} {sp : Fin 2 → Nat}

theorem owns_of_some {d : Nat} (h : s.rdbuf = some d) : s.Owns fd ↔ fd = d := by
  unfold Iopipestream.Owns
  rw [h]

theorem owns_of_none (h : s.rdbuf = none) : s.Owns fd ↔ ∃ side, fd = s.sp side := by
  unfold Iopipestream.Owns
  rw [h]

theorem eq_keep {side keep : Fin 2} (h : side ≠ 1 - keep) : side = keep := by
  revert side keep
  decide

theorem keep_ne (keep : Fin 2) : 1 - keep ≠ keep := by
  revert keep
  decide

theorem Image.Inv.rdbuf_none (h : im.Inv l) (ha : a ∈ l) (hs : cell? im.streams a = some s) :
    s.rdbuf = none := by
  obtain ⟨t, ht, hnone⟩ := (h.mem_iff a).mp ha
  cases hs.symm.trans ht
  exact hnone

/-! ## Constructors and destructors

A new stream owns descriptors that were free, and one that is destroyed gives up what it owned. -/

/-- `::socketpair` makes a pair that no stream knows yet. -/
theorem Image.Tidy.paired (h : im.Tidy l n) (hsp : im.Unused sp) :
    (im.paired n sp).Tidy l (n + 1) where
  inv := h.inv.of_eq rfl rfl
  below fd e he := by
    rcases (paired_fds hsp n fd e).mp he with ⟨side, -, rfl⟩ | he
    · exact Nat.lt_succ_self n
    · exact Nat.lt_succ_of_lt (h.below fd e he)
  isOpen a s hs fd hown := by
    obtain ⟨e, he⟩ := Option.ne_none_iff_exists'.mp (h.isOpen a s hs fd hown)
    rw [(paired_fds hsp n fd e).mpr (.inr he)]
    simp
  disjoint := h.disjoint
  ends a ha s hs := by
    obtain ⟨p, hp⟩ := h.ends a ha s hs
    -- the new pair has a number of its own
    have hlt : p < n := h.below (s.sp 0) ⟨p, 0⟩ ((hp _ 0).mpr rfl)
    refine ⟨p, fun fd side => ?_⟩
    rw [paired_fds hsp, ← hp fd side]
    have hnew : ¬ ∃ side', fd = sp side' ∧ (⟨p, side⟩ : End) = ⟨n, side'⟩ := by
      rintro ⟨side', -, heq⟩
      cases heq
      exact Nat.lt_irrefl _ hlt
    exact or_iff_right hnew

/-- A descriptor that no stream owns is closed. -/
theorem Image.Tidy.close (h : im.Tidy l n)
    (hfree : ∀ a s, cell? im.streams a = some s → ¬ s.Owns fd) (closed : List Nat) :
    Image.Tidy { im with fds := Function.update im.fds fd none, closed := closed } l n where
  inv := h.inv.of_eq rfl rfl
  below fd' e he := by
    by_cases hfd : fd' = fd
    · simp [hfd] at he
    · exact h.below fd' e (by simpa [hfd] using he)
  isOpen a s hs fd' hown := by
    have hne : fd' ≠ fd := by
      rintro rfl
      exact hfree a s hs hown
    simpa [hne] using h.isOpen a s hs fd' hown
  disjoint := h.disjoint
  ends a ha s hs := by
    obtain ⟨p, hp⟩ := h.ends a ha s hs
    refine ⟨p, fun fd' side => ?_⟩
    by_cases hfd : fd' = fd
    · have hne : fd ≠ s.sp side := fun heq =>
        hfree a s hs ((owns_of_none (h.inv.rdbuf_none ha hs)).mpr ⟨side, heq⟩)
      simp [hfd, hne]
    · simpa [hfd] using hp fd' side

/-- A stream is added that owns what nobody owned. -/
theorem Image.Tidy.append (h : im.Tidy l n) {l' : List Nat} (hinv : im'.Inv l')
    (hstreams : im'.streams = im.streams ++ [some s]) (hfds : im'.fds = im.fds)
    (hopen : ∀ fd, s.Owns fd → im.fds fd ≠ none)
    (hfree : ∀ fd, s.Owns fd → ∀ a t, cell? im.streams a = some t → ¬ t.Owns fd)
    (hends : ∀ a ∈ l', ∀ t, cell? im'.streams a = some t →
      ∃ p, ∀ fd side, im.fds fd = some ⟨p, side⟩ ↔ fd = t.sp side) : im'.Tidy l' n := by
  have hcell : ∀ b t, cell? im'.streams b = some t →
      (b = im.streams.length ∧ t = s) ∨ cell? im.streams b = some t := by
    intro b t ht
    rw [hstreams] at ht
    by_cases hb : b = im.streams.length
    · rw [hb, cell?_append_self] at ht
      cases ht
      exact .inl ⟨hb, rfl⟩
    · rw [cell?_append_ne _ hb] at ht
      exact .inr ht
  constructor
  · exact hinv
  · rw [hfds]
    exact h.below
  · intro b t ht fd hown
    rw [hfds]
    rcases hcell b t ht with ⟨-, rfl⟩ | ht
    · exact hopen fd hown
    · exact h.isOpen b t ht fd hown
  · intro b c t u ht hu fd hown hown'
    rcases hcell b t ht with ⟨hb, rfl⟩ | ht
    · rcases hcell c u hu with ⟨hc, rfl⟩ | hu
      · rw [hb, hc]
      · exact absurd hown' (hfree fd hown c u hu)
    · rcases hcell c u hu with ⟨-, rfl⟩ | hu
      · exact absurd hown (hfree fd hown' b t ht)
      · exact h.disjoint b c t u ht hu fd hown hown'
  · rw [hfds]
    exact hends

/-- An unused descriptor is owned by no stream. -/
theorem Image.Tidy.not_owns (h : im.Tidy l n) (hfd : im.fds fd = none)
    (hs : cell? im.streams a = some s) : ¬ s.Owns fd := fun hown => h.isOpen a s hs fd hown hfd

theorem Image.Unused.none (hsp : im.Unused sp) (side : Fin 2) : im.fds (sp side) = none := by
  revert side
  rw [Fin.forall_fin_two]
  exact ⟨hsp.2.1, hsp.2.2⟩

theorem Image.Tidy.create (h : im.Tidy l n) (hsp : im.Unused sp) :
    Image.Tidy { im.paired n sp with
      streams := im.streams ++ [some ⟨sp, -1, im.head, none⟩]
      head := some im.streams.length } (im.streams.length :: l) (n + 1) := by
  have hpaired := h.paired hsp
  have hinv : Image.Inv { im.paired n sp with
      streams := im.streams ++ [some ⟨sp, -1, im.head, none⟩]
      head := some im.streams.length } (im.streams.length :: l) := h.inv.create sp rfl rfl
  apply hpaired.append (s := ⟨sp, -1, im.head, none⟩) hinv rfl rfl
  · rintro fd ⟨side, rfl⟩
    rw [(paired_fds hsp n _ ⟨n, side⟩).mpr (.inl ⟨side, rfl, rfl⟩)]
    simp
  · -- what was unused belonged to no stream
    rintro fd ⟨side, rfl⟩ b t ht
    exact h.not_owns (hsp.none side) ht
  · intro b hb t ht
    by_cases hnew : b = im.streams.length
    · rw [hnew] at ht
      cases (cell?_append_self _ _).symm.trans ht
      refine ⟨n, fun fd side => ?_⟩
      have hold : ¬ im.fds fd = some ⟨n, side⟩ := by
        intro hfd
        exact Nat.lt_irrefl _ (h.below fd _ hfd)
      rw [paired_fds hsp]
      simp [hold]
    · have hin : b ∈ l := (List.mem_cons.mp hb).resolve_left hnew
      rw [cell?_append_ne _ hnew] at ht
      exact hpaired.ends b hin t ht

theorem Image.Tidy.createCmd (h : im.Tidy l n) (hsp : im.Unused sp) (junk : Fin 2 → Nat) :
    Image.Tidy { im.paired n sp with
      streams := im.streams ++ [some ⟨junk, -1, none, some (sp 1)⟩]
      fds := Function.update (im.paired n sp).fds (sp 0) none
      closed := im.closed ++ [sp 0] } l (n + 1) := by
  have hfree : ∀ side a s, cell? (im.paired n sp).streams a = some s → ¬ s.Owns (sp side) :=
    fun side a s hs => h.not_owns (hsp.none side) hs
  have hclosed := (h.paired hsp).close (hfree 0) (im.closed ++ [sp 0])
  have hinv : Image.Inv { im.paired n sp with
      streams := im.streams ++ [some ⟨junk, -1, none, some (sp 1)⟩]
      fds := Function.update (im.paired n sp).fds (sp 0) none
      closed := im.closed ++ [sp 0] } l :=
    h.inv.append (s := ⟨junk, -1, none, some (sp 1)⟩) (by simp) rfl rfl
  apply hclosed.append (s := ⟨junk, -1, none, some (sp 1)⟩) hinv rfl rfl
  · intro fd hown
    rw [(owns_of_some rfl).mp hown]
    show Function.update (im.paired n sp).fds (sp 0) none (sp 1) ≠ none
    rw [Function.update_of_ne hsp.1.symm, (paired_fds hsp n _ ⟨n, 1⟩).mpr (.inl ⟨1, rfl, rfl⟩)]
    simp
  · intro fd hown b t ht
    rw [(owns_of_some rfl).mp hown]
    exact hfree 1 b t ht
  · intro b hb t ht
    obtain ⟨u, hu⟩ := h.inv.chain.cell_of_mem hb
    rw [cell?_append_ne _ (Nat.ne_of_lt (lt_of_cell? hu))] at ht
    exact hclosed.ends b hb t ht

/-- The destructor of a stream that has its sockbuf. -/
theorem Image.Tidy.destroy (h : im.Tidy l n) (ha : cell? im.streams a = some s)
    (hrdbuf : s.rdbuf ≠ none) :
    Image.Tidy { im with streams := im.streams.set a none } l n := by
  have hcell : ∀ b t, cell? (im.streams.set a none) b = some t →
      b ≠ a ∧ cell? im.streams b = some t := by
    intro b t ht
    by_cases hb : b = a
    · rw [hb, cell?_set_none_self] at ht
      cases ht
    · rw [cell?_set_ne _ (Ne.symm hb)] at ht
      exact ⟨hb, ht⟩
  constructor
  · exact h.inv.destroy ha hrdbuf rfl rfl
  · exact h.below
  · intro b t ht
    exact h.isOpen b t (hcell b t ht).2
  · intro b c t u ht hu
    exact h.disjoint b c t u (hcell b t ht).2 (hcell c u hu).2
  · intro b hb t ht
    exact h.ends b hb t (hcell b t ht).2

theorem destroy_tidy (h : im.Tidy l n)
    (hsettled : ∀ s, cell? im.streams a = some s → s.rdbuf ≠ none) :
    wp (Pipe.destroy a) (fun _ im' => im'.Tidy l n) (fun _ _ => False) im := by
  cases ha : cell? im.streams a with
  | none =>
    rw [wp_iff_of_ok (destroy_gone ha)]
    exact h
  | some s =>
    have hrdbuf := hsettled s ha
    rw [wp_congr (destroy_some ha)]
    cases hfd : s.rdbuf with
    | none => exact absurd hfd hrdbuf
    | some fd =>
      have hown : s.Owns fd := (owns_of_some hfd).mpr rfl
      have hopen : im.fds fd ≠ none := h.isOpen a s ha fd hown
      have hrun : close true fd { im with streams := im.streams.set a none }
          = .ok () { im with
            streams := im.streams.set a none
            fds := Function.update im.fds fd none
            closed := im.closed ++ [fd] } := close_ok rfl hopen
      rw [wp_iff_of_ok hrun]
      apply (h.destroy ha hrdbuf).close
      -- the descriptor was its own
      intro b t ht hown'
      by_cases hb : b = a
      · rw [hb, cell?_set_none_self] at ht
        cases ht
      · rw [cell?_set_ne _ (Ne.symm hb)] at ht
        exact hb (h.disjoint b a t s ht ha fd hown' hown)

/-! ## The fork

Both processes start with the same descriptors, and each keeps of every pair the end that the other
closes. -/

section Forks

variable {keep : Fin 2} {cpid : Int}

theorem Handled.fds_some (hdone : Handled keep cpid l im im') {e : End}
    (he : im'.fds fd = some e) : im.fds fd = some e := by
  by_cases hfd : ∀ a ∈ l, ∀ s, cell? im.streams a = some s → s.sp (1 - keep) ≠ fd
  · rwa [hdone.stays fd hfd] at he
  · simp only [not_forall, not_not] at hfd
    obtain ⟨a, ha, s, hs, rfl⟩ := hfd
    rw [hdone.gone a ha s hs] at he
    cases he

/-- The kept end of a pending stream is the other end of none. -/
theorem Image.Tidy.other_ne (h : im.Tidy l n) (ha : a ∈ l) (hs : cell? im.streams a = some s)
    (keep : Fin 2) {b : Nat} {t : Iopipestream} (hb : b ∈ l) (ht : cell? im.streams b = some t) :
    t.sp (1 - keep) ≠ s.sp keep := by
  intro heq
  have hown : s.Owns (s.sp keep) := (owns_of_none (h.inv.rdbuf_none ha hs)).mpr ⟨keep, rfl⟩
  have hown' : t.Owns (s.sp keep) :=
    (owns_of_none (h.inv.rdbuf_none hb ht)).mpr ⟨1 - keep, heq.symm⟩
  cases h.disjoint b a t s ht hs _ hown' hown
  cases hs.symm.trans ht
  -- one descriptor cannot be both ends
  obtain ⟨p, hp⟩ := h.ends a ha s hs
  have hkeep : im.fds (s.sp keep) = some ⟨p, keep⟩ := (hp _ keep).mpr rfl
  have hother : im.fds (s.sp keep) = some ⟨p, 1 - keep⟩ := (hp _ (1 - keep)).mpr heq.symm
  rw [hkeep] at hother
  exact keep_ne keep (congrArg End.side (Option.some.inj hother)).symm

theorem Image.Tidy.handled (h : im.Tidy l n) (hdone : Handled keep cpid l im im')
    (hhead : im'.head = none) : im'.Tidy [] n := by
  have hnil : Chain Iopipestream.next im'.streams im'.head [] := by
    rw [hhead]
    exact .nil
  have hinv : im'.Inv [] := Image.Inv.handled (by simpa using h.inv) hdone hnil
  -- what is owned now was owned before by the same stream, and no loop closed it
  have hcell : ∀ b t, cell? im'.streams b = some t → ∀ fd, t.Owns fd →
      ∃ s, cell? im.streams b = some s ∧ s.Owns fd ∧ im'.fds fd = im.fds fd := by
    intro b t ht fd hown
    by_cases hb : b ∈ l
    · obtain ⟨s, hs⟩ := h.inv.chain.cell_of_mem hb
      cases (hdone.done b hb s hs).symm.trans ht
      rw [(owns_of_some rfl).mp hown]
      refine ⟨s, hs, (owns_of_none (h.inv.rdbuf_none hb hs)).mpr ⟨keep, rfl⟩, ?_⟩
      exact hdone.stays _ fun c hc u hu => h.other_ne hb hs keep hc hu
    · rw [hdone.others b hb] at ht
      refine ⟨t, ht, hown, hdone.stays _ fun c hc u hu heq => ?_⟩
      have hown' : u.Owns fd :=
        (owns_of_none (h.inv.rdbuf_none hc hu)).mpr ⟨1 - keep, heq.symm⟩
      cases h.disjoint c b u t hu ht fd hown' hown
      exact hb hc
  constructor
  · exact hinv
  · intro fd e he
    exact h.below fd e (hdone.fds_some he)
  · intro b t ht fd hown
    obtain ⟨s, hs, hown', hsame⟩ := hcell b t ht fd hown
    rw [hsame]
    exact h.isOpen b s hs fd hown'
  · intro b c t u ht hu fd hown hown'
    obtain ⟨s, hs, hs', -⟩ := hcell b t ht fd hown
    obtain ⟨v, hv, hv', -⟩ := hcell c u hu fd hown'
    exact h.disjoint b c s v hs hv fd hs' hv'
  · intro b hb
    cases hb

/-- A process of the fork: it returns, and every pending stream has been handled. -/
theorem forkLoop_tidy (h : im.Tidy l n) (keep : Fin 2) (cpid : Int) :
    wp (forkLoop keep cpid (im.streams.length + 1) none)
      (fun _ im' => Handled keep cpid l im im' ∧ im'.head = none ∧ im'.Tidy [] n)
      (fun _ _ => False) im := by
  have hfuel : l.length < im.streams.length + 1 := Nat.lt_succ_of_le h.inv.chain.length_le
  have hown : ∀ b ∈ l, ∀ t, cell? im.streams b = some t → t.Owns (t.sp (1 - keep)) :=
    fun b hb t ht => (owns_of_none (h.inv.rdbuf_none hb ht)).mpr ⟨1 - keep, rfl⟩
  have hreturns : wp (forkLoop keep cpid (im.streams.length + 1) none) (fun _ _ => True)
      (fun _ _ => False) im := by
    apply forkLoop_returns h.inv.chain hfuel
    · intro b hb t ht
      exact h.isOpen b t ht _ (hown b hb t ht)
    · intro b hb c hc t u ht hu heq
      exact h.disjoint b c t u ht hu _ (hown b hb t ht) (heq ▸ hown c hc u hu)
  apply ((forkLoop_spec h.inv.chain hfuel none).and hreturns).mono
  · rintro _ im' ⟨⟨hdone, hhead⟩, -⟩
    exact ⟨hdone, hhead, h.handled hdone hhead⟩
  · rintro e im' ⟨-, hfalse⟩
    exact hfalse

/-- Of the pair of a pending stream, the process has kept one end. -/
theorem Image.Tidy.ends_after (h : im.Tidy l n) (hdone : Handled keep cpid l im im') (ha : a ∈ l)
    (hs : cell? im.streams a = some s) {p : Nat}
    (hp : ∀ fd side, im.fds fd = some ⟨p, side⟩ ↔ fd = s.sp side) (fd : Nat) (side : Fin 2) :
    im'.fds fd = some ⟨p, side⟩ ↔ fd = s.sp keep ∧ side = keep := by
  constructor
  · intro hfd
    have hold := (hp fd side).mp (hdone.fds_some hfd)
    have hkeep : side = keep := by
      apply eq_keep
      rintro rfl
      rw [hold, hdone.gone a ha s hs] at hfd
      cases hfd
    exact ⟨hkeep ▸ hold, hkeep⟩
  · rintro ⟨rfl, rfl⟩
    rw [hdone.stays _ fun c hc u hu => h.other_ne ha hs side hc hu]
    exact (hp _ side).mpr rfl

end Forks

end Images

/-! ## All processes -/

abbrev Entry := History.Entry World Op (Except Fault Unit)

/-- The step is a fork of the process `i`, or the fork it came from. -/
def forks (i : Nat) (e : Entry) : Bool :=
  match e.op, e.outcome with
  | .fork j _ _ _, .ok _ => decide (j = i ∨ i = e.before.images.length)
  | _, _ => false

/-- The step builds a stream from a socket type in the process `i`. -/
def creates (i : Nat) (e : Entry) : Bool :=
  match e.op, e.outcome with
  | .create j _, .ok _ => decide (j = i)
  | _, _ => false

/-- The number of the next stream in the process `i`. -/
def nextStream (i : Nat) (w : World) : Nat := (w.images[i]?).elim 0 fun im => im.streams.length

/-- The streams that the process `i` has built from a socket type since the last fork it came out
of, the newest first. -/
def createdSince (i : Nat) : List Entry → List Nat
  | [] => []
  | e :: log =>
    if forks i e then []
    else if creates i e then nextStream i e.before :: createdSince i log
    else createdSince i log

/-- After a fork, what waits in the process was built after the fork. -/
theorem created_after {i : Nat} {e : Entry} (he : forks i e = true) (newer older : List Entry)
    {a : Nat} (ha : a ∈ createdSince i (newer ++ e :: older)) :
    ∃ e' ∈ newer, creates i e' = true ∧ a = nextStream i e'.before := by
  induction newer with
  | nil => simp [createdSince, he] at ha
  | cons e' newer ih =>
    have hrest : a ∈ createdSince i (newer ++ e :: older) →
        ∃ e'' ∈ e' :: newer, creates i e'' = true ∧ a = nextStream i e''.before := by
      intro hin
      obtain ⟨e'', he'', h⟩ := ih hin
      exact ⟨e'', List.mem_cons_of_mem _ he'', h⟩
    rw [List.cons_append, createdSince] at ha
    split_ifs at ha with hforks hcreates
    · cases ha
    · rcases List.mem_cons.mp ha with rfl | ha
      · exact ⟨e', List.mem_cons_self, hcreates, rfl⟩
      · exact hrest ha
    · exact hrest ha

/-- No `::close` of a fork fails, and no stream is destroyed before it has its sockbuf. -/
def Clean : Op → World → Prop
  | .fork _ _ failParent failChild, _ => failParent = none ∧ failChild = none
  | op, w => Settled op w

/-- In every process the pending streams are those created since. -/
def AllTidy (log : List Entry) (w : World) : Prop :=
  ∀ i (im : Image), w.images[i]? = some im → im.Tidy (createdSince i log) w.pairs

section Worlds

variable {w : World} {log log' : List Entry} {i : Nat} {im im' : Image} {n : Nat}

theorem Image.Tidy.mono {l : List Nat} {m : Nat} (h : im.Tidy l n) (hle : n ≤ m) : im.Tidy l m :=
  { h with below := fun fd e he => Nat.lt_of_lt_of_le (h.below fd e he) hle }

/-- A step of one process that is not a fork. -/
theorem AllTidy.set (h : AllTidy log w) (hle : w.pairs ≤ n)
    (hothers : ∀ k, k ≠ i → createdSince k log' = createdSince k log)
    (him : im'.Tidy (createdSince i log') n) : AllTidy log' ⟨w.images.set i im', n⟩ := by
  intro k d hk
  have hk : (w.images.set i im')[k]? = some d := hk
  by_cases hki : k = i
  · subst hki
    rw [List.getElem?_set] at hk
    simp only [if_true] at hk
    split_ifs at hk with hlt
    cases hk
    exact him
  · rw [List.getElem?_set_ne (Ne.symm hki)] at hk
    rw [hothers k hki]
    exact (h k d hk).mono hle

/-- A step that changes no process. -/
theorem AllTidy.same (h : AllTidy log w) (hle : w.pairs ≤ n)
    (hsame : ∀ k, createdSince k log' = createdSince k log) : AllTidy log' ⟨w.images, n⟩ := by
  intro k d hk
  rw [hsame k]
  exact (h k d hk).mono hle

/-- The entry of the call of `op` in `w` that ended with `out` in `w'`. -/
abbrev entry (w : World) (op : Op) (out : Except Fault Unit) (w' : World) : Entry :=
  ⟨w, op, out, w'⟩

theorem create_tidy (h : AllTidy log w) (i : Nat) (answer : Option (Fin 2 → Nat)) :
    wp (Op.create i answer).run
      (fun _ w' => AllTidy (entry w (.create i answer) (.ok ()) w' :: log) w')
      (fun e w' => AllTidy (entry w (.create i answer) (.error e) w' :: log) w') w := by
  show wp (withPair i fun pair => iopipestream pair answer) _ _ _
  cases hi : w.images[i]? with
  | none =>
    rw [wp_withPair_none hi]
    exact h.same (Nat.le_succ _) fun _ => rfl
  | some im =>
    rw [wp_withPair hi]
    apply (iopipestream_spec w.pairs answer im).mono
    · rintro _ im' ⟨sp, hsp, rfl⟩
      apply h.set (Nat.le_succ _)
      · intro k hk
        simp [createdSince, forks, creates, Ne.symm hk]
      · simpa [createdSince, forks, creates, nextStream, hi] using (h i im hi).create hsp
    · rintro e im' ⟨-, rfl⟩
      exact h.set (Nat.le_succ _) (fun _ _ => rfl) ((h i _ hi).mono (Nat.le_succ _))

theorem createCmd_tidy (h : AllTidy log w) (i : Nat) (answer : Option (Fin 2 → Nat))
    (vforks closes : Bool) (junk : Fin 2 → Nat) :
    wp (Op.createCmd i answer vforks closes junk).run
      (fun _ w' => AllTidy (entry w (.createCmd i answer vforks closes junk) (.ok ()) w' :: log) w')
      (fun e w' =>
        AllTidy (entry w (.createCmd i answer vforks closes junk) (.error e) w' :: log) w') w := by
  show wp (withPair i fun pair => iopipestreamCmd pair answer vforks closes junk) _ _ _
  cases hi : w.images[i]? with
  | none =>
    rw [wp_withPair_none hi]
    exact h.same (Nat.le_succ _) fun _ => rfl
  | some im =>
    rw [wp_withPair hi]
    apply (iopipestreamCmd_spec w.pairs answer vforks closes junk im).mono
    · rintro _ im' ⟨sp, hsp, rfl⟩
      exact h.set (Nat.le_succ _) (fun _ _ => rfl) ((h i im hi).createCmd hsp junk)
    · rintro e im' ⟨-, rfl | ⟨sp, hsp, rfl⟩⟩
      · exact h.set (Nat.le_succ _) (fun _ _ => rfl) ((h i _ hi).mono (Nat.le_succ _))
      · exact h.set (Nat.le_succ _) (fun _ _ => rfl) ((h i im hi).paired hsp)

theorem destroyOp_tidy (h : AllTidy log w) {i a : Nat} (hsettled : Settled (.destroy i a) w) :
    wp (Op.destroy i a).run
      (fun _ w' => AllTidy (entry w (.destroy i a) (.ok ()) w' :: log) w')
      (fun e w' => AllTidy (entry w (.destroy i a) (.error e) w' :: log) w') w := by
  show wp (onImage i (Pipe.destroy a)) _ _ _
  cases hi : w.images[i]? with
  | none =>
    rw [wp_onImage_none hi]
    exact h.same (Nat.le_refl _) fun _ => rfl
  | some im =>
    rw [wp_onImage hi]
    apply (destroy_tidy (h i im hi) fun s => hsettled im s hi).mono
    · intro _ im' him
      exact h.set (Nat.le_refl _) (fun _ _ => rfl) him
    · intro e im' hfalse
      exact hfalse.elim

/-- What `fork` with the pending streams `l` makes of the process `im`: in both processes each of
them has its number and a sockbuf on one end of its pair, which is the only end of the pair the
process holds; every other end was closed by one call, and nothing else has changed. -/
structure Paired (pid : Int) (l : List Nat) (im parent child : Image) : Prop where
  nodup : l.Nodup
  streams : ∀ a ∈ l, ∃ s p, cell? im.streams a = some s ∧
    cell? parent.streams a = some { s with cpid := pid, rdbuf := some (s.sp 0) } ∧
    cell? child.streams a = some { s with cpid := 0, rdbuf := some (s.sp 1) } ∧
    (∀ fd side, parent.fds fd = some ⟨p, side⟩ ↔ fd = s.sp 0 ∧ side = 0) ∧
    (∀ fd side, child.fds fd = some ⟨p, side⟩ ↔ fd = s.sp 1 ∧ side = 1) ∧
    parent.fds (s.sp 1) = none ∧ child.fds (s.sp 0) = none
  parent_closed : parent.closed
    = im.closed ++ l.filterMap fun a => (cell? im.streams a).map fun s => s.sp 1
  child_closed : child.closed
    = im.closed ++ l.filterMap fun a => (cell? im.streams a).map fun s => s.sp 0
  others : ∀ a, a ∉ l → cell? parent.streams a = cell? im.streams a ∧
    cell? child.streams a = cell? im.streams a
  heads : parent.head = none ∧ child.head = none

theorem fork_run (hi : w.images[i]? = some im) {l : List Nat} (him : im.Tidy l n) {pid : Int}
    (hpid : 0 < pid) :
    ∃ parent child, (Op.fork i (some pid) none none).run w
        = .ok () { w with images := w.images.set i parent ++ [child] } ∧
      Paired pid l im parent child ∧ parent.Tidy [] n ∧ child.Tidy [] n := by
  obtain ⟨_, parent, hparent, hdone, hhead, htidy⟩ := (forkLoop_tidy him 0 pid).exists_ok
  obtain ⟨_, child, hchild, hdone', hhead', htidy'⟩ := (forkLoop_tidy him 1 0).exists_ok
  refine ⟨parent, child, ?_, ?_, htidy, htidy'⟩
  · have hp : forkParent pid none im = .ok pid parent := by
      show (forkLoop 0 pid (im.streams.length + 1) none >>= fun _ => pure pid : ImageM Int) im = _
      rw [bind_ok hparent]
      rfl
    have hc : forkChild none im = .ok 0 child := by
      show (forkLoop 1 0 (im.streams.length + 1) none >>= fun _ => pure 0 : ImageM Int) im = _
      rw [bind_ok hchild]
      rfl
    show forkWorld i (some pid) none none w = _
    rw [forkWorld_joined hi hpid]
    simp only [attempt, hp, hc, joined]
  · constructor
    · exact him.inv.chain.nodup
    · intro a ha
      obtain ⟨s, hs⟩ := him.inv.chain.cell_of_mem ha
      obtain ⟨p, hp⟩ := him.ends a ha s hs
      exact ⟨s, p, hs, hdone.done a ha s hs, hdone'.done a ha s hs,
        him.ends_after hdone ha hs hp, him.ends_after hdone' ha hs hp, hdone.gone a ha s hs,
        hdone'.gone a ha s hs⟩
    · exact hdone.closed
    · exact hdone'.closed
    · intro a ha
      exact ⟨hdone.others a ha, hdone'.others a ha⟩
    · exact ⟨hhead, hhead'⟩

theorem fork_tidy (h : AllTidy log w) (i : Nat) (answer : Option Int) :
    wp (Op.fork i answer none none).run
      (fun _ w' => AllTidy (entry w (.fork i answer none none) (.ok ()) w' :: log) w')
      (fun e w' => AllTidy (entry w (.fork i answer none none) (.error e) w' :: log) w') w := by
  show wp (forkWorld i answer none none) _ _ _
  apply wp_forkWorld_intro
  · exact h.same (Nat.le_refl _) fun _ => rfl
  · exact h.same (Nat.le_refl _) fun _ => rfl
  intro im pid hi hpid
  obtain ⟨parent, child, hrun, -, hparent, hchild⟩ := fork_run hi (h i im hi) hpid
  have hrun : forkWorld i (some pid) none none w
      = .ok () { w with images := w.images.set i parent ++ [child] } := hrun
  rw [wp_iff_of_ok hrun]
  -- the last process is the child, the `i`-th the parent, and the others are as before; both
  -- start a new list, which is what the entry of the fork says
  intro k d hk
  have hk : (w.images.set i parent ++ [child])[k]? = some d := hk
  by_cases hlast : k = w.images.length
  · have hd : d = child := by simpa [hlast, eq_comm] using hk
    rw [hd]
    simpa [createdSince, forks, hlast] using hchild
  · have hlt : k < (w.images.set i parent).length := by
      have := (List.getElem?_eq_some_iff.mp hk).1
      simp only [List.length_append, List.length_set, List.length_singleton] at this ⊢
      omega
    rw [List.getElem?_append_left hlt] at hk
    by_cases hki : k = i
    · subst hki
      rw [List.getElem?_set_self (by simpa using hlt)] at hk
      cases hk
      simpa [createdSince, forks] using hparent
    · rw [List.getElem?_set_ne (Ne.symm hki)] at hk
      simpa [createdSince, forks, creates, Ne.symm hki, hlast] using h k d hk

theorem op_tidy (h : AllTidy log w) {op : Op} (hclean : Clean op w) :
    wp op.run (fun _ w' => AllTidy (entry w op (.ok ()) w' :: log) w')
      (fun e w' => AllTidy (entry w op (.error e) w' :: log) w') w := by
  cases op with
  | create i answer => exact create_tidy h i answer
  | createCmd i answer vforks closes junk => exact createCmd_tidy h i answer vforks closes junk
  | destroy i a => exact destroyOp_tidy h hclean
  | fork i answer failParent failChild =>
    obtain ⟨rfl, rfl⟩ := hclean
    exact fork_tidy h i answer

end Worlds

theorem tidy_init : Image.Tidy ⟨[], none, fun _ => none, []⟩ [] 0 where
  inv := inv_init
  below fd e he := by cases he
  isOpen a s hs := by simp [cell?] at hs
  disjoint a b s t hs := by simp [cell?] at hs
  ends a ha := by cases ha

/-- The run of `ops` in a program that starts with one process: its history and its last state. -/
def runOps (ops : List Op) : List Entry × World := record Op.run id ops World.init []

theorem runOps_tidy {ops : List Op} (hclean : StepsMeet Op.run Clean ops World.init) :
    AllTidy (runOps ops).1 (runOps ops).2 := by
  apply record_invariant (J := fun log w => AllTidy log w) _ _ hclean
  · intro op w log h hop
    exact (op_tidy h hop).outcome (P := fun out w' => AllTidy (entry w op out w' :: log) w')
  · intro i im hi
    have him := List.mem_singleton.mp (List.mem_of_getElem? hi)
    subst him
    exact tidy_init

/-- **Pairing by fork.** In a run in which no `::close` of a fork fails and no stream is destroyed
before it has its sockbuf, the next `fork` of a process handles exactly the streams that the process
has built from a socket type since its last fork: each once in each of the two processes, so that
they hold opposite ends of its pair and neither holds the other's. Streams of the time before an
earlier fork are not among them. -/
theorem fork_pairs {ops : List Op} (hclean : StepsMeet Op.run Clean ops World.init) {i : Nat}
    {im : Image} (hi : (runOps ops).2.images[i]? = some im) {pid : Int} (hpid : 0 < pid) :
    (∃ parent child, (Op.fork i (some pid) none none).run (runOps ops).2
        = .ok () { (runOps ops).2 with
          images := (runOps ops).2.images.set i parent ++ [child] } ∧
      Paired pid (createdSince i (runOps ops).1) im parent child) ∧
    ∀ newer e older, (runOps ops).1 = newer ++ e :: older → forks i e = true →
      ∀ a ∈ createdSince i (runOps ops).1,
        ∃ e' ∈ newer, creates i e' = true ∧ a = nextStream i e'.before := by
  constructor
  · obtain ⟨parent, child, hrun, hpaired, -, -⟩ :=
      fork_run hi (runOps_tidy hclean i im hi) hpid
    exact ⟨parent, child, hrun, hpaired⟩
  · intro newer e older hlog he a ha
    rw [hlog] at ha
    exact created_after he newer older ha

/-- A stream and a fork, then two streams. -/
def secondRound : List Op :=
  [.create 0 (some ![3, 4]), .fork 0 (some 10) none none, .create 0 (some ![5, 6]),
    .create 0 (some ![7, 8])]

/-- The second fork handles the two streams of the second round. -/
theorem fork_pairs_second_round :
    createdSince 0 (runOps secondRound).1 = [2, 1] ∧
    ∃ im parent child, (Op.fork 0 (some 11) none none).run (runOps secondRound).2
      = .ok () { (runOps secondRound).2 with
        images := (runOps secondRound).2.images.set 0 parent ++ [child] } ∧
    Paired 11 (createdSince 0 (runOps secondRound).1) im parent child := by
  refine ⟨by decide, ?_⟩
  have hclean : StepsMeet Op.run Clean secondRound World.init :=
    ⟨trivial, ⟨rfl, rfl⟩, trivial, trivial, trivial⟩
  have himage : ∃ im, (runOps secondRound).2.images[0]? = some im :=
    Option.isSome_iff_exists.mp (by decide)
  obtain ⟨im, him⟩ := himage
  obtain ⟨parent, child, h⟩ := (fork_pairs hclean him (show (0 : Int) < 11 by decide)).1
  exact ⟨im, parent, child, h⟩

end Pipe
