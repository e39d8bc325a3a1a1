import SocketPlusPlus.Sig.Basic

/-!
# Blocking masks

`mask(a, b)` and `unmask(a, b)` edit the mask in the disposition of `a`, and install `sighandler`
with an empty mask first if it is not there. `set` installs it too, and `unset(a)` takes it away.
`maskedSince` reads from the history which signals were last masked since the disposition became
`sighandler`. The result says that these are the signals that the kernel blocks during the handler,
but for the signal itself, which it always blocks, since no member installs a flag with
`sighandler`, and `SIGKILL` and `SIGSTOP`, which it never does.
-/

namespace Sig

open Exec History

/-- The last of `mask(a, b)` and `unmask(a, b)` to succeed, since the disposition of `a` became
`sighandler`, was a `mask`. -/
def maskedSince (a b : Int) : List Entry → Bool
  | [] => false
  | e :: log =>
    if e.op = .mask a b ∧ e.outcome = .ok none then true
    else if e.op = .unmask a b ∧ e.outcome = .ok none then false
    else decide ((e.before.disp a).saHandler = .sighandler) && maskedSince a b log

/-- What a step does to the disposition of `a`. -/
inductive DispStep (a : Int) (e : Entry) : Prop where
  | keep (h : e.after.disp a = e.before.disp a)
      (hmask : ∀ b, ¬ (e.op = .mask a b ∧ e.outcome = .ok none))
      (hunmask : ∀ b, ¬ (e.op = .unmask a b ∧ e.outcome = .ok none))
  | claim (hother : (e.before.disp a).saHandler ≠ .sighandler) (h : e.after.disp a = ours)
      (hmask : ∀ b, e.op ≠ .mask a b) (hunmask : ∀ b, e.op ≠ .unmask a b)
  | release (h : (e.after.disp a).saHandler ≠ .sighandler)
  | mask (b : Int) (hop : e.op = .mask a b) (hout : e.outcome = .ok none)
      (h : (e.after.disp a).saMask = insert b (e.before.ourAction a).saMask \ unblockable)
  | unmask (b : Int) (hop : e.op = .unmask a b) (hout : e.outcome = .ok none)
      (h : (e.after.disp a).saMask = (e.before.ourAction a).saMask.erase b \ unblockable)

/-- The members that are about one handler. -/
def Op.Individual : Op → Prop
  | .set _ _ => True
  | .unset _ _ => True
  | .construct _ _ => True
  | .destroy _ => True
  | _ => False

/-- The signal whose handlers or disposition the member is about. `~hnd()` knows its own. -/
def Op.signo : Op → Option Int
  | .set signo _ => some signo
  | .unset signo _ => some signo
  | .unsetAll signo => some signo
  | .mask siga _ => some siga
  | .unmask siga _ => some siga
  | .sysresume signo _ => some signo
  | .construct _ signo => some signo
  | .destroy _ => none
  | .deliver signo => some signo

/-- What a step leaves of the disposition of `a`, and with it of the signals blocked. -/
structure Entry.KeepsMask (a : Int) (e : Entry) : Prop where
  individual : e.op.Individual → (e.before.disp a).saHandler = .sighandler →
    e.after.disp a = e.before.disp a
  others : e.op.signo ≠ some a → e.after.disp a = e.before.disp a
  throws : ∀ err, e.outcome = .error err → e.after.disp a = e.before.disp a

section Steps

variable {r r' : Registry} {op : Op} {out : Except Sigerr Answer} {log : List Entry} {start : Start}
  {a : Int}

/-! ## One step

A step keeps the disposition of `a`, or installs `sighandler` with an empty mask, or edits the mask,
or takes the handler away. -/

theorem dispStep_register {e : Entry} (signo : Int) (hnd : Nat)
    (h : e.after.disp = (e.before.register signo hnd).disp) (hmask : ∀ b, e.op ≠ .mask a b)
    (hunmask : ∀ b, e.op ≠ .unmask a b) : DispStep a e := by
  have hkeep : e.after.disp a = e.before.disp a → DispStep a e :=
    fun h => .keep h (fun b hb => hmask b hb.1) (fun b hb => hunmask b hb.1)
  -- `set` looks at the disposition only when the list is empty
  by_cases hours : (e.before.disp signo).saHandler = .sighandler
  · apply hkeep
    rw [h, disp_register_of_ours hnd hours]
  by_cases hfull : e.before.smap signo ≠ []
  · apply hkeep
    rw [h, disp_register_of_ne_nil hnd hfull]
  by_cases hsigno : a = signo
  · subst hsigno
    apply DispStep.claim hours _ hmask hunmask
    have hnot : hnd ∉ e.before.smap a := by simp [not_not.mp hfull]
    rw [h, Registry.register, if_neg hnot, if_pos (not_not.mp hfull), disp_setList, Registry.claim,
      if_neg hours, disp_install_self]
    rfl
  · apply hkeep
    rw [h, disp_register_ne hnd hsigno]

theorem Step.dispStep (h : Step r op out r') (a : Int) : DispStep a ⟨r, op, out, r'⟩ := by
  cases h with
  | throws e _ => exact .keep rfl (fun _ h => by cases h.2) (fun _ h => by cases h.2)
  | set signo hnd =>
    exact dispStep_register signo hnd rfl (fun _ h => by cases h) (fun _ h => by cases h)
  | construct signo _ =>
    exact dispStep_register signo _ rfl (fun _ h => by cases h) (fun _ h => by cases h)
  | unset signo hnd =>
    apply DispStep.keep _ (fun _ h => by cases h.1) (fun _ h => by cases h.1)
    rw [disp_unregister]
  | destroy _ =>
    apply DispStep.keep _ (fun _ h => by cases h.1) (fun _ h => by cases h.1)
    rw [disp_setHnd, disp_unregister]
  | unsetAll signo =>
    by_cases hsigno : a = signo
    · apply DispStep.release
      subst hsigno
      unfold Registry.reset
      split_ifs with hours
      · simp
      · exact hours
    · apply DispStep.keep _ (fun _ h => by cases h.1) (fun _ h => by cases h.1)
      rw [disp_reset_ne hsigno, disp_setList]
  | mask siga sigb =>
    by_cases hsiga : a = siga
    · subst hsiga
      apply DispStep.mask sigb rfl rfl
      rw [disp_install_self]
    · apply DispStep.keep (disp_install_ne _ hsiga) _ (fun _ h => by cases h.1)
      rintro b ⟨hop, -⟩
      cases hop
      exact hsiga rfl
  | unmask siga sigb =>
    by_cases hsiga : a = siga
    · subst hsiga
      apply DispStep.unmask sigb rfl rfl
      rw [disp_install_self]
      rfl
    · apply DispStep.keep (disp_install_ne _ hsiga) (fun _ h => by cases h.1)
      rintro b ⟨hop, -⟩
      cases hop
      exact hsiga rfl
  | _ => exact .keep rfl (fun _ h => by cases h.1) (fun _ h => by cases h.1)

/-- A disposition that is ours stays as it is when a handler comes. -/
theorem disp_register_at (hours : (r.disp a).saHandler = .sighandler) (signo : Int) (hnd : Nat) :
    (r.register signo hnd).disp a = r.disp a := by
  by_cases hsigno : a = signo
  · subst hsigno
    rw [disp_register_of_ours hnd hours]
  · exact disp_register_ne hnd hsigno

theorem Step.disp_individual (h : Step r op out r') (hop : op.Individual)
    (hours : (r.disp a).saHandler = .sighandler) : r'.disp a = r.disp a := by
  cases h with
  | set signo hnd => exact disp_register_at hours signo hnd
  | construct signo _ => exact disp_register_at hours signo _
  | unset _ _ => rw [disp_unregister]
  | destroy _ => rw [disp_setHnd, disp_unregister]
  | unsetAll _ => exact hop.elim
  | mask _ _ => exact hop.elim
  | unmask _ _ => exact hop.elim
  | _ => rfl

theorem Step.disp_others (h : Step r op out r') (hop : op.signo ≠ some a) :
    r'.disp a = r.disp a := by
  have hne : ∀ {signo}, op.signo = some signo → a ≠ signo := by
    rintro signo hsigno rfl
    exact hop hsigno
  cases h with
  | set _ hnd => exact disp_register_ne hnd (hne rfl)
  | construct _ _ => exact disp_register_ne _ (hne rfl)
  | unset _ _ => rw [disp_unregister]
  | destroy _ => rw [disp_setHnd, disp_unregister]
  | unsetAll _ => exact disp_reset_ne (hne rfl)
  | mask _ _ => exact disp_install_ne _ (hne rfl)
  | unmask _ _ => exact disp_install_ne _ (hne rfl)
  | _ => rfl

theorem Step.disp_throws {err : Sigerr} (h : Step r op (.error err) r') : r'.disp = r.disp := by
  cases h with
  | throws _ _ => rfl
  | unsetAllThrows _ _ => rfl

theorem Step.keepsMask (h : Step r op out r') (a : Int) : Entry.KeepsMask a ⟨r, op, out, r'⟩ where
  individual hop hours := h.disp_individual hop hours
  others hop := h.disp_others hop
  throws err hout := by
    cases hout
    exact congrFun h.disp_throws a

/-! ## Masks and history agree

The mask of `a` has the signals that were masked last, as long as `sighandler` is there. -/

/-- Where the disposition is `sighandler`, its mask is what was masked since. -/
def MaskAgrees (a : Int) (log : List Entry) (r : Registry) : Prop :=
  (r.disp a).saHandler = .sighandler →
    ∀ b, b ∈ (r.disp a).saMask ↔ maskedSince a b log = true ∧ b ∉ unblockable

theorem mem_ourAction (h : MaskAgrees a log r) (b : Int) :
    b ∈ (r.ourAction a).saMask ↔
      (decide ((r.disp a).saHandler = .sighandler) && maskedSince a b log) = true ∧
        b ∉ unblockable := by
  unfold Registry.ourAction
  split_ifs with hours
  · simp [hours, h hours b]
  · simp [hours, ours]

theorem MaskAgrees.step {e : Entry} (h : MaskAgrees a log e.before) (hstep : DispStep a e) :
    MaskAgrees a (e :: log) e.after := by
  intro hours b
  cases hstep with
  | keep hdisp hmask hunmask =>
    rw [hdisp] at hours ⊢
    simp [maskedSince, hmask, hunmask, hours, h hours b]
  | claim hother hdisp hmask hunmask =>
    -- a new `sighandler` starts with an empty mask, and the history starts anew
    rw [hdisp]
    simp [maskedSince, hmask, hunmask, hother, ours]
  | release hdisp => exact absurd hours hdisp
  | mask b' hop hout hdisp =>
    rw [hdisp, Finset.mem_sdiff, Finset.mem_insert, mem_ourAction h]
    by_cases hb : b = b'
    · simp [maskedSince, hop, hout, hb]
    · simp [maskedSince, hop, hout, hb, Ne.symm hb]
  | unmask b' hop hout hdisp =>
    rw [hdisp, Finset.mem_sdiff, Finset.mem_erase, mem_ourAction h]
    by_cases hb : b = b'
    · simp [maskedSince, hop, hout, hb]
    · simp [maskedSince, hop, hout, hb, Ne.symm hb]

theorem Run.maskAgrees (h : Run Step start.reg log r) (a : Int) : MaskAgrees a log r := by
  induction h with
  | start => exact fun hours => absurd hours (start.foreign a)
  | step _ hstep ih => exact ih.step (hstep.dispStep a)

end Steps

/-- **Blocking masks.** However calls follow one another and whichever system calls fail: while the
disposition of `a` is `sighandler`, the signals blocked during the handler are `a` and those that
were last masked since it became so, without `SIGKILL` and `SIGSTOP`. Members for one handler,
members for other signals and members that throw leave the disposition as it was. -/
theorem blocked_iff_masked (F : Nat → Bool) (start : Start) (ops : List Op) (a : Int) :
    (((runOps F start ops).2.reg.disp a).saHandler = .sighandler →
      ∀ b, b ∈ (runOps F start ops).2.reg.blocked a ↔
        (b = a ∨ maskedSince a b (runOps F start ops).1 = true) ∧ b ≠ sigkill ∧ b ≠ sigstop) ∧
    ∀ e ∈ (runOps F start ops).1, Entry.KeepsMask a e := by
  have hrun := runOps_run F start ops
  constructor
  · intro hours b
    have hmask := Run.maskAgrees hrun a hours b
    have hflags := hrun.invariant start.flagless fun _ _ _ _ hr hstep => hstep.flagless hr
    rw [hflags.blocked hours, Finset.mem_sdiff, Finset.mem_insert, hmask]
    simp only [unblockable, Finset.mem_insert, Finset.mem_singleton, not_or]
    tauto
  · exact hrun.forall_entry (I := fun _ => True) trivial (fun _ _ _ _ _ _ => trivial)
      fun _ _ _ _ _ hstep => hstep.keepsMask a

/-- After `mask(15, 10)` signal 15 is blocked during its handler without having been masked, and
after `mask(15, SIGKILL)` the signal last masked is not blocked. -/
theorem blocked_not_only_masked :
    (((runOps (fun _ => false) .default [.mask 15 10]).2.reg.disp 15).saHandler = .sighandler ∧
      15 ∈ (runOps (fun _ => false) .default [.mask 15 10]).2.reg.blocked 15 ∧
      maskedSince 15 15 (runOps (fun _ => false) .default [.mask 15 10]).1 = false) ∧
    (((runOps (fun _ => false) .default [.mask 15 sigkill]).2.reg.disp 15).saHandler
        = .sighandler ∧
      sigkill ∉ (runOps (fun _ => false) .default [.mask 15 sigkill]).2.reg.blocked 15 ∧
      maskedSince 15 sigkill (runOps (fun _ => false) .default [.mask 15 sigkill]).1 = true) := by
  refine ⟨⟨?_, ?_, ?_⟩, ?_, ?_, ?_⟩ <;> decide

end Sig
