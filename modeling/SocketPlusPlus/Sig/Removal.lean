import SocketPlusPlus.Sig.Registry

/-!
# Removing handlers one by one

`unset(signo)` empties the list of a signal and gives the signal its default disposition back.
`unset(signo, h)` and `~hnd()` take one handler out and look at nothing else, so that the last
handler leaves `sighandler` installed with nobody to call: the signal is swallowed.

The result is about every reachable state and every order of the removals.
-/

namespace Sig

open Exec History

/-- No system call fails. -/
def never : Nat → Bool := fun _ => false

/-- The two states agree on the handlers and on the disposition of `signo`. -/
def SameEnd (signo : Int) (s s' : State) : Prop :=
  s.reg.smap signo = s'.reg.smap signo ∧ s.reg.disp signo = s'.reg.disp signo

/-- `unset(signo, h)` for each `h` of `order`. -/
def unsetEach (signo : Int) (order : List Nat) (s : State) : State :=
  (runAll (order.map fun h => (Op.unset signo (some h)).run never) s).2

/-- `delete h` for each `h` of `order`. -/
def destroyEach (order : List Nat) (s : State) : State :=
  (runAll (order.map fun h => (Op.destroy h).run never) s).2

/-- `unset(signo)` -/
def unsetAtOnce (signo : Int) (s : State) : State :=
  (attempt ((Op.unsetAll signo).run never) s).2

section Removal

variable (s : State) (signo : Int) (order : List Nat)

/-- Where nothing fails, `unset(signo)` does all that it is for. -/
theorem unsetAll_never :
    wp (unsetAll never signo) (fun _ s' => s'.reg = (s.reg.setList signo []).reset signo)
      (fun _ _ => False) s := by
  have hget : sigactionGet never signo ⟨s.reg.setList signo [], s.calls⟩
      = .ok (s.reg.disp signo) ⟨s.reg.setList signo [], s.calls + 1⟩ := rfl
  unfold unsetAll
  rw [wp_bind, wp_modify, wp_bind_of_ok hget]
  apply wp_ite_intro
  · intro hours
    exact (if_pos hours).symm
  · intro hother
    exact (if_neg hother).symm

theorem unsetAtOnce_reg : (unsetAtOnce signo s).reg = (s.reg.setList signo []).reset signo := by
  refine wp.attempt (I := fun s' : State => s'.reg = (s.reg.setList signo []).reset signo) ?_
  show wp ((fun _ => none) <$> unsetAll never signo) _ _ s
  rw [wp_map]
  exact (unsetAll_never s signo).mono (fun _ _ h => h) (fun _ _ h => h.elim)

/-- The removals leave every disposition as it is. -/
theorem disp_unsetEach : (unsetEach signo order s).reg.disp = s.reg.disp := by
  refine runAll_invariant (I := fun s' : State => s'.reg.disp = s.reg.disp) ?_ rfl
  intro c hc s1 h1
  obtain ⟨hnd, -, rfl⟩ := List.mem_map.mp hc
  show wp (some <$> unset signo (some hnd)) _ _ s1
  rw [wp_map]
  refine (unset_spec signo hnd).mono ?_ (fun _ _ h => h.elim)
  rintro b s2 ⟨-, h2⟩
  show s2.reg.disp = s.reg.disp
  rw [h2, disp_unregister, h1]

theorem disp_destroyEach : (destroyEach order s).reg.disp = s.reg.disp := by
  refine runAll_invariant (I := fun s' : State => s'.reg.disp = s.reg.disp) ?_ rfl
  intro c hc s1 h1
  obtain ⟨hnd, -, rfl⟩ := List.mem_map.mp hc
  show wp ((fun _ => none) <$> destroy hnd) _ _ s1
  rw [wp_map]
  refine (destroy_spec hnd).mono ?_ (fun _ _ h => h.elim)
  rintro b s2 (⟨-, h2⟩ | ⟨own, -, h2⟩)
  · show s2.reg.disp = s.reg.disp
    rw [h2, h1]
  · show s2.reg.disp = s.reg.disp
    rw [h2, disp_setHnd, disp_unregister, h1]

/-- A state that has not touched the dispositions ends as `unset(signo)` does if there was nothing
to remove. -/
theorem sameEnd_iff {s s' : State} (hs : s.reg.Sound) (hdisp : s'.reg.disp = s.reg.disp)
    (hnone : s.reg.smap signo = [] → s'.reg.smap signo = []) :
    SameEnd signo s' (unsetAtOnce signo s) ↔ (s.reg.disp signo).saHandler ≠ .sighandler := by
  unfold SameEnd
  rw [unsetAtOnce_reg, hdisp]
  constructor
  · rintro ⟨-, hsame⟩ hours
    -- `unset(signo)` has put the default back
    have hreset : ((s.reg.setList signo []).reset signo).disp signo = ⟨.sigDfl, ∅, 0⟩ := by
      have hinstall : (s.reg.setList signo []).reset signo
          = (s.reg.setList signo []).install signo ⟨.sigDfl, ∅, 0⟩ := if_pos hours
      rw [hinstall, disp_install_self]
      rfl
    rw [hsame, hreset] at hours
    cases hours
  · intro hother
    have hempty : s.reg.smap signo = [] := by
      by_contra hsome
      exact hother (hs.installed signo hsome)
    have hkeep : (s.reg.setList signo []).reset signo = s.reg.setList signo [] := if_neg hother
    rw [hkeep, smap_setList_self]
    exact ⟨hnone hempty, rfl⟩

end Removal

/-- **When removing handlers one by one is enough.** In every state that the registry can reach,
whichever system calls failed on the way, and for every order of the handlers of a signal: to unset
each of them, or to destroy each of them, ends with the list and the disposition that
`unset(signo)` ends with, exactly if `sighandler` is not installed for the signal. -/
theorem removals_same_end_iff (F : Nat → Bool) (start : Start) (ops : List Op) (signo : Int) :
    ∀ order : List Nat, order.Perm ((runOps F start ops).2.reg.smap signo) →
      (SameEnd signo (unsetEach signo order (runOps F start ops).2)
          (unsetAtOnce signo (runOps F start ops).2) ↔
        ((runOps F start ops).2.reg.disp signo).saHandler ≠ .sighandler) ∧
      (SameEnd signo (destroyEach order (runOps F start ops).2)
          (unsetAtOnce signo (runOps F start ops).2) ↔
        ((runOps F start ops).2.reg.disp signo).saHandler ≠ .sighandler) := by
  intro order hperm
  have hsound := Run.sound (runOps_run F start ops)
  have hnil : (runOps F start ops).2.reg.smap signo = [] → order = [] := by
    intro hempty
    rw [hempty] at hperm
    exact hperm.eq_nil
  constructor
  · refine sameEnd_iff signo hsound (disp_unsetEach _ signo order) fun hempty => ?_
    rw [hnil hempty]
    exact hempty
  · refine sameEnd_iff signo hsound (disp_destroyEach _ order) fun hempty => ?_
    rw [hnil hempty]
    exact hempty

/-- A handler for signal 2, and the state after it is constructed. -/
def oneHandler : State := (runOps never .default [.construct 1 2]).2

theorem removals_same_end_iff_one :
    (SameEnd 2 (unsetEach 2 [1] oneHandler) (unsetAtOnce 2 oneHandler) ↔
      (oneHandler.reg.disp 2).saHandler ≠ .sighandler) ∧
    (SameEnd 2 (destroyEach [1] oneHandler) (unsetAtOnce 2 oneHandler) ↔
      (oneHandler.reg.disp 2).saHandler ≠ .sighandler) :=
  removals_same_end_iff never .default [.construct 1 2] 2 [1] (by decide)

/-- Its removal leaves `sighandler` installed with an empty list, and `unset(2)` does not. -/
theorem removal_swallows :
    (oneHandler.reg.smap 2) = [1] ∧
    ((unsetEach 2 [1] oneHandler).reg.smap 2) = [] ∧
    ((unsetEach 2 [1] oneHandler).reg.disp 2).saHandler = .sighandler ∧
    ((destroyEach [1] oneHandler).reg.disp 2).saHandler = .sighandler ∧
    ((unsetAtOnce 2 oneHandler).reg.disp 2).saHandler = .sigDfl ∧
    ¬ SameEnd 2 (unsetEach 2 [1] oneHandler) (unsetAtOnce 2 oneHandler) := by
  have hleft : ((unsetEach 2 [1] oneHandler).reg.disp 2).saHandler = .sighandler := by decide
  have hreset : ((unsetAtOnce 2 oneHandler).reg.disp 2).saHandler = .sigDfl := by decide
  refine ⟨by decide, by decide, hleft, by decide, hreset, ?_⟩
  rintro ⟨-, hsame⟩
  rw [hsame, hreset] at hleft
  cases hleft

end Sig
