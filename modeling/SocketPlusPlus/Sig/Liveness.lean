import SocketPlusPlus.Sig.Registry

/-!
# Handlers that are alive

`~hnd()` takes the handler out of one list, that of the signal it was constructed for. A handler
that `set` has put into the list of another signal stays there, and the next delivery of that signal
calls a destroyed object. The result says that this is the only way to such a list.
-/

namespace Sig

open Exec History

/-- Every pointer in a list is to a handler that is alive. -/
def Registry.AllLive (r : Registry) : Prop :=
  ∀ signo hnd, hnd ∈ r.smap signo → ∃ own, r.hnds hnd = some own

/-- The caller names handlers that are alive. -/
def OnLive : Op → Registry → Prop
  | .set _ (some hnd), r => ∃ own, r.hnds hnd = some own
  | .unset _ (some hnd), r => ∃ own, r.hnds hnd = some own
  | _, _ => True

/-- No handler is destroyed while it is registered for a signal that is not its own. -/
def OwnOnly : Op → Registry → Prop
  | .destroy hnd, r => ∀ own signo, r.hnds hnd = some own → hnd ∈ r.smap signo → signo = own
  | _, _ => True

section Steps

variable {r r' : Registry} {op : Op} {out : Except Sigerr Answer}

theorem AllLive.register (h : r.AllLive) (signo : Int) {hnd : Nat} {hnds : Nat → Option Int}
    (hnew : ∃ own, hnds hnd = some own) (hkeep : ∀ a, a ≠ hnd → hnds a = r.hnds a) (signo' : Int)
    (a : Nat) (ha : a ∈ (r.register signo hnd).smap signo') : ∃ own, hnds a = some own := by
  by_cases heq : a = hnd
  · rw [heq]
    exact hnew
  -- every other handler in a list was there before
  rw [hkeep a heq]
  by_cases hsigno : signo' = signo
  · subst hsigno
    by_cases hmem : hnd ∈ r.smap signo'
    · rw [register_of_mem hmem] at ha
      exact h signo' a ha
    · rw [smap_register_self hmem, List.mem_append, List.mem_singleton] at ha
      exact h signo' a (ha.resolve_right heq)
  · rw [smap_register_ne hnd hsigno] at ha
    exact h signo' a ha

theorem mem_of_mem_unregister {signo signo' : Int} {hnd a : Nat}
    (ha : a ∈ (r.unregister signo hnd).smap signo') : a ∈ r.smap signo' := by
  by_cases hsigno : signo' = signo
  · rw [hsigno, smap_unregister_self] at ha
    rw [hsigno]
    exact List.mem_of_mem_erase ha
  · rwa [smap_unregister_ne hnd hsigno] at ha

theorem mem_of_mem_clear {signo signo' : Int} {a : Nat}
    (ha : a ∈ (r.setList signo []).smap signo') :
    a ∈ r.smap signo' := by
  by_cases hsigno : signo' = signo
  · rw [hsigno, smap_setList_self] at ha
    cases ha
  · rwa [smap_setList_ne _ hsigno] at ha

/-- After the destructor the handler is in no list, if it was in no other than its own. -/
theorem AllLive.destroy (h : r.AllLive) (hr : r.Sound) {hnd : Nat} {own : Int}
    (hown : ∀ signo, hnd ∈ r.smap signo → signo = own) :
    ((r.unregister own hnd).setHnd hnd none).AllLive := by
  intro signo a ha
  rw [smap_setHnd] at ha
  have hold : a ∈ r.smap signo := mem_of_mem_unregister ha
  -- in the one list that it was in, it was once
  have hne : a ≠ hnd := by
    rintro rfl
    have hsigno := hown signo hold
    rw [hsigno, smap_unregister_self] at ha
    exact (hr.nodup own).not_mem_erase ha
  rw [hnds_setHnd_ne _ hne, hnds_unregister]
  exact h signo a hold

theorem Step.allLive (h : Step r op out r') (hr : r.Sound) (hlive : r.AllLive)
    (hdom : OnLive op r) (hown : OwnOnly op r) : r'.AllLive := by
  cases h with
  | set signo hnd =>
    intro signo' a ha
    rw [hnds_register]
    exact AllLive.register hlive signo hdom (fun _ _ => rfl) signo' a ha
  | @construct hnd signo hfree =>
    have hkeep : ∀ a, a ≠ hnd →
        ((r.register signo hnd).setHnd hnd (some signo)).hnds a = r.hnds a := by
      intro a hne
      rw [hnds_setHnd_ne _ hne, hnds_register]
    exact AllLive.register hlive signo ⟨signo, hnds_setHnd_self ..⟩ hkeep
  | unset signo hnd =>
    intro signo' a ha
    rw [hnds_unregister]
    exact hlive signo' a (mem_of_mem_unregister ha)
  | @destroy hnd own hhnd => exact AllLive.destroy hlive hr fun signo => hown own signo hhnd
  | unsetAll signo =>
    intro signo' a ha
    rw [smap_reset] at ha
    rw [hnds_reset]
    exact hlive signo' a (mem_of_mem_clear ha)
  | unsetAllThrows signo _ => exact fun signo' a ha => hlive signo' a (mem_of_mem_clear ha)
  | _ => exact hlive

/-- The destructor leaves a pointer to the destroyed handler in the list of the other signal. -/
theorem Step.dangling (h : Step r op out r') (hnot : ¬ OwnOnly op r) : ¬ r'.AllLive := by
  intro hlive
  cases h with
  | @destroy hnd own hhnd =>
    apply hnot
    intro own' signo hhnd' hmem
    cases hhnd.symm.trans hhnd'
    by_contra hne
    have hin : hnd ∈ ((r.unregister own hnd).setHnd hnd none).smap signo := by
      rw [smap_setHnd, smap_unregister_ne hnd hne]
      exact hmem
    obtain ⟨own', hown'⟩ := hlive signo hnd hin
    rw [hnds_setHnd_self] at hown'
    cases hown'
  | destroyGone hgone =>
    apply hnot
    intro own signo hhnd
    cases hgone.symm.trans hhnd
  | throws e hop =>
    cases op with
    | destroy _ => exact hop
    | _ => exact hnot trivial
  | _ => exact hnot trivial

end Steps

section Runs

variable {F : Nat → Bool} {s : State}

theorem wp_of_step {P : Registry → Prop} {op : Op}
    (h : ∀ out r', Step s.reg op out r' → P r') :
    wp (op.run F) (fun _ s' => P s'.reg) (fun _ s' => P s'.reg) s :=
  (op_spec op).mono (fun _ s' => h _ s'.reg) (fun _ s' => h _ s'.reg)

theorem allLive_op_iff (hs : s.reg.Sound) (hlive : s.reg.AllLive) {op : Op}
    (hdom : OnLive op s.reg) :
    wp (op.run F) (fun _ s' => s'.reg.AllLive) (fun _ s' => s'.reg.AllLive) s ↔
      OwnOnly op s.reg := by
  constructor
  · intro h
    by_contra hnot
    exact (op_step F op s).dangling hnot h.attempt
  · intro hown
    exact wp_of_step fun _ _ hstep => hstep.allLive hs hlive hdom hown

end Runs

/-- **When only live handlers are called.** In a run whose callers name live handlers, every step
leaves every list with live handlers only, exactly if no handler is destroyed while it is
registered for a signal other than the one it was constructed for. -/
theorem handlers_live_iff (F : Nat → Bool) (start : Start) (ops : List Op)
    (hdom : StepsMeet (Op.run F) (fun op s => OnLive op s.reg) ops ⟨start.reg, 0⟩) :
    StepsMeet (Op.run F) (fun op s =>
        wp (op.run F) (fun _ s' => s'.reg.AllLive) (fun _ s' => s'.reg.AllLive) s)
        ops ⟨start.reg, 0⟩ ↔
      StepsMeet (Op.run F) (fun op s => OwnOnly op s.reg) ops ⟨start.reg, 0⟩ := by
  apply stepsMeet_iff_on (I := fun s : State => s.reg.Sound ∧ s.reg.AllLive) _ _ ops _ hdom
  · intro op s hs hop
    exact allLive_op_iff hs.1 hs.2 hop
  · intro op s hs hop hown
    exact wp_of_step (P := fun r => r.Sound ∧ r.AllLive)
      fun _ _ hstep => ⟨hstep.sound hs.1, hstep.allLive hs.1 hs.2 hop hown⟩
  · exact ⟨sound_start start, fun _ _ h => by cases h⟩

/-- A handler that was also set for another signal, and unset there before it is destroyed. -/
theorem handlers_live_unset :
    StepsMeet (Op.run fun _ => false) (fun op s =>
        wp (op.run fun _ => false) (fun _ s' => s'.reg.AllLive) (fun _ s' => s'.reg.AllLive) s)
      [.construct 1 2, .set 15 (some 1), .unset 15 (some 1), .destroy 1]
      ⟨Start.default.reg, 0⟩ := by
  apply (handlers_live_iff (fun _ => false) .default _ _).mpr
  · refine ⟨trivial, trivial, trivial, ?_, trivial⟩
    intro own signo hown hmem
    cases hown
    have hlists : 1 ∈ Function.update (Function.update (Function.update
        (fun _ => ([] : List Nat)) 2 [1]) 15 [1]) 15 [] signo := hmem
    by_contra hne
    by_cases h15 : signo = 15
    · simp [h15] at hlists
    · simp [h15, hne] at hlists
  · exact ⟨trivial, ⟨2, rfl⟩, ⟨2, rfl⟩, trivial, trivial⟩

/-- A handler for signal 2 that was also set for signal 15 and is then destroyed is still called
when signal 15 arrives. -/
theorem destroyed_handler_called :
    StepsMeet (Op.run fun _ => false) (fun op s => OnLive op s.reg)
      [.construct 1 2, .set 15 (some 1), .destroy 1, .deliver 15] ⟨Start.default.reg, 0⟩ ∧
    1 ∈ (runOps (fun _ => false) .default
      [.construct 1 2, .set 15 (some 1), .destroy 1]).2.reg.smap 15 ∧
    (runOps (fun _ => false) .default
      [.construct 1 2, .set 15 (some 1), .destroy 1]).2.reg.hnds 1 = none ∧
    (runOps (fun _ => false) .default
      [.construct 1 2, .set 15 (some 1), .destroy 1, .deliver 15]).2.reg.called = [(1, 15)] := by
  refine ⟨⟨trivial, ⟨2, rfl⟩, trivial, trivial, trivial⟩, ?_, ?_, ?_⟩
  · decide
  · decide
  · decide

end Sig
