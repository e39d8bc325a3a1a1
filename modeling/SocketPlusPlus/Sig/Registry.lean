import Mathlib.Data.List.Nodup
import SocketPlusPlus.Sig.Basic

/-!
# Registered handlers

A handler is registered for a signal from the `set` that adds it to the removal that takes it out,
and `registeredAt` reads from the history when that was. The lists of `smap` are those handlers in
that order, and a list that is not empty has `sighandler` installed. So a delivery calls each
registered handler once, the oldest first.
-/

namespace Sig

open Exec History

/-! ## The history of a registration -/

/-- The step has registered `hnd` for `signo`, or found it registered. -/
def adds (signo : Int) (hnd : Nat) (e : Entry) : Bool :=
  match e.op, e.outcome with
  | .set s h, .ok _ => decide (s = signo ∧ h = some hnd)
  | .construct h s, .ok _ => decide (s = signo ∧ h = hnd ∧ e.before.hnds h = none)
  | _, _ => false

/-- The step has taken `hnd` out of the list of `signo`, if it was there. -/
def removes (signo : Int) (hnd : Nat) (e : Entry) : Bool :=
  match e.op with
  | .unset s h => decide (s = signo ∧ h = some hnd)
  | .unsetAll s => decide (s = signo)
  | .destroy h => decide (e.before.hnds h = some signo ∧ h = hnd)
  | _ => false

/-- The number of the step since which `hnd` is registered for `signo`. -/
def registeredAt (signo : Int) (hnd : Nat) : List Entry → Option Nat
  | [] => none
  | e :: log =>
    if adds signo hnd e then (registeredAt signo hnd log).or (some log.length)
    else if removes signo hnd e then none
    else registeredAt signo hnd log

/-- Both are registered, and `hnd` longer than `hnd'`. -/
def Earlier (log : List Entry) (signo : Int) (hnd hnd' : Nat) : Prop :=
  ∃ t t', registeredAt signo hnd log = some t ∧ registeredAt signo hnd' log = some t' ∧ t < t'

/-- What a step does to the list of `signo`. -/
inductive ListStep (signo : Int) (e : Entry) : Prop where
  | keep (h : e.after.smap signo = e.before.smap signo)
      (hadds : ∀ hnd, adds signo hnd e = true → hnd ∈ e.before.smap signo)
      (hremoves : ∀ hnd, removes signo hnd e = true → hnd ∉ e.before.smap signo)
  | append (hnd : Nat) (hnot : hnd ∉ e.before.smap signo)
      (h : e.after.smap signo = e.before.smap signo ++ [hnd])
      (hadds : ∀ hnd', adds signo hnd' e = decide (hnd' = hnd))
      (hremoves : ∀ hnd', removes signo hnd' e = false)
  | erase (hnd : Nat) (h : e.after.smap signo = (e.before.smap signo).erase hnd)
      (hadds : ∀ hnd', adds signo hnd' e = false)
      (hremoves : ∀ hnd', removes signo hnd' e = decide (hnd' = hnd))
  | clear (h : e.after.smap signo = []) (hadds : ∀ hnd, adds signo hnd e = false)
      (hremoves : ∀ hnd, removes signo hnd e = true)

section Steps

variable {r r' : Registry} {op : Op} {out : Except Sigerr Answer} {log : List Entry} {start : Start}

theorem listStep_register {e : Entry} (signo signo' : Int) (hnd : Nat)
    (h : e.after.smap = (e.before.register signo' hnd).smap)
    (hadds : ∀ hnd', adds signo hnd' e = decide (signo' = signo ∧ hnd' = hnd))
    (hremoves : ∀ hnd', removes signo hnd' e = false) : ListStep signo e := by
  by_cases hsigno : signo' = signo
  · subst hsigno
    by_cases hmem : hnd ∈ e.before.smap signo'
    · apply ListStep.keep
      · rw [h, register_of_mem hmem]
      · intro hnd' hadd
        have heq : hnd' = hnd := by simpa [hadds] using hadd
        rw [heq]
        exact hmem
      · simp [hremoves]
    · apply ListStep.append hnd hmem
      · rw [h, smap_register_self hmem]
      · simp [hadds]
      · exact hremoves
  · apply ListStep.keep
    · rw [h, smap_register_ne hnd (Ne.symm hsigno)]
    · simp [hadds, hsigno]
    · simp [hremoves]

theorem listStep_unregister {e : Entry} (signo signo' : Int) (hnd : Nat)
    (h : e.after.smap = (e.before.unregister signo' hnd).smap)
    (hadds : ∀ hnd', adds signo hnd' e = false)
    (hremoves : ∀ hnd', removes signo hnd' e = decide (signo' = signo ∧ hnd' = hnd)) :
    ListStep signo e := by
  by_cases hsigno : signo' = signo
  · subst hsigno
    apply ListStep.erase hnd
    · rw [h, smap_unregister_self]
    · exact hadds
    · simp [hremoves]
  · apply ListStep.keep
    · rw [h, smap_unregister_ne hnd (Ne.symm hsigno)]
    · simp [hadds]
    · simp [hremoves, hsigno]

theorem listStep_clear {e : Entry} (signo signo' : Int) (hop : e.op = .unsetAll signo')
    (h : e.after.smap = (e.before.setList signo' []).smap) : ListStep signo e := by
  by_cases hsigno : signo' = signo
  · subst hsigno
    apply ListStep.clear
    · rw [h, smap_setList_self]
    · simp [adds, hop]
    · simp [removes, hop]
  · apply ListStep.keep
    · rw [h, smap_setList_ne _ (Ne.symm hsigno)]
    · simp [adds, hop]
    · simp [removes, hop, hsigno]

/-- A step that leaves the lists alone, and says so. -/
theorem listStep_same {e : Entry} (signo : Int) (h : e.after.smap = e.before.smap)
    (hadds : ∀ hnd, adds signo hnd e = false) (hremoves : ∀ hnd, removes signo hnd e = false) :
    ListStep signo e := by
  apply ListStep.keep
  · rw [h]
  · simp [hadds]
  · simp [hremoves]

theorem Step.listStep (h : Step r op out r') (signo : Int) : ListStep signo ⟨r, op, out, r'⟩ := by
  cases h with
  | throws e hop =>
    apply ListStep.keep rfl
    · intro hnd hadd
      cases op <;> simp [adds] at hadd
    · -- the members that remove do not throw, or have removed before they do
      intro hnd hremove
      cases op with
      | unset _ _ => exact hop.elim
      | unsetAll _ => exact hop.elim
      | destroy _ => exact hop.elim
      | _ => simp [removes] at hremove
  | setNull _ => exact listStep_same signo rfl (by simp [adds]) (by simp [removes])
  | set signo' hnd =>
    apply listStep_register signo signo' hnd rfl
    · simp [adds, eq_comm]
    · simp [removes]
  | unsetNull _ => exact listStep_same signo rfl (by simp [adds]) (by simp [removes])
  | unset signo' hnd =>
    apply listStep_unregister signo signo' hnd rfl
    · simp [adds]
    · simp [removes, eq_comm]
  | unsetAll signo' =>
    apply listStep_clear signo signo' rfl
    exact smap_reset _ signo'
  | unsetAllThrows signo' _ => exact listStep_clear signo signo' rfl rfl
  | mask _ _ => exact listStep_same signo rfl (by simp [adds]) (by simp [removes])
  | unmask _ _ => exact listStep_same signo rfl (by simp [adds]) (by simp [removes])
  | sysresume _ _ => exact listStep_same signo rfl (by simp [adds]) (by simp [removes])
  | construct signo' hfree =>
    apply listStep_register signo signo' _ rfl
    · simp [adds, hfree, eq_comm]
    · simp [removes]
  | constructTaken _ htaken =>
    exact listStep_same signo rfl (by simp [adds, htaken]) (by simp [removes])
  | destroy hlive =>
    apply listStep_unregister signo _ _ rfl
    · simp [adds]
    · simp [removes, hlive, eq_comm]
  | destroyGone hgone => exact listStep_same signo rfl (by simp [adds]) (by simp [removes, hgone])
  | deliver _ => exact listStep_same signo rfl (by simp [adds]) (by simp [removes])
  | deliverElsewhere _ => exact listStep_same signo rfl (by simp [adds]) (by simp [removes])

/-! ## The registry

Wherever a list is not empty `sighandler` is installed, and no list has a handler twice. -/

/-- No handler is twice in a list, and a list with a handler has `sighandler` installed. -/
structure Registry.Sound (r : Registry) : Prop where
  installed : ∀ signo, r.smap signo ≠ [] → (r.disp signo).saHandler = .sighandler
  nodup : ∀ signo, (r.smap signo).Nodup

theorem Step.nodup (h : Step r op out r') (hr : r.Sound) (signo : Int) :
    (r'.smap signo).Nodup := by
  have hold := hr.nodup signo
  cases h.listStep signo with
  | keep h _ _ => rwa [show r'.smap signo = r.smap signo from h]
  | append hnd hnot h _ _ =>
    rw [show r'.smap signo = r.smap signo ++ [hnd] from h, List.nodup_append_comm]
    exact List.nodup_cons.mpr ⟨hnot, hold⟩
  | erase hnd h _ _ =>
    rw [show r'.smap signo = (r.smap signo).erase hnd from h]
    exact hold.erase hnd
  | clear h _ _ =>
    rw [show r'.smap signo = [] from h]
    exact List.nodup_nil

theorem installed_register (hr : r.Sound) (signo : Int) (hnd : Nat) (signo' : Int)
    (h : (r.register signo hnd).smap signo' ≠ []) :
    ((r.register signo hnd).disp signo').saHandler = .sighandler := by
  by_cases hsigno : signo' = signo
  · subst hsigno
    -- the first handler installs `sighandler`, and for the others it is there
    by_cases hempty : r.smap signo' = []
    · exact saHandler_register_of_nil hnd hempty
    · rw [disp_register_of_ne_nil hnd hempty]
      exact hr.installed signo' hempty
  · rw [smap_register_ne hnd hsigno] at h
    rw [disp_register_ne hnd hsigno]
    exact hr.installed signo' h

theorem installed_unregister (hr : r.Sound) (signo : Int) (hnd : Nat) (signo' : Int)
    (h : (r.unregister signo hnd).smap signo' ≠ []) :
    ((r.unregister signo hnd).disp signo').saHandler = .sighandler := by
  rw [disp_unregister]
  apply hr.installed
  intro hempty
  apply h
  by_cases hsigno : signo' = signo
  · rw [hsigno, smap_unregister_self, ← hsigno, hempty]
    rfl
  · rw [smap_unregister_ne hnd hsigno, hempty]

/-- `mask` and `unmask` install `sighandler`, so they can only help. -/
theorem installed_install (hr : r.Sound) (signo : Int) (mask : Finset Int) (signo' : Int)
    (h : r.smap signo' ≠ []) :
    ((r.install signo { r.ourAction signo with saMask := mask }).disp signo').saHandler
      = .sighandler := by
  by_cases hsigno : signo' = signo
  · rw [hsigno, disp_install_self]
    exact saHandler_ourAction r signo
  · rw [disp_install_ne _ hsigno]
    exact hr.installed signo' h

/-- `unset(signo)` may put the default back: the list is empty by then. -/
theorem installed_clear (hr : r.Sound) {signo signo' : Int} {disp : Int → Sigaction}
    (hdisp : signo' ≠ signo → disp signo' = r.disp signo')
    (h : (r.setList signo []).smap signo' ≠ []) : (disp signo').saHandler = .sighandler := by
  by_cases hsigno : signo' = signo
  · rw [hsigno, smap_setList_self] at h
    exact absurd rfl h
  · rw [smap_setList_ne _ hsigno] at h
    rw [hdisp hsigno]
    exact hr.installed signo' h

theorem Step.sound (h : Step r op out r') (hr : r.Sound) : r'.Sound := by
  refine ⟨?_, h.nodup hr⟩
  intro signo hlist
  cases h with
  | set signo' hnd => exact installed_register hr signo' hnd signo hlist
  | construct signo' _ => exact installed_register hr signo' _ signo hlist
  | unset signo' hnd => exact installed_unregister hr signo' hnd signo hlist
  | destroy _ => exact installed_unregister hr _ _ signo hlist
  | unsetAll signo' =>
    rw [smap_reset] at hlist
    exact installed_clear hr (fun hne => disp_reset_ne hne) hlist
  | unsetAllThrows signo' _ => exact installed_clear hr (fun _ => rfl) hlist
  | mask siga _ => exact installed_install hr siga _ signo hlist
  | unmask siga _ => exact installed_install hr siga _ signo hlist
  | _ => exact hr.installed signo hlist

theorem sound_start (start : Start) : start.reg.Sound :=
  ⟨fun _ h => absurd rfl h, fun _ => List.nodup_nil⟩

theorem Run.sound (h : Run Step start.reg log r) : r.Sound :=
  h.invariant (sound_start start) fun _ _ _ _ hr hstep => hstep.sound hr

/-! ## Lists and history agree

`Tracks` says of a list that its handlers are those registered for the signal, in the order in which
they were registered. -/

theorem registeredAt_lt {signo : Int} {hnd t : Nat} (h : registeredAt signo hnd log = some t) :
    t < log.length := by
  induction log with
  | nil => simp [registeredAt] at h
  | cons e log ih =>
    rw [List.length_cons]
    unfold registeredAt at h
    split_ifs at h
    · rcases Option.or_eq_some_iff.mp h with h | ⟨-, h⟩
      · exact Nat.lt_succ_of_lt (ih h)
      · cases h
        exact Nat.lt_succ_self _
    · exact Nat.lt_succ_of_lt (ih h)

/-- The list of `signo` holds the handlers registered for it, in the order of their times. -/
structure Tracks (signo : Int) (log : List Entry) (v : List Nat) : Prop where
  mem_iff : ∀ hnd, hnd ∈ v ↔ (registeredAt signo hnd log).isSome
  ordered : v.Pairwise (Earlier log signo)

section Tracking

variable {signo : Int} {e : Entry}

/-- A step that changes no time of a handler in the new list keeps the order. -/
theorem Earlier.cons {v : List Nat} (hv : v.Pairwise (Earlier log signo))
    (h : ∀ hnd ∈ v, registeredAt signo hnd (e :: log) = registeredAt signo hnd log) :
    v.Pairwise (Earlier (e :: log) signo) := by
  apply hv.imp_of_mem
  rintro hnd hnd' hin hin' ⟨t, t', ht, ht', hlt⟩
  exact ⟨t, t', (h hnd hin).trans ht, (h hnd' hin').trans ht', hlt⟩

theorem registeredAt_cons_of_not {hnd : Nat} (hadds : adds signo hnd e = false)
    (hremoves : removes signo hnd e = false) :
    registeredAt signo hnd (e :: log) = registeredAt signo hnd log := by
  simp [registeredAt, hadds, hremoves]

theorem Tracks.none_of_not_mem {v : List Nat} {hnd : Nat} (h : Tracks signo log v)
    (hnot : hnd ∉ v) : registeredAt signo hnd log = none := by
  rw [h.mem_iff hnd, Option.not_isSome_iff_eq_none] at hnot
  exact hnot

theorem Tracks.keep (h : Tracks signo log (e.before.smap signo))
    (hadds : ∀ hnd, adds signo hnd e = true → hnd ∈ e.before.smap signo)
    (hremoves : ∀ hnd, removes signo hnd e = true → hnd ∉ e.before.smap signo) :
    Tracks signo (e :: log) (e.before.smap signo) := by
  have hat : ∀ hnd, registeredAt signo hnd (e :: log) = registeredAt signo hnd log := by
    intro hnd
    cases hadd : adds signo hnd e with
    | true =>
      obtain ⟨t, ht⟩ := Option.isSome_iff_exists.mp ((h.mem_iff hnd).mp (hadds hnd hadd))
      simp [registeredAt, hadd, ht]
    | false =>
      cases hremove : removes signo hnd e with
      | true =>
        have hnone := h.none_of_not_mem (hremoves hnd hremove)
        simp [registeredAt, hadd, hremove, hnone]
      | false => exact registeredAt_cons_of_not hadd hremove
  constructor
  · intro hnd
    rw [hat]
    exact h.mem_iff hnd
  · exact Earlier.cons h.ordered fun hnd _ => hat hnd

theorem Tracks.append (h : Tracks signo log (e.before.smap signo)) {hnd : Nat}
    (hnot : hnd ∉ e.before.smap signo)
    (hadds : ∀ hnd', adds signo hnd' e = decide (hnd' = hnd))
    (hremoves : ∀ hnd', removes signo hnd' e = false) :
    Tracks signo (e :: log) (e.before.smap signo ++ [hnd]) := by
  have hself : registeredAt signo hnd (e :: log) = some log.length := by
    have hnone := h.none_of_not_mem hnot
    simp [registeredAt, hadds, hnone]
  have hother : ∀ hnd', hnd' ≠ hnd →
      registeredAt signo hnd' (e :: log) = registeredAt signo hnd' log := by
    intro hnd' hne
    apply registeredAt_cons_of_not _ (hremoves hnd')
    simp [hadds, hne]
  have hne : ∀ hnd' ∈ e.before.smap signo, hnd' ≠ hnd := by
    rintro hnd' hin rfl
    exact hnot hin
  constructor
  · intro hnd'
    rw [List.mem_append, List.mem_singleton]
    by_cases heq : hnd' = hnd
    · simp [heq, hself]
    · simp [heq, hother hnd' heq, h.mem_iff hnd']
  · rw [List.pairwise_append]
    refine ⟨Earlier.cons h.ordered fun hnd' hin => hother hnd' (hne hnd' hin), by simp, ?_⟩
    intro hnd' hin last hlast
    rw [List.mem_singleton.mp hlast]
    -- what is in the list was registered by an earlier step
    obtain ⟨t, ht⟩ := Option.isSome_iff_exists.mp ((h.mem_iff hnd').mp hin)
    exact ⟨t, log.length, (hother hnd' (hne hnd' hin)).trans ht, hself, registeredAt_lt ht⟩

theorem Tracks.erase (h : Tracks signo log (e.before.smap signo))
    (hnodup : (e.before.smap signo).Nodup) {hnd : Nat}
    (hadds : ∀ hnd', adds signo hnd' e = false)
    (hremoves : ∀ hnd', removes signo hnd' e = decide (hnd' = hnd)) :
    Tracks signo (e :: log) ((e.before.smap signo).erase hnd) := by
  have hother : ∀ hnd', hnd' ≠ hnd →
      registeredAt signo hnd' (e :: log) = registeredAt signo hnd' log := by
    intro hnd' hne
    apply registeredAt_cons_of_not (hadds hnd')
    simp [hremoves, hne]
  constructor
  · intro hnd'
    rw [hnodup.mem_erase_iff]
    by_cases heq : hnd' = hnd
    · simp [heq, registeredAt, hadds, hremoves]
    · simp [heq, hother hnd' heq, h.mem_iff hnd']
  · -- the order of what is left does not change
    apply Earlier.cons (h.ordered.sublist List.erase_sublist)
    intro hnd' hin
    exact hother hnd' (hnodup.mem_erase_iff.mp hin).1

theorem Tracks.clear (hadds : ∀ hnd, adds signo hnd e = false)
    (hremoves : ∀ hnd, removes signo hnd e = true) : Tracks signo (e :: log) [] := by
  constructor
  · simp [registeredAt, hadds, hremoves]
  · exact List.Pairwise.nil

end Tracking

theorem Run.tracks (h : Run Step start.reg log r) (signo : Int) :
    Tracks signo log (r.smap signo) := by
  induction h with
  | start =>
    constructor
    · simp [registeredAt, Start.reg]
    · exact List.Pairwise.nil
  | @step log r r' op out hrun hstep ih =>
    cases hstep.listStep signo with
    | keep h hadds hremoves =>
      rw [show r'.smap signo = r.smap signo from h]
      exact ih.keep hadds hremoves
    | append hnd hnot h hadds hremoves =>
      rw [show r'.smap signo = r.smap signo ++ [hnd] from h]
      exact ih.append hnot hadds hremoves
    | erase hnd h hadds hremoves =>
      rw [show r'.smap signo = (r.smap signo).erase hnd from h]
      exact ih.erase (Run.sound hrun |>.nodup signo) hadds hremoves
    | clear h hadds hremoves =>
      rw [show r'.smap signo = [] from h]
      exact Tracks.clear hadds hremoves

/-! ## Every run

The results of the calls are those that the history asks for, and a delivery calls the handlers of
the list. -/

/-- What a run may show: `set` and `unset` report what they did to the list, and a member that
throws adds nothing to any list. -/
structure Entry.Honest (e : Entry) : Prop where
  set_reports : ∀ signo hnd, e.op = .set signo hnd →
    (e.outcome = .ok (some true) ↔
      ∃ h, hnd = some h ∧ h ∉ e.before.smap signo ∧
        e.after.smap signo = e.before.smap signo ++ [h])
  unset_reports : ∀ signo hnd, e.op = .unset signo hnd →
    (e.outcome = .ok (some true) ↔
      ∃ h, hnd = some h ∧ h ∈ e.before.smap signo ∧
        e.after.smap signo = (e.before.smap signo).erase h)
  throws_adds_nothing : ∀ err, e.outcome = .error err →
    ∀ signo h, h ∈ e.after.smap signo → h ∈ e.before.smap signo

theorem Step.set_reports {signo : Int} {hnd : Option Nat} (h : Step r (.set signo hnd) out r') :
    out = .ok (some true) ↔
      ∃ h, hnd = some h ∧ h ∉ r.smap signo ∧ r'.smap signo = r.smap signo ++ [h] := by
  cases h with
  | throws e _ => simp
  | setNull _ => simp
  | set _ hnd =>
    by_cases hmem : hnd ∈ r.smap signo
    · simp [hmem]
    · simp [hmem, smap_register_self]

theorem Step.unset_reports {signo : Int} {hnd : Option Nat} (h : Step r (.unset signo hnd) out r') :
    out = .ok (some true) ↔
      ∃ h, hnd = some h ∧ h ∈ r.smap signo ∧ r'.smap signo = (r.smap signo).erase h := by
  cases h with
  | throws e hop => exact hop.elim
  | unsetNull _ => simp
  | unset _ hnd => simp [smap_unregister_self]

theorem Step.throws_adds_nothing {err : Sigerr} (h : Step r op (.error err) r') (signo : Int)
    (hnd : Nat) (hin : hnd ∈ r'.smap signo) : hnd ∈ r.smap signo := by
  cases h with
  | throws _ _ => exact hin
  | unsetAllThrows signo' _ =>
    by_cases hsigno : signo = signo'
    · rw [hsigno, smap_setList_self] at hin
      cases hin
    · rwa [smap_setList_ne _ hsigno] at hin

theorem Step.honest (h : Step r op out r') : Entry.Honest ⟨r, op, out, r'⟩ where
  set_reports signo hnd hop := by
    cases hop
    exact h.set_reports
  unset_reports signo hnd hop := by
    cases hop
    exact h.unset_reports
  throws_adds_nothing err hout := by
    cases hout
    exact h.throws_adds_nothing

/-- A delivery calls the whole list, also where `sighandler` is not installed. -/
theorem deliver_ok {s : State} (hs : s.reg.Sound) (signo : Int) :
    deliver signo s = .ok () ⟨{ s.reg with
      called := s.reg.called ++ (s.reg.smap signo).map fun hnd => (hnd, signo) }, s.calls⟩ := by
  by_cases hours : (s.reg.disp signo).saHandler = .sighandler
  · show (if (s.reg.disp signo).saHandler = .sighandler then kill signo else pure () : Prog Unit) s
      = _
    rw [if_pos hours]
    exact forM_procsig signo _ s.reg
  · have hempty : s.reg.smap signo = [] := by
      by_contra hfull
      exact hours (hs.installed signo hfull)
    show (if (s.reg.disp signo).saHandler = .sighandler then kill signo else pure () : Prog Unit) s
      = _
    rw [if_neg hours, hempty, List.map_nil, List.append_nil]
    rfl

end Steps

/-- **The signal registry.** However calls of the registry follow one another and whichever system
calls fail: a list with a handler has `sighandler` installed, no handler is in a list twice, `set`
and `unset` report truly and a member that throws adds nothing. A delivery of `signo` then calls
exactly the handlers registered for `signo`, each once, in the order of their registration. -/
theorem registry_sound (F : Nat → Bool) (start : Start) (ops : List Op) :
    (∀ signo, (runOps F start ops).2.reg.smap signo ≠ [] →
      ((runOps F start ops).2.reg.disp signo).saHandler = .sighandler) ∧
    (∀ signo, ((runOps F start ops).2.reg.smap signo).Nodup) ∧
    (∀ e ∈ (runOps F start ops).1, e.Honest) ∧
    ∀ signo, ∃ v : List Nat,
      deliver signo (runOps F start ops).2 = .ok () ⟨{ (runOps F start ops).2.reg with
        called := (runOps F start ops).2.reg.called ++ v.map fun hnd => (hnd, signo) },
        (runOps F start ops).2.calls⟩ ∧
      v.Nodup ∧
      (∀ hnd, hnd ∈ v ↔ (registeredAt signo hnd (runOps F start ops).1).isSome) ∧
      v.Pairwise (Earlier (runOps F start ops).1 signo) := by
  have hrun := runOps_run F start ops
  have hsound := Run.sound hrun
  refine ⟨hsound.installed, hsound.nodup, ?_, ?_⟩
  · exact hrun.forall_entry (I := fun _ => True) trivial (fun _ _ _ _ _ _ => trivial)
      fun _ _ _ _ _ hstep => hstep.honest
  · intro signo
    have htracks := Run.tracks hrun signo
    exact ⟨_, deliver_ok hsound signo, hsound.nodup signo, htracks.mem_iff, htracks.ordered⟩

end Sig
