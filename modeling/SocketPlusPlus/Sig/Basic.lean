import Mathlib.Data.Finset.SDiff
import Mathlib.Data.Finset.Erase
import Mathlib.Data.Finset.Insert
import SocketPlusPlus.Logic.History

/-!
# The signal registry

`sig::nal` keeps a list of handlers for every signal, and the kernel keeps one disposition for
every signal. A `Registry` is both, with the handler objects that are alive. Every member of `sig`
is a program over it. A system call fails when the oracle `F` says so, by the number of system
calls made before.

`Step` says once what a member can do to the registry, failures included, and `op_step` that the
members do no more than that.
-/

namespace Sig

open Exec

inductive SaHandler where
  | sigDfl
  | sigIgn
  | sighandler
  | other (addr : Nat)
deriving DecidableEq, Repr

structure Sigaction where
  saHandler : SaHandler
  saMask : Finset Int
  saFlags : Nat
deriving DecidableEq

def sigkill : Int := 9

def sigstop : Int := 19

/-- `sigaction` takes these out of every mask it stores. -/
def unblockable : Finset Int := {sigkill, sigstop}

/-- `smap` and the dispositions, the signal number of every `sig::hnd` that is alive, and the calls
of handlers so far, each with the signal it was for. -/
structure Registry where
  smap : Int → List Nat
  disp : Int → Sigaction
  hnds : Nat → Option Int
  called : List (Nat × Int)

structure State where
  reg : Registry
  calls : Nat

structure Sigerr where
deriving DecidableEq, Repr

abbrev Prog := EStateM Sigerr State

/-! ## The system calls

A call fails if the kernel wants it to. `sigaction` reads or replaces the disposition of a
signal. -/

def Registry.setList (r : Registry) (signo : Int) (v : List Nat) : Registry :=
  { r with smap := Function.update r.smap signo v }

def Registry.install (r : Registry) (signo : Int) (sa : Sigaction) : Registry :=
  { r with disp := Function.update r.disp signo { sa with saMask := sa.saMask \ unblockable } }

/-- `sa_flags & SA_NODEFER`, as Linux numbers the flags. -/
def Sigaction.nodefer (sa : Sigaction) : Bool := sa.saFlags.testBit 30

/-- The signals that the kernel blocks while `sighandler` runs for `signo`, besides those that the
process has blocked itself. Without `SA_NODEFER` the signal itself is among them. -/
def Registry.blocked (r : Registry) (signo : Int) : Finset Int :=
  let sa := r.disp signo
  (if sa.nodefer then sa.saMask else insert signo sa.saMask) \ unblockable

section Calls

variable (F : Nat → Bool)

def syscall : Prog Unit := fun s =>
  if F s.calls then .error ⟨⟩ ⟨s.reg, s.calls + 1⟩ else .ok () ⟨s.reg, s.calls + 1⟩

/-- `sigaction(signo, 0, &sa)`. -/
def sigactionGet (signo : Int) : Prog Sigaction := do
  syscall F
  let s ← get
  pure (s.reg.disp signo)

/-- `sigaction(signo, &sa, 0)`. -/
def sigactionSet (signo : Int) (sa : Sigaction) : Prog Unit := do
  syscall F
  modify fun s => ⟨s.reg.install signo sa, s.calls⟩

def sigemptyset (sa : Sigaction) : Prog Sigaction := do
  syscall F
  pure { sa with saMask := ∅ }

def sigaddset (sa : Sigaction) (signo : Int) : Prog Sigaction := do
  syscall F
  pure { sa with saMask := insert signo sa.saMask }

def sigdelset (sa : Sigaction) (signo : Int) : Prog Sigaction := do
  syscall F
  pure { sa with saMask := sa.saMask.erase signo }

/-! ## The members of `sig`

Each member asks for the disposition, changes it and installs it, with a system call for every
step. -/

/-- `smap[signo].push_back(hnd)`. -/
def pushBack (signo : Int) (hnd : Nat) : Prog Unit :=
  modify fun s => ⟨s.reg.setList signo (s.reg.smap signo ++ [hnd]), s.calls⟩

/-- The handler of `sa` becomes `handler`, with an empty mask and no flags. -/
def fresh (sa : Sigaction) (handler : SaHandler) : Prog Sigaction := do
  let sa ← sigemptyset F { sa with saHandler := handler }
  pure { sa with saFlags := 0 }

def set (signo : Int) : Option Nat → Prog Bool
  | none => pure false
  | some hnd => do
    let s ← get
    if s.reg.smap signo = [] then
      let sa ← sigactionGet F signo
      -- setting for the first time
      let _ ← (if sa.saHandler ≠ .sighandler then do
          let sa ← fresh F sa .sighandler
          sigactionSet F signo sa
        else pure ())
      pushBack signo hnd
      pure true
    else if hnd ∉ s.reg.smap signo then
      pushBack signo hnd
      pure true
    else pure false

def unset (signo : Int) : Option Nat → Prog Bool
  | none => pure false
  | some hnd => do
    let s ← get
    if hnd ∈ s.reg.smap signo then
      modify fun s => ⟨s.reg.setList signo ((s.reg.smap signo).erase hnd), s.calls⟩
      pure true
    else pure false

/-- `unset(signo)`: the list is emptied before the first system call. -/
def unsetAll (signo : Int) : Prog Unit := do
  modify fun s => ⟨s.reg.setList signo [], s.calls⟩
  let sa ← sigactionGet F signo
  if sa.saHandler = .sighandler then
    let sa ← fresh F sa .sigDfl
    sigactionSet F signo sa
  else pure ()

def mask (siga sigb : Int) : Prog Unit := do
  let sa ← sigactionGet F siga
  let sa ← (if sa.saHandler ≠ .sighandler then fresh F sa .sighandler else pure sa)
  let sa ← sigaddset F sa sigb
  sigactionSet F siga sa

def unmask (siga sigb : Int) : Prog Unit := do
  let sa ← sigactionGet F siga
  let sa ← (if sa.saHandler ≠ .sighandler then fresh F sa .sighandler else sigdelset F sa sigb)
  sigactionSet F siga sa

/-- `sysresume` as compiled on Linux: what it has put into `sa` is not installed, and `set` is not
looked at. -/
def sysresume (signo : Int) (_ : Bool) : Prog Unit := do
  let sa ← sigactionGet F signo
  let _ ← (if sa.saHandler ≠ .sighandler then fresh F sa .sighandler else pure sa)
  pure ()

def procsig (signo : Int) (ph : Nat) : Prog Unit :=
  modify fun s => ⟨{ s.reg with called := s.reg.called ++ [(ph, signo)] }, s.calls⟩

def kill (signo : Int) : Prog Unit := do
  let s ← get
  (s.reg.smap signo).forM (procsig signo)

/-- The kernel delivers `signo`. -/
def deliver (signo : Int) : Prog Unit := do
  let s ← get
  if (s.reg.disp signo).saHandler = .sighandler then kill signo else pure ()

/-- `hnd::hnd(signo)` at the address `hnd`. When `set` throws there is no object. -/
def construct (hnd : Nat) (signo : Int) : Prog Unit := do
  let s ← get
  match s.reg.hnds hnd with
  | some _ => pure ()
  | none =>
    let _ ← set F signo (some hnd)
    modify fun s => ⟨{ s.reg with hnds := Function.update s.reg.hnds hnd (some signo) }, s.calls⟩

/-- `hnd::~hnd()`. -/
def destroy (hnd : Nat) : Prog Unit := do
  let s ← get
  match s.reg.hnds hnd with
  | none => pure ()
  | some signo =>
    let _ ← unset signo (some hnd)
    modify fun s => ⟨{ s.reg with hnds := Function.update s.reg.hnds hnd none }, s.calls⟩

end Calls

inductive Op where
  | set (signo : Int) (hnd : Option Nat)
  | unset (signo : Int) (hnd : Option Nat)
  | unsetAll (signo : Int)
  | mask (siga sigb : Int)
  | unmask (siga sigb : Int)
  | sysresume (signo : Int) (resume : Bool)
  | construct (hnd : Nat) (signo : Int)
  | destroy (hnd : Nat)
  | deliver (signo : Int)
deriving DecidableEq, Repr

/-- What a member returns: `none` stands for `void`. -/
abbrev Answer := Option Bool

def Op.run (F : Nat → Bool) : Op → Prog Answer
  | .set signo hnd => some <$> Sig.set F signo hnd
  | .unset signo hnd => some <$> Sig.unset signo hnd
  | .unsetAll signo => (fun _ => none) <$> Sig.unsetAll F signo
  | .mask siga sigb => (fun _ => none) <$> Sig.mask F siga sigb
  | .unmask siga sigb => (fun _ => none) <$> Sig.unmask F siga sigb
  | .sysresume signo resume => (fun _ => none) <$> Sig.sysresume F signo resume
  | .construct hnd signo => (fun _ => none) <$> Sig.construct F hnd signo
  | .destroy hnd => (fun _ => none) <$> Sig.destroy hnd
  | .deliver signo => (fun _ => none) <$> Sig.deliver signo

/-! ## What a member can do

The changes to the registry, named, and what each leaves of the lists and of the dispositions. -/

/-- `sighandler` with an empty mask and no flags. -/
def ours : Sigaction := ⟨.sighandler, ∅, 0⟩

/-- What `mask` and `unmask` start from. -/
def Registry.ourAction (r : Registry) (signo : Int) : Sigaction :=
  if (r.disp signo).saHandler = .sighandler then r.disp signo else ours

def Registry.claim (r : Registry) (signo : Int) : Registry :=
  if (r.disp signo).saHandler = .sighandler then r else r.install signo ours

def Registry.register (r : Registry) (signo : Int) (hnd : Nat) : Registry :=
  if hnd ∈ r.smap signo then r
  else if r.smap signo = [] then (r.claim signo).setList signo [hnd]
  else r.setList signo (r.smap signo ++ [hnd])

def Registry.unregister (r : Registry) (signo : Int) (hnd : Nat) : Registry :=
  if hnd ∈ r.smap signo then r.setList signo ((r.smap signo).erase hnd) else r

/-- The disposition of a signal goes back to the default, if it was `sighandler`. -/
def Registry.reset (r : Registry) (signo : Int) : Registry :=
  if (r.disp signo).saHandler = .sighandler then r.install signo ⟨.sigDfl, ∅, 0⟩ else r

def Registry.setHnd (r : Registry) (hnd : Nat) (signo : Option Int) : Registry :=
  { r with hnds := Function.update r.hnds hnd signo }

/-- The mask that `unmask` installs. A disposition that was not `sighandler` gets the empty one. -/
def Registry.unmasked (r : Registry) (siga sigb : Int) : Finset Int :=
  (r.ourAction siga).saMask.erase sigb

section Fields

variable (r : Registry) (signo : Int) (v : List Nat) (sa : Sigaction) (hnd : Nat)
  (own : Option Int)

@[simp] theorem smap_setList_self : (r.setList signo v).smap signo = v := Function.update_self ..

@[simp] theorem smap_setList_ne {r : Registry} {signo signo' : Int} (h : signo' ≠ signo) :
    (r.setList signo v).smap signo' = r.smap signo' := Function.update_of_ne h ..

@[simp] theorem disp_setList : (r.setList signo v).disp = r.disp := rfl

@[simp] theorem hnds_setList : (r.setList signo v).hnds = r.hnds := rfl

@[simp] theorem smap_install : (r.install signo sa).smap = r.smap := rfl

@[simp] theorem hnds_install : (r.install signo sa).hnds = r.hnds := rfl

@[simp] theorem disp_install_self :
    (r.install signo sa).disp signo = { sa with saMask := sa.saMask \ unblockable } :=
  Function.update_self ..

@[simp] theorem disp_install_ne {r : Registry} {signo signo' : Int} (h : signo' ≠ signo) :
    (r.install signo sa).disp signo' = r.disp signo' := Function.update_of_ne h ..

@[simp] theorem smap_claim : (r.claim signo).smap = r.smap := by
  unfold Registry.claim
  split <;> rfl

@[simp] theorem hnds_claim : (r.claim signo).hnds = r.hnds := by
  unfold Registry.claim
  split <;> rfl

@[simp] theorem smap_reset : (r.reset signo).smap = r.smap := by
  unfold Registry.reset
  split <;> rfl

@[simp] theorem hnds_reset : (r.reset signo).hnds = r.hnds := by
  unfold Registry.reset
  split <;> rfl

@[simp] theorem smap_setHnd : (r.setHnd hnd own).smap = r.smap := rfl

@[simp] theorem disp_setHnd : (r.setHnd hnd own).disp = r.disp := rfl

@[simp] theorem hnds_setHnd_self : (r.setHnd hnd own).hnds hnd = own := Function.update_self ..

@[simp] theorem hnds_setHnd_ne {r : Registry} {hnd hnd' : Nat} (h : hnd' ≠ hnd) :
    (r.setHnd hnd own).hnds hnd' = r.hnds hnd' := Function.update_of_ne h ..

@[simp] theorem hnds_register : (r.register signo hnd).hnds = r.hnds := by
  unfold Registry.register
  split_ifs <;> simp

@[simp] theorem hnds_unregister : (r.unregister signo hnd).hnds = r.hnds := by
  unfold Registry.unregister
  split_ifs <;> simp

@[simp] theorem disp_unregister : (r.unregister signo hnd).disp = r.disp := by
  unfold Registry.unregister
  split_ifs <;> simp

theorem saHandler_claim : ((r.claim signo).disp signo).saHandler = .sighandler := by
  unfold Registry.claim
  split_ifs with hours
  · exact hours
  · simp [ours]

theorem disp_claim_ne {r : Registry} {signo signo' : Int} (h : signo' ≠ signo) :
    (r.claim signo).disp signo' = r.disp signo' := by
  unfold Registry.claim
  split_ifs
  · rfl
  · exact disp_install_ne _ h

theorem disp_reset_ne {r : Registry} {signo signo' : Int} (h : signo' ≠ signo) :
    (r.reset signo).disp signo' = r.disp signo' := by
  unfold Registry.reset
  split_ifs
  · exact disp_install_ne _ h
  · rfl

theorem register_of_mem {r : Registry} {signo : Int} {hnd : Nat} (h : hnd ∈ r.smap signo) :
    r.register signo hnd = r := if_pos h

theorem smap_register_self {r : Registry} {signo : Int} {hnd : Nat} (h : hnd ∉ r.smap signo) :
    (r.register signo hnd).smap signo = r.smap signo ++ [hnd] := by
  unfold Registry.register
  rw [if_neg h]
  split_ifs with hempty
  · simp [hempty]
  · simp

theorem smap_register_ne {r : Registry} {signo signo' : Int} (hnd : Nat) (h : signo' ≠ signo) :
    (r.register signo hnd).smap signo' = r.smap signo' := by
  unfold Registry.register
  split_ifs <;> simp [h]

theorem smap_unregister_self : (r.unregister signo hnd).smap signo = (r.smap signo).erase hnd := by
  unfold Registry.unregister
  split_ifs with hmem
  · simp
  · exact (List.erase_of_not_mem hmem).symm

theorem smap_unregister_ne {r : Registry} {signo signo' : Int} (hnd : Nat) (h : signo' ≠ signo) :
    (r.unregister signo hnd).smap signo' = r.smap signo' := by
  unfold Registry.unregister
  split_ifs <;> simp [h]

theorem disp_register_ne {r : Registry} {signo signo' : Int} (hnd : Nat) (h : signo' ≠ signo) :
    (r.register signo hnd).disp signo' = r.disp signo' := by
  unfold Registry.register
  split_ifs <;> simp [disp_claim_ne h]

/-- A handler joins a list that is not empty without a look at the disposition. -/
theorem disp_register_of_ne_nil {r : Registry} {signo : Int} (hnd : Nat) (h : r.smap signo ≠ []) :
    (r.register signo hnd).disp = r.disp := by
  unfold Registry.register
  split_ifs <;> simp

/-- Under `sighandler` a handler comes without a change of the disposition. -/
theorem disp_register_of_ours {r : Registry} {signo : Int} (hnd : Nat)
    (h : (r.disp signo).saHandler = .sighandler) : (r.register signo hnd).disp = r.disp := by
  unfold Registry.register
  split_ifs <;> simp [Registry.claim, h]

theorem saHandler_register_of_nil {r : Registry} {signo : Int} (hnd : Nat)
    (h : r.smap signo = []) : ((r.register signo hnd).disp signo).saHandler = .sighandler := by
  have hnot : hnd ∉ r.smap signo := by simp [h]
  unfold Registry.register
  rw [if_neg hnot, if_pos h]
  exact saHandler_claim r signo

theorem saHandler_ourAction : (r.ourAction signo).saHandler = .sighandler := by
  unfold Registry.ourAction
  split_ifs with hours
  · exact hours
  · rfl

end Fields

/-- The members that can throw, and then leave the registry as it was. -/
def Op.Fallible : Op → Prop
  | .set _ (some _) => True
  | .mask _ _ => True
  | .unmask _ _ => True
  | .sysresume _ _ => True
  | .construct _ _ => True
  | _ => False

/-- `Step r op out r'`: the member `op` may end with `out` and leave `r'`. -/
inductive Step (r : Registry) : Op → Except Sigerr Answer → Registry → Prop where
  | throws {op : Op} (e : Sigerr) (hop : op.Fallible) : Step r op (.error e) r
  | setNull (signo : Int) : Step r (.set signo none) (.ok (some false)) r
  | set (signo : Int) (hnd : Nat) :
      Step r (.set signo (some hnd)) (.ok (some (decide (hnd ∉ r.smap signo))))
        (r.register signo hnd)
  | unsetNull (signo : Int) : Step r (.unset signo none) (.ok (some false)) r
  | unset (signo : Int) (hnd : Nat) :
      Step r (.unset signo (some hnd)) (.ok (some (decide (hnd ∈ r.smap signo))))
        (r.unregister signo hnd)
  | unsetAll (signo : Int) : Step r (.unsetAll signo) (.ok none) ((r.setList signo []).reset signo)
  | unsetAllThrows (signo : Int) (e : Sigerr) :
      Step r (.unsetAll signo) (.error e) (r.setList signo [])
  | mask (siga sigb : Int) :
      Step r (.mask siga sigb) (.ok none) (r.install siga
        { r.ourAction siga with saMask := insert sigb (r.ourAction siga).saMask })
  | unmask (siga sigb : Int) :
      Step r (.unmask siga sigb) (.ok none)
        (r.install siga { r.ourAction siga with saMask := r.unmasked siga sigb })
  | sysresume (signo : Int) (resume : Bool) : Step r (.sysresume signo resume) (.ok none) r
  | construct {hnd : Nat} (signo : Int) (hfree : r.hnds hnd = none) :
      Step r (.construct hnd signo) (.ok none) ((r.register signo hnd).setHnd hnd (some signo))
  | constructTaken {hnd : Nat} (signo : Int) (htaken : r.hnds hnd ≠ none) :
      Step r (.construct hnd signo) (.ok none) r
  | destroy {hnd : Nat} {signo : Int} (hlive : r.hnds hnd = some signo) :
      Step r (.destroy hnd) (.ok none) ((r.unregister signo hnd).setHnd hnd none)
  | destroyGone {hnd : Nat} (hgone : r.hnds hnd = none) : Step r (.destroy hnd) (.ok none) r
  | deliver {signo : Int} (hours : (r.disp signo).saHandler = .sighandler) :
      Step r (.deliver signo) (.ok none)
        { r with called := r.called ++ (r.smap signo).map fun hnd => (hnd, signo) }
  | deliverElsewhere {signo : Int} (helse : (r.disp signo).saHandler ≠ .sighandler) :
      Step r (.deliver signo) (.ok none) r

/-! ### Flags

No member sets a flag for `sighandler`, so a signal is always blocked while `sighandler` runs for
it. -/

/-- Where the disposition is `sighandler`, it has no flags. -/
def Registry.Flagless (r : Registry) : Prop :=
  ∀ signo, (r.disp signo).saHandler = .sighandler → (r.disp signo).saFlags = 0

section Flags

variable {r r' : Registry} {signo : Int}

theorem Registry.Flagless.blocked (h : r.Flagless)
    (hours : (r.disp signo).saHandler = .sighandler) :
    r.blocked signo = insert signo (r.disp signo).saMask \ unblockable := by
  have hnodefer : (r.disp signo).nodefer = false := by
    rw [Sigaction.nodefer, h signo hours, Nat.zero_testBit]
  simp [Registry.blocked, hnodefer]

theorem Registry.Flagless.of_disp (h : r.Flagless) (hdisp : r'.disp = r.disp) : r'.Flagless := by
  unfold Registry.Flagless
  rwa [hdisp]

theorem Registry.Flagless.install (h : r.Flagless) {sa : Sigaction}
    (hsa : sa.saHandler = .sighandler → sa.saFlags = 0) : (r.install signo sa).Flagless := by
  intro signo' hours
  by_cases hsigno : signo' = signo
  · subst hsigno
    rw [disp_install_self] at hours ⊢
    exact hsa hours
  · rw [disp_install_ne _ hsigno] at hours ⊢
    exact h signo' hours

theorem Registry.Flagless.register (h : r.Flagless) (signo : Int) (hnd : Nat) :
    (r.register signo hnd).Flagless := by
  have hclaim : (r.claim signo).Flagless := by
    unfold Registry.claim
    split_ifs
    · exact h
    · exact h.install fun _ => rfl
  unfold Registry.register
  split_ifs
  · exact h
  · exact hclaim.of_disp rfl
  · exact h.of_disp rfl

theorem Registry.Flagless.ourAction (h : r.Flagless) (signo : Int) :
    (r.ourAction signo).saFlags = 0 := by
  unfold Registry.ourAction
  split_ifs with hours
  · exact h signo hours
  · rfl

theorem Step.flagless {op : Op} {out : Except Sigerr Answer} (hstep : Step r op out r')
    (h : r.Flagless) : r'.Flagless := by
  cases hstep with
  | set signo hnd => exact h.register signo hnd
  | construct signo _ => exact (h.register signo _).of_disp rfl
  | unset signo hnd => exact h.of_disp (disp_unregister r signo hnd)
  | destroy _ => exact h.of_disp (by rw [disp_setHnd, disp_unregister])
  | unsetAll signo =>
    have hlist : (r.setList signo []).Flagless := h.of_disp rfl
    unfold Registry.reset
    split_ifs
    · exact hlist.install fun hours => by cases hours
    · exact hlist
  | unsetAllThrows signo e => exact h.of_disp rfl
  | mask siga sigb => exact h.install fun _ => h.ourAction siga
  | unmask siga sigb => exact h.install fun _ => h.ourAction siga
  | deliver _ => exact h.of_disp rfl
  | _ => exact h

end Flags

section Specs

variable {F : Nat → Bool} {α : Type} {Q : α → State → Prop} {E : Sigerr → State → Prop}
  {r : Registry} {n : Nat}

/-! A system call that fails leaves the registry as it was, and one that succeeds counts. -/

theorem wp_syscall {c : Unit → Prog α} (hok : ∀ n, wp (c ()) Q E ⟨r, n⟩)
    (herr : ∀ e n, E e ⟨r, n⟩) :
    wp (syscall F >>= c) Q E ⟨r, n⟩ := by
  rw [wp_bind]
  by_cases hF : F n = true
  · have hrun : syscall F ⟨r, n⟩ = .error ⟨⟩ ⟨r, n + 1⟩ := by simp [syscall, hF]
    rw [wp_iff_of_error hrun]
    exact herr _ _
  · have hrun : syscall F ⟨r, n⟩ = .ok () ⟨r, n + 1⟩ := by simp [syscall, hF]
    rw [wp_iff_of_ok hrun]
    exact hok _

theorem wp_sigactionGet {signo : Int} {Q : Sigaction → State → Prop}
    (hok : ∀ n, Q (r.disp signo) ⟨r, n⟩) (herr : ∀ e n, E e ⟨r, n⟩) :
    wp (sigactionGet F signo) Q E ⟨r, n⟩ :=
  wp_syscall (fun n => hok n) herr

theorem wp_sigactionSet {signo : Int} {sa : Sigaction} {Q : Unit → State → Prop}
    (hok : ∀ n, Q () ⟨r.install signo sa, n⟩) (herr : ∀ e n, E e ⟨r, n⟩) :
    wp (sigactionSet F signo sa) Q E ⟨r, n⟩ :=
  wp_syscall (fun n => hok n) herr

theorem wp_sigaddset {signo : Int} {sa : Sigaction} {Q : Sigaction → State → Prop}
    (hok : ∀ n, Q { sa with saMask := insert signo sa.saMask } ⟨r, n⟩)
    (herr : ∀ e n, E e ⟨r, n⟩) : wp (sigaddset F sa signo) Q E ⟨r, n⟩ :=
  wp_syscall (fun n => hok n) herr

theorem wp_sigdelset {signo : Int} {sa : Sigaction} {Q : Sigaction → State → Prop}
    (hok : ∀ n, Q { sa with saMask := sa.saMask.erase signo } ⟨r, n⟩)
    (herr : ∀ e n, E e ⟨r, n⟩) : wp (sigdelset F sa signo) Q E ⟨r, n⟩ :=
  wp_syscall (fun n => hok n) herr

theorem wp_fresh {sa : Sigaction} {handler : SaHandler} {Q : Sigaction → State → Prop}
    (hok : ∀ n, Q ⟨handler, ∅, 0⟩ ⟨r, n⟩) (herr : ∀ e n, E e ⟨r, n⟩) :
    wp (fresh F sa handler) Q E ⟨r, n⟩ := by
  unfold fresh
  rw [wp_bind]
  exact wp_syscall (fun n => hok n) herr

/-! ## One lemma for each member

Wherever a system call fails, a member does what `Step` says: all of it, or what it had done
before. -/

theorem set_spec (signo : Int) (hnd : Nat) :
    wp (set F signo (some hnd))
      (fun b s => b = decide (hnd ∉ r.smap signo) ∧ s.reg = r.register signo hnd)
      (fun _ s => s.reg = r) ⟨r, n⟩ := by
  show wp (do
    let s ← get
    if s.reg.smap signo = [] then
      let sa ← sigactionGet F signo
      let _ ← (if sa.saHandler ≠ .sighandler then do
          let sa ← fresh F sa .sighandler
          sigactionSet F signo sa
        else pure ())
      pushBack signo hnd
      pure true
    else if hnd ∉ s.reg.smap signo then
      pushBack signo hnd
      pure true
    else pure false : Prog Bool) _ _ _
  rw [wp_bind, wp_get]
  apply wp_ite_intro
  · intro hempty
    have hempty : r.smap signo = [] := hempty
    have hnot : hnd ∉ r.smap signo := by rw [hempty]; simp
    have hregister : r.register signo hnd = (r.claim signo).setList signo [hnd] := by
      simp [Registry.register, hempty]
    rw [wp_bind]
    apply wp_sigactionGet _ (fun _ _ => rfl)
    intro n
    rw [wp_bind]
    apply wp_ite_intro
    · intro hother
      have hclaim : r.claim signo = r.install signo ours := if_neg hother
      rw [wp_bind]
      apply wp_fresh _ (fun _ _ => rfl)
      intro n
      apply wp_sigactionSet _ (fun _ _ => rfl)
      intro n
      refine ⟨by simp [hnot], ?_⟩
      rw [hregister, hclaim]
      show (r.install signo ours).setList signo (r.smap signo ++ [hnd]) = _
      rw [hempty, List.nil_append]
    · intro hours
      have hclaim : r.claim signo = r := if_pos (not_not.mp hours)
      refine ⟨by simp [hnot], ?_⟩
      rw [hregister, hclaim]
      show r.setList signo (r.smap signo ++ [hnd]) = _
      rw [hempty, List.nil_append]
  · intro hfull
    apply wp_ite_intro
    · intro hnot
      have hregister : r.register signo hnd = r.setList signo (r.smap signo ++ [hnd]) := by
        simp [Registry.register, show hnd ∉ r.smap signo from hnot,
          show r.smap signo ≠ [] from hfull]
      rw [hregister]
      exact ⟨by simp [show hnd ∉ r.smap signo from hnot], rfl⟩
    · intro hin
      have hmem : hnd ∈ r.smap signo := not_not.mp hin
      rw [wp_pure]
      exact ⟨by simp [hmem], by simp [Registry.register, hmem]⟩

theorem unset_spec (signo : Int) (hnd : Nat) :
    wp (unset signo (some hnd))
      (fun b s => b = decide (hnd ∈ r.smap signo) ∧ s.reg = r.unregister signo hnd)
      (fun _ _ => False) ⟨r, n⟩ := by
  show wp (do
    let s ← get
    if hnd ∈ s.reg.smap signo then
      modify fun s => ⟨s.reg.setList signo ((s.reg.smap signo).erase hnd), s.calls⟩
      pure true
    else pure false : Prog Bool) _ _ _
  rw [wp_bind, wp_get]
  apply wp_ite_intro
  · intro hmem
    have hmem : hnd ∈ r.smap signo := hmem
    exact ⟨by simp [hmem], by simp [Registry.unregister, hmem]⟩
  · intro hnot
    have hnot : hnd ∉ r.smap signo := hnot
    exact ⟨by simp [hnot], by simp [Registry.unregister, hnot]⟩

theorem unsetAll_spec (signo : Int) :
    wp (unsetAll F signo) (fun _ s => s.reg = (r.setList signo []).reset signo)
      (fun _ s => s.reg = r.setList signo []) ⟨r, n⟩ := by
  unfold unsetAll
  rw [wp_bind, wp_modify, wp_bind]
  apply wp_sigactionGet _ (fun _ _ => rfl)
  intro n
  apply wp_ite_intro
  · intro hours
    rw [wp_bind]
    apply wp_fresh _ (fun _ _ => rfl)
    intro n
    apply wp_sigactionSet _ (fun _ _ => rfl)
    intro n
    exact (if_pos hours).symm
  · intro hother
    exact (if_neg hother).symm

theorem mask_spec (siga sigb : Int) :
    wp (mask F siga sigb)
      (fun _ s => s.reg = r.install siga
        { r.ourAction siga with saMask := insert sigb (r.ourAction siga).saMask })
      (fun _ s => s.reg = r) ⟨r, n⟩ := by
  unfold mask
  rw [wp_bind]
  apply wp_sigactionGet _ (fun _ _ => rfl)
  intro n
  rw [wp_bind]
  apply wp_ite_intro
  · intro hother
    have hact : r.ourAction siga = ours := if_neg hother
    apply wp_fresh _ (fun _ _ => rfl)
    intro n
    rw [wp_bind]
    apply wp_sigaddset _ (fun _ _ => rfl)
    intro n
    apply wp_sigactionSet _ (fun _ _ => rfl)
    intro n
    rw [hact]
    rfl
  · intro hours
    have hact : r.ourAction siga = r.disp siga := if_pos (not_not.mp hours)
    rw [wp_pure, wp_bind]
    apply wp_sigaddset _ (fun _ _ => rfl)
    intro n
    apply wp_sigactionSet _ (fun _ _ => rfl)
    intro n
    rw [hact]

theorem unmask_spec (siga sigb : Int) :
    wp (unmask F siga sigb)
      (fun _ s => s.reg = r.install siga
        { r.ourAction siga with saMask := r.unmasked siga sigb })
      (fun _ s => s.reg = r) ⟨r, n⟩ := by
  unfold unmask Registry.unmasked
  rw [wp_bind]
  apply wp_sigactionGet _ (fun _ _ => rfl)
  intro n
  rw [wp_bind]
  apply wp_ite_intro
  · intro hother
    have hact : r.ourAction siga = ours := if_neg hother
    apply wp_fresh _ (fun _ _ => rfl)
    intro n
    apply wp_sigactionSet _ (fun _ _ => rfl)
    intro n
    rw [hact]
    rfl
  · intro hours
    have hact : r.ourAction siga = r.disp siga := if_pos (not_not.mp hours)
    apply wp_sigdelset _ (fun _ _ => rfl)
    intro n
    apply wp_sigactionSet _ (fun _ _ => rfl)
    intro n
    rw [hact]

theorem sysresume_spec (signo : Int) (resume : Bool) :
    wp (sysresume F signo resume) (fun _ s => s.reg = r) (fun _ s => s.reg = r) ⟨r, n⟩ := by
  unfold sysresume
  rw [wp_bind]
  apply wp_sigactionGet _ (fun _ _ => rfl)
  intro n
  rw [wp_bind]
  apply wp_ite_intro
  · intro _
    exact wp_fresh (fun _ => rfl) (fun _ _ => rfl)
  · intro _
    rfl

/-- One call for every element of the list, in its order. -/
theorem forM_procsig (signo : Int) (v : List Nat) (r : Registry) :
    (v.forM (procsig signo)) ⟨r, n⟩
      = .ok () ⟨{ r with called := r.called ++ v.map fun hnd => (hnd, signo) }, n⟩ := by
  induction v generalizing r with
  | nil => simp; rfl
  | cons hnd v ih =>
    have hcall : procsig signo hnd ⟨r, n⟩
        = .ok () ⟨{ r with called := r.called ++ [(hnd, signo)] }, n⟩ := rfl
    show (procsig signo hnd >>= fun _ => v.forM (procsig signo)) ⟨r, n⟩ = _
    rw [bind_ok hcall, ih]
    simp

theorem deliver_spec (signo : Int) :
    wp (deliver signo)
      (fun _ s => s.reg = if (r.disp signo).saHandler = .sighandler then
        { r with called := r.called ++ (r.smap signo).map fun hnd => (hnd, signo) } else r)
      (fun _ _ => False) ⟨r, n⟩ := by
  unfold deliver kill
  rw [wp_bind, wp_get]
  apply wp_ite_intro
  · intro hours
    rw [wp_bind, wp_get, wp_iff_of_ok (forM_procsig signo _ r)]
    exact (if_pos hours).symm
  · intro hother
    exact (if_neg hother).symm

theorem construct_spec (hnd : Nat) (signo : Int) :
    wp (construct F hnd signo)
      (fun _ s => s.reg = if r.hnds hnd = none then
        (r.register signo hnd).setHnd hnd (some signo) else r)
      (fun _ s => s.reg = r) ⟨r, n⟩ := by
  unfold construct
  rw [wp_bind, wp_get]
  show wp (match r.hnds hnd with | some _ => _ | none => _) _ _ _
  cases hhnd : r.hnds hnd with
  | some own => simp
  | none =>
    rw [wp_bind]
    apply (set_spec signo hnd).mono _ (fun _ _ h => h)
    rintro b ⟨reg, n⟩ ⟨-, hreg⟩
    subst hreg
    rfl

theorem destroy_spec (hnd : Nat) :
    wp (destroy hnd)
      (fun _ s => (r.hnds hnd = none ∧ s.reg = r) ∨
        ∃ signo, r.hnds hnd = some signo ∧ s.reg = (r.unregister signo hnd).setHnd hnd none)
      (fun _ _ => False) ⟨r, n⟩ := by
  unfold destroy
  rw [wp_bind, wp_get]
  show wp (match r.hnds hnd with | none => _ | some _ => _) _ _ _
  cases hhnd : r.hnds hnd with
  | none => simp
  | some signo =>
    rw [wp_bind]
    apply (unset_spec signo hnd).mono _ (fun _ _ h => h)
    rintro b ⟨reg, n⟩ ⟨-, hreg⟩
    subst hreg
    exact .inr ⟨signo, rfl, rfl⟩

/-- A member that leaves the registry as it was when it throws. -/
theorem step_of_error (op : Op) (hop : op.Fallible) (e : Sigerr) (s : State) (h : s.reg = r) :
    Step r op (.error e) s.reg := by
  rw [h]
  exact .throws e hop

theorem op_spec (op : Op) :
    wp (op.run F) (fun a s => Step r op (.ok a) s.reg) (fun e s => Step r op (.error e) s.reg)
      ⟨r, n⟩ := by
  cases op with
  | set signo hnd =>
    cases hnd with
    | none => exact .setNull signo
    | some hnd =>
      show wp (some <$> set F signo (some hnd)) _ _ _
      rw [wp_map]
      apply (set_spec signo hnd).mono _ (step_of_error (.set signo (some hnd)) trivial)
      rintro b s ⟨rfl, hs⟩
      rw [hs]
      exact .set signo hnd
  | unset signo hnd =>
    cases hnd with
    | none => exact .unsetNull signo
    | some hnd =>
      show wp (some <$> unset signo (some hnd)) _ _ _
      rw [wp_map]
      apply (unset_spec signo hnd).mono _ (fun _ _ h => h.elim)
      rintro b s ⟨rfl, hs⟩
      rw [hs]
      exact .unset signo hnd
  | unsetAll signo =>
    show wp ((fun _ => none) <$> unsetAll F signo) _ _ _
    rw [wp_map]
    apply (unsetAll_spec signo).mono
    · intro _ s hs
      rw [hs]
      exact .unsetAll signo
    · intro e s hs
      rw [hs]
      exact .unsetAllThrows signo e
  | mask siga sigb =>
    show wp ((fun _ => none) <$> mask F siga sigb) _ _ _
    rw [wp_map]
    apply (mask_spec siga sigb).mono _ (step_of_error (.mask siga sigb) trivial)
    intro _ s hs
    rw [hs]
    exact .mask siga sigb
  | unmask siga sigb =>
    show wp ((fun _ => none) <$> unmask F siga sigb) _ _ _
    rw [wp_map]
    apply (unmask_spec siga sigb).mono _ (step_of_error (.unmask siga sigb) trivial)
    intro _ s hs
    rw [hs]
    exact .unmask siga sigb
  | sysresume signo resume =>
    show wp ((fun _ => none) <$> sysresume F signo resume) _ _ _
    rw [wp_map]
    apply (sysresume_spec signo resume).mono _ (step_of_error (.sysresume signo resume) trivial)
    intro _ s hs
    rw [hs]
    exact .sysresume signo resume
  | construct hnd signo =>
    show wp ((fun _ => none) <$> construct F hnd signo) _ _ _
    rw [wp_map]
    apply (construct_spec hnd signo).mono _ (step_of_error (.construct hnd signo) trivial)
    intro _ s hs
    rw [hs]
    by_cases hfree : r.hnds hnd = none
    · rw [if_pos hfree]
      exact .construct signo hfree
    · rw [if_neg hfree]
      exact .constructTaken signo hfree
  | destroy hnd =>
    show wp ((fun _ => none) <$> destroy hnd) _ _ _
    rw [wp_map]
    apply (destroy_spec hnd).mono _ (fun _ _ h => h.elim)
    intro _ s hs
    rcases hs with ⟨hgone, hs⟩ | ⟨signo, hlive, hs⟩
    · rw [hs]
      exact .destroyGone hgone
    · rw [hs]
      exact .destroy hlive
  | deliver signo =>
    show wp ((fun _ => none) <$> deliver signo) _ _ _
    rw [wp_map]
    apply (deliver_spec signo).mono _ (fun _ _ h => h.elim)
    intro _ s hs
    rw [hs]
    by_cases hours : (r.disp signo).saHandler = .sighandler
    · rw [if_pos hours]
      exact .deliver hours
    · rw [if_neg hours]
      exact .deliverElsewhere hours

/-- Whatever fails, a member does what `Step` says. -/
theorem op_step (F : Nat → Bool) (op : Op) (s : State) :
    Step s.reg op (attempt (op.run F) s).1 (attempt (op.run F) s).2.reg :=
  (op_spec op).outcome (P := fun o (s' : State) => Step s.reg op o s'.reg)

end Specs

/-! ## Runs -/

/-- Dispositions that are not ours, as a program finds them when it starts. -/
structure Start where
  disp : Int → Sigaction
  foreign : ∀ signo, (disp signo).saHandler ≠ .sighandler

def Start.reg (start : Start) : Registry := ⟨fun _ => [], start.disp, fun _ => none, []⟩

/-- Every signal has its default disposition. -/
def Start.default : Start := ⟨fun _ => ⟨.sigDfl, ∅, 0⟩, fun _ h => by cases h⟩

abbrev Entry := History.Entry Registry Op (Except Sigerr Answer)

/-- The run of `ops` in a program that starts with no handlers: its history and its last state. -/
def runOps (F : Nat → Bool) (start : Start) (ops : List Op) : List Entry × State :=
  History.record (Op.run F) State.reg ops ⟨start.reg, 0⟩ []

theorem Start.flagless (start : Start) : start.reg.Flagless := fun signo hours =>
  absurd hours (start.foreign signo)

theorem runOps_run (F : Nat → Bool) (start : Start) (ops : List Op) :
    History.Run Step start.reg (runOps F start ops).1 (runOps F start ops).2.reg :=
  History.record_run (op_step F) ops .start

end Sig
