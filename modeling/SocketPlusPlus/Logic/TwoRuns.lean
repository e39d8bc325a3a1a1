import SocketPlusPlus.Logic.Exec

/-!
# Two runs side by side

A change `f` of the state that a program neither notices nor spoils: it makes no difference whether
the change comes before the program or after it. So what `f` changes is not looked at.
-/

namespace Exec

variable {ε σ α β : Type}

/-- The same outcome, in the changed state. -/
def after (f : σ → σ) : EStateM.Result ε σ α → EStateM.Result ε σ α
  | .ok a s => .ok a (f s)
  | .error e s => .error e (f s)

def Blind (f : σ → σ) (c : EStateM ε σ α) : Prop := ∀ s, c (f s) = after f (c s)

variable {f : σ → σ} {c d : EStateM ε σ α}

theorem Blind.pure (a : α) : Blind f (pure a : EStateM ε σ α) := fun _ => rfl

theorem Blind.throw (e : ε) : Blind f (throw e : EStateM ε σ α) := fun _ => rfl

theorem Blind.bind {k : α → EStateM ε σ β} (hc : Blind f c) (hk : ∀ a, Blind f (k a)) :
    Blind f (c >>= k) := by
  intro s
  have hfirst := hc s
  cases hrun : c s with
  | ok a s' =>
    rw [hrun] at hfirst
    rw [bind_ok hrun, bind_ok hfirst]
    exact hk a s'
  | error e s' =>
    rw [hrun] at hfirst
    rw [bind_error hrun, bind_error hfirst]
    rfl

/-- A program that looks at the state, but not at what is changed. -/
theorem Blind.get_bind {k : σ → EStateM ε σ β} (hsame : ∀ s, k (f s) = k s)
    (hk : ∀ s, Blind f (k s)) : Blind f (get >>= k) := by
  intro s
  show k (f s) (f s) = after f (k s s)
  rw [hsame]
  exact hk s s

theorem Blind.ite {p : Prop} [Decidable p] (hc : Blind f c) (hd : Blind f d) :
    Blind f (if p then c else d) := by
  split
  · exact hc
  · exact hd

end Exec
