import SocketPlusPlus.Logic.Loop

/-!
# Loops that scan

A `Scanner` goes through a list of items in order and stops at one of them or at the end. It cannot
pass an item that it does not see enough of. A loop `Scans` if one of its rounds does what the
scanner does with the next item, and changes nothing the scanner knows of where the scanner cannot
pass. Then the loop ends exactly if the scanner comes to its end (`Scans.returns_iff`), and each
of its rounds takes exactly one item.
-/

namespace Exec

/-- `sees` says that an item can be passed, `stops` that the scan ends with it, and `next` what the
scanner knows behind it. -/
structure Scanner (ς ι : Type) where
  sees : ι → Prop
  stops : ς → ι → Prop
  next : ς → ι → ς

/-- The scan comes to an item at which it stops, or to the end. -/
def Scanner.Ends {ς ι : Type} (S : Scanner ς ι) : ς → List ι → Prop
  | _, [] => True
  | q, i :: is => S.sees i ∧ (S.stops q i ∨ S.Ends (S.next q i) is)

/-- The rounds of a loop are the steps of a scanner that knows `state` and has `view` ahead. Each
round that takes an item is one of the relation `moves`. -/
structure Scans {ε σ α β ς ι : Type} (S : Scanner ς ι) (round : β → EStateM ε σ (Turn β α))
    (inv : β × σ → Prop) (state : β × σ → ς) (view : β × σ → List ι)
    (moves : β × σ → β × σ → Prop) : Prop where
  nil : ∀ x, inv x → view x = [] → ∃ a s', round x.1 x.2 = .ok (.leave a) s'
  stop : ∀ x i is, inv x → view x = i :: is → S.sees i → S.stops (state x) i →
    ∃ a s', round x.1 x.2 = .ok (.leave a) s'
  step : ∀ x i is, inv x → view x = i :: is → S.sees i → ¬ S.stops (state x) i →
    ∃ y, Turns round x y ∧ inv y ∧ state y = S.next (state x) i ∧ view y = is ∧ moves x y
  stuck : ∀ x i is, inv x → view x = i :: is → ¬ S.sees i →
    ∃ y, Turns round x y ∧ inv y ∧ state y = state x ∧ view y = view x

section Scan

variable {ε σ α β ς ι : Type} {S : Scanner ς ι} {round : β → EStateM ε σ (Turn β α)}
  {inv : β × σ → Prop} {state : β × σ → ς} {view : β × σ → List ι}
  {moves : β × σ → β × σ → Prop} {e : ε} {x y : β × σ}

/-- A round that goes on does not also leave the loop. -/
theorem Turns.not_leave (hturn : Turns round x y) {a : α} {s' : σ} :
    round x.1 x.2 ≠ .ok (.leave a) s' := by
  intro h
  cases hturn.symm.trans h

theorem Turns.unique {y' : β × σ} (h : Turns round x y) (h' : Turns round x y') : y = y' := by
  obtain ⟨b, s⟩ := y
  obtain ⟨b', s'⟩ := y'
  cases h.symm.trans h'
  rfl

/-- A turn of a scan that comes to its end takes one item. -/
theorem Scans.turn (h : Scans S round inv state view moves) (hx : inv x)
    (hends : S.Ends (state x) (view x)) (hturn : Turns round x y) :
    inv y ∧ S.Ends (state y) (view y) ∧ (view y).length < (view x).length ∧ moves x y := by
  cases hview : view x with
  | nil =>
    obtain ⟨a, s', hleave⟩ := h.nil x hx hview
    exact absurd hleave hturn.not_leave
  | cons i is =>
    rw [hview] at hends
    obtain ⟨hsees, hrest⟩ := hends
    by_cases hstop : S.stops (state x) i
    · obtain ⟨a, s', hleave⟩ := h.stop x i is hx hview hsees hstop
      exact absurd hleave hturn.not_leave
    · obtain ⟨z, hz, hinv, hstate, hbehind, hmoves⟩ := h.step x i is hx hview hsees hstop
      rw [hturn.unique hz]
      refine ⟨hinv, ?_, ?_, hmoves⟩
      · rw [hstate, hbehind]
        exact hrest.resolve_left hstop
      · rw [hbehind]
        exact Nat.lt_succ_self _

/-- A scan that does not come to its end is stuck at some item. Induction on the items. -/
theorem Scans.not_returns (h : Scans S round inv state view moves) (hx : inv x)
    (hends : ¬ S.Ends (state x) (view x)) (fuel : Nat) :
    wp (loop round e fuel x.1) (fun _ _ => False) (fun e' _ => e' = e) x.2 := by
  generalize hview : view x = items at hends
  induction items generalizing x fuel with
  | nil => exact absurd trivial hends
  | cons i is ih =>
    by_cases hsees : S.sees i
    · have hstop : ¬ S.stops (state x) i := fun hstop => hends ⟨hsees, .inl hstop⟩
      obtain ⟨y, hturn, hinv, hstate, hbehind, -⟩ := h.step x i is hx hview hsees hstop
      have hends' : ¬ S.Ends (state y) is := by
        rw [hstate]
        exact fun hrest => hends ⟨hsees, .inr hrest⟩
      cases fuel with
      | zero => rfl
      | succ fuel =>
        rw [wp_congr (loop_again hturn)]
        exact ih hinv fuel hbehind hends'
    · -- every round comes back to this item
      let stuck : β × σ → Prop := fun y => inv y ∧ view y = i :: is
      have hround : ∀ y, stuck y → ∃ z, Turns round y z ∧ stuck z := by
        intro y ⟨hy, hsame⟩
        obtain ⟨z, hturn, hz, -, hview'⟩ := h.stuck y i is hy hsame hsees
        exact ⟨z, hturn, hz, hview'.trans hsame⟩
      exact loop_stuck hround ⟨hx, hview⟩ fuel

/-- **A loop that scans ends exactly if the scan does**, and then each of its rounds moves. -/
theorem Scans.returns_iff (h : Scans S round inv state view moves) (hx : inv x) :
    ((∃ fuel a s', loop round e fuel x.1 x.2 = .ok a s') ∧
        ∀ y z, Reaches round x y → Turns round y z → moves y z) ↔
      S.Ends (state x) (view x) := by
  constructor
  · intro ⟨⟨fuel, a, s', hrun⟩, _⟩
    refine Classical.by_contradiction fun hends => ?_
    exact (h.not_returns (e := e) hx hends fuel).of_ok hrun
  · intro hends
    let I : β × σ → Prop := fun y => inv y ∧ S.Ends (state y) (view y)
    constructor
    · refine loop_returns (I := I) (fun y => (view y).length) ?_ ⟨hx, hends⟩
      intro y ⟨hy, hyends⟩
      cases hview : view y with
      | nil => exact .inl (h.nil y hy hview)
      | cons i is =>
        have hseen := hyends
        rw [hview] at hseen
        by_cases hstop : S.stops (state y) i
        · exact .inl (h.stop y i is hy hview hseen.1 hstop)
        · obtain ⟨z, hturn, -⟩ := h.step y i is hy hview hseen.1 hstop
          obtain ⟨hz, hzends, hless, -⟩ := h.turn hy hyends hturn
          rw [hview] at hless
          exact .inr ⟨z, hturn, ⟨hz, hzends⟩, hless⟩
    · intro y z hreach hturn
      have hstep : ∀ u v, I u → Turns round u v → I v := by
        intro u v ⟨hu, huends⟩ huv
        obtain ⟨hv, hvends, -, -⟩ := h.turn hu huends huv
        exact ⟨hv, hvends⟩
      obtain ⟨hy, hyends⟩ : I y := hreach.invariant hstep ⟨hx, hends⟩
      obtain ⟨-, -, -, hmoves⟩ := h.turn hy hyends hturn
      exact hmoves

end Scan

end Exec
