import Mathlib.Computability.Language
import SocketPlusPlus.Logic.Exec

/-!
# Programs that write words of a language

A program writes something behind what `out` shows of its state. `Emits inv out L c` says that what
`c` writes is a word of `L`, or, if `c` throws, the beginning of one, and that `c` keeps `inv`. A
sequence of programs writes words of the product of their languages, so that what a program can
write is computed from its text with the operations of `Language`.
-/

namespace Exec

variable {ε σ τ α β ω : Type}

structure Emits (inv : σ → Prop) (out : σ → List ω) (L : Language ω) (c : EStateM ε σ α) :
    Prop where
  possible : ∃ x, x ∈ L
  run : ∀ s, inv s → wp c (fun _ s' => inv s' ∧ ∃ x ∈ L, out s' = out s ++ x)
    (fun _ s' => inv s' ∧ ∃ x ∈ L, ∃ p, p <+: x ∧ out s' = out s ++ p) s

variable {inv : σ → Prop} {out : σ → List ω} {L M : Language ω} {c : EStateM ε σ α}

/-- A program that writes nothing. -/
theorem Emits.of_within {R : σ → σ → Prop} (h : Within R c)
    (hR : ∀ s s', R s s' → inv s → inv s' ∧ out s' = out s) : Emits inv out 1 c := by
  refine ⟨⟨[], rfl⟩, fun s hs => (h s).mono ?_ ?_⟩
  · intro _ s' hs'
    obtain ⟨hinv, hout⟩ := hR s s' hs' hs
    exact ⟨hinv, [], rfl, by rw [hout, List.append_nil]⟩
  · intro _ s' hs'
    obtain ⟨hinv, hout⟩ := hR s s' hs' hs
    exact ⟨hinv, [], rfl, [], List.prefix_rfl, by rw [hout, List.append_nil]⟩

theorem Emits.of_eq (h : Within Eq c) : Emits inv out 1 c :=
  .of_within h fun _ _ heq hs => heq ▸ ⟨hs, rfl⟩

theorem Emits.pure (a : α) : Emits inv out 1 (pure a : EStateM ε σ α) := .of_eq (.pure a)

theorem Emits.mono (h : Emits inv out L c) (hle : ∀ x ∈ L, x ∈ M) : Emits inv out M c := by
  refine ⟨h.possible.imp hle, fun s hs => (h.run s hs).mono ?_ ?_⟩
  · rintro _ s' ⟨hinv, x, hx, hout⟩
    exact ⟨hinv, x, hle x hx, hout⟩
  · rintro _ s' ⟨hinv, x, hx, hp⟩
    exact ⟨hinv, x, hle x hx, hp⟩

/-- The second program writes behind what the first one has written. -/
theorem Emits.bind {f : α → EStateM ε σ β} (hc : Emits inv out L c)
    (hf : ∀ a, Emits inv out M (f a)) (hM : ∃ y, y ∈ M) : Emits inv out (L * M) (c >>= f) := by
  obtain ⟨y, hy⟩ := hM
  obtain ⟨x, hx⟩ := hc.possible
  refine ⟨⟨x ++ y, Language.append_mem_mul hx hy⟩, fun s hs => ?_⟩
  rw [wp_bind]
  refine (hc.run s hs).mono ?_ ?_
  · rintro a s1 ⟨hinv, x, hx, hout⟩
    refine ((hf a).run s1 hinv).mono ?_ ?_
    · rintro _ s2 ⟨hinv2, y, hy, hout2⟩
      refine ⟨hinv2, x ++ y, Language.append_mem_mul hx hy, ?_⟩
      rw [hout2, hout, List.append_assoc]
    · rintro _ s2 ⟨hinv2, y, hy, p, hp, hout2⟩
      refine ⟨hinv2, x ++ y, Language.append_mem_mul hx hy, x ++ p, ?_, ?_⟩
      · exact (List.prefix_append_right_inj x).mpr hp
      · rw [hout2, hout, List.append_assoc]
  · -- the second program was not reached
    rintro _ s1 ⟨hinv, x, hx, p, hp, hout⟩
    exact ⟨hinv, x ++ y, Language.append_mem_mul hx hy, p, hp.trans (List.prefix_append x y), hout⟩

/-- A first program that writes nothing. -/
theorem Emits.after {f : α → EStateM ε σ β} (hc : Emits inv out 1 c)
    (hf : ∀ a, Emits inv out M (f a)) (hM : ∃ y, y ∈ M) : Emits inv out M (c >>= f) := by
  have h := hc.bind hf hM
  rwa [one_mul] at h

/-- A second program that writes nothing. -/
theorem Emits.before {f : α → EStateM ε σ β} (hc : Emits inv out L c)
    (hf : ∀ a, Emits inv out 1 (f a)) : Emits inv out L (c >>= f) := by
  have h := hc.bind hf ⟨[], rfl⟩
  rwa [mul_one] at h

/-- Two words, one behind the other. -/
theorem Emits.append {f : α → EStateM ε σ β} {x y : List ω} (hc : Emits inv out {x} c)
    (hf : ∀ a, Emits inv out {y} (f a)) : Emits inv out {x ++ y} (c >>= f) := by
  refine (hc.bind hf ⟨y, rfl⟩).mono ?_
  rintro _ ⟨_, rfl, _, rfl, rfl⟩
  rfl

theorem Emits.ite {p : Prop} [Decidable p] {d : EStateM ε σ α} (hc : Emits inv out L c)
    (hd : Emits inv out L d) : Emits inv out L (if p then c else d) := by
  split
  · exact hc
  · exact hd

/-- A program of a part of the state, if the invariant and the output belong to that part. -/
theorem Emits.zoom {part : τ → σ} {put : τ → σ → τ} (hput : ∀ t s, part (put t s) = s)
    (h : Emits inv out L c) :
    Emits (fun t => inv (part t)) (fun t => out (part t)) L (zoom part put c) := by
  refine ⟨h.possible, fun t ht => ?_⟩
  rw [wp_zoom]
  refine (h.run (part t) ht).mono ?_ ?_
  · intro _ s hs
    rwa [hput]
  · intro _ s hs
    rwa [hput]

/-- However `c` ends, the invariant holds. -/
theorem Emits.keeps (h : Emits inv out L c) {s : σ} (hs : inv s) :
    wp c (fun _ => inv) (fun _ => inv) s :=
  (h.run s hs).mono (fun _ _ h => h.1) (fun _ _ h => h.1)

end Exec
