import Mathlib.Data.List.Infix

/-!
# Machines with outputs

A machine reads its inputs one at a time and answers each of them with any number of outputs. The
`transcript` of a run has every input beside the outputs it caused; `outputs` are those of the whole
run, in order. Runs can be joined (`transcriptFrom_append`), and what a machine has put out it does
not take back when more comes in (`outputs_of_part`).
-/

structure Machine (σ ι ρ : Type) where
  start : σ
  step : σ → ι → List ρ × σ

namespace Machine

variable {σ ι ρ : Type} (M : Machine σ ι ρ)

/-- The state behind the inputs. -/
def after : σ → List ι → σ
  | s, [] => s
  | s, i :: is => after (M.step s i).2 is

/-- Every input, with the outputs it caused. -/
def transcriptFrom : σ → List ι → List (ι × List ρ)
  | _, [] => []
  | s, i :: is => (i, (M.step s i).1) :: transcriptFrom (M.step s i).2 is

def transcript (is : List ι) : List (ι × List ρ) := M.transcriptFrom M.start is

def outputs (is : List ι) : List ρ := (M.transcript is).flatMap Prod.snd

variable {M} {s : σ} {is js : List ι}

theorem transcriptFrom_append :
    M.transcriptFrom s (is ++ js)
      = M.transcriptFrom s is ++ M.transcriptFrom (M.after s is) js := by
  induction is generalizing s with
  | nil => rfl
  | cons i is ih =>
    rw [List.cons_append, transcriptFrom, ih]
    rfl

theorem after_append : M.after s (is ++ js) = M.after (M.after s is) js := by
  induction is generalizing s with
  | nil => rfl
  | cons i is ih => exact ih

/-- The inputs of a transcript are those of the run. -/
theorem map_fst_transcriptFrom : (M.transcriptFrom s is).map Prod.fst = is := by
  induction is generalizing s with
  | nil => rfl
  | cons i is ih => rw [transcriptFrom, List.map_cons, ih]

theorem outputs_append :
    M.outputs (is ++ js)
      = M.outputs is ++ (M.transcriptFrom (M.after M.start is) js).flatMap Prod.snd := by
  unfold outputs transcript
  rw [transcriptFrom_append, List.flatMap_append]

/-- What was put out stays. -/
theorem outputs_of_part (h : is <+: js) : M.outputs is <+: M.outputs js := by
  obtain ⟨more, rfl⟩ := h
  rw [outputs_append]
  exact List.prefix_append _ _

end Machine
