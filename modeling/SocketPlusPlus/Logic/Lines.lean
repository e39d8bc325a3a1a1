import Mathlib.Data.List.Infix

/-!
# Lines

A text as it arrives is read as the lines that are complete: each ends with a CRLF, and what is
behind the last CRLF is not a line yet. So the lines of a part of a text are the first lines of the
whole (`complete_of_part`), and a text written line by line is read line by line (`complete_ended`).
-/

namespace Lines

/-- A line as it is sent. -/
def ended (line : List UInt8) : List UInt8 := line ++ [13, 10]

/-- The lines that are complete, if `acc` is what has arrived of the first one. -/
def completeFrom (acc : List UInt8) : List UInt8 → List (List UInt8)
  | [] => []
  | b :: bs =>
    if b = 10 ∧ acc.getLast? = some 13 then acc.dropLast :: completeFrom [] bs
    else completeFrom (acc ++ [b]) bs

def complete (bs : List UInt8) : List (List UInt8) := completeFrom [] bs

/-- A text that can stand in a line. -/
def Clean (text : List UInt8) : Prop := 13 ∉ text ∧ 10 ∉ text

instance (text : List UInt8) : Decidable (Clean text) := inferInstanceAs (Decidable (_ ∧ _))

variable {line text more acc bs : List UInt8}

theorem clean_nil : Clean [] := ⟨List.not_mem_nil, List.not_mem_nil⟩

theorem Clean.append (h : Clean line) (h' : Clean text) : Clean (line ++ text) := by
  refine ⟨?_, ?_⟩
  · intro hmem
    exact (List.mem_append.mp hmem).elim h.1 h'.1
  · intro hmem
    exact (List.mem_append.mp hmem).elim h.2 h'.2

theorem Clean.cons {b : UInt8} (hcr : 13 ≠ b) (hlf : 10 ≠ b) (h : Clean text) :
    Clean (b :: text) :=
  ⟨List.not_mem_cons_of_ne_of_not_mem hcr h.1, List.not_mem_cons_of_ne_of_not_mem hlf h.2⟩

/-- Up to the CRLF the characters are collected. Induction on the line. -/
theorem completeFrom_ended (h : 10 ∉ line) (more : List UInt8) :
    completeFrom acc (ended line ++ more) = (acc ++ line) :: complete more := by
  induction line generalizing acc with
  | nil =>
    show (if (13 : UInt8) = 10 ∧ acc.getLast? = some 13 then _ else
      if (10 : UInt8) = 10 ∧ (acc ++ [13]).getLast? = some 13 then
        (acc ++ [13]).dropLast :: completeFrom [] more else _) = _
    rw [if_neg (fun hlf => absurd hlf.1 (by decide)), if_pos ⟨rfl, List.getLast?_concat⟩,
      List.dropLast_concat, List.append_nil]
    rfl
  | cons b line ih =>
    have hb : b ≠ 10 := fun heq => h (heq ▸ List.mem_cons_self)
    have hline : 10 ∉ line := fun hmem => h (List.mem_cons_of_mem b hmem)
    show (if b = 10 ∧ _ then _ else completeFrom (acc ++ [b]) (ended line ++ more)) = _
    rw [if_neg fun hlf => hb hlf.1, ih hline, List.append_assoc]
    rfl

theorem complete_ended (h : 10 ∉ line) (more : List UInt8) :
    complete (ended line ++ more) = line :: complete more :=
  completeFrom_ended h more

theorem complete_flatMap_ended {lines : List (List UInt8)} (h : ∀ line ∈ lines, 10 ∉ line) :
    complete (lines.flatMap ended) = lines := by
  induction lines with
  | nil => rfl
  | cons line lines ih =>
    rw [List.flatMap_cons, complete_ended (h line List.mem_cons_self),
      ih fun l hl => h l (List.mem_cons_of_mem _ hl)]

/-- What comes later does not change the lines that are there. Induction on the part. -/
theorem completeFrom_of_part (more : List UInt8) :
    completeFrom acc bs <+: completeFrom acc (bs ++ more) := by
  induction bs generalizing acc with
  | nil => exact List.nil_prefix
  | cons b bs ih =>
    show completeFrom acc (b :: bs) <+: completeFrom acc (b :: (bs ++ more))
    rw [completeFrom, completeFrom]
    by_cases hend : b = 10 ∧ acc.getLast? = some 13
    · rw [if_pos hend, if_pos hend]
      exact (List.prefix_cons_inj _).mpr ih
    · rw [if_neg hend, if_neg hend]
      exact ih

theorem complete_of_part (h : bs <+: text) : complete bs <+: complete text := by
  obtain ⟨more, rfl⟩ := h
  exact completeFrom_of_part more

end Lines
