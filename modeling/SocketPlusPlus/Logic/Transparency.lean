import Mathlib.Data.List.Basic

/-!
# Text transparency

A text is sent line by line, each line ended by CR LF, and a line that is a single dot ends the
text. So that every text can be sent, a line that starts with a dot is sent with one more dot, and
the receiver drops it again.

An `Alphabet` says which symbols play these parts. `encode` is the encoding by lines, `encodeFrom`
the same as a machine that reads the text symbol by symbol, and `decode` the receiver. The results:
the machine encodes lines, its runs can be joined, and the receiver gets back the lines and stops
exactly at the end.
-/

namespace Transparency

structure Alphabet (α : Type) where
  cr : α
  lf : α
  dot : α
  cr_ne_lf : cr ≠ lf
  dot_ne_lf : dot ≠ lf

namespace Alphabet

variable {α : Type} [DecidableEq α] (A : Alphabet α)

/-! ## The sender -/

/-- One more dot in front of a line that starts with a dot. -/
def stuff (line : List α) : List α := if line.head? = some A.dot then A.dot :: line else line

/-- The lines of the text, joined by CR LF. -/
def encode (text : List α) : List α := [A.cr, A.lf].intercalate ((text.splitOn A.lf).map A.stuff)

/-- The sender as a machine; its state is whether the next symbol starts a line. -/
def encodeFrom : Bool → List α → List α
  | _, [] => []
  | start, b :: text =>
    (if start ∧ b = A.dot then [A.dot] else []) ++
      if b = A.lf then A.cr :: A.lf :: encodeFrom true text else b :: encodeFrom false text

/-- The state of the machine behind a text. -/
def startsLine (start : Bool) (text : List α) : Bool :=
  match text.getLast? with
  | none => start
  | some b => decide (b = A.lf)

def terminator : List α := [A.cr, A.lf, A.dot, A.cr, A.lf]

/-! ## The receiver -/

def unstuff (line : List α) : List α := if line.head? = some A.dot then line.tail else line

/-- What the receiver does with what comes behind `line`: it splits at CR LF, stops at the first
line that is a dot, and drops one dot in front of every other line that starts with one. The result
is the lines and what comes behind the end of the text. -/
def decodeFrom (line : List α) : List α → Option (List (List α) × List α)
  | [] => none
  | b :: rest =>
    if b = A.lf ∧ line.getLast? = some A.cr then
      if line.dropLast = [A.dot] then some ([], rest)
      else (decodeFrom [] rest).map fun r => (A.unstuff line.dropLast :: r.1, r.2)
    else decodeFrom (line ++ [b]) rest

def decode (bs : List α) : Option (List (List α) × List α) := A.decodeFrom [] bs

section Sender

variable {A : Alphabet α} {start : Bool} {line text text' : List α} {lines : List (List α)}

/-! ## The machine encodes lines

The sender goes through the text byte by byte and remembers only whether it is at the start of a
line. Seen by the line, it puts a dot in front of every line that starts with one. -/

theorem startsLine_cons (start : Bool) (b : α) (text : List α) :
    A.startsLine start (b :: text) = A.startsLine (decide (b = A.lf)) text := by
  unfold startsLine
  rw [List.getLast?_cons]
  cases text.getLast? <;> rfl

/-- Runs of the machine can be joined. -/
theorem encodeFrom_append : A.encodeFrom start (text ++ text')
    = A.encodeFrom start text ++ A.encodeFrom (A.startsLine start text) text' := by
  induction text generalizing start with
  | nil => rfl
  | cons b text ih =>
    rw [List.cons_append, encodeFrom, encodeFrom, startsLine_cons, List.append_assoc]
    by_cases hlf : b = A.lf
    · rw [if_pos hlf, if_pos hlf, ih, decide_eq_true hlf]
      rfl
    · rw [if_neg hlf, if_neg hlf, ih, decide_eq_false hlf]
      rfl

theorem encodeFrom_false_cons (b : α) (text : List α) :
    A.encodeFrom false (b :: text)
      = if b = A.lf then A.cr :: A.lf :: A.encodeFrom true text
        else b :: A.encodeFrom false text := by
  rw [encodeFrom, if_neg (fun h => Bool.false_ne_true h.1), List.nil_append]

/-- The state at the start matters only for a dot that comes first. -/
theorem encodeFrom_eq_false (start : Bool) (text : List α) :
    A.encodeFrom start text
      = (if start ∧ text.head? = some A.dot then [A.dot] else []) ++ A.encodeFrom false text := by
  cases text with
  | nil =>
    rw [if_neg (fun h => by cases h.2)]
    rfl
  | cons b text =>
    rw [encodeFrom, encodeFrom_false_cons, List.head?_cons]
    simp only [Option.some.injEq]

/-- Inside a line nothing is changed. -/
theorem encodeFrom_false (hline : A.lf ∉ line) : A.encodeFrom false line = line := by
  induction line with
  | nil => rfl
  | cons b line ih =>
    have hb : b ≠ A.lf := fun h => hline (h ▸ List.mem_cons_self)
    rw [encodeFrom_false_cons, if_neg hb, ih (fun h => hline (List.mem_cons_of_mem _ h))]

theorem encodeFrom_true (hline : A.lf ∉ line) : A.encodeFrom true line = A.stuff line := by
  cases line with
  | nil => rfl
  | cons b line =>
    have hb : b ≠ A.lf := fun h => hline (h ▸ List.mem_cons_self)
    have hrest := encodeFrom_false (fun h => hline (List.mem_cons_of_mem b h))
    unfold stuff
    rw [encodeFrom, if_neg hb, hrest, List.head?_cons]
    by_cases hdot : b = A.dot
    · rw [if_pos ⟨rfl, hdot⟩, if_pos (congrArg some hdot)]
      rfl
    · rw [if_neg (fun h => hdot h.2), if_neg (fun h => hdot (Option.some.inj h))]
      rfl

theorem startsLine_lf (start : Bool) (line : List α) :
    A.startsLine start (line ++ [A.lf]) = true := by
  unfold startsLine
  rw [List.getLast?_concat]
  exact decide_eq_true rfl

theorem encodeFrom_lines (hlines : ∀ line ∈ lines, A.lf ∉ line) :
    A.encodeFrom true ([A.lf].intercalate lines)
      = [A.cr, A.lf].intercalate (lines.map A.stuff) := by
  induction lines with
  | nil => rfl
  | cons line lines ih =>
    have hline := hlines line List.mem_cons_self
    cases lines with
    | nil => rw [List.map_singleton, List.intercalate_singleton, List.intercalate_singleton,
        encodeFrom_true hline]
    | cons line' lines =>
      have hrest := ih fun l hl => hlines l (List.mem_cons_of_mem _ hl)
      have hlf : A.encodeFrom (A.startsLine true line) [A.lf] = [A.cr, A.lf] := by
        rw [encodeFrom, if_neg (fun h => A.dot_ne_lf h.2.symm), if_pos rfl]
        rfl
      -- the machine starts the next line in the state in which it started this one
      rw [List.intercalate_cons_cons, encodeFrom_append, startsLine_lf, encodeFrom_append, hlf,
        encodeFrom_true hline, hrest, List.map_cons, List.map_cons]
      exact List.intercalate_cons_cons.symm

theorem not_mem_splitOn (b : α) (text : List α) : ∀ line ∈ text.splitOn b, b ∉ line := by
  induction text with
  | nil => simp
  | cons c text ih =>
    rw [List.splitOn_cons_eq_if_modifyHead]
    by_cases hc : c = b
    · rw [if_pos (beq_iff_eq.mpr hc)]
      intro line hline
      rcases List.mem_cons.mp hline with rfl | hline
      · exact List.not_mem_nil
      · exact ih line hline
    · rw [if_neg (fun h => hc (beq_iff_eq.mp h))]
      cases hsplit : text.splitOn b with
      | nil => exact absurd hsplit (List.splitOn_ne_nil b text)
      | cons first others =>
        rw [hsplit] at ih
        intro line hline
        rcases List.mem_cons.mp hline with rfl | hline
        · intro hmem
          rcases List.mem_cons.mp hmem with hb | hmem
          · exact hc hb.symm
          · exact ih first List.mem_cons_self hmem
        · exact ih line (List.mem_cons_of_mem _ hline)

/-- The machine, started at the beginning of a line, is the encoding by lines. -/
theorem encodeFrom_eq_encode (text : List α) : A.encodeFrom true text = A.encode text := by
  have hlines := encodeFrom_lines (not_mem_splitOn A.lf text)
  rwa [List.intercalate_splitOn] at hlines

end Sender

/-! ## The receiver gets the lines back

The receiver stops at the line with the single dot. No stuffed line looks like it, so what it has
until then is the text, and two texts cannot look the same on the wire. -/

section Receiver

variable {A : Alphabet α} {line bs rest : List α} {lines : List (List α)}

theorem unstuff_stuff (line : List α) : A.unstuff (A.stuff line) = line := by
  unfold stuff
  by_cases hdot : line.head? = some A.dot
  · rw [if_pos hdot, unstuff, List.head?_cons, if_pos rfl, List.tail_cons]
  · rw [if_neg hdot, unstuff, if_neg hdot]

/-- No line is taken for the end of the text. -/
theorem stuff_ne_dot (line : List α) : A.stuff line ≠ [A.dot] := by
  unfold stuff
  intro hdot
  by_cases hhead : line.head? = some A.dot
  · rw [if_pos hhead] at hdot
    rw [(List.cons.inj hdot).2] at hhead
    cases hhead
  · rw [if_neg hhead] at hdot
    exact hhead (by rw [hdot]; rfl)

theorem lf_not_mem_stuff (hline : A.lf ∉ line) : A.lf ∉ A.stuff line := by
  unfold stuff
  split
  · intro hmem
    rcases List.mem_cons.mp hmem with hdot | hmem
    · exact A.dot_ne_lf hdot.symm
    · exact hline hmem
  · exact hline

/-- The receiver reads up to the first CR LF; bare CRs, also one right before it, belong to the
line. -/
theorem decodeFrom_line (begun : List α) (hbs : A.lf ∉ bs) :
    A.decodeFrom begun (bs ++ A.cr :: A.lf :: rest)
      = if begun ++ bs = [A.dot] then some ([], rest)
        else (A.decodeFrom [] rest).map fun r => (A.unstuff (begun ++ bs) :: r.1, r.2) := by
  induction bs generalizing begun with
  | nil =>
    -- the CR is taken for a character of the line until the LF comes
    have hlast : (begun ++ [A.cr]).getLast? = some A.cr := List.getLast?_concat
    rw [List.nil_append, decodeFrom, if_neg (fun h => A.cr_ne_lf h.1), decodeFrom,
      if_pos ⟨rfl, hlast⟩, List.dropLast_concat, List.append_nil]
  | cons b bs ih =>
    have hb : b ≠ A.lf := fun h => hbs (h ▸ List.mem_cons_self)
    rw [List.cons_append, decodeFrom, if_neg (fun h => hb h.1),
      ih (begun ++ [b]) (fun h => hbs (List.mem_cons_of_mem _ h)), List.append_assoc]
    rfl

/-- Induction on the lines. -/
theorem decode_lines (hlines : ∀ line ∈ lines, A.lf ∉ line) (rest : List α) :
    A.decode (lines.flatMap (fun line => A.stuff line ++ [A.cr, A.lf])
      ++ A.dot :: A.cr :: A.lf :: rest) = some (lines, rest) := by
  unfold decode
  induction lines with
  | nil =>
    have hdot : A.lf ∉ [A.dot] := fun h => A.dot_ne_lf (List.mem_singleton.mp h).symm
    exact (decodeFrom_line [] hdot).trans (if_pos rfl)
  | cons line lines ih =>
    have hline := lf_not_mem_stuff (hlines line List.mem_cons_self)
    rw [List.flatMap_cons, List.append_assoc, List.append_assoc, List.cons_append, List.cons_append,
      List.nil_append, decodeFrom_line [] hline, List.nil_append, if_neg (stuff_ne_dot line),
      ih fun l hl => hlines l (List.mem_cons_of_mem _ hl), unstuff_stuff]
    rfl

omit [DecidableEq α] in
theorem intercalate_append (sep : List α) (hne : lines ≠ []) :
    sep.intercalate lines ++ sep = lines.flatMap (· ++ sep) := by
  induction lines with
  | nil => exact absurd rfl hne
  | cons line lines ih =>
    cases lines with
    | nil => simp
    | cons line' lines =>
      rw [List.intercalate_cons_cons, List.append_assoc, ih (List.cons_ne_nil _ _)]
      rfl

/-- **Round trip.** The receiver gets back the lines of the text, and stops at the terminator. -/
theorem decode_encode (text rest : List α) :
    A.decode (A.encode text ++ A.terminator ++ rest) = some (text.splitOn A.lf, rest) := by
  have hne : (text.splitOn A.lf).map A.stuff ≠ [] := by
    intro hnil
    exact List.splitOn_ne_nil A.lf text (List.map_eq_nil_iff.mp hnil)
  have hlines := decode_lines (not_mem_splitOn A.lf text) rest
  rw [← hlines]
  congr 1
  have hbody := intercalate_append [A.cr, A.lf] hne
  rw [List.flatMap_map] at hbody
  rw [← hbody, encode, terminator]
  simp

theorem encode_injective : Function.Injective A.encode := by
  intro text text' h
  have hdecode := decode_encode (A := A) text []
  rw [h, decode_encode] at hdecode
  have hsplit := congrArg Prod.fst (Option.some.inj hdecode)
  have hjoin := congrArg (List.intercalate [A.lf]) hsplit
  rw [List.intercalate_splitOn, List.intercalate_splitOn] at hjoin
  exact hjoin.symm

/-- More input behind the end of the text changes nothing. -/
theorem decodeFrom_append {begun bs rest : List α} {lines : List (List α)} (later : List α)
    (h : A.decodeFrom begun bs = some (lines, rest)) :
    A.decodeFrom begun (bs ++ later) = some (lines, rest ++ later) := by
  induction bs generalizing begun lines with
  | nil => cases h
  | cons b bs ih =>
    rw [decodeFrom] at h
    rw [List.cons_append, decodeFrom]
    by_cases hend : b = A.lf ∧ begun.getLast? = some A.cr
    · rw [if_pos hend] at h ⊢
      by_cases hdot : begun.dropLast = [A.dot]
      · rw [if_pos hdot] at h ⊢
        cases h
        rfl
      · rw [if_neg hdot] at h ⊢
        obtain ⟨⟨lines', rest'⟩, hrest, heq⟩ := Option.map_eq_some_iff.mp h
        cases heq
        rw [ih hrest]
        rfl
    · rw [if_neg hend] at h ⊢
      exact ih h

/-- No proper prefix of a whole text is one: the receiver does not stop early. -/
theorem decode_eq_none_of_prefix {whole part : List α} {lines : List (List α)}
    (h : A.decode whole = some (lines, [])) (hpart : part <+: whole) (hne : part ≠ whole) :
    A.decode part = none := by
  obtain ⟨later, hlater⟩ := hpart
  cases hdecode : A.decode part with
  | none => rfl
  | some r =>
    -- a receiver that stopped early would leave the rest of `whole` behind
    have hlonger := decodeFrom_append later hdecode
    rw [hlater] at hlonger
    have hnil : r.2 ++ later = [] := congrArg Prod.snd (Option.some.inj (hlonger.symm.trans h))
    rw [(List.append_eq_nil_iff.mp hnil).2, List.append_nil] at hlater
    exact absurd hlater hne

end Receiver

end Alphabet

end Transparency
