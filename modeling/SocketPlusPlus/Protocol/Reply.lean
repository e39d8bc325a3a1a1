import Mathlib.Data.List.TakeWhile
import SocketPlusPlus.Protocol.Response

/-!
# Well-formed replies

A reply is `ddd text`, or `ddd-text` with further lines of which the last is `ddd text`. Each line
ends with a CRLF and contains none. The second half of the module says what the pieces of code
that look at the start of a line make of it: `strncpy` and `strncmp`.
-/

namespace Sockstream

open Exec Memory

/-! ## Replies

A reply is one line, or several of which the last one starts with the code and a blank and the
others do not. -/

/-- The lines behind the first one: lines that do not start like the last, and the last. -/
inductive TailLines (code : List UInt8) : List (List UInt8) → Prop where
  | last (text : List UInt8) : TailLines code [code ++ 32 :: text]
  | middle (b : List UInt8) {bs : List (List UInt8)} (hb : ¬ code ++ [32] <+: b)
      (hbs : TailLines code bs) : TailLines code (b :: bs)

/-- `ddd text`, or `ddd-text` and further lines. -/
inductive ReplyLines (code : List UInt8) : List (List UInt8) → Prop where
  | single (text : List UInt8) : ReplyLines code [code ++ 32 :: text]
  | multi (text : List UInt8) {bs : List (List UInt8)} (hbs : TailLines code bs) :
      ReplyLines code ((code ++ 45 :: text) :: bs)

def crlf (line : List UInt8) : List UInt8 := line ++ [13, 10]

/-- A reply of a server: its lines, without the CRLF that ends each of them. -/
structure Reply where
  code : List UInt8
  lines : List (List UInt8)
  code_length : code.length = 3
  code_digits : ∀ d ∈ code, 48 ≤ d ∧ d ≤ 57
  shape : ReplyLines code lines
  noCrlf : ∀ line ∈ lines, ¬ [13, 10] <:+: line

/-- Where a loop is in a reply: before its first line, or behind it. -/
def Expects (code : List UInt8) (first : Bool) (lines : List (List UInt8)) : Prop :=
  if first then ReplyLines code lines else TailLines code lines

def linesBytes (lines : List (List UInt8)) : List UInt8 := lines.flatMap crlf

def Reply.bytes (R : Reply) : List UInt8 := linesBytes R.lines

theorem linesBytes_cons (line : List UInt8) (lines : List (List UInt8)) :
    linesBytes (line :: lines) = crlf line ++ linesBytes lines := rfl

theorem length_crlf (line : List UInt8) : (crlf line).length = line.length + 2 :=
  List.length_append

theorem linesBytes_ne_nil {lines : List (List UInt8)} (h : lines ≠ []) : linesBytes lines ≠ [] := by
  cases lines with
  | nil => exact absurd rfl h
  | cons line lines =>
    intro hnil
    have hlen := congrArg List.length hnil
    rw [linesBytes_cons, List.length_append, length_crlf, List.length_nil] at hlen
    omega

theorem TailLines.ne_nil {code : List UInt8} {lines : List (List UInt8)}
    (h : TailLines code lines) : lines ≠ [] := by
  cases h with
  | last text => exact List.cons_ne_nil _ _
  | middle b hb hbs => exact List.cons_ne_nil _ _

theorem ReplyLines.ne_nil {code : List UInt8} {lines : List (List UInt8)}
    (h : ReplyLines code lines) : lines ≠ [] := by
  cases h with
  | single text => exact List.cons_ne_nil _ _
  | multi text hbs => exact List.cons_ne_nil _ _

theorem Expects.last {code line : List UInt8} {first : Bool} (h : Expects code first [line]) :
    ∃ text, line = code ++ 32 :: text := by
  cases first with
  | true =>
    cases h with
    | single text => exact ⟨text, rfl⟩
    | multi text hbs => exact absurd rfl hbs.ne_nil
  | false =>
    cases h with
    | last text => exact ⟨text, rfl⟩
    | middle b hb hbs => exact absurd rfl hbs.ne_nil

/-- The last line has four characters before its CRLF. -/
theorem Expects.length_linesBytes {code : List UInt8} {first : Bool} {lines : List (List UInt8)}
    (hlen : code.length = 3) (h : Expects code first lines) : 6 ≤ (linesBytes lines).length := by
  have hlast : ∀ x text, 6 ≤ (crlf (code ++ x :: text)).length := by
    intro x text
    rw [length_crlf, List.length_append, List.length_cons]
    omega
  have htail : ∀ {bs}, TailLines code bs → 6 ≤ (linesBytes bs).length := by
    intro bs hbs
    induction hbs with
    | last text =>
      rw [linesBytes_cons, List.length_append]
      exact Nat.le_add_right_of_le (hlast 32 text)
    | middle b hb hbs ih =>
      rw [linesBytes_cons, List.length_append]
      omega
  cases first with
  | false => exact htail h
  | true =>
    cases h with
    | single text =>
      rw [linesBytes_cons, List.length_append]
      exact Nat.le_add_right_of_le (hlast 32 text)
    | multi text hbs =>
      rw [linesBytes_cons, List.length_append]
      exact Nat.le_add_right_of_le (hlast 45 text)

/-- Behind a line that is not the last come further lines and the last. -/
theorem Expects.tail {code line : List UInt8} {first : Bool} {lines : List (List UInt8)}
    (h : Expects code first (line :: lines)) (hmore : lines ≠ []) :
    Expects code false lines := by
  cases first with
  | true =>
    cases h with
    | single text => exact absurd rfl hmore
    | multi text hbs => exact hbs
  | false =>
    cases h with
    | last text => exact absurd rfl hmore
    | middle b hb hbs => exact hbs

/-! ## How a line starts -/

section Starts

theorem code_ne_zero {code : List UInt8} (hdigits : ∀ d ∈ code, 48 ≤ d ∧ d ≤ 57) :
    ∀ d ∈ code ++ [32], d ≠ 0 := by
  intro d hd
  rcases List.mem_append.mp hd with hcode | hspace
  · have hle := (hdigits d hcode).1
    intro hzero
    rw [hzero] at hle
    exact absurd hle (by decide)
  · rw [List.mem_singleton.mp hspace]
    decide

theorem cstring_of_ne_zero {n : Nat} {bytes : List UInt8} (hlen : bytes.length ≤ n)
    (hne : ∀ b ∈ bytes, b ≠ 0) : cstring n bytes = bytes := by
  unfold cstring
  rw [List.take_of_length_le hlen, List.takeWhile_eq_self_iff]
  intro b hb
  exact decide_eq_true (hne b hb)

/-- The first line starts with the digits. -/
theorem take_code {code line more : List UInt8} {lines : List (List UInt8)}
    (hlen : code.length = 3) (hfirst : ReplyLines code (line :: lines)) :
    (crlf line ++ more).take 3 = code := by
  have hstart : ∀ x text, (crlf (code ++ x :: text) ++ more).take 3 = code := by
    intro x text
    unfold crlf
    rw [List.append_assoc, List.append_assoc]
    exact List.take_left' hlen
  cases hfirst with
  | single text => exact hstart 32 text
  | multi text hbs => exact hstart 45 text

theorem getElem?_fourth {code : List UInt8} (hlen : code.length = 3) (x : UInt8)
    (text more : List UInt8) : (crlf (code ++ x :: text) ++ more)[3]? = some x := by
  unfold crlf
  rw [List.append_assoc, List.append_assoc, List.getElem?_append_right (by omega), hlen]
  rfl

/-- The byte behind the digits of the first line tells whether it is the only one. -/
theorem fourth_eq_space {code line more : List UInt8} {lines : List (List UInt8)} {x : UInt8}
    (hlen : code.length = 3) (hfirst : ReplyLines code (line :: lines))
    (hx : (crlf line ++ more)[3]? = some x) : x = 32 ↔ lines = [] := by
  cases hfirst with
  | single text =>
    rw [getElem?_fourth hlen] at hx
    exact ⟨fun _ => rfl, fun _ => (Option.some.inj hx).symm⟩
  | multi text hbs =>
    rw [getElem?_fourth hlen] at hx
    rw [← Option.some.inj hx]
    exact ⟨fun h45 => absurd h45 (by decide), fun hnil => absurd hnil hbs.ne_nil⟩

/-- `strncpy` of the three digits. -/
theorem strncpy_code {code : List UInt8} (hlen : code.length = 3)
    (hdigits : ∀ d ∈ code, 48 ≤ d ∧ d ≤ 57) : strncpy 3 code = code := by
  have hcstring : cstring 3 code = code := cstring_of_ne_zero (by omega) fun d hd =>
    code_ne_zero hdigits d (List.mem_append_left _ hd)
  unfold strncpy
  rw [hcstring, hlen]
  exact List.append_nil code

/-- `strncmp(q, replycode, 4) == 0` looks at the line alone: a line that is too short has its CR
among the four characters. -/
theorem cstring_eq_iff {code line more : List UInt8} (hlen : code.length = 3)
    (hdigits : ∀ d ∈ code, 48 ≤ d ∧ d ≤ 57) :
    cstring 4 ((crlf line ++ more).take 4) = cstring 4 (code ++ [32]) ↔ code ++ [32] <+: line := by
  have hcode : cstring 4 (code ++ [32]) = code ++ [32] :=
    cstring_of_ne_zero (by simp [hlen]) (code_ne_zero hdigits)
  have hcodeLen : (code ++ [32]).length = 4 := by rw [List.length_append, hlen]; rfl
  rw [hcode]
  constructor
  · intro heq
    have hprefix : code ++ [32] <+: (crlf line ++ more).take 4 := by
      rw [← heq]
      unfold cstring
      rw [List.take_take]
      exact List.takeWhile_prefix _
    have hstart : code ++ [32] <+: line ++ ([13, 10] ++ more) := by
      have h := hprefix.trans (List.take_prefix _ _)
      unfold crlf at h
      rwa [List.append_assoc] at h
    by_cases hshort : line.length < 4
    · -- byte `line.length` would be a CR and a digit or a blank
      have hcr : (code ++ [32])[line.length]? = some 13 := by
        obtain ⟨later, hlater⟩ := hstart
        rw [← List.getElem?_append_left (by omega), hlater,
          List.getElem?_append_right (Nat.le_refl _), Nat.sub_self]
        rfl
      rcases List.mem_append.mp (List.mem_of_getElem? hcr) with hdigit | hspace
      · exact absurd (hdigits 13 hdigit).1 (by decide)
      · exact absurd (List.mem_singleton.mp hspace) (by decide)
    · exact List.prefix_of_prefix_length_le hstart (List.prefix_append _ _) (by omega)
  · intro ⟨rest, hrest⟩
    have htake : (crlf line ++ more).take 4 = code ++ [32] := by
      unfold crlf
      rw [← hrest, List.append_assoc, List.append_assoc]
      exact List.take_left' hcodeLen
    rw [htake, hcode]

end Starts

end Sockstream
