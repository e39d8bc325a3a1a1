import SocketPlusPlus.Logic.Loop
import SocketPlusPlus.Protocol.Response
import SocketPlusPlus.Sockbuf.Istream

/-!
# Replies read as a stream

`smtp` is also a stream, and a reply can be read from it line by line: `get_response(char*, int)`
reads a line and says whether another one follows, and `operator<<` calls it until none does.
Whether one follows is seen from the fourth character of an array that still holds the lines before,
unless it was overwritten. In a well-formed reply (`Reply`) every line is long enough for that, so
exactly the lines of the reply are read (`reply_printed`).
-/

namespace Sockstream

open Exec Memory

namespace Smtp

/-! ## The members -/

/-- `smtp::get_response(char* buf, int len)`: the value returned, what `buf` holds, and the
stream. -/
def getResponseLine (K : Kernel) (buf : Nat → UInt8) (len : Int) (s : Istream) :
    Int × (Nat → UInt8) × Istream :=
  if len < 8 then
    let r := s.getline K buf len
    (0, r.1, r.2)
  else
    let r := s.getline K (Function.update buf 3 0) len
    (if r.1 3 = 45 then 1 else 0, r.1, r.2)

/-- What `operator<<` works on: the stream it reads, and what it has sent to `o`. -/
structure Printing where
  s : Istream
  o : List UInt8

/-- `while (cont) { cont = s.get_response(buf, 1024); o << buf << endl; }`, one round. -/
def operatorShlRound (K : Kernel) (buf : Nat → UInt8) :
    EStateM Exc Printing (Turn (Nat → UInt8) Unit) := fun t =>
  let r := getResponseLine K buf 1024 t.s
  let t := { s := r.2.2, o := t.o ++ (cstring 1024 (slice r.2.1 0 1024) ++ [10]) }
  if r.1 ≠ 0 then .ok (.again r.2.1) t else .ok (.leave ()) t

/-- `operator<<(ostream& o, smtp& s)`; `buf` is what the array holds before. -/
def operatorShl (K : Kernel) (fuel : Nat) (buf : Nat → UInt8) : EStateM Exc Printing Unit :=
  loop (operatorShlRound K) .outOfFuel fuel buf

/-! ## Well-formed replies -/

/-- `ddd` -/
def Digits (code : List UInt8) : Prop := code.length = 3 ∧ ∀ b ∈ code, 48 ≤ b ∧ b ≤ 57

/-- `ddd-text` and CR -/
def Continuing (line : List UInt8) : Prop :=
  ∃ code text, Digits code ∧ line = code ++ 45 :: (text ++ [13])

/-- `ddd text` and CR, or `ddd` and CR -/
def Final (line : List UInt8) : Prop :=
  ∃ code, Digits code ∧ ((∃ text, line = code ++ 32 :: (text ++ [13])) ∨ line = code ++ [13])

/-- No LF and no null character in the line, and no more than the array has room for. -/
structure Plain (line : List UInt8) : Prop where
  noFeed : 10 ∉ line
  noNul : 0 ∉ line
  short : line.length ≤ 1023

/-- The lines of a reply, without their LF. -/
structure Reply where
  lines : List (List UInt8)
  last : List UInt8
  continuing : ∀ line ∈ lines, Continuing line ∧ Plain line
  final : Final last ∧ Plain last

/-- Each line, and LF behind it. -/
def unlines (lines : List (List UInt8)) : List UInt8 := lines.flatMap (· ++ [10])

def Reply.bytes (r : Reply) : List UInt8 := unlines (r.lines ++ [r.last])

theorem getElem?_code {code : List UInt8} (hcode : Digits code) (b : UInt8) (text : List UInt8) :
    (code ++ b :: text)[3]? = some b := by
  rw [List.getElem?_append_right (Nat.le_of_eq hcode.1), hcode.1]
  rfl

/-- The fourth character of a line with another one behind it. -/
theorem Continuing.fourth {line : List UInt8} (h : Continuing line) : (line)[3]? = some 45 := by
  obtain ⟨code, text, hcode, rfl⟩ := h
  exact getElem?_code hcode 45 _

/-- The last line has a fourth character too, which is not a hyphen. -/
theorem Final.fourth {line : List UInt8} (h : Final line) : ∃ b, (line)[3]? = some b ∧ b ≠ 45 := by
  obtain ⟨code, hcode, hline⟩ := h
  cases hline with
  | inl hspace =>
    obtain ⟨text, rfl⟩ := hspace
    exact ⟨32, getElem?_code hcode 32 _, by decide⟩
  | inr hbare =>
    rw [hbare]
    exact ⟨13, getElem?_code hcode 13 [], by decide⟩

/-! ## Reading them

`getline` takes a line whole, so it does not matter how the reply is cut on its way. -/

section Reading

variable {stream line more : List UInt8} {T : Transport stream} {t : Printing}

/-- The array behind a line that was read into it. -/
def lineAt (buf : Nat → UInt8) (line : List UInt8) : Nat → UInt8 :=
  Function.update (copyIn buf 0 line) line.length 0

/-- As a string the array is the line again. -/
theorem cstring_lineAt (buf : Nat → UInt8) (hline : Plain line) :
    cstring 1024 (slice (lineAt buf line) 0 1024) = line := by
  have hsplit : 1024 = line.length + 1 + (1023 - line.length) := by
    have hshort := hline.short
    omega
  have hcopy : slice (lineAt buf line) 0 line.length = line := by
    refine (slice_congr fun i _ hi => ?_).trans (slice_copyIn buf 0 line)
    exact Function.update_of_ne (by omega) _ _
  have hend : lineAt buf line line.length = 0 := Function.update_self _ _ _
  have hslice : slice (lineAt buf line) 0 1024
      = line ++ 0 :: slice (lineAt buf line) (line.length + 1) (1023 - line.length) := by
    rw [hsplit, slice_add, slice_succ_last, hcopy, Nat.zero_add, Nat.zero_add, hend,
      List.append_assoc, List.singleton_append]
  have hplain : ∀ b ∈ line, decide (b ≠ 0) = true := fun b hb =>
    decide_eq_true fun hzero => hline.noNul (hzero ▸ hb)
  unfold cstring
  rw [List.take_of_length_le (Nat.le_of_eq (length_slice _ _ _)), hslice,
    List.takeWhile_append_of_pos hplain]
  exact List.append_nil line

theorem lineAt_fourth (buf : Nat → UInt8) {b : UInt8} (hfourth : (line)[3]? = some b) :
    lineAt buf line 3 = b := by
  obtain ⟨hlong, -⟩ := List.getElem?_eq_some_iff.mp hfourth
  unfold lineAt
  rw [Function.update_of_ne (Nat.ne_of_lt hlong)]
  unfold copyIn
  rw [if_pos (Nat.zero_le 3), Nat.sub_zero, hfourth]
  rfl

/-- A round reads a line and prints it, and goes on exactly if the line says so. -/
theorem operatorShlRound_spec (hT : T.Lossless) (buf : Nat → UInt8) {b : UInt8}
    (ht : t.s.buf.Awaits stream (line ++ 10 :: more)) (hgood : t.s.state = .goodbit)
    (hline : Plain line) (hfourth : (line)[3]? = some b) :
    ∃ t' : Printing, t'.s.buf.Awaits stream more ∧ t'.s.state = .goodbit ∧
      t'.o = t.o ++ (line ++ [10]) ∧
      operatorShlRound T.toKernel buf t = .ok
        (if b = 45 then .again (lineAt (Function.update buf 3 0) line) else .leave ()) t' := by
  have hshort : (line.length : Int) < 1024 := by
    have hle := hline.short
    omega
  obtain ⟨harray, hawaits, hstate⟩ := Istream.getline_spec hT (Function.update buf 3 0) ht hgood
    hline.noFeed hshort
  have hresponse : getResponseLine T.toKernel buf 1024 t.s
      = (if b = 45 then 1 else 0, lineAt (Function.update buf 3 0) line,
        (t.s.getline T.toKernel (Function.update buf 3 0) 1024).2) := by
    have hmark := lineAt_fourth (Function.update buf 3 0) hfourth
    unfold getResponseLine
    simp only [if_neg (show ¬ (1024 : Int) < 8 from by decide), harray]
    show (if lineAt (Function.update buf 3 0) line 3 = 45 then (1 : Int) else 0, _, _) = _
    rw [hmark]
    rfl
  refine ⟨⟨_, _⟩, hawaits, hstate, rfl, ?_⟩
  unfold operatorShlRound
  simp only [hresponse, cstring_lineAt _ hline]
  by_cases hmore : b = 45
  · simp only [if_pos hmore]
    rfl
  · simp only [if_neg hmore]
    rfl

/-- **A reply is read to its end and not further.** Whatever the array holds before, and however
the stream is cut, `operator<<` prints the lines of the reply, each with a new line behind it, and
leaves what comes behind the reply in the stream. Induction on the lines before the last. -/
theorem reply_printed (hT : T.Lossless) (r : Reply) {fuel : Nat} (hfuel : r.lines.length < fuel)
    (buf : Nat → UInt8) (ht : t.s.buf.Awaits stream (r.bytes ++ more))
    (hgood : t.s.state = .goodbit) :
    wp (operatorShl T.toKernel fuel buf)
      (fun _ t' => t'.s.buf.Awaits stream more ∧ t'.s.state = .goodbit ∧
        t'.o = t.o ++ unlines (r.lines ++ [r.last]))
      (fun _ _ => False) t := by
  obtain ⟨lines, last, hcontinuing, hfinal⟩ := r
  obtain ⟨fuel, rfl⟩ : ∃ n, fuel = n + 1 := ⟨fuel - 1, by omega⟩
  unfold operatorShl
  induction lines generalizing fuel buf t with
  | nil =>
    obtain ⟨b, hfourth, hmark⟩ := hfinal.1.fourth
    have hlast : t.s.buf.Awaits stream (last ++ 10 :: more) := by
      simpa [Reply.bytes, unlines] using ht
    obtain ⟨t1, hawaits, hstate, ho, hround⟩ := operatorShlRound_spec hT buf hlast hgood hfinal.2
      hfourth
    rw [if_neg hmark] at hround
    rw [wp_iff_of_ok (loop_leave hround)]
    exact ⟨hawaits, hstate, by simp [unlines, ho]⟩
  | cons line lines ih =>
    obtain ⟨hmore, hline⟩ := hcontinuing line List.mem_cons_self
    have hrest : ∀ l ∈ lines, Continuing l ∧ Plain l := fun l hl =>
      hcontinuing l (List.mem_cons_of_mem line hl)
    let r : Reply := ⟨lines, last, hrest, hfinal⟩
    have hbytes : Reply.bytes ⟨line :: lines, last, hcontinuing, hfinal⟩
        = line ++ [10] ++ r.bytes := rfl
    have hfirst : t.s.buf.Awaits stream (line ++ 10 :: (r.bytes ++ more)) := by
      rw [hbytes] at ht
      simpa using ht
    obtain ⟨t1, hawaits, hstate, ho, hround⟩ := operatorShlRound_spec hT buf hfirst hgood hline
      hmore.fourth
    rw [if_pos rfl] at hround
    obtain ⟨fuel, rfl⟩ : ∃ n, fuel = n + 1 := ⟨fuel - 1, by simp at hfuel; omega⟩
    rw [wp_congr (loop_again hround)]
    refine (ih _ hstate hrest hawaits fuel (by simpa using hfuel)).mono ?_ (fun _ _ h => h)
    intro _ t2 ⟨hawaits2, hstate2, ho2⟩
    refine ⟨hawaits2, hstate2, ?_⟩
    rw [ho2, ho, List.append_assoc]
    rfl

/-- `250-a`, `250 b` -/
def twoLines : Reply where
  lines := [[50, 53, 48, 45, 97, 13]]
  last := [50, 53, 48, 32, 98, 13]
  continuing := by
    intro line hline
    obtain rfl := List.mem_singleton.mp hline
    exact ⟨⟨[50, 53, 48], [97], ⟨rfl, by simp⟩, rfl⟩, by decide, by decide, by decide⟩
  final := ⟨⟨[50, 53, 48], ⟨rfl, by simp⟩, .inl ⟨[98], rfl⟩⟩, by decide, by decide,
    by decide⟩

/-- A new connection over which nothing was read. -/
def connected : Printing := ⟨⟨fresh .small 3 (fun _ => 0) (fun _ => 0) 0, .goodbit⟩, []⟩

/-- The two lines, with the start of another reply behind them, two bytes at a time. -/
theorem reply_printed_twoLines :
    ∃ t' : Printing, operatorShl (Transport.upTo (twoLines.bytes ++ [50, 50, 48]) 1).toKernel 2
        (fun _ => 45) connected = .ok () t' ∧
      t'.s.buf.Awaits (twoLines.bytes ++ [50, 50, 48]) [50, 50, 48] ∧ t'.s.state = .goodbit ∧
      t'.o = [50, 53, 48, 45, 97, 13, 10, 50, 53, 48, 32, 98, 13, 10] := by
  have hlossless : (Transport.upTo (twoLines.bytes ++ [50, 50, 48]) 1).Lossless :=
    fun _ _ _ => ⟨_, rfl⟩
  have hfuel : twoLines.lines.length < 2 := by decide
  -- for a variable, so that no elaboration runs the program
  have hprints : ∀ t : Printing,
      t.s.buf.Awaits (twoLines.bytes ++ [50, 50, 48]) (twoLines.bytes ++ [50, 50, 48]) →
      t.s.state = .goodbit →
      ∃ t' : Printing, operatorShl (Transport.upTo (twoLines.bytes ++ [50, 50, 48]) 1).toKernel 2
          (fun _ => 45) t = .ok () t' ∧
        t'.s.buf.Awaits (twoLines.bytes ++ [50, 50, 48]) [50, 50, 48] ∧ t'.s.state = .goodbit ∧
        t'.o = t.o ++ unlines (twoLines.lines ++ [twoLines.last]) := by
    intro t ht hgood
    obtain ⟨_, t', h⟩ := (reply_printed hlossless twoLines hfuel (fun _ => 45) ht hgood).exists_ok
    exact ⟨t', h⟩
  exact hprints connected (awaits_fresh .small 3 _ _ 0) rfl

end Reading

end Smtp

end Sockstream
