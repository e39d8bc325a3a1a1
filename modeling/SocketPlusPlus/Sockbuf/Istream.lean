import SocketPlusPlus.Sockbuf.Stream

/-!
# Lines of a stream

What a stream over a sockbuf inherits from `std::basic_istream`: its state, and `getline` as the C++
standard describes it. Before each character `getline` tests, in this order, for the end of the
file, for the delimiter and for the end of the array; behind what it stored it puts a null
character, whatever ended it. An exception of the sockbuf is caught and becomes `badbit`.
-/

namespace Sockstream

open Exec Memory

/-! ## The model

`getline` as the standard library has it, with the members of the sockbuf below it. -/

/-- `std::ios_base::iostate` -/
structure Iostate where
  eofbit : Bool
  failbit : Bool
  badbit : Bool
deriving DecidableEq, Repr

def Iostate.goodbit : Iostate := ⟨false, false, false⟩

/-- `setstate(set)` -/
def Iostate.setstate (state set : Iostate) : Iostate :=
  ⟨state.eofbit || set.eofbit, state.failbit || set.failbit, state.badbit || set.badbit⟩

/-- A stream over a narrow sockbuf. -/
structure Istream where
  buf : St UInt8
  state : Iostate

/-- What `getline` works on: the sockbuf and the array `s`, with the numbers of characters that were
stored in `s` and that were extracted. -/
structure Getline where
  buf : St UInt8
  s : Nat → UInt8
  stored : Nat
  gcount : Nat

/-- A member function of the sockbuf. -/
def Getline.onBuf {α : Type} (c : M UInt8 α) : EStateM Exc Getline α :=
  zoom Getline.buf (fun t b => { t with buf := b }) c

/-- The characters of `getline`, with room for `room` more: what their end sets in the state. -/
def getlineLoop (K : Kernel) (room : Nat) : EStateM Exc Getline Iostate := do
  let c ← Getline.onBuf (sgetc K)
  if c = eof then pure ⟨true, false, false⟩
  else if c = 10 then do
    let _ ← Getline.onBuf (sbumpc K)
    modify fun t => { t with gcount := t.gcount + 1 }
    pure .goodbit
  else
    match room with
    | 0 => pure ⟨false, true, false⟩
    | room + 1 => do
      let _ ← Getline.onBuf (sbumpc K)
      modify fun t => { t with
        s := Function.update t.s t.stored (CharType.ofInt c)
        stored := t.stored + 1
        gcount := t.gcount + 1 }
      getlineLoop K room

/-- `getline(char* s, streamsize n)`: what the array holds then, and the stream. -/
def Istream.getline (K : Kernel) (s : Nat → UInt8) (n : Int) (t : Istream) :
    (Nat → UInt8) × Istream :=
  let terminate := fun (s : Nat → UInt8) stored => if 0 < n then Function.update s stored 0 else s
  if t.state = .goodbit then
    let r := attempt (getlineLoop K (n - 1).toNat) ⟨t.buf, s, 0, 0⟩
    let set : Iostate :=
      match r.1 with
      | .ok set => set
      | .error _ => ⟨false, false, true⟩
    let none : Iostate := ⟨false, decide (r.2.gcount = 0), false⟩
    (terminate r.2.s r.2.stored, ⟨r.2.buf, t.state.setstate (set.setstate none)⟩)
  else
    (terminate s 0, ⟨t.buf, t.state.setstate ⟨false, true, false⟩⟩)

/-! ## A line that fits

If the array has room for the line, `getline` stores the line and takes the delimiter. -/

section Getline

variable {stream rest line : List UInt8} {T : Transport stream}

/-- Everything up to the delimiter is stored, and the delimiter is taken. Induction on the line. -/
theorem getlineLoop_spec (hT : T.Lossless) (room : Nat) {t : Getline}
    (ht : t.buf.Awaits stream (line ++ 10 :: rest)) (hline : 10 ∉ line)
    (hroom : line.length ≤ room) :
    wp (getlineLoop T.toKernel room)
      (fun set t' => set = .goodbit ∧ t'.buf.Awaits stream rest ∧ t'.s = copyIn t.s t.stored line ∧
        t'.stored = t.stored + line.length ∧ 0 < t'.gcount)
      (fun _ _ => False) t := by
  induction line generalizing room t with
  | nil =>
    unfold getlineLoop Getline.onBuf
    rw [wp_bind, wp_zoom]
    refine (sgetc_awaits hT ht).mono ?_ (fun _ _ h => h)
    rintro c s1 ⟨rfl, h1⟩
    show wp (if (10 : Int) = eof then _ else if (10 : Int) = 10 then _ else _) _ _ _
    rw [if_neg (by decide), if_pos rfl, wp_bind, wp_zoom]
    refine (sbumpc_awaits hT h1).mono ?_ (fun _ _ h => h)
    intro _ s2 ⟨_, h2⟩
    rw [wp_bind, wp_modify, wp_pure]
    exact ⟨rfl, h2, (copyIn_nil _ _).symm, rfl, Nat.succ_pos _⟩
  | cons c line ih =>
    obtain ⟨hc, hrest⟩ := not_or.mp (fun h => hline (List.mem_cons.mpr h))
    unfold getlineLoop Getline.onBuf
    rw [wp_bind, wp_zoom]
    refine (sgetc_awaits hT ht).mono ?_ (fun _ _ h => h)
    rintro r s1 ⟨rfl, h1⟩
    have hnoteof : (c.toNat : Int) ≠ eof := toInt_ne_eof c
    have hnotfeed : (c.toNat : Int) ≠ 10 := by
      intro h
      have hnat : c.toNat = 10 := by omega
      exact hc (UInt8.toNat_inj.mp hnat).symm
    show wp (if (c.toNat : Int) = eof then _ else if (c.toNat : Int) = 10 then _ else _) _ _ _
    rw [if_neg hnoteof, if_neg hnotfeed]
    cases room with
    | zero => exact absurd hroom (by simp)
    | succ room =>
      show wp (zoom _ _ (sbumpc T.toKernel) >>= _) _ _ _
      rw [wp_bind, wp_zoom]
      refine (sbumpc_awaits hT h1).mono ?_ (fun _ _ h => h)
      intro _ s2 ⟨_, h2⟩
      have hback : (CharType.ofInt (peek (c :: line ++ 10 :: rest)) : UInt8) = c :=
        CharType.ofInt_toInt c
      rw [wp_bind, wp_modify, hback]
      refine (ih room (t := ⟨s2, _, _, _⟩) h2 hrest (by simpa using hroom)).mono ?_ (fun _ _ h => h)
      intro set t' ⟨hset, hawaits, hs, hstored, hgcount⟩
      refine ⟨hset, hawaits, ?_, ?_, hgcount⟩
      · rw [copyIn_cons]
        exact hs
      · rw [hstored, List.length_cons]
        show t.stored + 1 + line.length = _
        omega

/-- A line that fits the array is stored with a null character behind it, and what comes behind the
line is still to come. -/
theorem Istream.getline_spec (hT : T.Lossless) {t : Istream} (s : Nat → UInt8) {n : Int}
    (ht : t.buf.Awaits stream (line ++ 10 :: rest)) (hgood : t.state = .goodbit)
    (hline : 10 ∉ line) (hn : (line.length : Int) < n) :
    (t.getline T.toKernel s n).1 = Function.update (copyIn s 0 line) line.length 0 ∧
      (t.getline T.toKernel s n).2.buf.Awaits stream rest ∧
      (t.getline T.toKernel s n).2.state = .goodbit := by
  have hstart : (⟨t.buf, s, 0, 0⟩ : Getline).buf.Awaits stream (line ++ 10 :: rest) := ht
  obtain ⟨set, r, hrun, rfl, hawaits, hs, hstored, hgcount⟩ :=
    (getlineLoop_spec hT (n - 1).toNat hstart hline (by omega)).exists_ok
  have hattempt : attempt (getlineLoop T.toKernel (n - 1).toNat) ⟨t.buf, s, 0, 0⟩
      = (.ok .goodbit, r) := by
    unfold attempt
    rw [hrun]
  have hpos : 0 < n := by omega
  have hextracted : decide (r.gcount = 0) = false := decide_eq_false (by omega)
  have hresult : t.getline T.toKernel s n
      = (Function.update (copyIn s 0 line) line.length 0, ⟨r.buf, .goodbit⟩) := by
    unfold Istream.getline
    rw [if_pos hgood]
    simp only [hattempt, if_pos hpos, hs, hstored, hextracted, Nat.zero_add, hgood]
    rfl
  rw [hresult]
  exact ⟨rfl, hawaits, rfl⟩

end Getline

end Sockstream
