import SocketPlusPlus.Protocol.Response

/-!
# A server that answers in chunks

The network hands over what the server sends in chunks: each `::read` returns the next one. What a
client has ahead of it are the unread bytes of the get area and the chunks behind them. `underflow`
fetches the next chunk when nothing is unread, and `gbump` drops unread bytes; neither crosses the
end of a chunk.
-/

namespace Sockstream

open Exec Memory

/-! ## The network -/

/-- The `n`-th input call returns the `n`-th chunk, as far as there is room for it, and is never
kept waiting. -/
def Kernel.chunked (K : Kernel) (chunks : List (List UInt8)) : Kernel :=
  { K with
    readready := fun _ _ => .ok true
    atmark := fun _ => .ok false
    input := fun h _ len =>
      .ok ⟨((chunks[(inputs h).length]?).getD []).take len, List.length_take_le _ _⟩ }

/-- What there is to read: the unread bytes, and the chunks behind them. -/
abbrev Ahead := List UInt8 × List (List UInt8)

def Ahead.bytes (v : Ahead) : List UInt8 := v.1 ++ v.2.flatten

/-- The effect of `underflow`. -/
def Ahead.refill : Ahead → Ahead
  | ([], c :: cs) => (c, cs)
  | v => v

def St.ahead (chunks : List (List UInt8)) (s : St UInt8) : Ahead :=
  (s.self.unread, chunks.drop s.inputs.length)

/-- There is a get area, and each chunk fits it. -/
structure St.Reads (chunks : List (List UInt8)) (s : St UInt8) : Prop where
  area : ∃ g, s.self.get = some g
  fits : ∀ c ∈ chunks, c ≠ [] ∧ c.length ≤ s.rep.gend

@[simp] theorem Ahead.bytes_refill (v : Ahead) : v.refill.bytes = v.bytes := by
  obtain ⟨unread, chunks⟩ := v
  cases unread with
  | nil => cases chunks <;> simp [refill, bytes]
  | cons b bs => rfl

/-- While bytes are unread, no chunk is fetched. -/
theorem Ahead.refill_of_ne_nil {v : Ahead} (hsome : v.1 ≠ []) : v.refill = v := by
  obtain ⟨unread, coming⟩ := v
  cases unread with
  | nil => exact absurd rfl hsome
  | cons b bs => rfl

theorem Ahead.length_bytes_drop (v : Ahead) (i : Nat) :
    v.bytes.length ≤ (Ahead.bytes (v.1.drop i, v.2)).length + i := by
  simp only [bytes, List.length_append, List.length_drop]
  omega

section Chunked

variable (K : Kernel) {chunks : List (List UInt8)} {s : St UInt8}

theorem read_chunked (chunks : List (List UInt8)) (s : St UInt8) (len : Nat) :
    ∃ s', read (K.chunked chunks) len s
        = .ok (((chunks[s.inputs.length]?).getD []).take len) s' ∧
      Exchanged [] [.ok (((chunks[s.inputs.length]?).getD []).take len)] s s' := by
  obtain ⟨s1, hs1, h1⟩ := awaitReadready_ready (K := K.chunked chunks) (fun _ _ => rfl)
    (fun _ => rfl) "sockbuf::read" s
  have hinputs : s1.inputs.length = s.inputs.length := by rw [h1.inputs, List.append_nil]
  have hinput : (K.chunked chunks).input s1.sys.history .read len
      = .ok ⟨((chunks[s1.inputs.length]?).getD []).take len, List.length_take_le _ _⟩ := rfl
  obtain ⟨s', hs', h'⟩ := input_ok hinput
  rw [hinputs] at hs' h'
  refine ⟨s', ?_, h1.quiet_trans h'⟩
  unfold read
  rw [bind_ok hs1, bind_ok hs']
  rfl

theorem St.Reads.of_exchanged {s' : St UInt8} {ins : List (Except Errno (List UInt8))}
    (hs : s.Reads chunks) (h : Exchanged [] ins s s') : s'.Reads chunks :=
  ⟨by rw [h.self]; exact hs.area, by rw [h.rep]; exact hs.fits⟩

/-- `underflow` fetches the next chunk if nothing is unread, and returns the first unread byte. -/
theorem underflow_chunked (hs : s.Reads chunks) :
    ∃ s', underflow (K.chunked chunks) s = .ok (peek s'.self.unread) s' ∧ s'.Reads chunks ∧
      s'.ahead chunks = (s.ahead chunks).refill := by
  cases hunread : s.self.unread with
  | cons c cs =>
    refine ⟨s, ?_, hs, ?_⟩
    · rw [underflow_of_unread _ hunread, hunread]
      rfl
    · simp [St.ahead, hunread, Ahead.refill]
  | nil =>
    obtain ⟨g, hget⟩ := hs.area
    have hempty : ¬ g.gptr < g.egptr := Nat.not_lt.mpr ((unread_nil_iff hget).mp hunread)
    have hroom : s.rep.gend * CharType.sizeof UInt8 = s.rep.gend := Nat.mul_one _
    obtain ⟨s1, hs1, h1⟩ := read_chunked K chunks s (s.rep.gend * CharType.sizeof UInt8)
    have hinputs : s1.inputs.length = s.inputs.length + 1 := by
      rw [h1.inputs, List.length_append]
      rfl
    have hself : s1.self.unread = [] := by rw [h1.self, hunread]
    cases hcoming : chunks.drop s.inputs.length with
    | nil =>
      -- no chunk is left
      have hnone : chunks[s.inputs.length]? = none :=
        List.getElem?_eq_none (List.drop_eq_nil_iff.mp hcoming)
      rw [hnone, Option.getD_none, List.take_nil] at hs1
      refine ⟨s1, ?_, hs.of_exchanged h1, ?_⟩
      · rw [underflow_of_get _ hget, if_neg hempty, bind_ok hs1, hself]
        rfl
      · have hrest : chunks.drop s1.inputs.length = [] :=
          List.drop_eq_nil_of_le (by have := List.drop_eq_nil_iff.mp hcoming; omega)
        simp [St.ahead, hself, hunread, hcoming, hrest, Ahead.refill]
    | cons c cs =>
      -- the chunk fits the array, so it is there as a whole
      have hsome : chunks[s.inputs.length]? = some c := by
        rw [← List.head?_drop, hcoming]
        rfl
      have hmem : c ∈ chunks := List.mem_of_getElem? hsome
      obtain ⟨hne, hfits⟩ := hs.fits c hmem
      rw [hsome, Option.getD_some, List.take_of_length_le (by omega)] at hs1
      have hpos := List.length_pos_iff.mpr hne
      have hrest : chunks.drop s1.inputs.length = cs := by
        rw [hinputs, ← List.tail_drop, hcoming]
        rfl
      refine ⟨{ s1 with self := { s1.self with
        get := some ⟨storeBytes g.mem c, 0, c.length⟩ } }, ?_, ?_, ?_⟩
      · have hpeek : ((storeBytes g.mem c 0).toNat : Int)
            = peek (slice (storeBytes g.mem c) 0 c.length) := (peek_slice _ 0 hpos).symm
        rw [underflow_of_get _ hget, if_neg hempty, bind_ok hs1, if_neg (by omega)]
        exact congrArg (fun r => EStateM.Result.ok r _) hpeek
      · have h := hs.of_exchanged h1
        exact ⟨⟨_, rfl⟩, h.fits⟩
      · show (slice (storeBytes g.mem c) 0 (c.length - 0), chunks.drop s1.inputs.length)
          = Ahead.refill (s.self.unread, chunks.drop s.inputs.length)
        rw [hunread, hcoming, hrest, Nat.sub_zero, slice_storeBytes]
        rfl

/-- Stepping over `i` bytes; past the end of the get area nothing more is skipped. -/
theorem gbump_chunked (hs : s.Reads chunks) (i : Nat) :
    ∃ s', gbump i s = .ok () s' ∧ s'.Reads chunks ∧
      s'.ahead chunks = (s.self.unread.drop i, chunks.drop s.inputs.length) := by
  obtain ⟨g, hget⟩ := hs.area
  have hbump : gbump i s = .ok () { s with self := { s.self with
      get := some { g with gptr := g.gptr + i } } } := by
    obtain ⟨rep, ⟨get, put, sockname, stored, copied⟩, sys⟩ := s
    cases hget
    rfl
  refine ⟨_, hbump, ⟨⟨_, rfl⟩, hs.fits⟩, ?_⟩
  show (slice g.mem (g.gptr + i) (g.egptr - (g.gptr + i)), chunks.drop s.inputs.length) = _
  rw [← drop_slice_sub]
  simp only [Streambuf.unread, hget]

end Chunked

theorem slice_atGptr {b : Streambuf UInt8} {k : Nat} (hk : k ≤ b.unread.length) :
    slice b.atGptr 0 k = b.unread.take k := by
  unfold Streambuf.atGptr Streambuf.unread at *
  cases hget : b.get with
  | none =>
    rw [hget] at hk
    have hzero : k = 0 := Nat.le_zero.mp hk
    rw [hzero]
    rfl
  | some g =>
    rw [hget] at hk
    have hk' : k ≤ g.egptr - g.gptr := by simpa using hk
    exact (slice_shift g.mem g.gptr k).trans (take_slice g.mem g.gptr hk').symm

/-! ## What a client sees

The get area of the client and the answers that `::read` will give, as one view. -/

section Sees

variable {ρ : Type} {chunks : List (List UInt8)} {v : Ahead} {t : Client ρ}

/-- What a loop sees after its call of `underflow`. -/
structure Sees (chunks : List (List UInt8)) (v : Ahead) (t : Client ρ) : Prop where
  reads : t.buf.Reads chunks
  ahead : t.buf.ahead chunks = v

theorem Sees.unread (h : Sees chunks v t) :
    t.buf.self.unread = v.1 := congrArg Prod.fst h.ahead

theorem Sees.underflow (K : Kernel) (h : Sees chunks v t) :
    ∃ s, Sockstream.underflow (K.chunked chunks) t.buf = .ok (peek v.refill.1) s ∧
      Sees chunks v.refill { t with buf := s } ∧ s.self.unread = v.refill.1 := by
  obtain ⟨s, hs, hreads, hahead⟩ := underflow_chunked K h.reads
  rw [h.ahead] at hahead
  have hunread : s.self.unread = v.refill.1 := congrArg Prod.fst hahead
  rw [hunread] at hs
  exact ⟨s, hs, ⟨hreads, hahead⟩, hunread⟩

/-- While there are bytes ahead, the loop sees some. -/
theorem Sees.refill_ne_nil (h : Sees chunks v t)
    (hbytes : v.bytes ≠ []) : v.refill.1 ≠ [] := by
  have hchunks : ∀ c ∈ v.2, c ≠ [] := by
    intro c hc
    have hdrop : v.2 = chunks.drop t.buf.inputs.length := (congrArg Prod.snd h.ahead).symm
    rw [hdrop] at hc
    exact (h.reads.fits c (List.mem_of_mem_drop hc)).1
  obtain ⟨unread, coming⟩ := v
  cases unread with
  | cons b bs => exact fun hnil => by cases hnil
  | nil =>
    cases coming with
    | nil => exact absurd rfl hbytes
    | cons c cs => exact hchunks c List.mem_cons_self

end Sees

end Sockstream
