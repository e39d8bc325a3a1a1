import SocketPlusPlus.Sockbuf.Lifetime

/-!
# A kernel that takes what it is offered

A kernel is willing if each `::write` that is offered a byte takes at least one. Without a send
timeout no member of the write side throws then (`Returns`), so what is handed to it is handed over
whole.
-/

namespace Sockstream

open Exec Memory

/-- The kernel takes something of whatever it is offered. -/
def Willing (K : Kernel) : Prop :=
  ∀ history buf, buf ≠ [] → ∃ k, K.output history .write buf = .ok k

variable {K : Kernel} {s : St UInt8}

theorem willing_sink : Willing Kernel.sink :=
  fun _ _ hne => ⟨_, dif_pos (List.length_pos_iff.mpr hne)⟩

theorem willing_drip : Willing Kernel.drip :=
  fun _ _ hne => ⟨_, dif_pos (List.length_pos_iff.mpr hne)⟩

theorem Willing.takes (hK : Willing K) (history : List Event) (buf : List UInt8) :
    K.Takes history buf := by
  induction hn : buf.length using Nat.strongRecOn generalizing history buf with
  | _ n ih =>
    cases buf with
    | nil => exact .nil history
    | cons b bs =>
      obtain ⟨k, hk⟩ := hK history (b :: bs) (List.cons_ne_nil b bs)
      have hless : ((b :: bs).drop k).length < n := by
        have hpos := k.2.1
        have hlen : 0 < (b :: bs).length := Nat.succ_pos _
        rw [List.length_drop]
        omega
      exact .cons hk (ih _ hless _ _ rfl)

theorem Willing.canFlush (hK : Willing K) (hstmo : s.rep.stmo = -1) : s.CanFlush K :=
  fun _ _ _ _ => .inl ⟨hstmo, hK.takes _ _⟩

/-- The flush of the put area goes through. -/
theorem sync_willing (hK : Willing K) (hs : s.PutOpen) (hstmo : s.rep.stmo = -1) :
    wp (sync K) (fun r s' => r = 0 ∧ Wrote [] s s' ∧ s'.self.pending = []) (fun _ _ => False) s :=
  ((sync_spec K hs).and ((overflow_eof K hs).mp (flush_canFlush s))).mono (fun _ _ h => h.1)
    (fun _ _ h => h.2 (hK.canFlush hstmo))

theorem overflow_willing (hK : Willing K) (hs : s.PutOpen) (hstmo : s.rep.stmo = -1) :
    wp (overflow K eof) (fun r s' => r = 0 ∧ Wrote [] s s' ∧ s'.self.pending = [])
      (fun _ _ => False) s :=
  (overflow_eof K hs).mpr (sync_willing hK hs hstmo)

theorem xsputn_willing (hK : Willing K) (cs : List UInt8) (hs : s.PutOpen)
    (hstmo : s.rep.stmo = -1) :
    wp (xsputn K cs) (fun r s' => r = cs.length ∧ Wrote cs s s') (fun _ _ => False) s := by
  have hfuel : ∀ fuel cs (s : St UInt8), s.PutOpen → s.rep.stmo = -1 →
      wp (xsputnRec K fuel cs) (fun _ _ => True) (fun e _ => e = .outOfFuel) s := by
    intro fuel
    induction fuel with
    | zero => exact fun _ _ _ _ => rfl
    | succ fuel ih =>
      intro cs s hs hstmo
      by_cases hfits : cs.length ≤ s.self.room
      · rw [wp_xsputnRec_fits hfits]
        exact (storeChars_spec cs hs hfits).mono (fun _ _ _ => trivial) (fun _ _ h => h)
      · apply wp_xsputnRec_flush hfits
        have htake : (cs.take s.self.room).length ≤ s.self.room := List.length_take_le _ _
        refine (storeChars_spec _ hs htake).mono ?_ (fun _ _ h => h)
        intro _ s1 h1
        have hstmo1 : s1.rep.stmo = -1 := by rw [h1.rep, hstmo]
        refine (overflow_willing hK h1.putOpen hstmo1).mono ?_ (fun _ _ h => h.elim)
        rintro r s2 ⟨rfl, h2, -⟩
        refine ⟨by decide, ?_⟩
        refine (ih _ s2 h2.putOpen (by rw [h2.rep, hstmo1])).mono ?_ (fun _ _ h => h)
        exact fun _ _ _ => trivial
  refine ((xsputn_spec K cs hs).and (hfuel _ cs s hs hstmo)).mono (fun _ _ h => h.1) ?_
  rintro e s' ⟨⟨⟨err, rfl⟩, -⟩, h⟩
  cases h

/-- A character finds room, if need be behind a flush. -/
theorem sputc_willing (hK : Willing K) (c : UInt8) (hs : s.PutOpen) (hstmo : s.rep.stmo = -1) :
    wp (sputc K c) (fun _ s' => Wrote [c] s s') (fun _ _ => False) s := by
  have hstore : ∀ {s1 : St UInt8} (d : UInt8) (r : Int), s1.PutOpen → 0 < s1.self.room →
      wp (storeChars [d] >>= fun _ => pure r) (fun _ _ => True) (fun _ _ => False) s1 := by
    intro s1 d r hs1 hroom
    rw [wp_bind]
    exact (storeChars_spec [d] hs1 hroom).mono (fun _ _ _ => trivial) (fun _ _ h => h)
  have hreturns : wp (sputc K c) (fun _ _ => True) (fun _ _ => False) s := by
    unfold sputc
    rw [wp_bind, wp_get]
    by_cases hroom : 0 < s.self.room
    · rw [if_pos hroom]
      exact hstore c _ hs hroom
    · obtain ⟨p, hput, hle, -⟩ := id hs
      have hfull : p.pptr = p.epptr := by
        simp only [Streambuf.room, hput] at hroom
        omega
      rw [if_neg hroom, wp_congr (overflow_of_put K _ hput), if_neg (toInt_ne_eof c), if_pos hfull,
        wp_bind]
      refine (sync_willing hK hs hstmo).mono ?_ (fun _ _ h => h)
      rintro _ s1 ⟨_, h1, hempty⟩
      refine hstore _ _ h1.putOpen ?_
      rw [room_of_empty h1.putOpen hempty]
      exact h1.putOpen.pend_pos
  exact ((Hands.sputc K c s hs).and hreturns).mono (fun _ _ h => h.1) (fun _ _ h => h.2)

/-! ## Programs that return

With a kernel that is always ready and takes all it is given, a write returns. -/

/-- From an open put area without a send timeout the program returns to such a state. -/
def Returns {α : Type} (c : M UInt8 α) : Prop := ∀ s : St UInt8, s.PutOpen → s.rep.stmo = -1 →
  wp c (fun _ s' => s'.PutOpen ∧ s'.rep.stmo = -1) (fun _ _ => False) s

section Returns

variable {α β : Type} {c d : M UInt8 α}

theorem Returns.pure (a : α) : Returns (pure a : M UInt8 α) := fun _ hs hstmo => ⟨hs, hstmo⟩

theorem Returns.bind {f : α → M UInt8 β} (hc : Returns c) (hf : ∀ a, Returns (f a)) :
    Returns (c >>= f) := by
  intro s hs hstmo
  rw [wp_bind]
  exact (hc s hs hstmo).mono (fun a s1 h1 => hf a s1 h1.1 h1.2) (fun _ _ h => h)

theorem Returns.ite {p : Prop} [Decidable p] (hc : Returns c) (hd : Returns d) :
    Returns (if p then c else d) := by
  split
  · exact hc
  · exact hd

theorem Returns.sputc (hK : Willing K) (c : UInt8) : Returns (sputc K c) := fun _ hs hstmo =>
  (sputc_willing hK c hs hstmo).mono
    (fun _ _ h => ⟨h.putOpen, (congrArg Sockcnt.stmo h.rep).trans hstmo⟩) (fun _ _ h => h)

end Returns

end Sockstream
