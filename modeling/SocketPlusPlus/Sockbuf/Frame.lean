import SocketPlusPlus.Sockbuf.Exchange

/-!
# What every member leaves alone

Whatever state a member function is called in and however it ends, the object still shares the same
descriptor with the same number of owners, and of the system's history nothing is taken back. This
holds without any assumption on the areas, so it can be used of objects nothing else is known about.
-/

namespace Sockstream

open Exec

variable {charT : Type}

/-- The same descriptor and owners, and a later moment. -/
structure St.Later (s s' : St charT) : Prop where
  sock : s'.rep.sock = s.rep.sock
  cnt : s'.rep.cnt = s.rep.cnt
  history : s.sys.history <+: s'.sys.history

theorem St.Later.refl (s : St charT) : s.Later s := ⟨rfl, rfl, List.prefix_rfl⟩

instance : IsPreorder (St charT) St.Later where
  refl := St.Later.refl
  trans _ _ _ h h' := ⟨h'.sock.trans h.sock, h'.cnt.trans h.cnt, h.history.trans h'.history⟩

/-- A change that spares the owners and the system. -/
theorem within_modify {f : St charT → St charT} (hsock : ∀ s, (f s).rep.sock = s.rep.sock)
    (hcnt : ∀ s, (f s).rep.cnt = s.rep.cnt) (hsys : ∀ s, (f s).sys = s.sys) :
    Within St.Later (modify f : M charT PUnit) := by
  refine .modify fun s => ⟨hsock s, hcnt s, ?_⟩
  exact (hsys s).symm ▸ List.prefix_rfl

/-- A change of the object alone. -/
theorem within_self {f : St charT → St charT} (hrep : ∀ s, (f s).rep = s.rep)
    (hsys : ∀ s, (f s).sys = s.sys) : Within St.Later (modify f : M charT PUnit) :=
  within_modify (fun s => by rw [hrep]) (fun s => by rw [hrep]) hsys

/-! ## System calls -/

section Calls

variable {α : Type} (K : Kernel)

theorem within_output (call : OutCall) (buf : List UInt8) :
    Within St.Later (output K call buf : M charT (Option (Accepted buf.length))) := by
  intro s
  unfold wp output
  cases K.output s.sys.history call buf with
  | ok k => exact ⟨rfl, rfl, List.prefix_append _ _⟩
  | error e => exact ⟨rfl, rfl, List.prefix_append _ _⟩

theorem within_input (call : InCall) (len : Nat) :
    Within St.Later (input K call len : M charT (Option (List UInt8))) := by
  intro s
  unfold wp input
  cases K.input s.sys.history call len with
  | ok bs => exact ⟨rfl, rfl, List.prefix_append _ _⟩
  | error e => exact ⟨rfl, rfl, List.prefix_append _ _⟩

theorem within_throwErrno (operation : String) :
    Within St.Later (throwErrno operation : M charT α) := fun s => .refl s

theorem within_query (ask : List Event → Except Errno Bool) (note : Except Errno Bool → Event)
    (operation : String) : Within St.Later (query ask note operation : M charT Bool) := by
  intro s
  unfold wp query
  cases ask s.sys.history with
  | ok b => exact ⟨rfl, rfl, List.prefix_append _ _⟩
  | error e => exact ⟨rfl, rfl, List.prefix_append _ _⟩

theorem within_awaitReadready (operation : String) :
    Within St.Later (awaitReadready K operation : M charT Unit) := by
  refine .bind .get fun s => .bind (.ite (within_query _ _ _) (.pure _)) fun ready => ?_
  refine .ite (.bind (.ite (within_query _ _ _) (.pure _)) fun mark => ?_) (.throw _)
  exact .ite (.throw _) (.pure _)

theorem within_awaitWriteready (operation : String) :
    Within St.Later (awaitWriteready K operation : M charT Unit) := by
  refine .bind .get fun s => .bind (.ite (within_query _ _ _) (.pure _)) fun ready => ?_
  exact .ite (.pure _) (.throw _)

theorem within_read (len : Nat) : Within St.Later (read K len : M charT (List UInt8)) := by
  refine .bind (within_awaitReadready K _) fun _ => .bind (within_input K _ _) fun answer => ?_
  cases answer with
  | some bs => exact .pure bs
  | none => exact within_throwErrno _

theorem within_outputLoop (call : OutCall) (pbuf : Nat → UInt8) (wlen len : Nat) :
    Within St.Later (outputLoop K call pbuf wlen len : M charT Nat) := by
  induction len using Nat.strongRecOn generalizing wlen with
  | _ len ih =>
    rw [outputLoop]
    refine .ite (.pure _) (.bind (within_output K _ _) fun answer => ?_)
    cases answer with
    | none => exact .throw _
    | some k =>
      have hk := k.2
      simp only [Memory.length_slice] at hk
      exact ih (len - k) (by omega) _

theorem within_write (buf : Nat → UInt8) (len : Nat) :
    Within St.Later (write K buf len : M charT Nat) :=
  .bind (within_awaitWriteready K _) fun _ => within_outputLoop K _ _ _ _

end Calls

/-! ## Members

One rule for each member, from the rules for the system calls that it makes. -/

section Members

variable (K : Kernel)

theorem within_storeChars (cs : List charT) : Within St.Later (storeChars cs) := by
  refine within_self (fun s => ?_) (fun s => ?_)
  · cases s.self.put <;> rfl
  · cases s.self.put <;> rfl

theorem within_resetp (mem : Nat → charT) (len : Nat) : Within St.Later (resetp mem len) :=
  within_self (fun _ => rfl) (fun _ => rfl)

theorem within_syncCatch (p : PutArea charT) (e : Exc) : Within St.Later (syncCatch p e) := by
  cases e with
  | count wlen =>
    refine .bind .get fun s => .ite (.bind (within_resetp _ _) fun _ => .throw _) (.throw _)
  | sockerr err => exact .throw _
  | sockoob => exact .throw _
  | outOfFuel => exact .throw _

theorem within_takeChars (n : Nat) : Within St.Later (takeChars n : M charT Unit) := by
  refine within_self (fun s => ?_) (fun s => ?_)
  · cases s.self.get <;> rfl
  · cases s.self.get <;> rfl

theorem within_gbump (n : Nat) : Within St.Later (gbump n : M charT Unit) :=
  within_gbump_of (fun _ _ => ⟨rfl, rfl, List.prefix_rfl⟩) n

theorem within_sendtimeout (wp : Int) : Within St.Later (sendtimeout wp : M charT Int) := by
  refine .bind .get fun s => .bind (within_modify ?_ ?_ ?_) fun _ => .pure _
  · exact fun _ => rfl
  · exact fun _ => rfl
  · exact fun _ => rfl

theorem within_recvtimeout (wp : Int) : Within St.Later (recvtimeout wp : M charT Int) := by
  refine .bind .get fun s => .bind (within_modify ?_ ?_ ?_) fun _ => .pure _
  · exact fun _ => rfl
  · exact fun _ => rfl
  · exact fun _ => rfl

theorem within_setOob (b : Bool) : Within St.Later (setOob b : M charT Bool) := by
  refine .bind .get fun s => .bind (within_modify ?_ ?_ ?_) fun _ => .pure _
  · exact fun _ => rfl
  · exact fun _ => rfl
  · exact fun _ => rfl

variable [CharType charT]

theorem within_sync : Within St.Later (sync K : M charT Int) := by
  refine .bind .get fun s => ?_
  cases s.self.put with
  | none => exact .pure 0
  | some p =>
    refine .ite ?_ (.pure 0)
    refine .bind (.tryCatch ?_ (within_syncCatch p)) fun _ => .bind (within_resetp _ _) fun _ =>
      .pure 0
    exact .bind (within_write K _ _) fun _ => .pure _

theorem within_overflow (c : Int) : Within St.Later (overflow K c : M charT Int) := by
  refine .bind .get fun s => ?_
  cases s.self.put with
  | none => exact .pure eof
  | some p =>
    refine .ite (within_sync K) ?_
    exact .bind (.ite (within_sync K) (.pure 0)) fun _ =>
      .bind (within_storeChars _) fun _ => .pure c

theorem within_sputc (c : charT) : Within St.Later (sputc K c) := by
  refine .bind .get fun s => .ite ?_ (within_overflow K _)
  exact .bind (within_storeChars _) fun _ => .pure _

theorem within_xsputn (cs : List charT) : Within St.Later (xsputn K cs) := by
  unfold xsputn
  generalize cs.length + 2 = fuel
  induction fuel generalizing cs with
  | zero => exact .throw _
  | succ fuel ih =>
    refine .bind .get fun s => .ite ?_ ?_
    · exact .bind (within_storeChars _) fun _ => .pure _
    · refine .bind (within_storeChars _) fun _ => .bind (within_overflow K _) fun r => ?_
      exact .ite (.bind (ih _) fun _ => .pure _) (.pure _)

theorem within_underflow : Within St.Later (underflow K : M charT Int) :=
  within_underflow_of K (fun _ => within_read K _) fun _ _ => ⟨rfl, rfl, List.prefix_rfl⟩

theorem within_uflow : Within St.Later (uflow K : M charT Int) := by
  refine .bind (within_underflow K) fun ret => .ite (.pure _) ?_
  exact .bind (within_gbump 1) fun _ => .pure _

theorem within_sbumpc : Within St.Later (sbumpc K : M charT Int) := by
  refine .bind .get fun s => ?_
  cases s.self.get with
  | none => exact within_uflow K
  | some g => exact .ite (.bind (within_gbump 1) fun _ => .pure _) (within_uflow K)

theorem within_xsgetn (n : Nat) : Within St.Later (xsgetn K n : M charT Nat) := by
  unfold xsgetn
  generalize n + 2 = fuel
  induction fuel generalizing n with
  | zero => exact .throw _
  | succ fuel ih =>
    refine .bind .get fun s => .ite ?_ ?_
    · exact .bind (within_takeChars _) fun _ => .pure _
    · refine .bind (within_takeChars _) fun _ => .bind (within_underflow K) fun c => ?_
      exact .ite (.bind (ih _) fun _ => .pure _) (.pure _)

end Members

end Sockstream
