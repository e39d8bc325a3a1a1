import SocketPlusPlus.Inet.Address

/-!
# `bind_until_success`

The loop tries one port after the other until one is free. The counter is an `int`, and `htons`
keeps its lowest 16 bits, so behind the port 65535 the loop asks for the port 0, which the kernel
takes as a request for any port at all.

`Ports` is the kernel's side. The result says from which start ports the loop ends with the smallest
free port that is not below the start.
-/

namespace Sockstream.Inet

open Exec Bytes Ftp

/-- The ports of the host: those in use, those that `::bind` refuses for another reason, and the
free one that the kernel chooses when it is asked for the port 0. -/
structure Ports where
  occupied : Nat → Bool
  fails : Nat → Option Errno
  fails_ne : ∀ q, fails q ≠ some EADDRINUSE
  choice : Option Nat
  choice_free : ∀ q, choice = some q → 0 < q ∧ q ≤ 65535 ∧ occupied q = false
  choice_none : choice = none → ∀ q, 0 < q → q ≤ 65535 → occupied q = true

/-- `::bind` of a socket to `port`: the port that it is bound to then. -/
def Ports.bind (P : Ports) (port : Nat) : Except Errno Nat :=
  if port = 0 then
    match P.choice with
    | none => .error EADDRINUSE
    | some q => .ok q
  else if P.occupied port then .error EADDRINUSE
  else
    match P.fails port with
    | none => .ok port
    | some err => .error err

/-- A free port that `::bind` accepts. -/
def Ports.Free (P : Ports) (port : Nat) : Prop := P.occupied port = false ∧ P.fails port = none

/-- The state is the port that the socket is bound to. -/
abbrev BindM := EStateM Exc (Option Nat)

section Members

variable (P : Ports) (e : Endian) (sockname : String)

/-- `basic_sockbuf::bind(const sockaddr& sa)` -/
def bindAddr (sa : SockInetAddr) : BindM Unit :=
  match P.bind (sa.getport e) with
  | .ok port => set (some port)
  | .error err => throw (.sockerr (.ofSpecification err "sockbuf::bind" sockname))

/-- `bind(int port_no)` -/
def bind (portNo : Int) : BindM Unit := bindAddr P e sockname (.ofAddr e 0 portNo)

/-- One round of `bind_until_success`. -/
def bindRound (portno : Int) : BindM (Turn Int Unit) :=
  tryCatch (do
      bind P e sockname portno
      pure (.leave ()))
    fun
      | .sockerr err =>
        if err.err ≠ EADDRINUSE then throw (.sockerr err) else pure (.again (portno + 1))
      | exc => throw exc

/-- `bind_until_success(int portno)` -/
def bindUntilSuccess (fuel : Nat) (portno : Int) : BindM Unit :=
  loop (bindRound P e sockname) .outOfFuel fuel portno

end Members

section Rounds

variable (P : Ports) (e : Endian) (sockname : String) {portno : Int} {s : Option Nat}

theorem getport_ofAddr (addr : Nat) (portNo : Int) :
    (SockInetAddr.ofAddr e addr portNo).getport e = (portNo % 65536).toNat :=
  ntohs_portOf e portNo

/-- What one round does: it depends on the lowest 16 bits of the counter only. -/
theorem bindRound_eq (portno : Int) (s : Option Nat) :
    bindRound P e sockname portno s =
      match P.bind (portno % 65536).toNat with
      | .ok port => .ok (.leave ()) (some port)
      | .error err =>
        if err ≠ EADDRINUSE then
          .error (.sockerr (.ofSpecification err "sockbuf::bind" sockname)) s
        else .ok (.again (portno + 1)) s := by
  unfold bindRound bind bindAddr
  rw [getport_ofAddr]
  cases P.bind (portno % 65536).toNat with
  | ok port => rfl
  | error err =>
    show (if err ≠ EADDRINUSE then throw _ else pure _ : BindM (Turn Int Unit)) s
      = if err ≠ EADDRINUSE then _ else _
    split <;> rfl

theorem bind_occupied {port : Nat} (hpos : 0 < port) (hocc : P.occupied port = true) :
    P.bind port = .error EADDRINUSE := by
  unfold Ports.bind
  rw [if_neg (Nat.ne_of_gt hpos), if_pos hocc]

/-- A round that finds the port in use goes on with the next one. -/
theorem bindRound_occupied {port : Nat} (hpos : 0 < port) (hle : port ≤ 65535)
    (hocc : P.occupied port = true) :
    bindRound P e sockname port s = .ok (.again ((port + 1 : Nat) : Int)) s := by
  have hmod : ((port : Int) % 65536).toNat = port := by omega
  rw [bindRound_eq, hmod, bind_occupied P hpos hocc]
  show (if EADDRINUSE ≠ EADDRINUSE then _ else _) = _
  rw [if_neg (fun h => h rfl)]
  rfl

/-- The ports in use are passed, one round for each. Induction on their number. -/
theorem loop_passes {p : Nat} (hpos : 0 < p) (k fuel : Nat) (hle : p + k ≤ 65536)
    (hocc : ∀ q, p ≤ q → q < p + k → P.occupied q = true) :
    bindUntilSuccess P e sockname (fuel + k) p s
      = bindUntilSuccess P e sockname fuel ((p + k : Nat) : Int) s := by
  induction k generalizing p with
  | zero => rfl
  | succ k ih =>
    have hround := bindRound_occupied P e sockname (s := s) hpos (by omega)
      (hocc p (Nat.le_refl _) (by omega))
    show loop _ _ (fuel + k + 1) _ s = _
    rw [loop_again hround]
    have hrest := ih (p := p + 1) (Nat.succ_pos _) (by omega)
      (fun q hq hlt => hocc q (by omega) (by omega))
    rw [show p + (k + 1) = p + 1 + k by omega]
    exact hrest

/-- What `bind(int port_no)` answers `ftpdata`. -/
def bindAnswer (P : Ports) (sockname : String) (portNo : Int) : Except Sockerr Unit :=
  match P.bind (portNo % 65536).toNat with
  | .ok _ => .ok ()
  | .error err => .error (.ofSpecification err "sockbuf::bind" sockname)

/-- The loop that `ftpdata` calls is this one. -/
theorem ftp_bindUntilSuccess (fuel : Nat) (portno : Int) (s : Option Nat) (b : Ftpbuf) :
    (attempt (Ftp.bindUntilSuccess (bindAnswer P sockname) fuel portno) b).1
      = (attempt (bindUntilSuccess P e sockname fuel portno) s).1 := by
  induction fuel generalizing portno s with
  | zero => rfl
  | succ fuel ih =>
    have hround := bindRound_eq P e sockname portno s
    rw [Ftp.bindUntilSuccess]
    cases hbind : P.bind (portno % 65536).toNat with
    | ok port =>
      have hanswer : bindAnswer P sockname portno = .ok () := by
        unfold bindAnswer
        rw [hbind]
      rw [hbind] at hround
      have hloop : bindUntilSuccess P e sockname (fuel + 1) portno s = .ok () (some port) :=
        loop_leave hround
      unfold attempt
      rw [hanswer, hloop]
      rfl
    | error err =>
      have hanswer : bindAnswer P sockname portno
          = .error (.ofSpecification err "sockbuf::bind" sockname) := by
        unfold bindAnswer
        rw [hbind]
      rw [hbind] at hround
      simp only [hanswer]
      by_cases hinuse : err = EADDRINUSE
      · have hagain : bindRound P e sockname portno s = .ok (.again (portno + 1)) s :=
          hround.trans (if_neg (not_not.mpr hinuse))
        have hloop : bindUntilSuccess P e sockname (fuel + 1) portno s
            = bindUntilSuccess P e sockname fuel (portno + 1) s := loop_again hagain
        have hrest := ih (portno + 1) s
        unfold attempt at hrest ⊢
        rw [hloop, ← hrest, if_pos (show (Sockerr.ofSpecification err _ _).err = _ from hinuse)]
      · have herror : bindUntilSuccess P e sockname (fuel + 1) portno s
            = .error (.sockerr (.ofSpecification err "sockbuf::bind" sockname)) s :=
          bind_error (hround.trans (if_pos hinuse))
        unfold attempt
        rw [herror, if_neg (show ¬ (Sockerr.ofSpecification err _ _).err = _ from hinuse)]
        rfl

end Rounds

/-! ## What is expected

The port that is bound is one of those from the first one up to 65535. -/

/-- From the start port `p` the loop ends. If it returns, the socket is bound to the smallest free
port from `p` on, and all ports before it are in use. If it throws, either every port from `p` on
is in use, or the first that is not gave the error. -/
def BindsInRange (P : Ports) (e : Endian) (sockname : String) (p : Nat) (s : Option Nat) : Prop :=
  ∃ fuel, wp (bindUntilSuccess P e sockname fuel p)
    (fun _ s' => ∃ q, s' = some q ∧ p ≤ q ∧ q ≤ 65535 ∧ P.Free q ∧
      ∀ q', p ≤ q' → q' < q → P.occupied q' = true)
    (fun exc s' => s' = s ∧ ∃ err,
      exc = .sockerr (.ofSpecification err "sockbuf::bind" sockname) ∧
      ((∀ q, p ≤ q → q ≤ 65535 → P.occupied q = true) ∨
        ∃ q, p ≤ q ∧ q ≤ 65535 ∧ P.occupied q = false ∧ P.fails q = some err ∧
          ∀ q', p ≤ q' → q' < q → P.occupied q' = true)) s

section Range

variable (P : Ports) (e : Endian) (sockname : String) {p : Nat} (s : Option Nat)

/-- The first port that is not in use decides. -/
theorem bindsInRange_of_free (hpos : 0 < p) {q : Nat} (hpq : p ≤ q) (hq : q ≤ 65535)
    (hfree : P.occupied q = false) (hocc : ∀ q', p ≤ q' → q' < q → P.occupied q' = true) :
    BindsInRange P e sockname p s := by
  have hpass := loop_passes P e sockname (s := s) hpos (q - p) 1 (by omega)
    (fun q' hq' hlt => hocc q' hq' (by omega))
  rw [show p + (q - p) = q by omega] at hpass
  have hmod : ((q : Int) % 65536).toNat = q := by omega
  have hround := bindRound_eq P e sockname q s
  rw [hmod] at hround
  unfold Ports.bind at hround
  rw [if_neg (by omega), if_neg (by simp [hfree])] at hround
  refine ⟨1 + (q - p), (wp_congr hpass).mpr ?_⟩
  cases hfails : P.fails q with
  | none =>
    rw [hfails] at hround
    refine (wp_iff_of_ok (loop_leave hround)).mpr ?_
    exact ⟨q, rfl, hpq, hq, ⟨hfree, hfails⟩, hocc⟩
  | some err =>
    have hne : err ≠ EADDRINUSE := by
      rintro rfl
      exact P.fails_ne q hfails
    rw [hfails] at hround
    have herror : bindRound P e sockname q s
        = .error (.sockerr (.ofSpecification err "sockbuf::bind" sockname)) s := by
      rw [hround]
      exact if_pos hne
    refine (wp_iff_of_error (bind_error herror)).mpr ?_
    exact ⟨rfl, err, rfl, .inr ⟨q, hpq, hq, hfree, hfails, hocc⟩⟩

/-- With all ports from `p` on in use the loop comes to the port 0: what it binds to is the kernel's
choice, and without one it goes on for ever. -/
theorem bindUntilSuccess_wraps (hpos : 0 < p) (hle : p ≤ 65535)
    (hocc : ∀ q, p ≤ q → q ≤ 65535 → P.occupied q = true) (fuel : Nat) :
    wp (bindUntilSuccess P e sockname fuel p) (fun _ s' => ∃ q, s' = some q ∧ P.choice = some q)
      (fun exc _ => exc = .outOfFuel) s := by
  refine wp_loop (I := fun portno _ => (p : Int) ≤ portno ∧ (P.choice ≠ none → portno ≤ 65536))
    ?_ (fun _ _ _ => rfl) ⟨Int.le_refl _, fun _ => by omega⟩ fuel
  rintro portno s1 ⟨hlo, hhi⟩
  by_cases hzero : (portno % 65536).toNat = 0
  · cases hchoice : P.choice with
    | some q =>
      have hbind : P.bind (portno % 65536).toNat = .ok q := by
        unfold Ports.bind
        rw [if_pos hzero, hchoice]
      have hround := bindRound_eq P e sockname portno s1
      rw [hbind] at hround
      exact (wp_iff_of_ok hround).mpr ⟨q, rfl, rfl⟩
    | none =>
      have hbind : P.bind (portno % 65536).toNat = .error EADDRINUSE := by
        unfold Ports.bind
        rw [if_pos hzero, hchoice]
      have hround := bindRound_eq P e sockname portno s1
      rw [hbind] at hround
      refine (wp_iff_of_ok hround).mpr ⟨by omega, fun hsome => absurd rfl hsome⟩
  · have hport : P.occupied (portno % 65536).toNat = true := by
      cases hchoice : P.choice with
      | none => exact P.choice_none hchoice _ (by omega) (by omega)
      | some q =>
        have hle' := hhi (by rw [hchoice]; exact Option.some_ne_none q)
        exact hocc _ (by omega) (by omega)
    have hround := bindRound_eq P e sockname portno s1
    rw [bind_occupied P (by omega) hport] at hround
    refine (wp_iff_of_ok hround).mpr ⟨by omega, fun hsome => ?_⟩
    have hle' := hhi hsome
    omega

theorem not_bindsInRange (hpos : 0 < p) (hle : p ≤ 65535)
    (hocc : ∀ q, p ≤ q → q ≤ 65535 → P.occupied q = true) :
    ¬ BindsInRange P e sockname p s := by
  rintro ⟨fuel, hwp⟩
  have hwraps := bindUntilSuccess_wraps P e sockname s hpos hle hocc fuel
  cases hrun : bindUntilSuccess P e sockname fuel p s with
  | ok _ s' =>
    -- a port that is free and not below `p`
    obtain ⟨q, rfl, hpq, hq, hfree, -⟩ := hwp.of_ok hrun
    cases (hocc q hpq hq).symm.trans hfree.1
  | error exc s' =>
    obtain ⟨-, err, hexc, -⟩ := hwp.of_error hrun
    cases hexc.symm.trans (hwraps.of_error hrun)

/-- **When the range is kept.** The loop from the port `p` ends with the smallest free port from `p`
on, or with the error of the first port there that is not in use, exactly if not all ports from `p`
to 65535 are in use. -/
theorem bindUntilSuccess_in_range_iff (hpos : 0 < p) (hle : p ≤ 65535) :
    BindsInRange P e sockname p s ↔ ∃ q, p ≤ q ∧ q ≤ 65535 ∧ P.occupied q = false := by
  constructor
  · intro hbinds
    refine Classical.byContradiction fun hnone => ?_
    refine not_bindsInRange P e sockname s hpos hle ?_ hbinds
    intro q hpq hq
    cases hq' : P.occupied q with
    | true => rfl
    | false => exact absurd ⟨q, hpq, hq, hq'⟩ hnone
  · intro hsome
    have hex : ∃ q, p ≤ q ∧ P.occupied q = false := by
      obtain ⟨q, hpq, -, hfree⟩ := hsome
      exact ⟨q, hpq, hfree⟩
    obtain ⟨hpq, hfree⟩ := Nat.find_spec hex
    refine bindsInRange_of_free P e sockname s hpos hpq ?_ hfree ?_
    · obtain ⟨q, hq, hle', hq'⟩ := hsome
      exact Nat.le_trans (Nat.find_min' hex ⟨hq, hq'⟩) hle'
    · intro q' hq' hlt
      cases hocc : P.occupied q' with
      | true => rfl
      | false => exact absurd ⟨hq', hocc⟩ (Nat.find_min hex hlt)

end Range

/-- The host whose free ports are those from 1024 to `last`, of which the kernel chooses the
first. -/
def Ports.upTo (last : Nat) (h : 1024 ≤ last ∧ last ≤ 65535) : Ports where
  occupied q := decide (q < 1024 ∨ last < q)
  fails _ := none
  fails_ne _ h := by cases h
  choice := some 1024
  choice_free q hq := by
    cases hq
    simp
    omega
  choice_none h := by cases h

/-- From the port 10000 on a host with a free port there. -/
theorem bindUntilSuccess_in_range_iff_free :
    BindsInRange (.upTo 20000 (by decide)) .little "" 10000 none ↔
      ∃ q, 10000 ≤ q ∧ q ≤ 65535 ∧ (Ports.upTo 20000 (by decide)).occupied q = false :=
  bindUntilSuccess_in_range_iff (.upTo 20000 (by decide)) .little "" none (by decide) (by decide)

/-- With the ports from 65534 on in use, the loop that starts at 65534 returns with the socket bound
to the port 1024. -/
theorem bindUntilSuccess_leaves_range :
    bindUntilSuccess (.upTo 65533 (by decide)) .little "" 3 65534 none = .ok () (some 1024) ∧
    ¬ BindsInRange (.upTo 65533 (by decide)) .little "" 65534 none := by
  refine ⟨rfl, not_bindsInRange _ _ _ _ (by decide) (by decide) ?_⟩
  intro q hq _
  refine decide_eq_true (.inr ?_)
  omega

end Sockstream.Inet
