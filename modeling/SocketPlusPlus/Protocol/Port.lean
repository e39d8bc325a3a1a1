import SocketPlusPlus.Inet.Address

/-!
# The argument of `PORT`

RFC 959 writes the address and the port of a data connection as six numbers with commas between
them, one for each byte. `readHostPort` reads such an argument, and `useraddr` sends one that reads
back as the address and the port of its `sockinetaddr`.
-/

namespace Sockstream.Ftp

open Bytes

/-! ## Reading -/

/-- A decimal number that fits a byte. -/
def byte? (field : List UInt8) : Option UInt8 :=
  match Decimal.number? field with
  | none => none
  | some n => if n < 256 then some (UInt8.ofNat n) else none

/-- `h1,h2,h3,h4,p1,p2`: the address, its highest byte first, and the port `p1 * 256 + p2`. -/
def readHostPort (arg : List UInt8) : Option (Nat × Nat) :=
  match (arg.splitOn 44).mapM byte? with
  | some [h1, h2, h3, h4, p1, p2] =>
    some (Endian.big.decode [h1, h2, h3, h4], Endian.big.decode [p1, p2])
  | _ => none

/-! ## Writing

The commas take the place of the dots, and the port is written as two bytes. A reader that splits at
the commas gets all six numbers back. -/

section Text

variable {n : Nat}

theorem decimal_eq (n : Nat) : decimal n = Decimal.text n := by
  unfold decimal Decimal.text Decimal.chars
  split <;> rfl

theorem byte?_decimal (b : UInt8) : byte? (decimal b.toNat) = some b := by
  unfold byte?
  rw [decimal_eq, Decimal.number?_text]
  show (if b.toNat < 256 then some (UInt8.ofNat b.toNat) else none) = some b
  rw [if_pos b.toNat_lt, UInt8.ofNat_toNat]

theorem length_decimal_byte (b : UInt8) : (decimal b.toNat).length ≤ 3 := by
  rw [decimal_eq]
  refine Decimal.length_text_le _ (by decide) ?_
  have hlt := b.toNat_lt
  omega

theorem comma_not_mem (n : Nat) : 44 ∉ decimal n := by
  rw [decimal_eq]
  exact Decimal.not_mem_text n (by decide)

theorem dot_not_mem (n : Nat) : 46 ∉ decimal n := by
  rw [decimal_eq]
  exact Decimal.not_mem_text n (by decide)

/-- What the loop over `strchr` makes of a character. -/
def comma (b : UInt8) : UInt8 := if b = 46 then 44 else b

theorem map_comma_of_not_mem {addr : List UInt8} (h : 46 ∉ addr) : addr.map comma = addr := by
  have hsame : ∀ b ∈ addr, comma b = id b := by
    intro b hb
    refine if_neg ?_
    rintro rfl
    exact h hb
  rw [List.map_congr_left hsame, List.map_id]

/-- The loop replaces every dot if it may run once for each. Induction on the fuel: a round takes
the first dot away. -/
theorem commas_eq {fuel : Nat} {addr : List UInt8} (h : addr.count 46 ≤ fuel) :
    commas fuel addr = addr.map comma := by
  induction fuel generalizing addr with
  | zero => exact (map_comma_of_not_mem (List.count_eq_zero.mp (Nat.le_zero.mp h))).symm
  | succ fuel ih =>
    rw [commas]
    cases hfind : addr.findIdx? (· = 46) with
    | none =>
      rw [List.findIdx?_eq_none_iff] at hfind
      exact (map_comma_of_not_mem fun hdot => by simpa using hfind 46 hdot).symm
    | some p =>
      obtain ⟨hp, hdot, -⟩ := List.findIdx?_eq_some_iff_getElem.mp hfind
      have hdot : addr[p] = 46 := by simpa using hdot
      have hcount : (addr.set p 44).count 46 ≤ fuel := by
        have hpos := List.count_pos_iff.mpr (hdot ▸ List.getElem_mem hp)
        rw [List.count_set hp, hdot]
        simp
        omega
      show commas fuel (addr.set p 44) = _
      rw [ih hcount, List.map_set]
      -- the comma that was set is what the map makes of the dot
      have hp' : p < (addr.map comma).length := by
        rw [List.length_map]
        exact hp
      have hcomma : (addr.map comma)[p] = comma 44 := by
        rw [List.getElem_map, hdot]
        rfl
      rw [← hcomma, List.set_getElem_self]

/-- Numbers with dots between them become numbers with commas between them. -/
theorem map_comma_intercalate (ns : List Nat) :
    ([46].intercalate (ns.map decimal)).map comma = [44].intercalate (ns.map decimal) := by
  induction ns with
  | nil => rfl
  | cons n ns ih =>
    have hn := map_comma_of_not_mem (dot_not_mem n)
    cases ns with
    | nil => simpa [List.intercalate_singleton] using hn
    | cons m ns =>
      simp only [List.map_cons, List.intercalate_cons_cons, List.map_append] at ih ⊢
      rw [hn, ih]
      rfl

end Text

section HostPort

variable (e : Endian) (sAddr : UInt32) {portno : Nat}

/-- The six bytes of an address and a port, in network order. -/
def networkBytes (portno : Nat) : List UInt8 :=
  e.encode 4 sAddr.toNat ++ [UInt8.ofNat (portno / 256), UInt8.ofNat (portno % 256)]

theorem networkBytes_eq (portno : Nat) : ∃ h1 h2 h3 h4, e.encode 4 sAddr.toNat = [h1, h2, h3, h4] ∧
    networkBytes e sAddr portno
      = [h1, h2, h3, h4, UInt8.ofNat (portno / 256), UInt8.ofNat (portno % 256)] := by
  have hlen := e.length_encode 4 sAddr.toNat
  unfold networkBytes
  match e.encode 4 sAddr.toNat, hlen with
  | [h1, h2, h3, h4], _ => exact ⟨h1, h2, h3, h4, rfl, rfl⟩

theorem length_networkBytes (portno : Nat) : (networkBytes e sAddr portno).length = 6 := by
  obtain ⟨h1, h2, h3, h4, -, hbytes⟩ := networkBytes_eq e sAddr portno
  rw [hbytes]
  rfl

/-- What `useraddr` builds: one number for each byte, with commas between them. -/
theorem hostPort_eq (hport : portno < 2 ^ 16) :
    hostPort e sAddr portno
      = [44].intercalate ((networkBytes e sAddr portno).map fun b => decimal b.toNat) := by
  obtain ⟨h1, h2, h3, h4, hencode, hbytes⟩ := networkBytes_eq e sAddr portno
  have hhi : (UInt8.ofNat (portno / 256)).toNat = portno / 256 := by
    rw [UInt8.toNat_ofNat']
    show portno / 256 % 256 = portno / 256
    omega
  have hlo : (UInt8.ofNat (portno % 256)).toNat = portno % 256 := by
    rw [UInt8.toNat_ofNat']
    show portno % 256 % 256 = portno % 256
    omega
  have hina : inetNtoa e sAddr
      = [46].intercalate ([h1.toNat, h2.toNat, h3.toNat, h4.toNat].map decimal) := by
    unfold inetNtoa
    rw [hencode]
    rfl
  show commas (inetNtoa e sAddr).length (inetNtoa e sAddr)
    ++ ([44] ++ decimal (portno / 256) ++ [44] ++ decimal (portno % 256)) = _
  rw [commas_eq List.count_le_length, hina, map_comma_intercalate, hbytes]
  simp only [List.map_cons, List.map_nil, hhi, hlo, List.intercalate_cons_cons,
    List.intercalate_singleton, List.append_assoc]

/-- It fits the array with the terminating null. -/
theorem length_hostPort (hport : portno < 2 ^ 16) : (hostPort e sAddr portno).length < 80 := by
  obtain ⟨h1, h2, h3, h4, -, hbytes⟩ := networkBytes_eq e sAddr portno
  rw [hostPort_eq e sAddr hport, hbytes]
  have hb1 := length_decimal_byte h1
  have hb2 := length_decimal_byte h2
  have hb3 := length_decimal_byte h3
  have hb4 := length_decimal_byte h4
  have hb5 := length_decimal_byte (UInt8.ofNat (portno / 256))
  have hb6 := length_decimal_byte (UInt8.ofNat (portno % 256))
  simp only [List.map_cons, List.map_nil, List.intercalate_cons_cons, List.intercalate_singleton,
    List.length_append, List.length_singleton]
  omega

theorem mapM_byte? (bs : List UInt8) :
    (bs.map fun b => decimal b.toNat).mapM byte? = some bs := by
  induction bs with
  | nil => rfl
  | cons b bs ih =>
    rw [List.map_cons, List.mapM_cons, byte?_decimal, ih]
    rfl

theorem readHostPort_hostPort (hport : portno < 2 ^ 16) :
    readHostPort (hostPort e sAddr portno) = some (e.ntohl sAddr.toNat, portno) := by
  obtain ⟨h1, h2, h3, h4, hencode, hbytes⟩ := networkBytes_eq e sAddr portno
  have hsplit : (hostPort e sAddr portno).splitOn 44
      = (networkBytes e sAddr portno).map fun b => decimal b.toNat := by
    rw [hostPort_eq e sAddr hport]
    refine List.splitOn_intercalate 44 ?_ ?_
    · intro field hfield
      obtain ⟨b, -, rfl⟩ := List.mem_map.mp hfield
      exact comma_not_mem b.toNat
    · rw [hbytes]
      exact List.cons_ne_nil _ _
  have hport' : Endian.big.decode [UInt8.ofNat (portno / 256), UInt8.ofNat (portno % 256)]
      = portno := by
    show (UInt8.ofNat (portno % 256)).toNat + 256 * ((UInt8.ofNat (portno / 256)).toNat + 256 * 0)
      = portno
    rw [UInt8.toNat_ofNat', UInt8.toNat_ofNat']
    show portno % 256 % 256 + 256 * (portno / 256 % 256 + 256 * 0) = portno
    omega
  unfold readHostPort
  rw [hsplit, mapM_byte?, hbytes]
  show some (Endian.big.decode [h1, h2, h3, h4], Endian.big.decode _) = _
  rw [hport', ← hencode]
  rfl

end HostPort

/-- **The argument of `PORT`.** For an address other than 0.0.0.0 `useraddr` sends six decimal
numbers below 256 with commas between them, in a text that fits its array of 80 characters, and RFC
959 reads from them the address and the port that the `sockinetaddr` was made for. -/
theorem useraddr_reads_back (E : Env) (sa : SockInetAddr) (h : sa.sAddr ≠ 0) :
    ∃ (arg : List UInt8) (ns : List UInt8),
      Ftpbuf.useraddr E sa = Ftpbuf.sendCmd E [80, 79, 82, 84] (some arg) ∧
      ns.length = 6 ∧ arg = [44].intercalate (ns.map fun n => decimal n.toNat) ∧
      arg.length + 1 ≤ 80 ∧
      readHostPort arg = some (E.endian.ntohl sa.sAddr.toNat, sa.getport E.endian) ∧
      ∀ addr port : Nat, addr < 2 ^ 32 → port < 2 ^ 16 → sa = .ofAddr E.endian addr port →
        readHostPort arg = some (addr, port) := by
  have hport : sa.getport E.endian < 2 ^ 16 := E.endian.ntohs_lt sa.sinPort.toNat
  have hread := readHostPort_hostPort E.endian sa.sAddr hport
  refine ⟨hostPort E.endian sa.sAddr (sa.getport E.endian), _, ?_,
    length_networkBytes E.endian sa.sAddr (sa.getport E.endian),
    hostPort_eq E.endian sa.sAddr hport, length_hostPort E.endian sa.sAddr hport, hread, ?_⟩
  · unfold Ftpbuf.useraddr
    rw [if_neg h]
    rfl
  · rintro addr port haddr hlt rfl
    rw [hread, ntohl_ofAddr E.endian haddr]
    have hport' : SockInetAddr.getport E.endian (.ofAddr E.endian addr port) = port := by
      show E.endian.ntohs (portOf E.endian port).toNat = port
      rw [ntohs_portOf]
      omega
    rw [hport']

/-- 127.0.0.1 and the port 10000, on a little-endian host. -/
theorem useraddr_reads_back_local : ∃ arg : List UInt8,
    Ftpbuf.useraddr { Env.over [] 0 (.over .sink) with endian := .little }
        (.ofAddr .little 2130706433 10000)
      = Ftpbuf.sendCmd { Env.over [] 0 (.over .sink) with endian := .little } [80, 79, 82, 84]
          (some arg) ∧
    readHostPort arg = some (2130706433, 10000) := by
  obtain ⟨arg, -, hsend, -, -, -, -, hread⟩ :=
    useraddr_reads_back { Env.over [] 0 (.over .sink) with endian := .little }
      (.ofAddr .little 2130706433 10000) (by decide)
  exact ⟨arg, hsend, hread 2130706433 10000 (by decide) (by decide) rfl⟩

end Sockstream.Ftp
