import Mathlib.Logic.Equiv.Defs
import SocketPlusPlus.Kernel
import SocketPlusPlus.Logic.Exec
import SocketPlusPlus.Logic.Memory

/-!
# `basic_sockbuf`: state and stream operations

The embedding of `basic_sockbuf<charT, Traits>` from `sockstream.h` and `sockstream.cpp`, generic
in the character type as the template is. A sockbuf is the shared, reference-counted `rep`
(`Sockcnt`) and the object's own stream buffer (`Streambuf`): the get area, the put area and the
name. Pointers are offsets from the start of the array they point into, and an area whose pointers
are null is `none`.

`stored` and `copied` are histories that no member reads: the characters ever stored in the put
area, and the characters ever handed to the caller.

A member function is an `M charT α`: it may throw, and what it changed before the throw stays.
-/

namespace Sockstream

open Memory

/-! ## Character types

What the template asks of `charT`: a size, its bytes in memory, and a way to an `int` and back that
misses `eof`. -/

/-- What the template uses of `charT` and `Traits`: the object representation of a character, the
conversions to and from `int_type`, and the cast `(unsigned char) c`. -/
class CharType (charT : Type) where
  sizeof : Nat
  sizeof_pos : 0 < sizeof
  repr : charT ≃ (Fin sizeof → UInt8)
  toInt : charT → Int
  ofInt : Int → charT
  uchar : charT → UInt8
  ofInt_toInt : ∀ c, ofInt (toInt c) = c

/-- `enum { eof = EOF }` -/
def eof : Int := -1

/-- `char`, read as an unsigned byte wherever it becomes an `int_type`. -/
instance : CharType UInt8 where
  sizeof := 1
  sizeof_pos := Nat.one_pos
  repr := ⟨fun c _ => c, fun f => f 0, fun _ => rfl, fun f => funext fun i => by
    rw [Subsingleton.elim i 0]⟩
  toInt c := c.toNat
  ofInt i := .ofNat (i % 256).toNat
  uchar c := c
  ofInt_toInt c := by
    have h := c.toNat_lt
    rw [Int.emod_eq_of_lt (by omega) (by omega), Int.toNat_natCast]
    exact UInt8.ofNat_toNat

/-- No byte is taken for `eof`. -/
theorem toInt_ne_eof (c : UInt8) : CharType.toInt c ≠ eof := by
  show (c.toNat : Int) ≠ -1
  omega

section Bytes

variable {charT : Type} [CharType charT]

/-- Byte `b` of an array of characters, as a `char*` to the array sees it. -/
def byteAt (m : Nat → charT) (b : Nat) : UInt8 :=
  CharType.repr (m (b / CharType.sizeof charT))
    ⟨b % CharType.sizeof charT, Nat.mod_lt _ CharType.sizeof_pos⟩

/-- The array after its first bytes are overwritten with `bs`. -/
def storeBytes (m : Nat → charT) (bs : List UInt8) : Nat → charT := fun i =>
  CharType.repr.symm fun j =>
    (bs[i * CharType.sizeof charT + j]?).getD (CharType.repr (m i) j)

end Bytes

/-! ## Exceptions -/

/-- `class sockerr` -/
structure Sockerr where
  err : Errno
  text : String
deriving DecidableEq, Repr

/-- `sockerr(int e, const string& operation)` -/
def Sockerr.ofOperation (e : Errno) (operation : String) : Sockerr := ⟨e, operation⟩

/-- `sockerr(int e, const char* operation, const char* specification)` -/
def Sockerr.ofSpecification (e : Errno) (operation specification : String) : Sockerr :=
  ⟨e, operation ++ "(" ++ specification ++ ")"⟩

/-- What a member function can throw: the `int` count of `write`, `send` and `sendto`, a `sockerr`,
a `sockoob`. `outOfFuel` is none of the source's: a loop or recursion of the model has used up the
number of rounds it was given. -/
inductive Exc where
  | count (wlen : Nat)
  | sockerr (err : Sockerr)
  | sockoob
  | outOfFuel
deriving DecidableEq, Repr

/-! ## State

`rep` is what copies of a sockbuf share. Pointers of the areas are offsets from the beginning of
their array, and an area that was given up by `shutdown` or was never there is `none`. -/

/-- `basic_sockbuf::sockcnt`, shared by a sockbuf and its copies. `gend` and `pend` are offsets
from the start of the get and the put array. -/
structure Sockcnt where
  sock : Int
  cnt : Int
  stmo : Int
  rtmo : Int
  oob : Bool
  gend : Nat
  pend : Nat
deriving DecidableEq, Repr

/-- The array at `eback()` with `gptr()` and `egptr()`. -/
structure GetArea (charT : Type) where
  mem : Nat → charT
  gptr : Nat
  egptr : Nat

/-- The array at `pbase()` with `pptr()` and `epptr()`. -/
structure PutArea (charT : Type) where
  mem : Nat → charT
  pptr : Nat
  epptr : Nat

/-- What one sockbuf object owns. -/
structure Streambuf (charT : Type) where
  get : Option (GetArea charT)
  put : Option (PutArea charT)
  sockname : String
  stored : List charT
  copied : List charT

/-- An object, the `rep` it points to, and the system. -/
structure St (charT : Type) where
  rep : Sockcnt
  self : Streambuf charT
  sys : Sys

abbrev M (charT : Type) := EStateM Exc (St charT)

/-- What depends on the platform: `BUFSIZ` of the C library. -/
structure Platform where
  BUFSIZ : Nat
  BUFSIZ_pos : 0 < BUFSIZ

/-- Areas of 64 bytes, for the examples. -/
def Platform.small : Platform := ⟨64, by decide⟩

section Members

variable {charT : Type} [CharType charT]

/-! ## Construction and settings -/

/-- `sockcnt(SOCKET s)` followed by the assignments of `gend` and `pend`. -/
def Sockcnt.init (P : Platform) (sock : Int) : Sockcnt where
  sock := sock
  cnt := 1
  stmo := -1
  rtmo := -1
  oob := false
  gend := P.BUFSIZ
  pend := P.BUFSIZ

/-- `basic_sockbuf(const socket& sd)`: `gbuf` and `pbuf` are the arrays `new` returned, with
whatever they contain. -/
def Streambuf.init (P : Platform) (gbuf pbuf : Nat → charT) : Streambuf charT where
  get := some ⟨gbuf, P.BUFSIZ, P.BUFSIZ⟩
  put := some ⟨pbuf, 0, P.BUFSIZ⟩
  sockname := ""
  stored := []
  copied := []

/-- A sockbuf just built on the descriptor `sock`, before any system call. -/
def fresh (P : Platform) (sock : Int) (gbuf pbuf : Nat → charT) (errno : Errno) : St charT where
  rep := .init P sock
  self := .init P gbuf pbuf
  sys := ⟨[], errno⟩

/-- `sendtimeout(int wp)` -/
def sendtimeout (wp : Int) : M charT Int := do
  let oldstmo := (← get).rep.stmo
  modify fun s => { s with rep := { s.rep with stmo := if wp < 0 then -1 else wp } }
  pure oldstmo

/-- `recvtimeout(int wp)` -/
def recvtimeout (wp : Int) : M charT Int := do
  let oldrtmo := (← get).rep.rtmo
  modify fun s => { s with rep := { s.rep with rtmo := if wp < 0 then -1 else wp } }
  pure oldrtmo

/-- `oob(bool b)` -/
def setOob (b : Bool) : M charT Bool := do
  let old := (← get).rep.oob
  modify fun s => { s with rep := { s.rep with oob := b } }
  pure old

/-! ## System calls

Each call is answered by the kernel, which may look at everything that has happened, and is noted in
the history. -/

/-- `::write`, `::send` or `::sendto` of `buf`; `none` is the return value -1. -/
def output (K : Kernel) (call : OutCall) (buf : List UInt8) :
    M charT (Option (Accepted buf.length)) := fun s =>
  match K.output s.sys.history call buf with
  | .ok k => .ok (some k) { s with sys := s.sys.record (.output call buf (.ok k)) }
  | .error e => .ok none { s with sys := s.sys.fail (.output call buf (.error e)) e }

/-- `::read` or `::recv` of at most `len` bytes: the bytes stored, or `none` for -1. -/
def input (K : Kernel) (call : InCall) (len : Nat) : M charT (Option (List UInt8)) := fun s =>
  match K.input s.sys.history call len with
  | .ok bs => .ok (some bs) { s with sys := s.sys.record (.input call len (.ok bs)) }
  | .error e => .ok none { s with sys := s.sys.fail (.input call len (.error e)) e }

/-- `throw sockerr(errno, operation, sockname.c_str())` -/
def throwErrno {α : Type} (operation : String) : M charT α := do
  let s ← get
  throw (.sockerr (.ofSpecification s.sys.errno operation s.self.sockname))

/-- A call whose answer is a truth value and whose failure is thrown as a `sockerr`. -/
def query (ask : List Event → Except Errno Bool) (note : Except Errno Bool → Event)
    (operation : String) : M charT Bool := fun s =>
  match ask s.sys.history with
  | .ok b => .ok b { s with sys := s.sys.record (note (.ok b)) }
  | .error e => throwErrno operation { s with sys := s.sys.fail (note (.error e)) e }

/-- `is_readready(int wp_sec)`: whether `select` reports the descriptor readable in time. -/
def isReadready (K : Kernel) (wpSec : Int) : M charT Bool :=
  query (K.readready · wpSec) (.readready wpSec) "sockbuf::is_readready"

/-- `is_writeready(int wp_sec)` -/
def isWriteready (K : Kernel) (wpSec : Int) : M charT Bool :=
  query (K.writeready · wpSec) (.writeready wpSec) "sockbuf::is_writeready"

/-- `atmark()` -/
def atmark (K : Kernel) : M charT Bool := query K.atmark .atmark "sockbuf::atmark"

/-- The test at the head of every input member:
`if (rep->rtmo != -1 && is_readready(rep->rtmo) == 0) throw sockerr(ETIMEDOUT, ..)`, then
`if (rep->oob && atmark()) throw sockoob()`. -/
def awaitReadready (K : Kernel) (operation : String) : M charT Unit := do
  let s ← get
  let ready ← (if s.rep.rtmo ≠ -1 then isReadready K s.rep.rtmo else pure true)
  if ready then
    let mark ← (if s.rep.oob then atmark K else pure false)
    if mark then throw .sockoob else pure ()
  else
    throw (.sockerr (.ofSpecification ETIMEDOUT operation s.self.sockname))

/-- The test at the head of every output member. -/
def awaitWriteready (K : Kernel) (operation : String) : M charT Unit := do
  let s ← get
  let ready ← (if s.rep.stmo ≠ -1 then isWriteready K s.rep.stmo else pure true)
  if ready then pure ()
  else throw (.sockerr (.ofSpecification ETIMEDOUT operation s.self.sockname))

/-! ## Reading and writing the socket -/

/-- `read(void* buf, int len)`: the bytes the call has put at `buf`. -/
def read (K : Kernel) (len : Nat) : M charT (List UInt8) := do
  awaitReadready K "sockbuf::read"
  match ← input K .read len with
  | some bs => pure bs
  | none => throwErrno "sockbuf::read"

/-- The loop of `write`, `send` and `sendto`: `len` bytes at `pbuf + wlen` are still to go. -/
def outputLoop (K : Kernel) (call : OutCall) (pbuf : Nat → UInt8) (wlen len : Nat) : M charT Nat :=
  if len = 0 then pure wlen
  else do
    match ← output K call (slice pbuf wlen len) with
    | none => throw (.count wlen)
    | some wval => outputLoop K call pbuf (wlen + wval) (len - wval)
termination_by len
decreasing_by
  have := wval.2.1
  omega

/-- `write(const void* buf, int len)` -/
def write (K : Kernel) (buf : Nat → UInt8) (len : Nat) : M charT Nat := do
  awaitWriteready K "sockbuf::write"
  outputLoop K .write buf 0 len

/-- `send(const void* buf, int len, int msgf)` -/
def send (K : Kernel) (buf : Nat → UInt8) (len : Nat) (msgf : Int) : M charT Nat := do
  awaitWriteready K "sockbuf::send"
  outputLoop K (.send msgf) buf 0 len

/-- `sendto(sockaddr& sa, const void* buf, int len, int msgf)` -/
def sendto (K : Kernel) (sa : List UInt8) (buf : Nat → UInt8) (len : Nat) (msgf : Int) :
    M charT Nat := do
  awaitWriteready K "sockbuf::sendto"
  outputLoop K (.sendto sa msgf) buf 0 len

/-! ## The put area

`sync` writes what is pending. If the write was cut short, it keeps the rest and throws. -/

/-- `memcpy(pptr(), s, n); pbump(n)`, and for one character `*pptr() = c; pbump(1)`. -/
def storeChars (cs : List charT) : M charT Unit := modify fun s =>
  match s.self.put with
  | none => s
  | some p =>
    { s with self := { s.self with
        put := some { p with mem := copyIn p.mem p.pptr cs, pptr := p.pptr + cs.length }
        stored := s.self.stored ++ cs } }

/-- `setp(pbase(), (charT*) rep->pend); pbump(len)` -/
def resetp (mem : Nat → charT) (len : Nat) : M charT Unit := modify fun s =>
  { s with self := { s.self with put := some ⟨mem, len, s.rep.pend⟩ } }

/-- The handler of `sync`: the `wlen` characters that went out are dropped from the put area, and
a `sockerr` is thrown in place of the count. Other exceptions pass. -/
def syncCatch (p : PutArea charT) : Exc → M charT Unit
  | .count wlen => do
    let s ← get
    let err := "sockbuf::sync" ++ "(" ++ s.self.sockname ++ ")"
    if wlen ≠ 0 then
      resetp (slide p.mem 0 wlen p.pptr) (p.pptr - wlen)
      throw (.sockerr (.ofOperation s.sys.errno (err ++ (" wlen=(" ++ toString wlen ++ ")"))))
    else
      throw (.sockerr (.ofOperation s.sys.errno err))
  | e => throw e

/-- `sync()` -/
def sync (K : Kernel) : M charT Int := do
  match (← get).self.put with
  | none => pure 0
  | some p =>
    if 0 < p.pptr ∧ p.pptr ≤ p.epptr then
      try
        let _ ← write K (byteAt p.mem) p.pptr
      catch e => syncCatch p e
      resetp p.mem 0
      pure 0
    else
      pure 0

/-- `overflow(int_type c)` -/
def overflow (K : Kernel) (c : Int) : M charT Int := do
  match (← get).self.put with
  | none => pure eof
  | some p =>
    if c = eof then sync K
    else
      let _ ← (if p.pptr = p.epptr then sync K else pure 0)
      storeChars [CharType.ofInt c]
      pure c

/-- `epptr() - pptr()` -/
def Streambuf.room (b : Streambuf charT) : Nat :=
  match b.put with
  | none => 0
  | some p => p.epptr - p.pptr

/-- `std::basic_streambuf::sputc`: store the character if a position is available, else
`overflow`. -/
def sputc (K : Kernel) (c : charT) : M charT Int := do
  if 0 < (← get).self.room then
    storeChars [c]
    pure (CharType.toInt c)
  else
    overflow K (CharType.toInt c)

/-- `xsputn(const char_type* s, streamsize n)`, with at most `fuel` nested calls. -/
def xsputnRec (K : Kernel) : Nat → List charT → M charT Nat
  | 0, _ => throw .outOfFuel
  | fuel + 1, s => do
    let wval := (← get).self.room
    if s.length ≤ wval then
      storeChars s
      pure s.length
    else
      storeChars (s.take wval)
      let r ← overflow K eof
      if r ≠ eof then
        let rest ← xsputnRec K fuel (s.drop wval)
        pure (wval + rest)
      else
        pure wval

/-- `xsputn(const char_type* s, streamsize n)`. Every call but the first finds an empty put area,
so the recursion is less than `n + 2` deep. -/
def xsputn (K : Kernel) (s : List charT) : M charT Nat := xsputnRec K (s.length + 2) s

/-! ## The get area

`underflow` fills the whole area with one `read`, and what it overwrites was handed out before. -/

/-- `gbump(n)` after the `n` characters at `gptr()` were copied to the caller. -/
def takeChars (n : Nat) : M charT Unit := modify fun s =>
  match s.self.get with
  | none => s
  | some g =>
    { s with self := { s.self with
        get := some { g with gptr := g.gptr + n }
        copied := s.self.copied ++ slice g.mem g.gptr n } }

/-- `gbump(n)` -/
def gbump (n : Nat) : M charT Unit := modify fun s =>
  match s.self.get with
  | none => s
  | some g => { s with self := { s.self with get := some { g with gptr := g.gptr + n } } }

/-- `setg(eback(), eback(), eback() + n)` over the array `mem` -/
def resetg (mem : Nat → charT) (n : Nat) : M charT Unit := modify fun s =>
  { s with self := { s.self with get := some ⟨mem, 0, n⟩ } }

/-- `showmanyc()` -/
def Streambuf.showmanyc (b : Streambuf charT) : Nat :=
  match b.get with
  | none => 0
  | some g => if g.gptr < g.egptr then g.egptr - g.gptr else 0

/-- `underflow()` -/
def underflow (K : Kernel) : M charT Int := do
  let s ← get
  match s.self.get with
  | none => pure eof
  | some g =>
    if g.gptr < g.egptr then
      pure (CharType.uchar (g.mem g.gptr)).toNat
    else
      let bs ← read K (s.rep.gend * CharType.sizeof charT)
      let mem := storeBytes g.mem bs
      if bs.length = 0 then
        pure eof
      else
        resetg mem bs.length
        pure (CharType.uchar (mem 0)).toNat

/-- `uflow()` -/
def uflow (K : Kernel) : M charT Int := do
  let ret ← underflow K
  if ret = eof then pure eof
  else
    gbump 1
    pure ret

/-- `std::basic_streambuf::sgetc`: the character at `gptr()` if a position is available, else
`underflow`. -/
def sgetc (K : Kernel) : M charT Int := do
  match (← get).self.get with
  | none => underflow K
  | some g => if g.gptr < g.egptr then pure (CharType.toInt (g.mem g.gptr)) else underflow K

/-- `std::basic_streambuf::sbumpc`: take the character at `gptr()` if a position is available, else
`uflow`. -/
def sbumpc (K : Kernel) : M charT Int := do
  match (← get).self.get with
  | none => uflow K
  | some g =>
    if g.gptr < g.egptr then
      gbump 1
      pure (CharType.toInt (g.mem g.gptr))
    else
      uflow K

/-- `xsgetn(char_type* s, streamsize n)`, with at most `fuel` nested calls. -/
def xsgetnRec (K : Kernel) : Nat → Nat → M charT Nat
  | 0, _ => throw .outOfFuel
  | fuel + 1, n => do
    let rval := (← get).self.showmanyc
    if n ≤ rval then
      takeChars n
      pure n
    else
      takeChars rval
      let c ← underflow K
      if c ≠ eof then
        let rest ← xsgetnRec K fuel (n - rval)
        pure (rval + rest)
      else
        pure rval

/-- `xsgetn(char_type* s, streamsize n)`. Every call but the first finds a character in the get
area, so the recursion is less than `n + 2` deep. -/
def xsgetn (K : Kernel) (n : Nat) : M charT Nat := xsgetnRec K (n + 2) n

/-! ## The members on an area that is there and on one that is not

The equations by which the proofs enter the members: every member first looks whether its area is
there. -/

section Equations

variable {s : St charT} {p : PutArea charT} {g : GetArea charT}

omit [CharType charT] in
theorem storeChars_of_put (cs : List charT) (hput : s.self.put = some p) :
    storeChars cs s = .ok () { s with self := { s.self with
      put := some { p with mem := copyIn p.mem p.pptr cs, pptr := p.pptr + cs.length }
      stored := s.self.stored ++ cs } } := by
  obtain ⟨rep, ⟨get, put, sockname, stored, copied⟩, sys⟩ := s
  cases hput
  rfl

omit [CharType charT] in
theorem storeChars_of_shut (cs : List charT) (hput : s.self.put = none) :
    storeChars cs s = .ok () s := by
  obtain ⟨rep, ⟨get, put, sockname, stored, copied⟩, sys⟩ := s
  cases hput
  rfl

theorem sync_of_shut (K : Kernel) (hput : s.self.put = none) : sync K s = .ok 0 s := by
  obtain ⟨rep, ⟨get, put, sockname, stored, copied⟩, sys⟩ := s
  cases hput
  rfl

theorem overflow_of_put (K : Kernel) (c : Int) (hput : s.self.put = some p) :
    overflow K c s = (if c = eof then sync K
      else do
        let _ ← (if p.pptr = p.epptr then sync K else pure 0)
        storeChars [CharType.ofInt c]
        pure c : M charT Int) s := by
  obtain ⟨rep, ⟨get, put, sockname, stored, copied⟩, sys⟩ := s
  cases hput
  rfl

theorem overflow_of_shut (K : Kernel) (c : Int) (hput : s.self.put = none) :
    overflow K c s = .ok eof s := by
  obtain ⟨rep, ⟨get, put, sockname, stored, copied⟩, sys⟩ := s
  cases hput
  rfl

omit [CharType charT] in
theorem takeChars_of_get (n : Nat) (hget : s.self.get = some g) :
    takeChars n s = .ok () { s with self := { s.self with
      get := some { g with gptr := g.gptr + n }
      copied := s.self.copied ++ slice g.mem g.gptr n } } := by
  obtain ⟨rep, ⟨get, put, sockname, stored, copied⟩, sys⟩ := s
  cases hget
  rfl

omit [CharType charT] in
theorem takeChars_of_shut (n : Nat) (hget : s.self.get = none) : takeChars n s = .ok () s := by
  obtain ⟨rep, ⟨get, put, sockname, stored, copied⟩, sys⟩ := s
  cases hget
  rfl

omit [CharType charT] in
theorem takeChars_zero : takeChars 0 s = .ok () s := by
  cases hget : s.self.get with
  | none => exact takeChars_of_shut 0 hget
  | some g =>
    rw [takeChars_of_get 0 hget]
    obtain ⟨rep, ⟨get, put, sockname, stored, copied⟩, sys⟩ := s
    cases hget
    simp

theorem underflow_of_get (K : Kernel) (hget : s.self.get = some g) :
    underflow K s = (if g.gptr < g.egptr then pure ((CharType.uchar (g.mem g.gptr)).toNat : Int)
      else do
        let bs ← read K (s.rep.gend * CharType.sizeof charT)
        if bs.length = 0 then pure eof
        else
          resetg (storeBytes g.mem bs) bs.length
          pure ((CharType.uchar (storeBytes g.mem bs 0)).toNat : Int) : M charT Int) s := by
  obtain ⟨rep, ⟨get, put, sockname, stored, copied⟩, sys⟩ := s
  cases hget
  rfl

theorem underflow_of_shut (K : Kernel) (hget : s.self.get = none) : underflow K s = .ok eof s := by
  obtain ⟨rep, ⟨get, put, sockname, stored, copied⟩, sys⟩ := s
  cases hget
  rfl

theorem sputc_of_shut (K : Kernel) (c : charT) (hput : s.self.put = none) :
    sputc K c s = .ok eof s := by
  have hroom : s.self.room = 0 := by
    unfold Streambuf.room
    rw [hput]
  show (if 0 < s.self.room then _ else overflow K _ : M charT Int) s = _
  rw [if_neg (by omega), overflow_of_shut K _ hput]

theorem uflow_of_shut (K : Kernel) (hget : s.self.get = none) : uflow K s = .ok eof s := by
  unfold uflow
  rw [Exec.bind_ok (underflow_of_shut K hget)]
  rfl

theorem sbumpc_of_get (K : Kernel) (hget : s.self.get = some g) :
    sbumpc K s = (if g.gptr < g.egptr then do
        gbump 1
        pure (CharType.toInt (g.mem g.gptr))
      else uflow K : M charT Int) s := by
  obtain ⟨rep, ⟨get, put, sockname, stored, copied⟩, sys⟩ := s
  cases hget
  rfl

theorem sbumpc_of_shut (K : Kernel) (hget : s.self.get = none) : sbumpc K s = .ok eof s := by
  have huflow : sbumpc K s = uflow K s := by
    obtain ⟨rep, ⟨get, put, sockname, stored, copied⟩, sys⟩ := s
    cases hget
    rfl
  exact huflow.trans (uflow_of_shut K hget)

end Equations

end Members

end Sockstream
