import Mathlib.Data.Nat.Digits.Defs
import SocketPlusPlus.Logic.Bytes
import SocketPlusPlus.Logic.Loop
import SocketPlusPlus.Protocol.Chunks
import SocketPlusPlus.Sockbuf.Shutdown

/-!
# The commands of an FTP client

`ftpbuf`: every command goes out through `send_cmd`, which reads the reply, and the commands that
move a file go through `ftpdata`, which also opens the data connection and moves it.

The replies come over the control connection `ctl`. A data connection is a sockbuf of its own, built
on the descriptor that `accept` returned, for which the system answers as its `DataPort` says.

What a method did is noted, newest first (`Note`): when it asked for a reply and what
`get_response` returned, which codes it compared with `rca_error`, and how the data connection
ended. The notes decide nothing in the model; only `Env.port` may look at them, so that each data
connection can be another one.
-/

namespace Sockstream

open Exec Memory Bytes

/-- A kernel whose `shutdown` and `close` succeed. -/
def Net.over (K : Kernel) : Net :=
  { K with
    shutdown := fun _ _ _ => .ok ()
    close := fun _ _ _ => .ok () }

namespace Ftp

/-! ## Texts

What the members make of their numbers and of the address of the data socket before they send it. -/

/-- `sprintf(b, "%d", n)` for `n >= 0` -/
def decimal (n : Nat) : List UInt8 :=
  if n = 0 then [48] else (Nat.digits 10 n).reverse.map fun d => 48 + UInt8.ofNat d

/-- `sprintf(b, "%d", n)` -/
def decimalInt (n : Int) : List UInt8 := if n < 0 then 45 :: decimal n.natAbs else decimal n.natAbs

/-- `class sockinetaddr`: both members are in network order. -/
structure SockInetAddr where
  sAddr : UInt32
  sinPort : UInt16
deriving DecidableEq, Repr

/-- `inet_ntoa`: the four bytes in decimal, with dots between them. -/
def inetNtoa (e : Endian) (sAddr : UInt32) : List UInt8 :=
  [46].intercalate ((e.encode 4 sAddr.toNat).map fun b => decimal b.toNat)

/-- `while ((p = strchr(addr, '.'))) *p = ',';`, for at most `fuel` dots. -/
def commas : Nat → List UInt8 → List UInt8
  | 0, addr => addr
  | fuel + 1, addr =>
    match addr.findIdx? (· = 46) with
    | none => addr
    | some p => commas fuel (addr.set p 44)

/-- The text `useraddr` sends for an address and a port in host byte order. -/
def hostPort (e : Endian) (sAddr : UInt32) (portno : Nat) : List UInt8 :=
  let ina := inetNtoa e sAddr
  let addr := commas ina.length ina
  let hiPortno := portno / 256
  let loPortno := portno % 256
  addr ++ ([44] ++ decimal hiPortno ++ [44] ++ decimal loPortno)

/-- `enum reptype` -/
inductive Reptype where
  | asciiNonprint
  | asciiTelnet
  | asciiAsa
  | ebcdicNonprint
  | ebcdicTelnet
  | ebcdicAsa
  | image
  | local
deriving DecidableEq, Repr

/-- `enum filestru` -/
inductive Filestru where
  | file
  | record
  | page
deriving DecidableEq, Repr

/-- `enum transmode` -/
inductive Transmode where
  | stream
  | block
  | comp
deriving DecidableEq, Repr

/-- `char reptype[][8]` -/
def reptype : List (List UInt8) :=
  [[65, 32, 78], [65, 32, 84], [65, 32, 67], [69, 32, 78], [69, 32, 84], [69, 32, 67], [73],
    [76, 32]]

/-- `char filestru[][8]` -/
def filestru : List (List UInt8) := [[70], [82], [80]]

/-- `char transmode[][8]` -/
def transmode : List (List UInt8) := [[83], [66], [67]]

/-- `rca_error` -/
def rcaError : UInt8 := 52

/-- `code >= ftp::rca_error` -/
def refused (code : Option UInt8) : Bool := code.any (rcaError ≤ ·)

/-! ## The object and its surroundings

The data connection, the files and the uninitialised arrays are answers of the surroundings. What a
run asks for, compares and returns is noted, the last thing first. -/

inductive Note where
  /-- `get_response` is called. -/
  | asks
  /-- It has returned `code`; `before` and `after` are the client then and now. -/
  | replied (before after : Client (List UInt8)) (code : Option UInt8)
  /-- `code` is compared with `rca_error`. -/
  | compared (code : Option UInt8)
  /-- `return ftp::rca_error` -/
  | rejects
  /-- `cerr << "write error\n"` -/
  | writeError
  /-- The data connection is destroyed. -/
  | closed (c : Session)
  /-- The method has returned `code`. -/
  | returned (code : Option UInt8)

/-- `class ftpbuf`: `ctl` is the sockbuf it derives from, with `o` and `replycode`. `file` is what
the `ofstream` of `getfile` has been sent, if it could be opened. -/
structure Ftpbuf where
  ctl : Client (List UInt8)
  file : Option (List UInt8)
  notes : List Note

/-- `ftpbuf(ostream* out)`: `replycode` is whatever the array holds then. -/
def Ftpbuf.init (buf : St UInt8) (out : Option (List UInt8)) (replycode : List UInt8) : Ftpbuf :=
  ⟨⟨buf, out, replycode⟩, none, []⟩

abbrev FtpM := EStateM Exc Ftpbuf

/-- What the system answers about one data connection: for the socket that waits for it, and for
the sockbuf `c` that is built when it is accepted. -/
structure DataPort where
  socket : Except Sockerr Unit
  bind : Int → Except Sockerr Unit
  localaddr : Except Sockerr SockInetAddr
  listen : Except Sockerr Unit
  accept : Except Sockerr Int
  close : Except Sockerr Unit
  net : Net
  platform : Platform
  gbuf : Nat → UInt8
  pbuf : Nat → UInt8
  errno : Errno
  /-- What `char buf[1024]` holds before. -/
  buf : Nat → UInt8

/-- What surrounds an `ftpbuf`: the kernel under the control connection, the addresses that
`gethostname` and `gethostbyname` find, the files, and the data connections. `fuel` bounds the
rounds of every loop. -/
structure Env where
  K : Kernel
  fuel : Nat
  endian : Endian
  hostAddr : Option UInt32
  resolve : List UInt8 → Option UInt32
  creates : Option (List UInt8) → Bool
  content : List UInt8 → List UInt8
  port : List Note → DataPort

def note (n : Note) : FtpM Unit := modify fun b => { b with notes := n :: b.notes }

/-- A member function of the sockbuf. -/
def onCtl {α : Type} (c : ClientM (List UInt8) α) : FtpM α :=
  zoom Ftpbuf.ctl (fun b t => { b with ctl := t }) c

/-- A call of the system that may throw. -/
def answered {α : Type} : Except Sockerr α → FtpM α
  | .ok a => pure a
  | .error e => throw (.sockerr e)

def EADDRINUSE : Errno := 98

def EADDRNOTAVAIL : Errno := 99

/-- `bind_until_success(int portno)` -/
def bindUntilSuccess (bind : Int → Except Sockerr Unit) : Nat → Int → FtpM Unit
  | 0, _ => throw .outOfFuel
  | fuel + 1, portno =>
    match bind portno with
    | .ok () => pure ()
    | .error e =>
      if e.err = EADDRINUSE then bindUntilSuccess bind fuel (portno + 1) else throw (.sockerr e)

theorem within_answered {α : Type} (r : Except Sockerr α) : Within Eq (answered r) := by
  cases r with
  | ok a => exact .pure a
  | error e => exact .throw _

theorem within_bindUntilSuccess (bind : Int → Except Sockerr Unit) (fuel : Nat) (portno : Int) :
    Within Eq (bindUntilSuccess bind fuel portno) := by
  induction fuel generalizing portno with
  | zero => exact .throw _
  | succ fuel ih =>
    unfold bindUntilSuccess
    cases bind portno with
    | ok _ => exact .pure ()
    | error e => exact .ite (ih _) (.throw _)

/-! ## The data connection

`ftpdata` opens it, announces its port, and moves the file between a stream and the data socket.
Sockbufs on it are built and destroyed on the way. -/

/-- What the loops of `ftpdata` work on: the sockbuf `c`, and the `ftpbuf`. -/
structure Transfer where
  c : Session
  ftp : Ftpbuf

abbrev TransferM := EStateM Exc Transfer

/-- A member function of `c`. -/
def onData {α : Type} (c : SessionM α) : TransferM α :=
  zoom Transfer.c (fun t z => { t with c := z }) c

def onFtp {α : Type} (c : FtpM α) : TransferM α :=
  zoom Transfer.ftp (fun t b => { t with ftp := b }) c

/-- The streams that `ftpdata` is given as its `ostream* o`. -/
inductive Sink where
  | own
  | file

/-- `if (o)` -/
def Ftpbuf.present (b : Ftpbuf) : Option Sink → Bool
  | none => false
  | some .own => b.ctl.o.isSome
  | some .file => true

/-- `o->write(..)` -/
def Ftpbuf.put (bytes : List UInt8) : Option Sink → Ftpbuf → Ftpbuf
  | none, b => b
  | some .own, b => { b with ctl := { b.ctl with o := b.ctl.o.map (· ++ bytes) } }
  | some .file, b => { b with file := b.file.map (· ++ bytes) }

/-- `sgetn(s, n)`: the value returned, and the characters it has put at `s`. -/
def sgetn (K : Kernel) (n : Nat) : M UInt8 (Nat × List UInt8) := do
  let s ← get
  let rdsz ← xsgetn K n
  let s' ← get
  pure (rdsz, s'.self.copied.drop s.self.copied.length)

/-- `while ((rdsz = c.sgetn(buf, 1024)) != EOF) o->write(buf, rdsz);`, one round. -/
def recvRound (N : Net) (o : Option Sink) (buf : Nat → UInt8) :
    TransferM (Turn (Nat → UInt8) Unit) := do
  let (rdsz, bytes) ← onData (onSession (sgetn N.toKernel 1024))
  let buf := copyIn buf 0 bytes
  if (rdsz : Int) = eof then pure (.leave ())
  else do
    onFtp (modify (Ftpbuf.put (slice buf 0 rdsz) o))
    pure (.again buf)

/-- `while ((rdsz = rb->sgetn(buf, 1024)) > 0) ..`, one round; `rest` is what is left to read of
the stream `i`. -/
def sendRound (N : Net) : (Nat → UInt8) × List UInt8 →
    TransferM (Turn ((Nat → UInt8) × List UInt8) Unit)
  | (buf, rest) => do
    let bytes := rest.take 1024
    let buf := copyIn buf 0 bytes
    let rdsz := bytes.length
    if 0 < rdsz then do
      let wrsz ← onData (onSession (xsputn N.toKernel (slice buf 0 rdsz)))
      if rdsz ≠ wrsz then onFtp (note .writeError) else pure ()
      pure (.again (buf, rest.drop 1024))
    else pure (.leave ())

/-- The end of the block in which `c` lives, also by an exception: `c` is destroyed. A second
exception would end the program. -/
def inBlock (N : Net) (body : TransferM Unit) : TransferM Unit := do
  try body
  catch e => do
    onData (Session.destroy N)
    throw e
  onData (Session.destroy N)
  let t ← get
  onFtp (note (.closed t.c))

/-- `{ sockbuf c = sb.accept(); .. }` -/
def withData (port : DataPort) (body : TransferM Unit) : FtpM Unit := do
  let sock ← answered port.accept
  let b ← get
  let c := Session.fresh port.platform sock port.gbuf port.pbuf port.errno
  match inBlock port.net body ⟨c, b⟩ with
  | .ok () t => set t.ftp
  | .error e t => do
    set t.ftp
    throw e

/-- The branch of `ftpdata` for `o`. -/
def recvData (port : DataPort) (fuel : Nat) (o : Option Sink) : FtpM Unit :=
  withData port (loop (recvRound port.net o) .outOfFuel fuel port.buf)

/-- The branch of `ftpdata` for `i`. -/
def sendData (port : DataPort) (fuel : Nat) (rest : List UInt8) : FtpM Unit :=
  withData port (loop (sendRound port.net) .outOfFuel fuel (port.buf, rest))

theorem wp_withData {port : DataPort} {body : TransferM Unit} {Q : Unit → Ftpbuf → Prop}
    {E : Exc → Ftpbuf → Prop} {b : Ftpbuf} :
    wp (withData port body) Q E b ↔
      match port.accept with
      | .error e => E (.sockerr e) b
      | .ok sock => wp (inBlock port.net body) (fun _ t => Q () t.ftp) (fun e t => E e t.ftp)
          ⟨Session.fresh port.platform sock port.gbuf port.pbuf port.errno, b⟩ := by
  unfold withData
  cases port.accept with
  | error e => exact Iff.rfl
  | ok sock =>
    cases hrun : inBlock port.net body
      ⟨Session.fresh port.platform sock port.gbuf port.pbuf port.errno, b⟩ with
    | ok a t =>
      simp only [wp_iff_of_ok hrun]
      simp only [answered, pure_bind, wp_bind, wp_get, hrun]
      exact Iff.rfl
    | error e t =>
      simp only [wp_iff_of_error hrun]
      simp only [answered, pure_bind, wp_bind, wp_get, hrun]
      exact Iff.rfl

/-! ### What the data connection does to the client -/

section Data

variable {R : Ftpbuf → Ftpbuf → Prop} [IsPreorder Ftpbuf R]

/-- The client changes by `R`. -/
def OnFtp (R : Ftpbuf → Ftpbuf → Prop) (t t' : Transfer) : Prop := R t.ftp t'.ftp

instance : IsPreorder Transfer (OnFtp R) where
  refl t := refl_of R t.ftp
  trans _ _ _ h h' := trans_of R h h'

theorem within_onData {α : Type} (c : SessionM α) : Within (OnFtp R) (onData c) :=
  .of_rest (fun t _ => refl_of R t.ftp) c

omit [IsPreorder Ftpbuf R] in
theorem within_onFtp {α : Type} {c : FtpM α} (h : Within R c) : Within (OnFtp R) (onFtp c) :=
  h.zoom fun _ _ hmoved => hmoved

theorem within_withData (hclosed : ∀ c, Within R (note (.closed c))) (port : DataPort)
    {body : TransferM Unit} (h : Within (OnFtp R) body) : Within R (withData port body) := by
  have hblock : Within (OnFtp R) (inBlock port.net body) := by
    refine .bind (.tryCatch h fun e => .bind (within_onData _) fun _ => .throw e) fun _ => ?_
    exact .bind (within_onData _) fun _ => .bind .get fun t => within_onFtp (hclosed t.c)
  intro b
  rw [wp_withData]
  cases port.accept with
  | error e => exact refl_of R b
  | ok sock => exact hblock _

theorem within_recvData {o : Option Sink}
    (hput : ∀ bytes, Within R (modify (Ftpbuf.put bytes o) : FtpM Unit))
    (hclosed : ∀ c, Within R (note (.closed c))) (port : DataPort) (fuel : Nat) :
    Within R (recvData port fuel o) := by
  refine within_withData hclosed port (.loop (fun buf => ?_) _ _ _)
  unfold recvRound
  refine .bind (within_onData _) fun r => .ite (.pure _) ?_
  exact .bind (within_onFtp (hput _)) fun _ => .pure _

theorem within_sendData (herror : Within R (note .writeError))
    (hclosed : ∀ c, Within R (note (.closed c))) (port : DataPort) (fuel : Nat)
    (rest : List UInt8) : Within R (sendData port fuel rest) := by
  refine within_withData hclosed port (.loop (fun x => ?_) _ _ _)
  obtain ⟨buf, rest⟩ := x
  unfold sendRound
  refine .ite (.bind (within_onData _) fun wrsz => ?_) (.pure _)
  exact .ite (.bind (within_onFtp herror) fun _ => .pure _) (.pure _)

end Data

namespace Ftpbuf

/-! ## The members

One definition for each method of `ftpbuf`, in the order of the class. -/

section Members

variable (E : Env)

/-- `get_response()` -/
def getResponse : FtpM (Option UInt8) := do
  let b ← get
  note .asks
  let code ← onCtl (Ftp.getResponse E.K E.fuel)
  let b' ← get
  note (.replied b.ctl b'.ctl code)
  pure code

/-- `send_cmd(const char* cmd, const char* arg)`, with the strings as lists of their characters. -/
def sendCmd (cmd : List UInt8) (arg : Option (List UInt8)) : FtpM (Option UInt8) := do
  let _ ← onCtl (onBuf (xsputn E.K cmd))
  match arg with
  | none => pure ()
  | some arg => do
    let _ ← onCtl (onBuf (xsputn E.K [32]))
    let _ ← onCtl (onBuf (xsputn E.K arg))
  let _ ← onCtl (onBuf (xsputn E.K [13, 10]))
  let _ ← onCtl (onBuf (sync E.K))
  getResponse E

/-- `return ftp::rca_error;` -/
def reject : FtpM (Option UInt8) := do
  note .rejects
  pure (some rcaError)

/-- `useraddr(sockinetaddr sa)` -/
def useraddr (sa : SockInetAddr) : FtpM (Option UInt8) := do
  let sAddr ← (if sa.sAddr = 0 then
      -- the address of the local host
      match E.hostAddr with
      | none => throw (.sockerr (.ofOperation EADDRNOTAVAIL ""))
      | some sAddr => pure sAddr
    else pure sa.sAddr : FtpM UInt32)
  let portno := E.endian.ntohs sa.sinPort.toNat
  sendCmd E [80, 79, 82, 84] (some (hostPort E.endian sAddr portno))

/-- `ftpdata(int portno, istream* i, ostream* o, const char* cmd, const char* arg)`; `i` is what is
left to read of the stream. -/
def ftpdata (portno : Int) (i : Option (List UInt8)) (o : Option Sink) (cmd : List UInt8)
    (arg : Option (List UInt8)) : FtpM (Option UInt8) := do
  let port := E.port (← get).notes
  answered port.socket
  bindUntilSuccess port.bind E.fuel portno
  let sa ← answered port.localaddr
  let _ ← useraddr E sa
  answered port.listen
  let code ← sendCmd E cmd arg
  note (.compared code)
  let ret ← (if refused code then reject
    else do
      if (← get).present o then recvData port E.fuel o
      else
        match i with
        | none => pure ()
        | some rest => sendData port E.fuel rest
      getResponse E : FtpM (Option UInt8))
  answered port.close
  pure ret

/-- `help()` -/
def help : FtpM (Option UInt8) := sendCmd E [72, 69, 76, 80] none

/-- `noop()` -/
def noop : FtpM (Option UInt8) := sendCmd E [78, 79, 79, 80] none

/-- `quit()` -/
def quit : FtpM (Option UInt8) := sendCmd E [81, 85, 73, 84] none

/-- `abort()` -/
def abort : FtpM (Option UInt8) := sendCmd E [65, 66, 79, 82] none

/-- `user(const char* name)` -/
def user (name : Option (List UInt8)) : FtpM (Option UInt8) := sendCmd E [85, 83, 69, 82] name

/-- `passwd(const char* pw)` -/
def passwd (pw : Option (List UInt8)) : FtpM (Option UInt8) := sendCmd E [80, 65, 83, 83] pw

/-- `acct(const char* ac)` -/
def acct (ac : Option (List UInt8)) : FtpM (Option UInt8) := sendCmd E [65, 67, 67, 84] ac

/-- `cd(const char* dir)` -/
def cd (dir : Option (List UInt8)) : FtpM (Option UInt8) := sendCmd E [67, 87, 68] dir

/-- `useraddr(const char* hostname, int portno)` -/
def useraddrHost (hostname : List UInt8) (portno : Int) : FtpM (Option UInt8) := do
  match E.resolve hostname with
  | none => throw (.sockerr (.ofOperation EADDRNOTAVAIL "sockinetaddr::setaddr"))
  | some sAddr =>
    useraddr E ⟨sAddr, UInt16.ofNat (E.endian.htons (portno % 65536).toNat)⟩

/-- `server_port(int portno)` -/
def serverPort (portno : Int) : FtpM (Option UInt8) :=
  let hiPortno := portno / 256
  let loPortno := portno % 256
  sendCmd E [80, 65, 83, 86] (some (decimalInt hiPortno ++ [44] ++ decimalInt loPortno))

/-- `rep_type(ftp::reptype rt)` -/
def repType (rt : Reptype) : FtpM (Option UInt8) :=
  sendCmd E [84, 89, 80, 69] reptype[rt.ctorIdx]?

/-- `file_stru(ftp::filestru fs)` -/
def fileStru (fs : Filestru) : FtpM (Option UInt8) :=
  sendCmd E [83, 84, 82, 85] filestru[fs.ctorIdx]?

/-- `trans_mode(ftp::transmode tm)`, which sends `STRU` as well. -/
def transMode (tm : Transmode) : FtpM (Option UInt8) :=
  sendCmd E [83, 84, 82, 85] transmode[tm.ctorIdx]?

/-- `list(const char* rpath, int justnames)` -/
def list (rpath : Option (List UInt8)) (justnames : Int) : FtpM (Option UInt8) :=
  if justnames ≠ 0 then ftpdata E 10000 none (some .own) [78, 76, 83, 84] rpath
  else ftpdata E 10000 none (some .own) [76, 73, 83, 84] rpath

/-- `getfile(const char* rpath, const char* lpath)` -/
def getfile (rpath lpath : Option (List UInt8)) : FtpM (Option UInt8) := do
  let lpath := lpath <|> rpath
  match rpath with
  | none => do
    let _ ← list E none 0
  | some _ => pure ()
  modify fun b => { b with file := if E.creates lpath then some [] else none }
  ftpdata E 10000 none (some .file) [82, 69, 84, 82] rpath

/-- `putfile(const char* lpath, const char* rpath)` -/
def putfile (lpath rpath : Option (List UInt8)) : FtpM (Option UInt8) :=
  let rpath := rpath <|> lpath
  match lpath with
  | none => reject
  | some lpath => ftpdata E 10000 (some (E.content lpath)) none [83, 84, 79, 82] rpath

/-- `putfile(const char* lpath)` -/
def putfileUnique (lpath : Option (List UInt8)) : FtpM (Option UInt8) :=
  match lpath with
  | none => reject
  | some lpath => ftpdata E 10000 (some (E.content lpath)) none [83, 84, 79, 85] (some lpath)

/-- `append(const char* lpath, const char* rpath)`, which computes `rpath` and sends no argument. -/
def append (lpath _rpath : Option (List UInt8)) : FtpM (Option UInt8) :=
  match lpath with
  | none => reject
  | some lpath => ftpdata E 10000 (some (E.content lpath)) none [65, 80, 80, 69] none

/-- `allocate(int numbytes)` -/
def allocate (numbytes : Int) : FtpM (Option UInt8) :=
  sendCmd E [65, 76, 76, 79] (some (decimalInt numbytes))

/-- `restart(int marker)` -/
def restart (marker : Int) : FtpM (Option UInt8) :=
  sendCmd E [82, 69, 83, 84] (some (decimalInt marker))

/-- `rename(const char* rpath, const char* newrpath)` -/
def rename (rpath newrpath : Option (List UInt8)) : FtpM (Option UInt8) :=
  if rpath = none ∨ newrpath = none then reject
  else do
    let code ← sendCmd E [82, 78, 70, 82] rpath
    note (.compared code)
    if refused code then reject else sendCmd E [82, 78, 84, 79] newrpath

/-- `rmfile(const char* rpath)` -/
def rmfile (rpath : Option (List UInt8)) : FtpM (Option UInt8) := sendCmd E [68, 69, 76, 69] rpath

/-- `rmdir(const char* rpath)` -/
def rmdir (rpath : Option (List UInt8)) : FtpM (Option UInt8) := sendCmd E [82, 77, 68] rpath

/-- `mkdir(const char* rpath)` -/
def mkdir (rpath : Option (List UInt8)) : FtpM (Option UInt8) := sendCmd E [77, 75, 68] rpath

/-- `pwd()` -/
def pwd : FtpM (Option UInt8) := sendCmd E [80, 87, 68] none

/-- `system()` -/
def system : FtpM (Option UInt8) := sendCmd E [83, 89, 83, 84] none

/-- `status()` -/
def status : FtpM (Option UInt8) := sendCmd E [83, 84, 65, 84] none

end Members

end Ftpbuf

/-! ## Surroundings in which nothing fails -/

/-- A data connection over `N` that every call of the system succeeds for. -/
def DataPort.over (N : Net) : DataPort where
  socket := .ok ()
  bind _ := .ok ()
  localaddr := .ok ⟨0, 10000⟩
  listen := .ok ()
  accept := .ok 4
  close := .ok ()
  net := N
  platform := .small
  gbuf _ := 0
  pbuf _ := 0
  errno := 0
  buf _ := 0

/-- A client whose server sends `chunks` over the control connection. -/
def Env.over (chunks : List (List UInt8)) (fuel : Nat) (N : Net) : Env where
  K := Kernel.sink.chunked chunks
  fuel := fuel
  endian := .big
  hostAddr := some 2130706433
  resolve _ := none
  creates _ := true
  content _ := []
  port _ := .over N

/-! ## Sequences of commands -/

/-- A call of a public method; `none` is the null pointer. -/
inductive Command where
  | getResponse
  | help
  | noop
  | quit
  | abort
  | user (name : Option (List UInt8))
  | passwd (pw : Option (List UInt8))
  | acct (ac : Option (List UInt8))
  | cd (dir : Option (List UInt8))
  | useraddr (sa : SockInetAddr)
  | useraddrHost (hostname : List UInt8) (portno : Int)
  | serverPort (portno : Int)
  | repType (rt : Reptype)
  | fileStru (fs : Filestru)
  | transMode (tm : Transmode)
  | getfile (rpath lpath : Option (List UInt8))
  | list (rpath : Option (List UInt8)) (justnames : Int)
  | putfile (lpath rpath : Option (List UInt8))
  | putfileUnique (lpath : Option (List UInt8))
  | append (lpath rpath : Option (List UInt8))
  | allocate (numbytes : Int)
  | restart (marker : Int)
  | rename (rpath newrpath : Option (List UInt8))
  | rmfile (rpath : Option (List UInt8))
  | rmdir (rpath : Option (List UInt8))
  | mkdir (rpath : Option (List UInt8))
  | pwd
  | system
  | status

def Command.call (E : Env) : Command → FtpM (Option UInt8)
  | .getResponse => Ftpbuf.getResponse E
  | .help => Ftpbuf.help E
  | .noop => Ftpbuf.noop E
  | .quit => Ftpbuf.quit E
  | .abort => Ftpbuf.abort E
  | .user name => Ftpbuf.user E name
  | .passwd pw => Ftpbuf.passwd E pw
  | .acct ac => Ftpbuf.acct E ac
  | .cd dir => Ftpbuf.cd E dir
  | .useraddr sa => Ftpbuf.useraddr E sa
  | .useraddrHost hostname portno => Ftpbuf.useraddrHost E hostname portno
  | .serverPort portno => Ftpbuf.serverPort E portno
  | .repType rt => Ftpbuf.repType E rt
  | .fileStru fs => Ftpbuf.fileStru E fs
  | .transMode tm => Ftpbuf.transMode E tm
  | .getfile rpath lpath => Ftpbuf.getfile E rpath lpath
  | .list rpath justnames => Ftpbuf.list E rpath justnames
  | .putfile lpath rpath => Ftpbuf.putfile E lpath rpath
  | .putfileUnique lpath => Ftpbuf.putfileUnique E lpath
  | .append lpath rpath => Ftpbuf.append E lpath rpath
  | .allocate numbytes => Ftpbuf.allocate E numbytes
  | .restart marker => Ftpbuf.restart E marker
  | .rename rpath newrpath => Ftpbuf.rename E rpath newrpath
  | .rmfile rpath => Ftpbuf.rmfile E rpath
  | .rmdir rpath => Ftpbuf.rmdir E rpath
  | .mkdir rpath => Ftpbuf.mkdir E rpath
  | .pwd => Ftpbuf.pwd E
  | .system => Ftpbuf.system E
  | .status => Ftpbuf.status E

/-- A call, and the code it returned. -/
def Command.run (E : Env) (c : Command) : FtpM Unit := do
  let code ← c.call E
  note (.returned code)

end Ftp

end Sockstream
