import SocketPlusPlus.Logic.Emits
import SocketPlusPlus.Logic.Lines
import SocketPlusPlus.Protocol.Port

/-!
# What the commands ask for

RFC 959 writes a command as `VERB`, or as `VERB SP argument`, and ends it with a CRLF. `requests`
reads the commands from what a client has handed to its control connection, and
`Operation.requests` says which commands belong to a call of a method that is given a path or
another parameter. `Command.language` is what the methods really put on the control connection.

The two agree for every method but two: `trans_mode` sends `STRU` where the RFC has `MODE`, and
`append` sends `APPE` without the path.
-/

namespace Sockstream.Ftp

open Exec Memory Bytes Lines

/-! ## Reading commands

A server splits what it reads into lines, and a line at its first blank. -/

/-- The verbs of the commands that `ftpbuf` knows. -/
inductive Verb where
  | user
  | pass
  | acct
  | cwd
  | quit
  | port
  | pasv
  | type
  | stru
  | mode
  | retr
  | stor
  | stou
  | appe
  | allo
  | rest
  | rnfr
  | rnto
  | abor
  | dele
  | rmd
  | mkd
  | pwd
  | list
  | nlst
  | syst
  | stat
  | help
  | noop
deriving DecidableEq, Repr

def Verb.text : Verb → List UInt8
  | .user => [85, 83, 69, 82]
  | .pass => [80, 65, 83, 83]
  | .acct => [65, 67, 67, 84]
  | .cwd => [67, 87, 68]
  | .quit => [81, 85, 73, 84]
  | .port => [80, 79, 82, 84]
  | .pasv => [80, 65, 83, 86]
  | .type => [84, 89, 80, 69]
  | .stru => [83, 84, 82, 85]
  | .mode => [77, 79, 68, 69]
  | .retr => [82, 69, 84, 82]
  | .stor => [83, 84, 79, 82]
  | .stou => [83, 84, 79, 85]
  | .appe => [65, 80, 80, 69]
  | .allo => [65, 76, 76, 79]
  | .rest => [82, 69, 83, 84]
  | .rnfr => [82, 78, 70, 82]
  | .rnto => [82, 78, 84, 79]
  | .abor => [65, 66, 79, 82]
  | .dele => [68, 69, 76, 69]
  | .rmd => [82, 77, 68]
  | .mkd => [77, 75, 68]
  | .pwd => [80, 87, 68]
  | .list => [76, 73, 83, 84]
  | .nlst => [78, 76, 83, 84]
  | .syst => [83, 89, 83, 84]
  | .stat => [83, 84, 65, 84]
  | .help => [72, 69, 76, 80]
  | .noop => [78, 79, 79, 80]

/-- A command, as it is read from its line. -/
structure Request where
  verb : List UInt8
  arg : Option (List UInt8)
deriving DecidableEq, Repr

def Verb.request (v : Verb) (arg : Option (List UInt8)) : Request := ⟨v.text, arg⟩

/-- `VERB`, or `VERB SP argument` -/
def Request.line (r : Request) : List UInt8 :=
  match r.arg with
  | none => r.verb
  | some arg => r.verb ++ 32 :: arg

def Request.bytes (r : Request) : List UInt8 := ended r.line

/-- The verb is what stands in front of the first space, the argument what stands behind it. -/
def Request.ofLine (line : List UInt8) : Request :=
  match line.dropWhile (· ≠ 32) with
  | [] => ⟨line, none⟩
  | _ :: arg => ⟨line.takeWhile (· ≠ 32), some arg⟩

/-- The commands whose line is complete. -/
def requests (bs : List UInt8) : List Request := (complete bs).map Request.ofLine

/-- The commands but those that announce a data connection. -/
def commands (bs : List UInt8) : List Request :=
  (requests bs).filter (·.verb ≠ Verb.port.text)

/-- A command that can be read back. -/
structure Request.Plain (r : Request) : Prop where
  noSpace : 32 ∉ r.verb
  verb : Clean r.verb
  arg : ∀ arg, r.arg = some arg → Clean arg

theorem Verb.plain (v : Verb) {arg : Option (List UInt8)}
    (h : ∀ text, arg = some text → Clean text) : (v.request arg).Plain := by
  have hverb : 32 ∉ v.text ∧ Clean v.text := by cases v <;> decide
  exact ⟨hverb.1, hverb.2, h⟩

section Reading

variable {r : Request} {bs bs' more : List UInt8}

theorem Request.Plain.clean_line (h : r.Plain) : Clean r.line := by
  obtain ⟨verb, arg⟩ := r
  cases arg with
  | none => exact h.verb
  | some arg => exact h.verb.append (.cons (by decide) (by decide) (h.arg arg rfl))

theorem Request.Plain.ofLine_line (h : r.Plain) : Request.ofLine r.line = r := by
  obtain ⟨verb, arg⟩ := r
  have hverb : ∀ b ∈ verb, decide (b ≠ 32) = true := by
    intro b hb
    refine decide_eq_true ?_
    rintro rfl
    exact h.noSpace hb
  unfold Request.ofLine Request.line
  cases arg with
  | none =>
    have hdrop : verb.dropWhile (· ≠ 32) = [] := List.dropWhile_eq_nil_iff.mpr hverb
    simp only [hdrop]
  | some arg =>
    have hdrop : (verb ++ 32 :: arg).dropWhile (· ≠ 32) = 32 :: arg := by
      rw [List.dropWhile_append_of_pos hverb]
      exact List.dropWhile_cons_of_neg (by decide)
    have htake : (verb ++ 32 :: arg).takeWhile (· ≠ 32) = verb := by
      rw [List.takeWhile_append_of_pos hverb, List.takeWhile_cons_of_neg (by decide),
        List.append_nil]
    simp only [hdrop, htake]

theorem requests_bytes (h : r.Plain) (more : List UInt8) :
    requests (r.bytes ++ more) = r :: requests more := by
  unfold requests Request.bytes
  rw [complete_ended h.clean_line.2, List.map_cons, h.ofLine_line]

theorem commands_bytes (h : r.Plain) (hport : r.verb ≠ Verb.port.text) (more : List UInt8) :
    commands (r.bytes ++ more) = r :: commands more := by
  unfold commands
  rw [requests_bytes h]
  exact List.filter_cons_of_pos (decide_eq_true hport)

theorem commands_port (h : r.Plain) (hport : r.verb = Verb.port.text) (more : List UInt8) :
    commands (r.bytes ++ more) = commands more := by
  unfold commands
  rw [requests_bytes h]
  exact List.filter_cons_of_neg (by simpa using hport)

theorem commands_of_part (h : bs <+: bs') : commands bs <+: commands bs' :=
  ((complete_of_part h).map _).filter _

end Reading

/-! ## Writing commands

What is outgoing is on the wire or pending in the put area. A program that writes appends one of the
words of a language to it, or, if it throws, the beginning of one. -/

/-- What has gone out or is to go out. -/
def outgoing (s : St UInt8) : List UInt8 := s.wire ++ s.self.pending

def Ftpbuf.outgoing (b : Ftpbuf) : List UInt8 := Ftp.outgoing b.ctl.buf

def Ftpbuf.PutOpen (b : Ftpbuf) : Prop := b.ctl.buf.PutOpen

/-- The program writes words of `L` on the control connection. -/
abbrev Writes {α : Type} (L : Language UInt8) (c : FtpM α) : Prop :=
  Emits Ftpbuf.PutOpen Ftpbuf.outgoing L c

section Sockbuf

variable {α : Type} {cs : List UInt8}

theorem emits_of_hands {c : M UInt8 α} (h : Hands cs c) : Emits St.PutOpen outgoing {cs} c := by
  refine ⟨⟨cs, rfl⟩, fun s hs => (h s hs).mono ?_ ?_⟩
  · intro _ s' hw
    exact ⟨hw.putOpen, cs, rfl, hw.sent⟩
  · rintro _ s' ⟨-, p, hp, hw⟩
    exact ⟨hw.putOpen, cs, rfl, p, hp, hw.sent⟩

/-- Nothing is written. -/
def Quiet (s s' : St UInt8) : Prop := s.PutOpen → s'.PutOpen ∧ outgoing s' = outgoing s

instance : IsPreorder (St UInt8) Quiet where
  refl _ := fun hs => ⟨hs, rfl⟩
  trans _ _ _ h h' := fun hs => ⟨(h' (h hs).1).1, (h' (h hs).1).2.trans (h hs).2⟩

theorem quiet_get (s : St UInt8) (get : Option (GetArea UInt8)) :
    Quiet s { s with self := { s.self with get := get } } :=
  fun hs => ⟨hs, rfl⟩

theorem quiet_of_exchanged {ins : List (Except Errno (List UInt8))} {s s' : St UInt8}
    (h : Exchanged [] ins s s') : Quiet s s' := by
  refine fun hs => ⟨hs.of_self h.rep h.self, ?_⟩
  unfold outgoing
  rw [h.wire, h.self, List.append_nil]

theorem quiet_read (K : Kernel) (len : Nat) :
    Within Quiet (read K len : M UInt8 (List UInt8)) := by
  refine fun s => (read_spec K len s).mono (fun _ _ h => quiet_of_exchanged h.2) ?_
  rintro _ s' ⟨-, ins, -, h⟩
  exact quiet_of_exchanged h

theorem emits_sync (K : Kernel) : Emits St.PutOpen outgoing {[]} (sync K : M UInt8 Int) := by
  refine emits_of_hands fun s hs => (sync_spec K hs).mono (fun _ _ h => h.2.1) ?_
  rintro e s' ⟨he, h⟩
  exact ⟨he, [], List.nil_prefix, h⟩

end Sockbuf

section Replies

variable {α : Type} {L : Language UInt8}

theorem emits_onBuf {c : M UInt8 α} (h : Emits St.PutOpen outgoing L c) :
    Emits (fun t : Client (List UInt8) => t.buf.PutOpen) (fun t => outgoing t.buf) L (onBuf c) :=
  h.zoom fun _ _ => rfl

theorem writes_onCtl {c : ClientM (List UInt8) α}
    (h : Emits (fun t => t.buf.PutOpen) (fun t => outgoing t.buf) L c) : Writes L (onCtl c) :=
  h.zoom fun _ _ => rfl

/-- Reading a reply writes nothing. -/
theorem emits_responseLoop (K : Kernel) (fuel : Nat) (firstline : Bool) :
    Emits (fun t => t.buf.PutOpen) (fun t => outgoing t.buf) 1
      (responseLoop K fuel firstline) := by
  let R : Client (List UInt8) → Client (List UInt8) → Prop := fun t t' => Quiet t.buf t'.buf
  have hR : IsPreorder (Client (List UInt8)) R :=
    { refl := fun t => refl_of Quiet t.buf, trans := fun _ _ _ h h' => trans_of Quiet h h' }
  have hreading : Reading K R := .of_buf (quiet_read K) quiet_get
  have hloop : Within R (responseLoop K fuel firstline) :=
    within_responseLoop hreading (fun _ => .modify fun t => refl_of Quiet t.buf) fuel firstline
  exact .of_within hloop fun _ _ h => h

/-- The sockbuf of the control connection is left alone. -/
def SameBuf (b b' : Ftpbuf) : Prop := b'.ctl.buf = b.ctl.buf

instance : IsPreorder Ftpbuf SameBuf where
  refl _ := rfl
  trans _ _ _ h h' := h'.trans h

theorem writes_nothing {c : FtpM α} (h : Within SameBuf c) : Writes 1 c := by
  refine .of_within h ?_
  intro b b' hbuf hb
  unfold Ftpbuf.PutOpen Ftpbuf.outgoing
  rw [show b'.ctl.buf = b.ctl.buf from hbuf]
  exact ⟨hb, rfl⟩

theorem sameBuf_note (n : Note) : Within SameBuf (note n) := fun _ => rfl

theorem writes_note (n : Note) : Writes 1 (note n) := writes_nothing (sameBuf_note n)

theorem writes_getResponse (E : Env) : Writes 1 (Ftpbuf.getResponse E) := by
  have hloop : Emits (fun t => t.buf.PutOpen) (fun t => outgoing t.buf) 1
      (Ftp.getResponse E.K E.fuel) :=
    .before (emits_responseLoop E.K E.fuel true) fun _ => .before (.of_eq .get) fun _ => .pure _
  refine .before (.of_eq .get) fun b => .before (writes_note _) fun _ => ?_
  refine .before (writes_onCtl hloop) fun code => .before (.of_eq .get) fun b' => ?_
  exact .before (writes_note _) fun _ => .pure _

end Replies

section Commands

variable (E : Env)

theorem writes_xsputn (cs : List UInt8) : Writes {cs} (onCtl (onBuf (xsputn E.K cs))) :=
  writes_onCtl (emits_onBuf (emits_of_hands (.xsputn E.K cs)))

theorem writes_sendCmd (cmd : List UInt8) (arg : Option (List UInt8)) :
    Writes {Request.bytes ⟨cmd, arg⟩} (Ftpbuf.sendCmd E cmd arg) := by
  have hend : Writes {[13, 10] ++ []} (do
      let _ ← onCtl (onBuf (xsputn E.K [13, 10]))
      let _ ← onCtl (onBuf (sync E.K))
      Ftpbuf.getResponse E) :=
    .append (writes_xsputn E _) fun _ =>
      .before (writes_onCtl (emits_onBuf (emits_sync E.K))) fun _ => writes_getResponse E
  unfold Ftpbuf.sendCmd
  cases arg with
  | none => exact .append (writes_xsputn E cmd) fun _ => hend
  | some arg =>
    have harg := Emits.append (writes_xsputn E [32]) fun _ =>
      Emits.append (writes_xsputn E arg) fun _ => hend
    refine (Emits.append (writes_xsputn E cmd) fun _ => harg).mono ?_
    rintro _ rfl
    show cmd ++ ([32] ++ (arg ++ ([13, 10] ++ []))) = cmd ++ 32 :: arg ++ [13, 10]
    simp

/-- A `PORT` command. -/
def announcement : Language UInt8 :=
  { bs | ∃ arg, Clean arg ∧ bs = (Verb.port.request (some arg)).bytes }

theorem clean_decimal (n : Nat) : Clean (decimal n) := by
  rw [decimal_eq]
  exact ⟨Decimal.not_mem_text n (by decide), Decimal.not_mem_text n (by decide)⟩

theorem clean_intercalate (ns : List Nat) : Clean ([44].intercalate (ns.map decimal)) := by
  induction ns with
  | nil => exact clean_nil
  | cons n ns ih =>
    cases ns with
    | nil => simpa [List.intercalate_singleton] using clean_decimal n
    | cons m ns =>
      rw [List.map_cons, List.map_cons, List.intercalate_cons_cons]
      exact ((clean_decimal n).append (.cons (by decide) (by decide) clean_nil)).append ih

theorem clean_hostPort (e : Endian) (sAddr : UInt32) {portno : Nat} (h : portno < 2 ^ 16) :
    Clean (hostPort e sAddr portno) := by
  rw [hostPort_eq e sAddr h]
  have hmap : (networkBytes e sAddr portno).map (fun b => decimal b.toNat)
      = ((networkBytes e sAddr portno).map UInt8.toNat).map decimal := by
    rw [List.map_map]
    rfl
  rw [hmap]
  exact clean_intercalate _

theorem announcement_possible : ∃ bs, bs ∈ announcement := ⟨_, [], clean_nil, rfl⟩

theorem writes_useraddr (sa : SockInetAddr) : Writes announcement (Ftpbuf.useraddr E sa) := by
  unfold Ftpbuf.useraddr
  refine .after (.ite ?_ (.pure _)) (fun sAddr => ?_) announcement_possible
  · cases E.hostAddr with
    | none => exact .of_eq (.throw _)
    | some sAddr => exact .pure _
  · refine (writes_sendCmd E _ _).mono ?_
    rintro _ rfl
    exact ⟨_, clean_hostPort E.endian sAddr (E.endian.ntohs_lt _), rfl⟩

end Commands

/-! ### The data connection -/

section Data

theorem writes_ftpdata (E : Env) (portno : Int) (i : Option (List UInt8)) (o : Option Sink)
    (cmd : List UInt8) (arg : Option (List UInt8)) :
    Writes (announcement * {Request.bytes ⟨cmd, arg⟩}) (Ftpbuf.ftpdata E portno i o cmd arg) := by
  have hpossible : ∃ bs, bs ∈ announcement * {Request.bytes ⟨cmd, arg⟩} := by
    obtain ⟨bs, hbs⟩ := announcement_possible
    exact ⟨_, Language.append_mem_mul hbs rfl⟩
  have hanswered : ∀ {α : Type} (r : Except Sockerr α), Writes 1 (answered r) :=
    fun r => .of_eq (within_answered r)
  have hreject : Writes 1 Ftpbuf.reject := .before (writes_note _) fun _ => .pure _
  unfold Ftpbuf.ftpdata
  refine .after (.of_eq .get) (fun b => ?_) hpossible
  refine .after (hanswered _) (fun _ => ?_) hpossible
  refine .after (.of_eq (within_bindUntilSuccess _ _ _)) (fun _ => ?_) hpossible
  refine .after (hanswered _) (fun sa => .bind (writes_useraddr E sa) (fun _ => ?_) ⟨_, rfl⟩)
    hpossible
  refine .after (hanswered _) (fun _ => ?_) ⟨_, rfl⟩
  refine .before (writes_sendCmd E cmd arg) fun code => .before (writes_note _) fun _ => ?_
  refine .before (.ite hreject (.before (.of_eq .get) fun b1 => .ite ?_ ?_)) fun ret =>
    .before (hanswered _) fun _ => .pure ret
  · refine .before (writes_nothing ?_) fun _ => writes_getResponse E
    refine within_recvData ?_ (fun _ => sameBuf_note _) _ _
    intro bytes b2
    cases o with
    | none => rfl
    | some o => cases o <;> rfl
  · cases i with
    | none => exact writes_getResponse E
    | some rest =>
      refine .before (writes_nothing ?_) fun _ => writes_getResponse E
      exact within_sendData (sameBuf_note _) (fun _ => sameBuf_note _) _ _ rest

end Data

/-! ### The methods

The language of a call: the command alone, or with the command for the data port in front. -/

/-- A command of its own. -/
def plainly (v : Verb) (arg : Option (List UInt8)) : Language UInt8 := {(v.request arg).bytes}

/-- A command that needs a data connection. -/
def announced (v : Verb) (arg : Option (List UInt8)) : Language UInt8 :=
  announcement * plainly v arg

/-- What a call puts on the control connection. -/
def Command.language : Command → Language UInt8
  | .getResponse => 1
  | .help => plainly .help none
  | .noop => plainly .noop none
  | .quit => plainly .quit none
  | .abort => plainly .abor none
  | .user name => plainly .user name
  | .passwd pw => plainly .pass pw
  | .acct ac => plainly .acct ac
  | .cd dir => plainly .cwd dir
  | .useraddr _ => announcement
  | .useraddrHost _ _ => 1 + announcement
  | .serverPort portno => plainly .pasv (some (decimalInt (portno / 256) ++ [44] ++
      decimalInt (portno % 256)))
  | .repType rt => plainly .type reptype[rt.ctorIdx]?
  | .fileStru fs => plainly .stru filestru[fs.ctorIdx]?
  -- not `MODE`
  | .transMode tm => plainly .stru transmode[tm.ctorIdx]?
  -- without a path to get, the directory is listed first
  | .getfile rpath _ => rpath.elim (announced .list none) (fun _ => 1) * announced .retr rpath
  | .list rpath justnames => if justnames ≠ 0 then announced .nlst rpath else announced .list rpath
  | .putfile lpath rpath => lpath.elim 1 fun lpath => announced .stor (rpath <|> some lpath)
  | .putfileUnique lpath => lpath.elim 1 fun lpath => announced .stou (some lpath)
  -- no path is sent
  | .append lpath _ => lpath.elim 1 fun _ => announced .appe none
  | .allocate numbytes => plainly .allo (some (decimalInt numbytes))
  | .restart marker => plainly .rest (some (decimalInt marker))
  | .rename rpath newrpath => rpath.elim 1 fun rpath => newrpath.elim 1 fun newrpath =>
    plainly .rnfr (some rpath) * (1 + plainly .rnto (some newrpath))
  | .rmfile rpath => plainly .dele rpath
  | .rmdir rpath => plainly .rmd rpath
  | .mkdir rpath => plainly .mkd rpath
  | .pwd => plainly .pwd none
  | .system => plainly .syst none
  | .status => plainly .stat none

section Methods

variable (E : Env)

theorem writes_reject : Writes 1 Ftpbuf.reject := .before (writes_note _) fun _ => .pure _

theorem writes_plainly (v : Verb) (arg : Option (List UInt8)) :
    Writes (plainly v arg) (Ftpbuf.sendCmd E v.text arg) := writes_sendCmd E v.text arg

theorem writes_announced (v : Verb) (i : Option (List UInt8)) (o : Option Sink)
    (arg : Option (List UInt8)) :
    Writes (announced v arg) (Ftpbuf.ftpdata E 10000 i o v.text arg) :=
  writes_ftpdata E 10000 i o v.text arg

theorem writes_list (rpath : Option (List UInt8)) (justnames : Int) :
    Writes (Command.language (.list rpath justnames)) (Ftpbuf.list E rpath justnames) := by
  show Writes (if justnames ≠ 0 then _ else _) (if justnames ≠ 0 then _ else _)
  split
  · exact writes_announced E .nlst _ _ _
  · exact writes_announced E .list _ _ _

theorem writes_getfile (rpath lpath : Option (List UInt8)) :
    Writes (Command.language (.getfile rpath lpath)) (Ftpbuf.getfile E rpath lpath) := by
  have hopen : ∀ f : Ftpbuf → Option (List UInt8),
      Writes 1 (modify fun b => { b with file := f b }) := fun f => writes_nothing fun _ => rfl
  have hget := writes_announced E .retr none (some .file) rpath
  cases rpath with
  | none =>
    refine .bind (writes_list E none 0) (fun _ => ?_) hget.possible
    exact .after (hopen _) (fun _ => hget) hget.possible
  | some rpath =>
    show Writes (1 * announced .retr (some rpath)) _
    rw [one_mul]
    exact .after (hopen _) (fun _ => hget) hget.possible

theorem writes_rename (rpath newrpath : Option (List UInt8)) :
    Writes (Command.language (.rename rpath newrpath)) (Ftpbuf.rename E rpath newrpath) := by
  cases rpath with
  | none => exact writes_reject
  | some rpath =>
    cases newrpath with
    | none => exact writes_reject
    | some newrpath =>
      refine .bind (writes_sendCmd E Verb.rnfr.text (some rpath)) (fun code => ?_) ⟨[], .inl rfl⟩
      refine .after (writes_note _) (fun _ => .ite ?_ ?_) ⟨[], .inl rfl⟩
      · exact writes_reject.mono fun _ h => .inl h
      · exact (writes_sendCmd E Verb.rnto.text (some newrpath)).mono fun _ h => .inr h

/-- Every call puts on the control connection what `says` has of it. -/
theorem Command.writes (c : Command) : Writes c.language (c.call E) := by
  cases c with
  | getResponse => exact writes_getResponse E
  | useraddr sa => exact writes_useraddr E sa
  | useraddrHost hostname portno =>
    show Writes (1 + announcement) (Ftpbuf.useraddrHost E hostname portno)
    unfold Ftpbuf.useraddrHost
    cases E.resolve hostname with
    | none => exact (Emits.of_eq (.throw _)).mono fun _ h => .inl h
    | some sAddr => exact (writes_useraddr E _).mono fun _ h => .inr h
  | getfile rpath lpath => exact writes_getfile E rpath lpath
  | list rpath justnames => exact writes_list E rpath justnames
  | rename rpath newrpath => exact writes_rename E rpath newrpath
  | putfile lpath rpath =>
    cases lpath with
    | none => exact writes_reject
    | some lpath => exact writes_announced E .stor (some (E.content lpath)) none _
  | putfileUnique lpath =>
    cases lpath with
    | none => exact writes_reject
    | some lpath => exact writes_announced E .stou (some (E.content lpath)) none (some lpath)
  | append lpath rpath =>
    cases lpath with
    | none => exact writes_reject
    | some lpath => exact writes_announced E .appe (some (E.content lpath)) none none
  | help => exact writes_plainly E .help none
  | noop => exact writes_plainly E .noop none
  | quit => exact writes_plainly E .quit none
  | abort => exact writes_plainly E .abor none
  | user name => exact writes_plainly E .user name
  | passwd pw => exact writes_plainly E .pass pw
  | acct ac => exact writes_plainly E .acct ac
  | cd dir => exact writes_plainly E .cwd dir
  | serverPort portno => exact writes_plainly E .pasv _
  | repType rt => exact writes_plainly E .type _
  | fileStru fs => exact writes_plainly E .stru _
  | transMode tm => exact writes_plainly E .stru _
  | allocate numbytes => exact writes_plainly E .allo _
  | restart marker => exact writes_plainly E .rest _
  | rmfile rpath => exact writes_plainly E .dele rpath
  | rmdir rpath => exact writes_plainly E .rmd rpath
  | mkdir rpath => exact writes_plainly E .mkd rpath
  | pwd => exact writes_plainly E .pwd none
  | system => exact writes_plainly E .syst none
  | status => exact writes_plainly E .stat none

end Methods

end Sockstream.Ftp
