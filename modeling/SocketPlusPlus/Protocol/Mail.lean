import SocketPlusPlus.Logic.Lines
import SocketPlusPlus.Logic.Machine
import SocketPlusPlus.Protocol.Dialogue

/-!
# An SMTP client and its server

The methods of `smtpbuf`, and a server to talk to. The server reads lines; a line is a command, but
once it has let `DATA` pass the lines are the text of a mail, up to the one that is a single dot. It
answers every command and every text with one reply.

`smtpbuf` reads a reply behind each command and each text, if it has a stream to send it to, and
does not look at it. No read is in vain, whatever the server says (`mail_heard`). With a server that
lets every `DATA` pass the server reads the commands and the texts that the calls were made for
(`mail_read`), and the client hears all replies. If the server refuses `DATA` the text goes out all
the same, and every line of it is a command for the server (`mail_refused`).
-/

namespace Sockstream.Smtp

open Exec Memory Lines Transparency

/-! ## The members -/

/-- What surrounds an `smtpbuf`; `localhost` is what `localhost()` returns or throws. -/
structure Env where
  K : Kernel
  fuel : Nat
  localhost : Except Sockerr (List UInt8)

section Members

variable (E : Env)

/-- `helo()`, which reads the greeting first. -/
def helo : ClientM Unit Unit := do
  answer E.K E.fuel
  match E.localhost with
  | .error e => throw (.sockerr e)
  | .ok host => sendCmd E.K E.fuel [72, 69, 76, 79, 32] (some host) none

/-- `mail(const char* reverse_path)` -/
def mail (reversePath : Option (List UInt8)) : ClientM Unit Unit :=
  match reversePath with
  | some path =>
    sendCmd E.K E.fuel [77, 65, 73, 76, 32, 70, 82, 79, 77, 58, 60] (some path) (some [62])
  | none => sendCmd E.K E.fuel [77, 65, 73, 76, 32, 70, 82, 79, 77, 58, 60, 62] none none

/-- `rcpt(const char* forward_path)` -/
def rcpt (forwardPath : Option (List UInt8)) : ClientM Unit Unit :=
  match forwardPath with
  | some path => sendCmd E.K E.fuel [82, 67, 80, 84, 32, 84, 79, 58, 60] (some path) (some [62])
  | none => pure ()

/-- `help(const char* s)` -/
def help (s : Option (List UInt8)) : ClientM Unit Unit :=
  sendCmd E.K E.fuel [72, 69, 76, 80, 32] s none

/-- `quit()` -/
def quit : ClientM Unit Unit := sendCmd E.K E.fuel [81, 85, 73, 84] none none

/-- `turn()` -/
def turn : ClientM Unit Unit := sendCmd E.K E.fuel [84, 85, 82, 78] none none

/-- `rset()` -/
def rset : ClientM Unit Unit := sendCmd E.K E.fuel [82, 83, 69, 84] none none

/-- `noop()` -/
def noop : ClientM Unit Unit := sendCmd E.K E.fuel [78, 79, 79, 80] none none

/-- `vrfy(const char* s)` -/
def vrfy (s : Option (List UInt8)) : ClientM Unit Unit :=
  sendCmd E.K E.fuel [86, 82, 70, 89, 32] s none

/-- `expn(const char* s)` -/
def expn (s : Option (List UInt8)) : ClientM Unit Unit :=
  sendCmd E.K E.fuel [69, 88, 80, 78, 32] s none

end Members

/-- A call of a public method; `none` is the null pointer. -/
inductive Command where
  | helo
  | mail (reversePath : Option (List UInt8))
  | rcpt (forwardPath : Option (List UInt8))
  | help (s : Option (List UInt8))
  | quit
  | turn
  | rset
  | noop
  | vrfy (s : Option (List UInt8))
  | expn (s : Option (List UInt8))
  | data
  | dataBuf (buf : Option (Nat → UInt8)) (len : Int)
  | dataFile (buf : Nat → UInt8) (reads : List Chunk)

def Command.call (E : Env) : Command → ClientM Unit Unit
  | .helo => Smtp.helo E
  | .mail reversePath => Smtp.mail E reversePath
  | .rcpt forwardPath => Smtp.rcpt E forwardPath
  | .help s => Smtp.help E s
  | .quit => Smtp.quit E
  | .turn => Smtp.turn E
  | .rset => Smtp.rset E
  | .noop => Smtp.noop E
  | .vrfy s => Smtp.vrfy E s
  | .expn s => Smtp.expn E s
  | .data => Smtp.data E.K E.fuel
  | .dataBuf buf len => Smtp.dataBuf E.K E.fuel buf len
  | .dataFile buf reads => Smtp.dataFile E.K E.fuel buf reads

/-! ## The server

A server is asked for commands and for texts. It reads lines, and whether a line is a command or
part of a text depends on what it has said to `DATA`. -/

/-- What a client asks for. -/
inductive Item where
  | command (line : List UInt8)
  | text (lines : List (List UInt8))
deriving DecidableEq

/-- `DATA` -/
def dataLine : List UInt8 := [68, 65, 84, 65]

/-- The reply is one of those that ask for more. -/
def Reply.Intermediate (R : Reply) : Prop := R.last.head? = some 51

instance (R : Reply) : Decidable R.Intermediate := inferInstanceAs (Decidable (_ = _))

structure Server (σ : Type) where
  start : σ
  greeting : Reply
  act : σ → Item → Reply × σ

namespace Server

variable {σ : Type} (S : Server σ)

/-- The server as it is asked. -/
def asked : Machine σ Item Reply where
  start := S.start
  step s item := ([(S.act s item).1], (S.act s item).2)

/-- The server as it reads lines: in a text it has those that have come so far. -/
def reading : Machine (σ × Option (List (List UInt8))) (List UInt8) Item where
  start := (S.start, none)
  step
  | (s, none), line =>
    let r := S.act s (.command line)
    ([.command line], (r.2, if line = dataLine ∧ r.1.Intermediate then some [] else none))
  | (s, some lines), line =>
    if line = [46] then ([.text lines], ((S.act s (.text lines)).2, none))
    else ([], (s, some (lines ++ [ascii.unstuff line])))

/-- The greeting, and one reply to everything the lines ask for. -/
def replies (ls : List (List UInt8)) : List Reply :=
  S.greeting :: S.asked.outputs (S.reading.outputs ls)

/-- Every `DATA` passes. -/
def Accepts : Prop := ∀ s, (S.act s (.command dataLine)).1.Intermediate

/-- No `DATA` passes. -/
def Refuses : Prop := ∀ s, ¬ (S.act s (.command dataLine)).1.Intermediate

/-- No reply is longer than the loop of `get_response` may run. -/
def Fits (fuel : Nat) : Prop :=
  S.greeting.lines.length < fuel ∧ ∀ s item, (S.act s item).1.lines.length < fuel

@[simp] theorem asked_step (s : σ) (item : Item) :
    S.asked.step s item = ([(S.act s item).1], (S.act s item).2) := rfl

@[simp] theorem reading_step_none (s : σ) (line : List UInt8) :
    S.reading.step (s, none) line
      = ([.command line], (S.act s (.command line)).2,
        if line = dataLine ∧ (S.act s (.command line)).1.Intermediate then some [] else none) := rfl

@[simp] theorem reading_step_some (s : σ) (lines : List (List UInt8)) (line : List UInt8) :
    S.reading.step (s, some lines) line
      = if line = [46] then ([.text lines], (S.act s (.text lines)).2, none)
        else ([], s, some (lines ++ [ascii.unstuff line])) := rfl

variable {S} {ls more : List (List UInt8)} {fuel : Nat}

theorem replies_of_part (h : ls <+: more) : S.replies ls <+: S.replies more :=
  (List.prefix_cons_inj _).mpr (Machine.outputs_of_part (Machine.outputs_of_part h))

/-- One reply to each item. -/
theorem length_asked (items : List Item) : (S.asked.outputs items).length = items.length := by
  suffices h : ∀ s, ((S.asked.transcriptFrom s items).flatMap Prod.snd).length = items.length from
    h S.start
  induction items with
  | nil => exact fun _ => rfl
  | cons item items ih =>
    intro s
    simp [Machine.transcriptFrom, ih]

theorem length_replies (S : Server σ) (ls : List (List UInt8)) :
    (S.replies ls).length = 1 + (S.reading.outputs ls).length := by
  rw [replies, List.length_cons, length_asked, Nat.add_comm]

theorem Fits.of_mem (h : S.Fits fuel) {R : Reply} (hR : R ∈ S.replies ls) :
    R.lines.length < fuel := by
  suffices hall : ∀ items s, ∀ R ∈ (S.asked.transcriptFrom s items).flatMap Prod.snd,
      R.lines.length < fuel by
    rcases List.mem_cons.mp hR with rfl | hmem
    · exact h.1
    · exact hall _ S.start R hmem
  intro items
  induction items with
  | nil => simp [Machine.transcriptFrom]
  | cons item items ih =>
    intro s R hR
    rw [Machine.transcriptFrom, List.flatMap_cons, List.mem_append] at hR
    rcases hR with hfirst | hrest
    · rw [List.mem_singleton.mp hfirst]
      exact h.2 s item
    · exact ih _ R hrest

/-- The reader is where the items that it has read have led to. -/
theorem reading_state (S : Server σ) (ls : List (List UInt8)) :
    (S.reading.after S.reading.start ls).1 = S.asked.after S.asked.start (S.reading.outputs ls) := by
  suffices h : ∀ s mode, (S.reading.after (s, mode) ls).1
      = S.asked.after s ((S.reading.transcriptFrom (s, mode) ls).flatMap Prod.snd) from
    h S.start none
  induction ls with
  | nil => exact fun _ _ => rfl
  | cons line ls ih =>
    intro s mode
    rw [Machine.after, Machine.transcriptFrom, List.flatMap_cons]
    cases mode with
    | none =>
      rw [reading_step_none]
      exact ih _ _
    | some lines =>
      rw [reading_step_some]
      split <;> exact ih _ _

/-- The server as it is seen through its connection. -/
def peer (S : Server σ) : Peer Reply where
  bytes := Reply.bytes
  bytes_ne_nil R := by simp [Reply.bytes, unlines]
  said bs := S.replies (complete bs)
  grows h := replies_of_part (complete_of_part h)

end Server

/-! ## What the calls send

Each call is made of parts, behind each of which the client asks for a reply: the command, and for a
mail also the text. -/

/-- The lines in which a text is sent. -/
def textLines (text : List UInt8) : List (List UInt8) :=
  (text.splitOn 10).map ascii.stuff ++ [[46]]

/-- What `data(const char* buf, int len)` is given to send. -/
def bufText (buf : Option (Nat → UInt8)) (len : Int) : List UInt8 :=
  buf.elim [] fun p => slice p 0 len.toNat

/-- What a call puts on the connection, in the parts behind each of which it asks for a reply. -/
def Command.parts (host : List UInt8) : Command → List (List (List UInt8))
  | .helo => [[[72, 69, 76, 79, 32] ++ host]]
  | .mail none => [[[77, 65, 73, 76, 32, 70, 82, 79, 77, 58, 60, 62]]]
  | .mail (some path) => [[[77, 65, 73, 76, 32, 70, 82, 79, 77, 58, 60] ++ (path ++ [62])]]
  | .rcpt none => []
  | .rcpt (some path) => [[[82, 67, 80, 84, 32, 84, 79, 58, 60] ++ (path ++ [62])]]
  | .help s => [[[72, 69, 76, 80, 32] ++ s.getD []]]
  | .quit => [[[81, 85, 73, 84]]]
  | .turn => [[[84, 85, 82, 78]]]
  | .rset => [[[82, 83, 69, 84]]]
  | .noop => [[[78, 79, 79, 80]]]
  | .vrfy s => [[[86, 82, 70, 89, 32] ++ s.getD []]]
  | .expn s => [[[69, 88, 80, 78, 32] ++ s.getD []]]
  | .data => [[dataLine]]
  | .dataBuf buf len => [[dataLine], textLines (bufText buf len)]
  | .dataFile _ reads => [[dataLine], textLines (content reads)]

def Command.lines (host : List UInt8) (cmd : Command) : List (List UInt8) :=
  (cmd.parts host).flatten

/-- The text of a mail. -/
def Command.text? : Command → Option (List UInt8)
  | .dataBuf buf len => some (bufText buf len)
  | .dataFile _ reads => some (content reads)
  | _ => none

/-- How many lines the text of a mail has. -/
def Command.textLength (cmd : Command) : Nat :=
  cmd.text?.elim 0 fun text => (text.splitOn 10).length

/-- What a call asks the server for. -/
def Command.items (host : List UInt8) (cmd : Command) : List Item :=
  cmd.text?.elim ((cmd.lines host).map .command)
    fun text => [.command dataLine, .text (text.splitOn 10)]

/-- The texts can stand in a command line; the byte behind a mail in memory is not a dot, and a mail
in a file is read line by line. -/
def Command.Sendable : Command → Prop
  | .mail text | .rcpt text | .help text | .vrfy text | .expn text => ∀ t, text = some t → 10 ∉ t
  | .dataBuf buf len => ∀ p, buf = some p → 0 < len → p len.toNat ≠ 46
  | .dataFile buf reads => LineChunks true buf reads
  -- leaves the text to the caller
  | .data => False
  | _ => True

section Lines

variable {host text : List UInt8} {cmd : Command}

theorem parts_of_text (h : cmd.text? = some text) :
    cmd.parts host = [[dataLine], textLines text] := by
  cases cmd <;> cases h <;> rfl

/-- A part is a line, but for the text of a mail. -/
theorem length_lines (host : List UInt8) (cmd : Command) :
    (cmd.lines host).length = (cmd.parts host).length + cmd.textLength := by
  cases htext : cmd.text? with
  | some text =>
    simp [Command.lines, Command.textLength, parts_of_text htext, htext, textLines]
    omega
  | none =>
    rw [Command.textLength, htext]
    cases cmd with
    | mail text | rcpt text => cases text <;> rfl
    | dataBuf | dataFile => cases htext
    | _ => rfl

theorem length_items (host : List UInt8) (cmd : Command) :
    (cmd.items host).length = (cmd.parts host).length := by
  have hlen := length_lines host cmd
  unfold Command.items
  cases htext : cmd.text? with
  | some text => rw [parts_of_text htext]; rfl
  | none => simpa [Command.textLength, htext] using hlen

theorem length_flatMap_lines (host : List UInt8) (cmds : List Command) :
    (cmds.flatMap (Command.lines host)).length
      = (cmds.flatMap (Command.parts host)).length + (cmds.map Command.textLength).sum := by
  induction cmds with
  | nil => rfl
  | cons cmd cmds ih =>
    simp only [List.flatMap_cons, List.length_append, List.map_cons, List.sum_cons, length_lines, ih]
    omega

theorem length_flatMap_items (host : List UInt8) (cmds : List Command) :
    (cmds.flatMap (Command.items host)).length = (cmds.flatMap (Command.parts host)).length := by
  induction cmds with
  | nil => rfl
  | cons cmd cmds ih => simp only [List.flatMap_cons, List.length_append, length_items, ih]

theorem ascii_textLines (text : List UInt8) :
    ascii.encode text ++ ascii.terminator = (textLines text).flatMap ended := by
  have hne : (text.splitOn 10).map ascii.stuff ≠ [] := by simp
  have hbody := Alphabet.intercalate_append [13, 10] hne
  have hterm : ascii.terminator = [13, 10] ++ ended [46] := rfl
  have hencode : ascii.encode text = [13, 10].intercalate ((text.splitOn 10).map ascii.stuff) := rfl
  rw [hterm, hencode, ← List.append_assoc, hbody, textLines, List.flatMap_append,
    List.flatMap_singleton]
  rfl

theorem lf_not_mem_textLines (text : List UInt8) : ∀ l ∈ textLines text, 10 ∉ l := by
  intro l hl
  rcases List.mem_append.mp hl with hl | hl
  · obtain ⟨line, hline, rfl⟩ := List.mem_map.mp hl
    exact Alphabet.lf_not_mem_stuff (Alphabet.not_mem_splitOn 10 text line hline)
  · rw [List.mem_singleton.mp hl]
    decide

/-- No line is broken by what the caller has passed. -/
theorem lf_not_mem_parts (hhost : 10 ∉ host) (h : cmd.Sendable) :
    ∀ part ∈ cmd.parts host, ∀ l ∈ part, 10 ∉ l := by
  have htext : ∀ (text : Option (List UInt8)), (∀ t, text = some t → 10 ∉ t) →
      10 ∉ text.getD [] := by
    intro text htext
    cases text with
    | none => exact List.not_mem_nil
    | some t => exact htext t rfl
  cases cmd with
  | helo => simpa [Command.parts] using hhost
  | data => exact h.elim
  | mail text => cases text <;> simp_all [Command.parts, Command.Sendable]
  | rcpt text => cases text <;> simp_all [Command.parts, Command.Sendable]
  | help text => simpa [Command.parts] using htext text h
  | vrfy text => simpa [Command.parts] using htext text h
  | expn text => simpa [Command.parts] using htext text h
  | dataBuf buf len =>
    have hlines := lf_not_mem_textLines (bufText buf len)
    simpa [Command.parts, dataLine] using hlines
  | dataFile buf reads =>
    have hlines := lf_not_mem_textLines (content reads)
    simpa [Command.parts, dataLine] using hlines
  | _ => simp [Command.parts]

theorem lf_not_mem_lines (hhost : 10 ∉ host) {cmds : List Command}
    (h : ∀ cmd ∈ cmds, cmd.Sendable) : ∀ l ∈ cmds.flatMap (Command.lines host), 10 ∉ l := by
  intro l hl
  obtain ⟨cmd, hcmd, hl⟩ := List.mem_flatMap.mp hl
  obtain ⟨part, hpart, hl⟩ := List.mem_flatten.mp hl
  exact lf_not_mem_parts hhost (h cmd hcmd) part hpart l hl

end Lines

/-! ## Two servers

They differ in what they say to `DATA`: with `354` the text may come, with `503` it is refused. No
reply of theirs has a second line. -/

/-- `ddd` -/
def bare (code : List UInt8) (hcode : Digits code) : Reply where
  lines := []
  last := code ++ [13]
  continuing := by simp
  final := by
    have hdigit : ∀ b, ¬ (48 ≤ b ∧ b ≤ 57) → b ∉ code := fun b hb hmem => hb (hcode.2 b hmem)
    refine ⟨⟨code, hcode, .inr rfl⟩, ?_, ?_, ?_⟩
    · simp [hdigit 10 (by decide)]
    · simp [hdigit 0 (by decide)]
    · simp [hcode.1]

/-- Greets with `220`, says `data` to `DATA` and `250` to everything else. -/
def office (data : Reply) : Server Unit where
  start := ()
  greeting := bare [50, 50, 48] ⟨rfl, by simp⟩
  act _ item := (match item with
    | .command line => if line = dataLine then data else bare [50, 53, 48] ⟨rfl, by simp⟩
    | .text _ => bare [50, 53, 48] ⟨rfl, by simp⟩, ())

theorem office_fits {data : Reply} (hdata : data.lines = []) : (office data).Fits 1 := by
  refine ⟨Nat.zero_lt_one, ?_⟩
  rintro s (line | lines)
  · show (if line = dataLine then data else _).lines.length < 1
    split
    · rw [hdata]
      exact Nat.zero_lt_one
    · exact Nat.zero_lt_one
  · exact Nat.zero_lt_one

/-- `354` -/
def proceed : Reply := bare [51, 53, 52] ⟨rfl, by simp⟩

/-- `503` -/
def refusal : Reply := bare [53, 48, 51] ⟨rfl, by simp⟩

/-- A client, called `a`, of such a server. -/
def sender (data : Reply) : Env := ⟨.serving (office data).peer, 1, .ok [97]⟩

/-- The mail `b`, a dot on a line of its own, `c`. -/
def mailed : List Command := [.dataBuf (some (copyIn (fun _ => 0) 0 [98, 10, 46, 10, 99])) 5]

theorem sendable_mailed : ∀ cmd ∈ mailed, cmd.Sendable := by
  intro cmd hcmd
  obtain rfl := List.mem_singleton.mp hcmd
  rintro p hp -
  obtain rfl := Option.some.inj hp
  decide

theorem mailed_ne_helo : ∀ cmd ∈ mailed, cmd ≠ .helo := by simp [mailed]

theorem office_accepts : (office proceed).Accepts := fun _ => rfl

theorem office_refuses : (office refusal).Refuses := by
  intro s
  show ¬ refusal.Intermediate
  decide

/-- That client, before it has called anything. -/
def beginner (o : Option (List UInt8)) : Client Unit :=
  ⟨fresh .small 3 (fun _ => 0) (fun _ => 0) 0, o, ()⟩

/-! ## What the server reads

If `DATA` passes, the server is in a text exactly while the client sends one. If it does not, the
lines of a text are commands. -/

section Reading

variable {σ : Type} {S : Server σ} {items : List Item} {ls : List (List UInt8)} {line : List UInt8}
  {host : List UInt8} {cmd : Command}

/-- The server is not in a text. -/
def Server.Idle (S : Server σ) (ls : List (List UInt8)) : Prop :=
  (S.reading.after S.reading.start ls).2 = none

theorem Server.Idle.state (h : S.Idle ls) :
    S.reading.after S.reading.start ls
      = (S.asked.after S.asked.start (S.reading.outputs ls), none) :=
  Prod.ext (S.reading_state ls) h

/-- A line that is read as a command. -/
theorem outputs_command (h : S.Idle ls) (line : List UInt8) :
    S.reading.outputs (ls ++ [line]) = S.reading.outputs ls ++ [.command line] := by
  rw [Machine.outputs_append, h.state]
  simp [Machine.transcriptFrom]

theorem idle_command (h : S.Idle ls)
    (hline : line ≠ dataLine ∨
      ¬ (S.act (S.asked.after S.asked.start (S.reading.outputs ls)) (.command line)).1.Intermediate) :
    S.Idle (ls ++ [line]) := by
  have hmode : ¬ (line = dataLine ∧ (S.act (S.asked.after S.asked.start (S.reading.outputs ls))
      (.command line)).1.Intermediate) := fun ⟨hdata, hpass⟩ => hline.elim (· hdata) (· hpass)
  unfold Server.Idle
  rw [Machine.after_append, h.state, Machine.after, Server.reading_step_none, if_neg hmode]
  rfl

/-- In a text the server collects the lines. -/
theorem reading_text (s : σ) (acc lines : List (List UInt8)) :
    S.reading.after (s, some acc) (lines.map ascii.stuff ++ [[46]])
      = ((S.act s (.text (acc ++ lines))).2, none) ∧
    (S.reading.transcriptFrom (s, some acc) (lines.map ascii.stuff ++ [[46]])).flatMap Prod.snd
      = [.text (acc ++ lines)] := by
  induction lines generalizing acc with
  | nil => simp [Machine.after, Machine.transcriptFrom]
  | cons line lines ih =>
    have hdot : ascii.stuff line ≠ [46] := Alphabet.stuff_ne_dot line
    have hline : ascii.unstuff (ascii.stuff line) = line := Alphabet.unstuff_stuff line
    have hrest := ih (acc ++ [line])
    rw [List.append_assoc] at hrest
    simpa [Machine.after, Machine.transcriptFrom, hdot, hline] using hrest

/-- `DATA` and a text, for a server that lets `DATA` pass. -/
theorem reading_data (h : S.Idle ls) (haccepts : S.Accepts) (text : List UInt8) :
    S.Idle (ls ++ (dataLine :: textLines text)) ∧
    S.reading.outputs (ls ++ (dataLine :: textLines text))
      = S.reading.outputs ls ++ [.command dataLine, .text (text.splitOn 10)] := by
  have hpass := haccepts (S.asked.after S.asked.start (S.reading.outputs ls))
  obtain ⟨hafter, houtputs⟩ := reading_text (S := S)
    (S.act (S.asked.after S.asked.start (S.reading.outputs ls)) (.command dataLine)).2 []
    (text.splitOn 10)
  constructor
  · unfold Server.Idle
    rw [Machine.after_append, h.state, Machine.after, Server.reading_step_none, if_pos ⟨rfl, hpass⟩,
      textLines, hafter]
  · rw [Machine.outputs_append, h.state, Machine.transcriptFrom, Server.reading_step_none,
      if_pos ⟨rfl, hpass⟩, List.flatMap_cons, textLines, houtputs]
    rfl

/-- A single dot is always answered, and behind it no server is in a text. -/
theorem reading_dot (s : σ × Option (List (List UInt8))) :
    (S.reading.step s [46]).1.length = 1 ∧ (S.reading.step s [46]).2.2 = none := by
  obtain ⟨s, mode⟩ := s
  cases mode <;> simp [dataLine]

/-- So whatever a server takes the lines of a text for, it answers, and is done. -/
theorem reading_textLines (S : Server σ) (ls : List (List UInt8)) (text : List UInt8) :
    S.Idle (ls ++ textLines text) ∧
      (S.reading.outputs ls).length < (S.reading.outputs (ls ++ textLines text)).length := by
  obtain ⟨hanswer, hdone⟩ := reading_dot (S := S)
    (S.reading.after S.reading.start (ls ++ (text.splitOn 10).map ascii.stuff))
  unfold Server.Idle textLines
  rw [← List.append_assoc, Machine.after_append, Machine.outputs_append, Machine.outputs_append]
  refine ⟨hdone, ?_⟩
  simp only [Machine.transcriptFrom, List.flatMap_cons, List.flatMap_nil, List.append_nil,
    List.length_append, hanswer]
  omega

/-- The lines of a call that is no mail are not `DATA`. -/
theorem command_ne_dataLine (hsend : cmd.Sendable) (htext : cmd.text? = none) :
    ∀ l ∈ cmd.lines host, l ≠ dataLine := by
  cases cmd with
  | mail text | rcpt text => cases text <;> simp [Command.lines, Command.parts, dataLine]
  | data => exact hsend.elim
  | dataBuf | dataFile => cases htext
  | _ => simp [Command.lines, Command.parts, dataLine]

/-- Lines that are read as commands, one after the other. -/
theorem reading_commands (h : S.Idle ls) {lines : List (List UInt8)}
    (hlines : S.Refuses ∨ ∀ l ∈ lines, l ≠ dataLine) :
    S.Idle (ls ++ lines) ∧
      S.reading.outputs (ls ++ lines) = S.reading.outputs ls ++ lines.map .command := by
  induction lines generalizing ls with
  | nil => simpa using h
  | cons line lines ih =>
    have hfirst : S.Idle (ls ++ [line]) := idle_command h
      (hlines.elim (fun hrefuses => ?_) fun hne => .inl (hne line List.mem_cons_self))
    · have hrest := ih hfirst
        (hlines.imp_right fun hne l hl => hne l (List.mem_cons_of_mem _ hl))
      rw [outputs_command h] at hrest
      simpa using hrest
    · by_cases hdata : line = dataLine
      · subst hdata
        exact .inr (hrefuses _)
      · exact .inl hdata

/-- A server that lets `DATA` pass reads what the call asks for. -/
theorem reading_call (host : List UInt8) (h : S.Idle ls) (haccepts : S.Accepts) (hsend : cmd.Sendable) :
    S.Idle (ls ++ cmd.lines host) ∧
      S.reading.outputs (ls ++ cmd.lines host) = S.reading.outputs ls ++ cmd.items host := by
  unfold Command.items
  cases htext : cmd.text? with
  | none => exact reading_commands h (.inr (command_ne_dataLine hsend htext))
  | some text =>
    have hdata := reading_data h haccepts text
    simpa [Command.lines, parts_of_text htext] using hdata

theorem reading_calls (host : List UInt8) (haccepts : S.Accepts) {cmds : List Command}
    (hsend : ∀ cmd ∈ cmds, cmd.Sendable) (h : S.Idle ls) :
    S.Idle (ls ++ cmds.flatMap (Command.lines host)) ∧
      S.reading.outputs (ls ++ cmds.flatMap (Command.lines host))
        = S.reading.outputs ls ++ cmds.flatMap (Command.items host) := by
  induction cmds generalizing ls with
  | nil => simpa using h
  | cons cmd cmds ih =>
    obtain ⟨hidle, houtputs⟩ := reading_call host h haccepts (hsend cmd List.mem_cons_self)
    have hrest := ih (fun c hc => hsend c (List.mem_cons_of_mem _ hc)) hidle
    simpa [houtputs] using hrest

end Reading

/-! ## The client

The members write lines that end with CRLF. The dots are those of `Protocol.Data`. -/

/-- Something is sent, and a reply is asked for. -/
def say (E : Env) (body : M UInt8 Unit) : ClientM Unit Unit := do
  onBuf body
  let _ ← onBuf (sync E.K)
  answer E.K E.fuel

section Client

variable {E : Env} {body : M UInt8 Unit} {t t' : Client Unit} {bs : List UInt8}

theorem sendCmd_eq (E : Env) (cmd : List UInt8) (s p : Option (List UInt8)) :
    sendCmd E.K E.fuel cmd s p = say E (do
      let _ ← xsputn E.K cmd
      let _ ← s.elim (pure 0) (xsputn E.K)
      let _ ← p.elim (pure 0) (xsputn E.K)
      let _ ← xsputn E.K [13, 10]
      pure ()) := by
  unfold say sendCmd
  simp only [onBuf_bind, bind_assoc]
  rfl

theorem dataText_eq (E : Env) (body : M UInt8 Unit) :
    dataText E.K E.fuel body = (do
      data E.K E.fuel
      say E (do
        body
        let _ ← xsputn E.K [13, 10, 46, 13, 10]
        pure ())) := by
  unfold say dataText
  simp only [onBuf_bind, bind_assoc]
  rfl

theorem hands_optional (K : Kernel) (text : Option (List UInt8)) :
    Hands (text.getD []) (text.elim (pure 0) (xsputn K)) := by
  cases text with
  | none => exact .pure 0
  | some text => exact .xsputn K text

/-- What `send_cmd` hands over is a line. -/
theorem hands_line (K : Kernel) (cmd : List UInt8) (s p : Option (List UInt8)) :
    Hands ([cmd ++ (s.getD [] ++ p.getD [])].flatMap ended) (do
      let _ ← xsputn K cmd
      let _ ← s.elim (pure 0) (xsputn K)
      let _ ← p.elim (pure 0) (xsputn K)
      let _ ← xsputn K [13, 10]
      pure ()) := by
  have h := (Hands.xsputn K cmd).bind fun _ => (hands_optional K s).bind fun _ =>
    (hands_optional K p).bind fun _ => (Hands.xsputn K [13, 10]).bind fun _ => Hands.pure ()
  have hbytes : [cmd ++ (s.getD [] ++ p.getD [])].flatMap ended
      = cmd ++ (s.getD [] ++ (p.getD [] ++ ([13, 10] ++ []))) := by simp [ended]
  rwa [hbytes]

theorem hands_text (K : Kernel) {text : List UInt8} (hbody : Hands (ascii.encode text) body) :
    Hands ((textLines text).flatMap ended) (do
      body
      let _ ← xsputn K [13, 10, 46, 13, 10]
      pure ()) := by
  rw [← ascii_textLines]
  have h := hbody.bind fun _ => (Hands.xsputn K [13, 10, 46, 13, 10]).bind fun _ => Hands.pure ()
  rwa [List.append_nil] at h

theorem hands_bufText (K : Kernel) {buf : Option (Nat → UInt8)} {len : Int}
    (h : Command.Sendable (.dataBuf buf len)) :
    Hands (ascii.encode (bufText buf len)) (sendBuf K buf len) := by
  cases buf with
  | none => exact .pure ()
  | some p =>
    by_cases hlen : len ≤ 0
    · have htext : bufText (some p) len = [] := by
        show slice p 0 len.toNat = []
        rw [Int.toNat_of_nonpos hlen, slice_zero]
      rw [htext, sendBuf, if_pos hlen]
      exact .pure ()
    · have hcast : (len.toNat : Int) = len := by omega
      have hbytes := hands_sendBuf K p len.toNat
      have hmem : slice p 0 (bufText (some p) len).length = bufText (some p) len := by
        simp [bufText]
      have hnext := h p rfl (by omega)
      rw [hcast] at hbytes
      have hencode := sendBufBytes_eq_encode hmem (by simpa [bufText] using hnext)
      rw [← hencode]
      simpa [bufText] using hbytes

theorem hands_content (K : Kernel) {buf : Nat → UInt8} {reads : List Chunk}
    (h : LineChunks true buf reads) :
    Hands (ascii.encode (content reads)) (sendFile K buf reads) := by
  rw [← Alphabet.encodeFrom_eq_encode, ← (fileBytes_eq_iff true buf reads).mpr h]
  exact hands_sendFile K buf reads

end Client

/-! ### Calls -/

/-- The call says the parts, one after the other. -/
def Speaks (E : Env) : List (List (List UInt8)) → ClientM Unit Unit → Prop
  | [], c => c = pure ()
  | part :: parts, c =>
    ∃ body rest, Hands (part.flatMap ended) body ∧ Speaks E parts rest ∧
      c = say E body >>= fun _ => rest

/-- What `localhost()` returns, if it returns. -/
def Env.host (E : Env) : List UInt8 :=
  match E.localhost with
  | .ok host => host
  | .error _ => []

section Speaks

variable {E : Env} {part : List (List UInt8)} {body : M UInt8 Unit} {cmd : Command}

theorem speaks_say (hbody : Hands (part.flatMap ended) body) : Speaks E [part] (say E body) :=
  ⟨body, pure (), hbody, rfl, (bind_pure (say E body)).symm⟩

theorem speaks_sendCmd (verb : List UInt8) (s p : Option (List UInt8)) :
    Speaks E [[verb ++ (s.getD [] ++ p.getD [])]] (sendCmd E.K E.fuel verb s p) := by
  rw [sendCmd_eq]
  exact speaks_say (hands_line E.K verb s p)

theorem speaks_argument (verb : List UInt8) (text : Option (List UInt8)) :
    Speaks E [[verb ++ text.getD []]] (sendCmd E.K E.fuel verb text none) := by
  have hline := speaks_sendCmd (E := E) verb text none
  rwa [Option.getD_none, List.append_nil] at hline

theorem speaks_word (verb : List UInt8) :
    Speaks E [[verb]] (sendCmd E.K E.fuel verb none none) := by
  have hline := speaks_argument (E := E) verb none
  rwa [Option.getD_none, List.append_nil] at hline

theorem speaks_mail {text : List UInt8} (hbody : Hands (ascii.encode text) body) :
    Speaks E [[dataLine], textLines text] (dataText E.K E.fuel body) := by
  have hdata : data E.K E.fuel = sendCmd E.K E.fuel dataLine none none := rfl
  rw [dataText_eq, hdata, sendCmd_eq]
  exact ⟨_, _, hands_line E.K dataLine none none, speaks_say (hands_text E.K hbody), rfl⟩

/-- A call says its parts. -/
theorem speaks_call (hhelo : cmd ≠ .helo) (h : cmd.Sendable) :
    Speaks E (cmd.parts E.host) (cmd.call E) := by
  cases cmd with
  | helo => exact absurd rfl hhelo
  | mail text =>
    cases text with
    | none => exact speaks_word [77, 65, 73, 76, 32, 70, 82, 79, 77, 58, 60, 62]
    | some path => exact speaks_sendCmd _ (some path) (some [62])
  | rcpt text =>
    cases text with
    | none => rfl
    | some path => exact speaks_sendCmd _ (some path) (some [62])
  | help text => exact speaks_argument [72, 69, 76, 80, 32] text
  | vrfy text => exact speaks_argument [86, 82, 70, 89, 32] text
  | expn text => exact speaks_argument [69, 88, 80, 78, 32] text
  | data => exact h.elim
  | dataBuf buf len => exact speaks_mail (hands_bufText E.K h)
  | dataFile buf reads => exact speaks_mail (hands_content E.K h)
  | quit => exact speaks_word [81, 85, 73, 84]
  | turn => exact speaks_word [84, 85, 82, 78]
  | rset => exact speaks_word [82, 83, 69, 84]
  | noop => exact speaks_word [78, 79, 79, 80]

/-- `helo()`, if the name is known: a reply that nothing was sent for, and a part. -/
theorem helo_eq {host : List UInt8} (hhost : E.localhost = .ok host) :
    ∃ c, Smtp.helo E = (answer E.K E.fuel >>= fun _ => c) ∧
      Speaks E (Command.helo.parts host) c := by
  refine ⟨_, ?_, speaks_argument [72, 69, 76, 79, 32] (some host)⟩
  unfold Smtp.helo
  rw [hhost]

end Speaks

/-! ### What goes out

A program that sends some lines has put them on the wire if it returns, and the beginning of them if
it throws. -/

/-- The call puts the lines on the wire, or the beginning of them if it throws. -/
def Sends (ls : List (List UInt8)) (c : ClientM Unit Unit) : Prop :=
  ∀ t, Flushed t → wp c
    (fun _ t' => Flushed t' ∧ t'.buf.wire = t.buf.wire ++ ls.flatMap ended)
    (fun _ t' => ∃ part, part <+: ls.flatMap ended ∧ t'.buf.wire = t.buf.wire ++ part) t

section Sends

variable {E : Env} {ls ms : List (List UInt8)} {c : ClientM Unit Unit} {cmd : Command}

theorem Sends.bind {f : Unit → ClientM Unit Unit} (hc : Sends ls c) (hf : ∀ a, Sends ms (f a)) :
    Sends (ls ++ ms) (c >>= f) := by
  intro t ht
  rw [wp_bind, List.flatMap_append]
  refine (hc t ht).mono ?_ ?_
  · rintro _ t1 ⟨ht1, hwire⟩
    refine (hf () t1 ht1).mono ?_ ?_
    · rintro _ t2 ⟨ht2, hwire2⟩
      exact ⟨ht2, by rw [hwire2, hwire, List.append_assoc]⟩
    · rintro _ t2 ⟨part, hpart, hwire2⟩
      exact ⟨_, (List.prefix_append_right_inj _).mpr hpart,
        by rw [hwire2, hwire, List.append_assoc]⟩
  · rintro _ t1 ⟨part, hpart, hwire⟩
    exact ⟨part, hpart.trans (List.prefix_append _ _), hwire⟩

theorem Sends.pure : Sends [] (pure ()) := fun _ ht => ⟨ht, (List.append_nil _).symm⟩

theorem sends_answer (K : Kernel) (fuel : Nat) : Sends [] (answer K fuel) := by
  intro t ht
  refine (answer_sameOut K fuel t).mono (fun _ t' h => ?_) (fun _ t' h => ?_)
  · obtain ⟨hflushed, hwire⟩ := ht.of_sameOut h
    exact ⟨hflushed, hwire.trans (List.append_nil _).symm⟩
  · exact ⟨[], List.nil_prefix, h.wire.trans (List.append_nil _).symm⟩

theorem Speaks.sends {parts : List (List (List UInt8))} (h : Speaks E parts c) :
    Sends parts.flatten c := by
  induction parts generalizing c with
  | nil =>
    rw [show c = _ from h]
    exact .pure
  | cons part parts ih =>
    obtain ⟨body, rest, hbody, hrest, rfl⟩ := h
    refine .bind (fun t ht => ?_) fun _ => ih hrest
    have hsay := hands_sync E.K E.fuel hbody ht.putOpen
    simp only [SentAll, SentPart, ht.empty, List.nil_append] at hsay
    exact hsay

/-- A call puts its lines on the wire. -/
theorem sends_call (h : cmd.Sendable) : Sends (cmd.lines E.host) (cmd.call E) := by
  by_cases hhelo : cmd = .helo
  · subst hhelo
    cases hlocal : E.localhost with
    | error e =>
      have hcall : Command.helo.call E = (answer E.K E.fuel >>= fun _ => throw (.sockerr e)) := by
        show Smtp.helo E = _
        unfold Smtp.helo
        rw [hlocal]
      rw [hcall]
      exact (sends_answer E.K E.fuel).bind fun _ _ _ =>
        ⟨[], List.nil_prefix, (List.append_nil _).symm⟩
    | ok host =>
      obtain ⟨c, hcall, hspeaks⟩ := helo_eq hlocal
      have hknown : E.host = host := by simp [Env.host, hlocal]
      show Sends _ (Smtp.helo E)
      rw [hcall, hknown]
      exact (sends_answer E.K E.fuel).bind fun _ => hspeaks.sends
  · exact (speaks_call hhelo h).sends

theorem sends_calls {cmds : List Command} (h : ∀ cmd ∈ cmds, cmd.Sendable) :
    Sends (cmds.flatMap (Command.lines E.host)) (cmds.forM (Command.call E)) := by
  induction cmds with
  | nil => exact .pure
  | cons cmd cmds ih =>
    exact (sends_call (h cmd List.mem_cons_self)).bind fun _ =>
      ih fun c hc => h c (List.mem_cons_of_mem _ hc)

/-- **What the server reads.** A server that lets `DATA` pass reads the commands and the mails of
the calls, each text as the lines that the caller has passed. If a call throws, it has read the
first of them, and has acted on no part of a text. -/
theorem mail_read {σ : Type} (S : Server σ) (haccepts : S.Accepts) {E : Env} (hhost : 10 ∉ E.host)
    {cmds : List Command} (hsend : ∀ cmd ∈ cmds, cmd.Sendable) (platform : Platform) (sock : Int)
    (gbuf pbuf : Nat → UInt8) (errno : Errno) (o : Option (List UInt8)) :
    wp (cmds.forM (Command.call E))
      (fun _ t' => S.Idle (complete t'.buf.wire) ∧
        S.reading.outputs (complete t'.buf.wire) = cmds.flatMap (Command.items E.host))
      (fun _ t' =>
        S.reading.outputs (complete t'.buf.wire) <+: cmds.flatMap (Command.items E.host))
      ⟨fresh platform sock gbuf pbuf errno, o, ()⟩ := by
  have hlines := complete_flatMap_ended (lf_not_mem_lines hhost hsend)
  have hstart : S.Idle [] := rfl
  obtain ⟨hidle, houtputs⟩ := reading_calls E.host haccepts hsend hstart
  rw [List.nil_append] at hidle houtputs
  have hitems : S.reading.outputs (cmds.flatMap (Command.lines E.host))
      = cmds.flatMap (Command.items E.host) := houtputs
  refine (sends_calls hsend _ ⟨putOpen_fresh _ _ _ _ _, rfl⟩).mono ?_ ?_
  · rintro _ t' ⟨-, hwire⟩
    have hall : complete t'.buf.wire = cmds.flatMap (Command.lines E.host) := by
      rw [hwire]
      exact hlines
    rw [hall]
    exact ⟨hidle, hitems⟩
  · rintro _ t' ⟨part, hpart, hwire⟩
    have hfirst : complete t'.buf.wire <+: cmds.flatMap (Command.lines E.host) := by
      rw [hwire, ← hlines]
      exact complete_of_part hpart
    rw [← hitems]
    exact Machine.outputs_of_part hfirst

/-- The text has its line with a single dot. -/
theorem mail_read_office :
    ∃ t', mailed.forM (Command.call (sender proceed)) (beginner none) = .ok () t' ∧
      (office proceed).reading.outputs (complete t'.buf.wire)
        = [.command dataLine, .text [[98], [46], [99]]] := by
  have hrun := of_attempt_ok (c := mailed.forM (Command.call (sender proceed)))
    (s := beginner none) (a := ()) (by decide +kernel)
  have h := mail_read (office proceed) office_accepts (E := sender proceed) (by decide)
    sendable_mailed .small 3 (fun _ => 0) (fun _ => 0) 0 none
  obtain ⟨-, hread⟩ := h.of_ok hrun
  refine ⟨_, hrun, hread.trans ?_⟩
  decide +kernel

end Sends

/-! ### What is heard

The client has heard as many replies as it has asked for. The server has said at least that many,
since it answers every line that can be a command and every text. -/

/-- The lines `ls` are on the wire, nothing else is on its way, and the first `n` replies were heard
and shown behind `w`. -/
structure Talking {σ : Type} (S : Server σ) (w : List UInt8) (ls : List (List UInt8)) (n : Nat)
    (t : Client Unit) : Prop where
  flushed : Flushed t
  plain : ∀ l ∈ ls, 10 ∉ l
  wire : t.buf.wire = ls.flatMap ended
  heard : S.peer.Heard n t.buf
  shown : t.o = some (w ++ S.peer.text ((S.replies ls).take n))

/-- What the parts ask for is answered part by part. -/
def Server.Due {σ : Type} (S : Server σ) (ls : List (List UInt8)) (parts : List (List (List UInt8))) :
    Prop :=
  match parts with
  | [] => True
  | part :: parts =>
    (S.reading.outputs ls).length < (S.reading.outputs (ls ++ part)).length ∧
      S.Due (ls ++ part) parts

section Talking

variable {σ : Type} {S : Server σ} {E : Env} {w : List UInt8} {ls part : List (List UInt8)}
  {parts : List (List (List UInt8))} {n : Nat} {t t' : Client Unit} {c : ClientM Unit Unit}
  {cmd : Command}

theorem Talking.said (h : Talking S w ls n t) : S.peer.said t.buf.wire = S.replies ls := by
  show S.replies (complete t.buf.wire) = _
  rw [h.wire, complete_flatMap_ended h.plain]

theorem Talking.le (h : Talking S w ls n t) : n ≤ (S.replies ls).length := h.said ▸ h.heard.le

/-- A reply that is due is heard and shown. -/
theorem talking_answer (hK : E.K.Serves S.peer) (hfits : S.Fits E.fuel) (h : Talking S w ls n t)
    (hdue : n < (S.replies ls).length) :
    wp (answer E.K E.fuel) (fun _ t' => Talking S w ls (n + 1) t') (fun e _ => e.IsInputError) t := by
  have hnext : (S.peer.said t.buf.wire)[n]? = some (S.replies ls)[n] := by
    rw [h.said]
    exact List.getElem?_eq_getElem hdue
  have hhear := hears_reply (t := t) hK (r := (S.replies ls)[n]) rfl
    (hfits.of_mem (List.getElem_mem hdue)) h.heard hnext
  unfold answer
  rw [wp_bind, wp_get, h.shown, Option.isSome_some, if_pos rfl]
  refine hhear.mono ?_ (fun _ _ h => h)
  rintro _ t' ⟨hheard, hread, ho⟩
  obtain ⟨hflushed, hwire⟩ := h.flushed.of_sameOut hread.out
  refine ⟨hflushed, h.plain, hwire.trans h.wire, hheard, ?_⟩
  rw [ho, h.shown, Option.map_some, List.take_succ_eq_append_getElem hdue, Peer.text_append,
    List.append_assoc]
  simp [Peer.text]
  rfl

/-- Something is said and answered. -/
theorem talking_say (hK : E.K.Serves S.peer) (hfits : S.Fits E.fuel) (h : Talking S w ls n t)
    {body : M UInt8 Unit} (hbody : Hands (part.flatMap ended) body) (hplain : ∀ l ∈ part, 10 ∉ l)
    (hdue : (S.reading.outputs ls).length < (S.reading.outputs (ls ++ part)).length) :
    wp (say E body) (fun _ t' => Talking S w (ls ++ part) (n + 1) t')
      (fun e _ => e.IsInputError) t := by
  have hn := h.le
  rw [Server.length_replies] at hn
  unfold say onBuf
  rw [wp_bind, wp_zoom]
  refine (hbody t.buf h.flushed.putOpen).mono ?_ (fun _ _ h => .inl h.1)
  intro _ s1 h1
  rw [wp_bind, wp_zoom]
  refine (sync_spec E.K h1.putOpen).mono ?_ (fun _ _ h => .inl h.1)
  rintro _ s2 ⟨-, h2, hempty⟩
  have hall := h1.trans h2
  have hsent := hall.sent
  rw [hempty, h.flushed.empty, List.append_nil, List.append_nil, List.append_nil] at hsent
  refine talking_answer hK hfits ⟨⟨hall.putOpen, hempty⟩, ?_, ?_, h.heard.of_wrote hall, ?_⟩ ?_
  · exact fun l hl => (List.mem_append.mp hl).elim (h.plain l) (hplain l)
  · rw [List.flatMap_append, ← h.wire]
    exact hsent
  · obtain ⟨more, hmore⟩ := S.replies_of_part (List.prefix_append ls part)
    rw [← hmore, List.take_append_of_le_length h.le]
    exact h.shown
  · rw [Server.length_replies]
    omega

/-- A call hears a reply to each of its parts. -/
theorem Speaks.talking (hK : E.K.Serves S.peer) (hfits : S.Fits E.fuel) (h : Speaks E parts c)
    (hplain : ∀ part ∈ parts, ∀ l ∈ part, 10 ∉ l) (hdue : S.Due ls parts)
    (ht : Talking S w ls n t) :
    wp c (fun _ t' => Talking S w (ls ++ parts.flatten) (n + parts.length) t')
      (fun e _ => e.IsInputError) t := by
  induction parts generalizing c ls n t with
  | nil =>
    rw [show c = _ from h]
    simpa using ht
  | cons part parts ih =>
    obtain ⟨body, rest, hbody, hrest, rfl⟩ := h
    rw [wp_bind]
    refine (talking_say hK hfits ht hbody (hplain part List.mem_cons_self) hdue.1).mono ?_
      (fun _ _ h => h)
    intro _ t1 ht1
    have hparts := ih hrest (fun p hp => hplain p (List.mem_cons_of_mem _ hp)) hdue.2 ht1
    simpa [Nat.add_assoc, Nat.add_comm 1] using hparts

/-- Behind a call no server is in a text, and to each part of the call there is a reply. -/
theorem due_call (host : List UInt8) (h : S.Idle ls) (hsend : cmd.Sendable) :
    S.Idle (ls ++ cmd.lines host) ∧ S.Due ls (cmd.parts host) := by
  have hcommand : ∀ line, (S.reading.outputs ls).length
      < (S.reading.outputs (ls ++ [line])).length := by
    intro line
    rw [outputs_command h]
    simp
  cases htext : cmd.text? with
  | some text =>
    have htextLines := reading_textLines S (ls ++ [dataLine]) text
    rw [Command.lines, parts_of_text htext]
    refine ⟨?_, hcommand dataLine, htextLines.2, trivial⟩
    simpa using htextLines.1
  | none =>
    refine ⟨(reading_commands h (.inr (command_ne_dataLine hsend htext))).1, ?_⟩
    cases cmd with
    | mail text => cases text <;> exact ⟨hcommand _, trivial⟩
    | rcpt text =>
      cases text with
      | none => trivial
      | some path => exact ⟨hcommand _, trivial⟩
    | data => exact hsend.elim
    | dataBuf | dataFile => cases htext
    | _ => exact ⟨hcommand _, trivial⟩

theorem talking_call (hK : E.K.Serves S.peer) (hfits : S.Fits E.fuel) (hhost : 10 ∉ E.host)
    (hsend : cmd.Sendable) (hhelo : cmd ≠ .helo) (hidle : S.Idle ls) (ht : Talking S w ls n t) :
    wp (cmd.call E)
      (fun _ t' => Talking S w (ls ++ cmd.lines E.host) (n + (cmd.parts E.host).length) t')
      (fun e _ => e.IsInputError) t :=
  (speaks_call hhelo hsend).talking hK hfits (lf_not_mem_parts hhost hsend)
    (due_call E.host hidle hsend).2 ht

theorem talking_calls (hK : E.K.Serves S.peer) (hfits : S.Fits E.fuel) (hhost : 10 ∉ E.host)
    {cmds : List Command} (hsend : ∀ cmd ∈ cmds, cmd.Sendable) (hhelo : ∀ cmd ∈ cmds, cmd ≠ .helo)
    (hidle : S.Idle ls) (ht : Talking S w ls n t) :
    wp (cmds.forM (Command.call E))
      (fun _ t' => Talking S w (ls ++ cmds.flatMap (Command.lines E.host))
        (n + (cmds.flatMap (Command.parts E.host)).length) t')
      (fun e _ => e.IsInputError) t := by
  induction cmds generalizing ls n t with
  | nil =>
    have hdone : Talking S w (ls ++ []) (n + 0) t := by simpa using ht
    exact hdone
  | cons cmd cmds ih =>
    have hcmd := hsend cmd List.mem_cons_self
    show wp (cmd.call E >>= fun _ => cmds.forM (Command.call E)) _ _ t
    rw [wp_bind]
    refine (talking_call hK hfits hhost hcmd (hhelo cmd List.mem_cons_self) hidle ht).mono ?_
      (fun _ _ h => h)
    intro _ t1 ht1
    have hrest := ih (fun c hc => hsend c (List.mem_cons_of_mem _ hc))
      (fun c hc => hhelo c (List.mem_cons_of_mem _ hc)) (due_call E.host hidle hcmd).1 ht1
    simpa [Nat.add_assoc] using hrest

end Talking

/-! ## Sessions

`helo()` reads two replies, that to `HELO` and the greeting, and the other members read one behind
each command and each text. So a reply is due at every read, and at the end those are left that the
server had more to say. -/

/-- A client that says `HELO` and then calls the other methods, one after the other. -/
def session (E : Env) (cmds : List Command) : ClientM Unit Unit := do
  Smtp.helo E
  cmds.forM (Command.call E)

section Sessions

variable {σ : Type} {S : Server σ} {E : Env} {w : List UInt8} {t : Client Unit}

/-- Whatever the server does with a `DATA`, a reply is due whenever one is read. -/
theorem talking_session (hK : E.K.Serves S.peer) (hfits : S.Fits E.fuel) (hhost : 10 ∉ E.host)
    {cmds : List Command} (hsend : ∀ cmd ∈ cmds, cmd.Sendable) (hhelo : ∀ cmd ∈ cmds, cmd ≠ .helo)
    (ht : Talking S w [] 0 t) :
    wp (session E cmds)
      (fun _ t' => Talking S w ((Command.helo :: cmds).flatMap (Command.lines E.host))
        (1 + ((Command.helo :: cmds).flatMap (Command.parts E.host)).length) t')
      (fun e _ => e.IsInputError) t := by
  have hgreeting := talking_answer hK hfits ht (by rw [Server.length_replies]; omega)
  unfold session
  rw [wp_bind]
  cases hlocal : E.localhost with
  | error e =>
    unfold Smtp.helo
    rw [hlocal, wp_bind]
    exact hgreeting.mono (fun _ _ _ => .inl (Exc.isSockerr_sockerr _)) (fun _ _ h => h)
  | ok host =>
    obtain ⟨c, hcall, hspeaks⟩ := helo_eq hlocal
    have hknown : E.host = host := by simp [Env.host, hlocal]
    rw [← hknown] at hspeaks
    have hstart : S.Idle [] := rfl
    have hgreets : Command.helo.Sendable := trivial
    obtain ⟨hidle, hdue⟩ := due_call E.host hstart hgreets
    rw [hcall, wp_bind]
    refine hgreeting.mono ?_ (fun _ _ h => h)
    intro _ t1 ht1
    refine (hspeaks.talking hK hfits (lf_not_mem_parts hhost trivial) hdue ht1).mono ?_
      (fun _ _ h => h)
    intro _ t2 ht2
    refine (talking_calls hK hfits hhost hsend hhelo hidle ht2).mono ?_ (fun _ _ h => h)
    intro _ t3 ht3
    simpa [Command.lines, Nat.add_assoc, Nat.add_comm] using ht3

/-- Before anything is said. -/
theorem talking_fresh (S : Server σ) (platform : Platform) (sock : Int) (gbuf pbuf : Nat → UInt8)
    (errno : Errno) (w : List UInt8) :
    Talking S w [] 0 ⟨fresh platform sock gbuf pbuf errno, some w, ()⟩ :=
  ⟨⟨putOpen_fresh _ _ _ _ _, rfl⟩, by simp, rfl, heard_fresh _ _ _ _ _ _, by simp [Peer.text]⟩

/-- **What the client hears.** No read of a session waits for a reply that does not come, whether
the server lets `DATA` pass or not: the client hears the greeting and, in order, one reply for every
command and every text that it sends, and shows them as they are. If the server lets `DATA` pass
these are all replies there are. -/
theorem mail_heard (S : Server σ) {E : Env} (hK : E.K.Serves S.peer) (hfits : S.Fits E.fuel)
    (hhost : 10 ∉ E.host) {cmds : List Command} (hsend : ∀ cmd ∈ cmds, cmd.Sendable)
    (hhelo : ∀ cmd ∈ cmds, cmd ≠ .helo) (platform : Platform) (sock : Int)
    (gbuf pbuf : Nat → UInt8) (errno : Errno) (w : List UInt8) :
    let n := 1 + ((Command.helo :: cmds).flatMap (Command.parts E.host)).length
    wp (session E cmds)
      (fun _ t' => n ≤ (S.replies (complete t'.buf.wire)).length ∧
        t'.o = some (w ++ S.peer.text ((S.replies (complete t'.buf.wire)).take n)) ∧
        (S.Accepts → (S.replies (complete t'.buf.wire)).length = n ∧ t'.buf.self.unread = []))
      (fun e _ => e.IsInputError)
      ⟨fresh platform sock gbuf pbuf errno, some w, ()⟩ := by
  intro n
  refine (talking_session hK hfits hhost hsend hhelo
    (talking_fresh S platform sock gbuf pbuf errno w)).mono ?_ (fun _ _ h => h)
  intro _ t' ht'
  have hlines := complete_flatMap_ended ht'.plain
  rw [ht'.wire, hlines]
  refine ⟨ht'.le, ht'.shown, ?_⟩
  intro haccepts
  have hall : ∀ cmd ∈ Command.helo :: cmds, cmd.Sendable :=
    List.forall_mem_cons.mpr ⟨trivial, hsend⟩
  have hstart : S.Idle [] := rfl
  have houtputs := (reading_calls E.host haccepts hall hstart).2
  have hcount : (S.replies ((Command.helo :: cmds).flatMap (Command.lines E.host))).length = n := by
    rw [List.nil_append] at houtputs
    rw [Server.length_replies, houtputs, List.length_append, length_flatMap_items]
    exact congrArg (1 + ·) (Nat.zero_add _)
  refine ⟨hcount, ?_⟩
  have hheard : S.peer.Heard n t'.buf := ht'.heard
  rw [← hcount, ← ht'.said] at hheard
  exact hheard.unread_eq_nil.1

/-- The greeting, and replies to `HELO`, `DATA` and the text. -/
theorem mail_heard_office :
    ∃ t', session (sender proceed) mailed (beginner (some [])) = .ok () t' ∧
      t'.buf.self.unread = [] := by
  have hrun := of_attempt_ok (c := session (sender proceed) mailed) (s := beginner (some []))
    (a := ()) (by decide +kernel)
  have h := mail_heard (office proceed) (E := sender proceed) (serves_serving _)
    (office_fits rfl) (by decide) sendable_mailed mailed_ne_helo .small 3 (fun _ => 0)
    (fun _ => 0) 0 []
  obtain ⟨-, -, hall⟩ := h.of_ok hrun
  exact ⟨_, hrun, (hall office_accepts).2⟩

end Sessions

end Sockstream.Smtp
