import SocketPlusPlus.Protocol.Requests
import SocketPlusPlus.Protocol.Transfer

/-!
# What a call asks the server for

An `Operation` is a call of a method that is given a path, or another parameter, for the server.
`Operation.Asks` says which commands RFC 959 has for it. Whatever happened to the client before, the
commands that the call puts on the control connection are these, unless the method is `trans_mode`
or `append` (`carried_iff`).
-/

namespace Sockstream.Ftp

open Exec Lines

/-- A text that can be an argument. -/
abbrev Text := { text : List UInt8 // Clean text }

/-- The calls that carry an argument to the server. A path that may be left out is `none`. -/
inductive Operation where
  | user (name : Text)
  | passwd (pw : Text)
  | acct (ac : Text)
  | cd (dir : Text)
  | repType (rt : Reptype)
  | fileStru (fs : Filestru)
  | transMode (tm : Transmode)
  | getfile (rpath : Text) (lpath : Option Text)
  | list (rpath : Option Text) (justnames : Int)
  | putfile (lpath : Text) (rpath : Option Text)
  | putfileUnique (lpath : Text)
  | append (lpath : Text) (rpath : Option Text)
  | allocate (numbytes : Int)
  | restart (marker : Int)
  | rename (rpath newrpath : Text)
  | rmfile (rpath : Text)
  | rmdir (rpath : Text)
  | mkdir (rpath : Text)

def Operation.command : Operation → Command
  | .user name => .user (some name.1)
  | .passwd pw => .passwd (some pw.1)
  | .acct ac => .acct (some ac.1)
  | .cd dir => .cd (some dir.1)
  | .repType rt => .repType rt
  | .fileStru fs => .fileStru fs
  | .transMode tm => .transMode tm
  | .getfile rpath lpath => .getfile (some rpath.1) (lpath.map Subtype.val)
  | .list rpath justnames => .list (rpath.map Subtype.val) justnames
  | .putfile lpath rpath => .putfile (some lpath.1) (rpath.map Subtype.val)
  | .putfileUnique lpath => .putfileUnique (some lpath.1)
  | .append lpath rpath => .append (some lpath.1) (rpath.map Subtype.val)
  | .allocate numbytes => .allocate numbytes
  | .restart marker => .restart marker
  | .rename rpath newrpath => .rename (some rpath.1) (some newrpath.1)
  | .rmfile rpath => .rmfile (some rpath.1)
  | .rmdir rpath => .rmdir (some rpath.1)
  | .mkdir rpath => .mkdir (some rpath.1)

/-- The parameter of `TYPE` -/
def Reptype.code : Reptype → List UInt8
  | .asciiNonprint => [65, 32, 78]
  | .asciiTelnet => [65, 32, 84]
  | .asciiAsa => [65, 32, 67]
  | .ebcdicNonprint => [69, 32, 78]
  | .ebcdicTelnet => [69, 32, 84]
  | .ebcdicAsa => [69, 32, 67]
  | .image => [73]
  | .local => [76, 32]

/-- The parameter of `STRU` -/
def Filestru.code : Filestru → List UInt8
  | .file => [70]
  | .record => [82]
  | .page => [80]

/-- The parameter of `MODE` -/
def Transmode.code : Transmode → List UInt8
  | .stream => [83]
  | .block => [66]
  | .comp => [67]

/-- The commands that RFC 959 has for the operation, with what the caller passes for the server. -/
def Operation.Asks : Operation → List Request → Prop
  | .user name, rs => rs = [Verb.user.request (some name.1)]
  | .passwd pw, rs => rs = [Verb.pass.request (some pw.1)]
  | .acct ac, rs => rs = [Verb.acct.request (some ac.1)]
  | .cd dir, rs => rs = [Verb.cwd.request (some dir.1)]
  | .repType rt, rs => rs = [Verb.type.request (some rt.code)]
  | .fileStru fs, rs => rs = [Verb.stru.request (some fs.code)]
  | .transMode tm, rs => rs = [Verb.mode.request (some tm.code)]
  | .getfile rpath _, rs => rs = [Verb.retr.request (some rpath.1)]
  | .list rpath justnames, rs =>
    rs = [(if justnames ≠ 0 then Verb.nlst else .list).request (rpath.map Subtype.val)]
  | .putfile lpath rpath, rs => rs = [Verb.stor.request (some (rpath.getD lpath).1)]
  | .putfileUnique lpath, rs => rs = [Verb.stou.request (some lpath.1)]
  | .append lpath rpath, rs => rs = [Verb.appe.request (some (rpath.getD lpath).1)]
  | .allocate numbytes, rs =>
    ∃ text, Decimal.int? text = some numbytes ∧ rs = [Verb.allo.request (some text)]
  | .restart marker, rs =>
    ∃ text, Decimal.int? text = some marker ∧ rs = [Verb.rest.request (some text)]
  | .rename rpath newrpath, rs =>
    rs = [Verb.rnfr.request (some rpath.1), Verb.rnto.request (some newrpath.1)]
  | .rmfile rpath, rs => rs = [Verb.dele.request (some rpath.1)]
  | .rmdir rpath, rs => rs = [Verb.rmd.request (some rpath.1)]
  | .mkdir rpath, rs => rs = [Verb.mkd.request (some rpath.1)]

/-- The names and paths that the caller passes for the server, in the order of the commands. -/
def Operation.paths : Operation → List Text
  | .user name => [name]
  | .passwd pw => [pw]
  | .acct ac => [ac]
  | .cd dir => [dir]
  | .getfile rpath _ => [rpath]
  | .list rpath _ => rpath.toList
  | .putfile lpath rpath => [rpath.getD lpath]
  | .putfileUnique lpath => [lpath]
  | .append lpath rpath => [rpath.getD lpath]
  | .rename rpath newrpath => [rpath, newrpath]
  | .rmfile rpath => [rpath]
  | .rmdir rpath => [rpath]
  | .mkdir rpath => [rpath]
  | _ => []

/-- The client after some calls, whatever became of them. -/
def Ftpbuf.Reached (E : Env) (b : Ftpbuf) : Prop :=
  ∃ P sock gbuf pbuf errno out replycode calls,
    b = (runAll (List.map (Command.run E) calls)
      (Ftpbuf.init (fresh P sock gbuf pbuf errno) out replycode)).2

/-- Wherever the call is made: the commands that it appends to what is on the control connection are
the first ones of those that are asked for, and if it returns, there is at least one. Only what the
call appends is read as commands here. If an earlier call threw within a line, the line on the wire
begins with what that call had written of its own. -/
def Carried (op : Operation) : Prop := ∀ (E : Env) (b : Ftpbuf), b.Reached E →
  wp (op.command.call E)
    (fun _ b' => ∃ bs rs, b'.outgoing = b.outgoing ++ bs ∧ op.Asks rs ∧ commands bs <+: rs ∧
      commands bs ≠ [])
    (fun _ b' => ∃ bs rs, b'.outgoing = b.outgoing ++ bs ∧ op.Asks rs ∧ commands bs <+: rs) b

/-- A call of the operation has returned and put `bs` on the control connection. -/
def Said (op : Operation) (bs : List UInt8) : Prop := ∃ E b code b', Ftpbuf.Reached E b ∧
  op.command.call E b = .ok code b' ∧ b'.outgoing = b.outgoing ++ bs

/-! ## What is said

The words of a method are the texts that it may put on the control connection. Read as commands,
with those for the data port left out, they are the commands of the operation. -/

section Saying

variable {E : Env} {b : Ftpbuf} {v : Verb} {arg : Option (List UInt8)} {bs : List UInt8}
  {op : Operation}

theorem Ftpbuf.Reached.putOpen (h : b.Reached E) : b.PutOpen := by
  obtain ⟨P, sock, gbuf, pbuf, errno, out, replycode, calls, rfl⟩ := h
  refine runAll_invariant (I := Ftpbuf.PutOpen) ?_ (putOpen_fresh P sock gbuf pbuf errno)
  intro c hc b hb
  obtain ⟨call, -, rfl⟩ := List.mem_map.mp hc
  exact (Emits.before (call.writes E) fun _ => writes_note _).keeps hb

theorem Verb.text_ne_port (hv : v ≠ .port) : v.text ≠ Verb.port.text := by
  cases v <;> first | exact absurd rfl hv | decide

theorem commands_plainly (hv : v ≠ .port) (harg : ∀ text, arg = some text → Clean text)
    (h : bs ∈ plainly v arg) : commands bs = [v.request arg] := by
  cases h
  have hbytes := commands_bytes (v.plain harg) (Verb.text_ne_port hv) []
  rwa [List.append_nil] at hbytes

theorem commands_announced (hv : v ≠ .port) (harg : ∀ text, arg = some text → Clean text)
    (h : bs ∈ announced v arg) : commands bs = [v.request arg] := by
  obtain ⟨_, ⟨port, hport, rfl⟩, more, hmore, rfl⟩ := h
  have hplain : (Verb.port.request (some port)).Plain := Verb.port.plain (by
    rintro _ ⟨⟩
    exact hport)
  show commands (Request.bytes _ ++ more) = _
  rw [commands_port hplain rfl]
  exact commands_plainly hv harg hmore

theorem clean_of_text (text : Text) : ∀ t, some text.1 = some t → Clean t := by
  rintro _ ⟨⟩
  exact text.2

theorem clean_of_texts (text : Option Text) : ∀ t, text.map Subtype.val = some t → Clean t := by
  cases text with
  | none =>
    intro t h
    cases h
  | some text => exact clean_of_text text

theorem int?_decimalInt (n : Int) : Decimal.int? (decimalInt n) = some n := by
  unfold decimalInt
  rw [decimal_eq]
  split
  · rw [Decimal.int?_minus]
    exact congrArg some (by omega)
  · rw [Decimal.int?_text]
    exact congrArg some (by omega)

theorem clean_decimalInt (n : Int) : ∀ t, some (decimalInt n) = some t → Clean t := by
  rintro _ ⟨⟩
  unfold decimalInt
  split
  · exact .cons (by decide) (by decide) (clean_decimal _)
  · exact clean_decimal _

/-- One command, the one that is asked for. -/
theorem asked_of_eq {r : Request} (h : commands bs = [r]) (hr : op.Asks [r]) :
    ∃ rs, op.Asks rs ∧ commands bs <+: rs ∧ commands bs ≠ [] :=
  ⟨[r], hr, h ▸ List.prefix_rfl, h ▸ List.cons_ne_nil _ _⟩

theorem asked_plainly (hv : v ≠ .port) (harg : ∀ text, arg = some text → Clean text)
    (h : bs ∈ plainly v arg) (hr : op.Asks [v.request arg]) :
    ∃ rs, op.Asks rs ∧ commands bs <+: rs ∧ commands bs ≠ [] :=
  asked_of_eq (commands_plainly hv harg h) hr

theorem asked_announced (hv : v ≠ .port) (harg : ∀ text, arg = some text → Clean text)
    (h : bs ∈ announced v arg) (hr : op.Asks [v.request arg]) :
    ∃ rs, op.Asks rs ∧ commands bs <+: rs ∧ commands bs ≠ [] :=
  asked_of_eq (commands_announced hv harg h) hr

/-- Both commands, or the first one alone. -/
theorem asked_rename (rpath newrpath : Text)
    (h : bs ∈ Command.language (.rename (some rpath.1) (some newrpath.1))) :
    ∃ rs, (Operation.rename rpath newrpath).Asks rs ∧ commands bs <+: rs ∧ commands bs ≠ [] := by
  obtain ⟨_, rfl, more, hmore, rfl⟩ := h
  have hfirst := commands_bytes (Verb.rnfr.plain (clean_of_text rpath))
    (@Verb.text_ne_port .rnfr (by decide)) more
  refine ⟨_, rfl, ?_, ?_⟩
  · show commands (Request.bytes _ ++ more) <+: _
    rw [hfirst]
    refine (List.prefix_cons_inj _).mpr ?_
    rcases hmore with rfl | hsecond
    · exact List.nil_prefix
    · rw [commands_plainly (by decide) (clean_of_text newrpath) hsecond]
  · show commands (Request.bytes _ ++ more) ≠ []
    rw [hfirst]
    exact List.cons_ne_nil _ _

/-- Every method but two says what is asked for. -/
theorem Operation.language_asked (htrans : ∀ tm, op ≠ .transMode tm)
    (happend : ∀ lpath rpath, op ≠ .append lpath rpath) (h : bs ∈ op.command.language) :
    ∃ rs, op.Asks rs ∧ commands bs <+: rs ∧ commands bs ≠ [] := by
  cases op with
  | transMode tm => exact absurd rfl (htrans tm)
  | append lpath rpath => exact absurd rfl (happend lpath rpath)
  | user name => exact asked_plainly (v := .user) (by decide) (clean_of_text name) h rfl
  | passwd pw => exact asked_plainly (v := .pass) (by decide) (clean_of_text pw) h rfl
  | acct ac => exact asked_plainly (v := .acct) (by decide) (clean_of_text ac) h rfl
  | cd dir => exact asked_plainly (v := .cwd) (by decide) (clean_of_text dir) h rfl
  | repType rt =>
    cases rt <;> exact asked_plainly (v := .type) (by decide) (by decide) h rfl
  | fileStru fs =>
    cases fs <;> exact asked_plainly (v := .stru) (by decide) (by decide) h rfl
  | getfile rpath lpath =>
    have h' : bs ∈ 1 * announced .retr (some rpath.1) := h
    rw [one_mul] at h'
    exact asked_announced (by decide) (clean_of_text rpath) h' rfl
  | list rpath justnames =>
    have h' : bs ∈ if justnames ≠ 0 then announced .nlst (rpath.map Subtype.val)
      else announced .list (rpath.map Subtype.val) := h
    by_cases hnames : justnames ≠ 0
    · rw [if_pos hnames] at h'
      refine asked_announced (by decide) (clean_of_texts rpath) h' ?_
      show _ = [(if justnames ≠ 0 then Verb.nlst else .list).request _]
      rw [if_pos hnames]
    · rw [if_neg hnames] at h'
      refine asked_announced (by decide) (clean_of_texts rpath) h' ?_
      show _ = [(if justnames ≠ 0 then Verb.nlst else .list).request _]
      rw [if_neg hnames]
  | putfile lpath rpath =>
    cases rpath with
    | none => exact asked_announced (v := .stor) (by decide) (clean_of_text lpath) h rfl
    | some rpath => exact asked_announced (v := .stor) (by decide) (clean_of_text rpath) h rfl
  | putfileUnique lpath =>
    exact asked_announced (v := .stou) (by decide) (clean_of_text lpath) h rfl
  | allocate numbytes =>
    exact asked_plainly (v := .allo) (by decide) (clean_decimalInt numbytes) h
      ⟨_, int?_decimalInt numbytes, rfl⟩
  | restart marker =>
    exact asked_plainly (v := .rest) (by decide) (clean_decimalInt marker) h
      ⟨_, int?_decimalInt marker, rfl⟩
  | rename rpath newrpath => exact asked_rename rpath newrpath h
  | rmfile rpath => exact asked_plainly (v := .dele) (by decide) (clean_of_text rpath) h rfl
  | rmdir rpath => exact asked_plainly (v := .rmd) (by decide) (clean_of_text rpath) h rfl
  | mkdir rpath => exact asked_plainly (v := .mkd) (by decide) (clean_of_text rpath) h rfl

end Saying

/-! ## What is carried

For two methods the words do not have the parameter of the caller, and that is enough for a run in
which it is lost. -/

section Carrying

variable {op op' : Operation} {bs : List UInt8} {lpath : Text} {rpath : Option Text}

theorem carried_of_language (h : ∀ bs ∈ op.command.language,
    ∃ rs, op.Asks rs ∧ commands bs <+: rs ∧ commands bs ≠ []) : Carried op := by
  intro E b hb
  refine ((op.command.writes E).run b hb.putOpen).mono ?_ ?_
  · rintro _ b' ⟨-, bs, hbs, hout⟩
    obtain ⟨rs, hrs⟩ := h bs hbs
    exact ⟨bs, rs, hout, hrs⟩
  · -- what was written before the exception is the beginning of what would have been
    rintro _ b' ⟨-, bs, hbs, part, hpart, hout⟩
    obtain ⟨rs, hasks, hprefix, -⟩ := h bs hbs
    exact ⟨part, rs, hout, hasks, (commands_of_part hpart).trans hprefix⟩

/-- What a call that returned has said is one of the words of its method. -/
theorem Said.mem_language (h : Said op bs) : bs ∈ op.command.language := by
  obtain ⟨E, b, code, b', hb, hrun, hout⟩ := h
  obtain ⟨-, bs', hbs', hout'⟩ := ((op.command.writes E).run b hb.putOpen).of_ok hrun
  rwa [List.append_cancel_left (hout.symm.trans hout')]

theorem Said.asked (h : Said op bs) (hop : Carried op) :
    ∃ rs, op.Asks rs ∧ commands bs <+: rs ∧ commands bs ≠ [] := by
  obtain ⟨E, b, code, b', hb, hrun, hout⟩ := h
  obtain ⟨bs', rs, hout', hrs⟩ := (hop E b hb).of_ok hrun
  rw [List.append_cancel_left (hout.symm.trans hout')]
  exact ⟨rs, hrs⟩

/-- The commands that are asked for have the paths of the caller, if there are any. -/
theorem args_of_asks {rs : List Request} (h : op.Asks rs) (hpaths : op.paths ≠ []) :
    rs.map (·.arg) = op.paths.map fun path => some path.1 := by
  cases op with
  | repType _ | fileStru _ | transMode _ | allocate _ | restart _ => exact absurd rfl hpaths
  | list rpath justnames =>
    cases rpath with
    | none => exact absurd rfl hpaths
    | some rpath =>
      cases h
      rfl
  | _ =>
    cases h
    rfl

theorem Said.args (h : Said op bs) (hop : Carried op) (hpaths : op.paths ≠ []) :
    (commands bs).map (·.arg) <+: op.paths.map fun path => some path.1 := by
  obtain ⟨rs, hasks, hprefix, -⟩ := h.asked hop
  rw [← args_of_asks hasks hpaths]
  exact hprefix.map _

/-- Calls with different paths have said different lines, as far as both got to these paths. The
first one every call gets to that returns. -/
theorem Said.commands_ne {bs' : List UInt8} (h : Said op bs) (h' : Said op' bs') (hop : Carried op)
    (hop' : Carried op') (hpaths : op.paths ≠ []) (hpaths' : op'.paths ≠ []) {i : Nat}
    (hi : i < (commands bs).length) (hne : op.paths[i]? ≠ op'.paths[i]?) :
    commands bs ≠ commands bs' := by
  intro hsame
  have hargs := h.args hop hpaths
  have hargs' := h'.args hop' hpaths'
  rw [← hsame] at hargs'
  have hlt : i < ((commands bs).map (·.arg)).length := by rwa [List.length_map]
  have hpath : (op.paths.map fun path => some path.1)[i]? =
      (op'.paths.map fun path => some path.1)[i]? := by
    rw [List.prefix_iff_getElem?.mp hargs i hlt, List.prefix_iff_getElem?.mp hargs' i hlt]
  rw [List.getElem?_map, List.getElem?_map] at hpath
  have hinj : Function.Injective fun path : Text => some path.1 := fun path path' hvalue =>
    Subtype.ext (Option.some.inj hvalue)
  exact hne (Option.map_injective hinj hpath)

theorem reached_listening (E : Env) : Ftpbuf.Reached E listening :=
  ⟨.small, 3, fun _ => 0, fun _ => 0, 0, some [], [0, 0, 0, 0], [], rfl⟩

/-- A server that accepts the command. -/
theorem said_of_outcome {x : Option UInt8 × Nat}
    (h : outcome (op.command.call (obliging (.over .sink)) listening) = (some x.1, x.2)) :
    ∃ bs, Said op bs := by
  have hreached := reached_listening (obliging (.over .sink))
  cases hrun : op.command.call (obliging (.over .sink)) listening with
  | ok code b' =>
    obtain ⟨-, bs, -, hout⟩ := ((op.command.writes _).run listening hreached.putOpen).of_ok hrun
    exact ⟨bs, _, listening, code, b', hreached, hrun, hout⟩
  | error e b' =>
    rw [hrun] at h
    cases h

theorem said_transMode (tm : Transmode) : ∃ bs, Said (.transMode tm) bs := by
  refine said_of_outcome (x := (some 50, 1)) ?_
  cases tm <;> decide +kernel

/-- The run does not depend on the paths. -/
theorem said_append (lpath : Text) (rpath : Option Text) : ∃ bs, Said (.append lpath rpath) bs := by
  refine said_of_outcome (x := (some 50, 3)) ?_
  show outcome (Ftpbuf.ftpdata (obliging (.over .sink)) 10000 (some []) none [65, 80, 80, 69] none
    listening) = _
  decide +kernel

theorem transMode_not_carried (tm : Transmode) : ¬ Carried (.transMode tm) := by
  intro hcarried
  obtain ⟨bs, hsaid⟩ := said_transMode tm
  have hclean : ∀ text, transmode[tm.ctorIdx]? = some text → Clean text := by cases tm <;> decide
  have hcommands := commands_plainly (v := .stru) (by decide) hclean hsaid.mem_language
  obtain ⟨rs, rfl, hprefix, -⟩ := hsaid.asked hcarried
  rw [hcommands] at hprefix
  cases tm <;> exact absurd hprefix (by decide)

theorem append_not_carried (lpath : Text) (rpath : Option Text) :
    ¬ Carried (.append lpath rpath) := by
  intro hcarried
  obtain ⟨bs, hsaid⟩ := said_append lpath rpath
  have hcommands := commands_announced (v := .appe) (by decide) (by simp) hsaid.mem_language
  obtain ⟨rs, rfl, hprefix, -⟩ := hsaid.asked hcarried
  rw [hcommands, List.singleton_prefix_cons_iff] at hprefix
  cases hprefix

/-- **What the commands carry.** A call of a method other than `trans_mode` and `append`, with any
argument that has no CR and no LF and in any state of the client, puts on the control connection
the commands that RFC 959 has for it, with exactly the caller's argument; so two calls that have
put the same lines there were to ask for the same. With `trans_mode` and `append` this fails for
every argument. -/
theorem carried_iff (op : Operation) :
    (Carried op ↔ (∀ tm, op ≠ .transMode tm) ∧ ∀ lpath rpath, op ≠ .append lpath rpath) ∧
      (Carried op → ∀ op' bs, Carried op' → Said op bs → Said op' bs →
        commands bs ≠ [] ∧ ∃ rs rs', op.Asks rs ∧ op'.Asks rs' ∧ commands bs <+: rs ∧
          commands bs <+: rs') := by
  refine ⟨⟨fun hcarried => ⟨?_, ?_⟩, fun ⟨htrans, happend⟩ => ?_⟩, ?_⟩
  · rintro tm rfl
    exact transMode_not_carried tm hcarried
  · rintro lpath rpath rfl
    exact append_not_carried lpath rpath hcarried
  · exact carried_of_language fun bs hbs => Operation.language_asked htrans happend hbs
  · intro hop op' bs hop' hsaid hsaid'
    obtain ⟨rs, hasks, hprefix, hsome⟩ := hsaid.asked hop
    obtain ⟨rs', hasks', hprefix', -⟩ := hsaid'.asked hop'
    exact ⟨hsome, rs, rs', hasks, hasks', hprefix, hprefix'⟩

theorem carried_iff_cd : Carried (.cd ⟨[112, 117, 98], by decide⟩) := by
  refine (carried_iff (.cd ⟨[112, 117, 98], by decide⟩)).1.mpr ⟨?_, ?_⟩
  · intro tm h
    cases h
  · intro lpath rpath h
    cases h

/-- The path for the server makes no difference to what `append` says. -/
theorem Said.append_any (h : Said (.append lpath rpath) bs) (rpath' : Option Text) :
    Said (.append lpath rpath') bs := h

/-- `trans_mode` does not ask for the block mode, and `append` says the same for the path `x` as for
the path `y`. -/
theorem append_says_no_path :
    ¬ Carried (.transMode .block) ∧
      ¬ Carried (.append ⟨[97], by decide⟩ (some ⟨[120], by decide⟩)) ∧
      ∃ bs, Said (.append ⟨[97], by decide⟩ (some ⟨[120], by decide⟩)) bs ∧
        Said (.append ⟨[97], by decide⟩ (some ⟨[121], by decide⟩)) bs ∧
        commands bs = [Verb.appe.request none] := by
  refine ⟨transMode_not_carried .block, append_not_carried _ _, ?_⟩
  obtain ⟨bs, hsaid⟩ := said_append ⟨[97], by decide⟩ (some ⟨[120], by decide⟩)
  exact ⟨bs, hsaid, hsaid.append_any _,
    commands_announced (v := .appe) (by decide) (by simp) hsaid.mem_language⟩

end Carrying

end Sockstream.Ftp
