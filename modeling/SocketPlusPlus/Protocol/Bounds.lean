import SocketPlusPlus.Logic.TwoRuns
import SocketPlusPlus.Protocol.Rounds

/-!
# What `get_response` may look at

The bytes of the get area from `egptr()` on are left over from earlier, or nobody ever wrote them.
A round of `get_response` stays inside if it comes to the same end whatever these bytes are, if it
leaves `gptr()` at most at `egptr()`, and if what it sends to `o` it takes from the bytes received.

SMTP's rounds always do. FTP's rounds use the length of a line also if no CRLF was found, and then
it is one too large: such a round sends the byte at `egptr()` to `o` and steps behind it.
-/

namespace Sockstream

open Exec Memory

/-! ## Bytes behind the get area

`scribble` changes the bytes of the array that are not in the get area. A program that stays inside
cannot tell: it does the same on both arrays. -/

/-- The stream buffer with other bytes from `egptr()` on. -/
def Streambuf.scribble (b : Streambuf UInt8) (m : Nat → UInt8) : Streambuf UInt8 :=
  { b with get := b.get.map fun g =>
      { g with mem := fun i => if i < g.egptr then g.mem i else m i } }

def St.scribble (s : St UInt8) (m : Nat → UInt8) : St UInt8 :=
  { s with self := s.self.scribble m }

def Client.scribble {ρ : Type} (t : Client ρ) (m : Nat → UInt8) : Client ρ :=
  { t with buf := t.buf.scribble m }

section Scribble

variable {K : Kernel} {s : St UInt8}

theorem slice_scribble {g : GetArea UInt8} (m : Nat → UInt8) {a n : Nat} (h : a + n ≤ g.egptr) :
    slice (fun i => if i < g.egptr then g.mem i else m i) a n = slice g.mem a n := by
  apply slice_congr
  intro i _ hi
  exact if_pos (by omega)

theorem Streambuf.unread_scribble (b : Streambuf UInt8) (m : Nat → UInt8) :
    (b.scribble m).unread = b.unread := by
  obtain ⟨get, put, sockname, stored, copied⟩ := b
  cases get with
  | none => rfl
  | some g =>
    by_cases hle : g.gptr ≤ g.egptr
    · have hend : g.gptr + (g.egptr - g.gptr) ≤ g.egptr := by omega
      exact slice_scribble m hend
    · have hzero : g.egptr - g.gptr = 0 := by omega
      show slice _ g.gptr (g.egptr - g.gptr) = slice _ g.gptr (g.egptr - g.gptr)
      rw [hzero, slice_zero, slice_zero]

theorem Streambuf.scribble_bump (b : Streambuf UInt8) (m : Nat → UInt8) (n : Nat) :
    (b.scribble m).bump n = (b.bump n).scribble m := by
  obtain ⟨get, put, sockname, stored, copied⟩ := b
  cases get <;> rfl

theorem blind_query (m : Nat → UInt8) (ask : List Event → Except Errno Bool)
    (note : Except Errno Bool → Event) (operation : String) :
    Blind (St.scribble · m) (query ask note operation) := by
  intro s
  cases hask : ask s.sys.history <;> simp only [query, St.scribble, hask] <;> rfl

theorem blind_input (K : Kernel) (m : Nat → UInt8) (call : InCall) (len : Nat) :
    Blind (St.scribble · m) (input K call len) := by
  intro s
  cases hinput : K.input s.sys.history call len <;> simp only [input, St.scribble, hinput] <;>
    rfl

theorem blind_awaitReadready (K : Kernel) (m : Nat → UInt8) (operation : String) :
    Blind (St.scribble · m) (awaitReadready K operation) := by
  refine .get_bind (fun _ => rfl) fun s => ?_
  refine .bind (.ite (blind_query m _ _ _) (.pure true)) fun ready => .ite ?_ (.throw _)
  refine .bind (.ite (blind_query m _ _ _) (.pure false)) fun mark => ?_
  exact .ite (.throw _) (.pure ())

/-- `read` looks at nothing in the get area. -/
theorem blind_read (K : Kernel) (m : Nat → UInt8) (len : Nat) :
    Blind (St.scribble · m) (read K len) := by
  refine .bind (blind_awaitReadready K m _) fun _ => .bind (blind_input K m _ _) fun answer => ?_
  cases answer with
  | some bs => exact .pure bs
  | none => exact .get_bind (fun _ => rfl) fun s => .throw _

theorem storeBytes_of_lt (m m' : Nat → UInt8) {bs : List UInt8} {i : Nat} (h : i < bs.length) :
    storeBytes m bs i = storeBytes m' bs i := by
  have hbyte : bs[i * 1 + 0]? = some bs[i] := by
    rw [show i * 1 + 0 = i from by omega]
    exact List.getElem?_eq_getElem h
  show (bs[i * 1 + 0]?).getD (m i) = (bs[i * 1 + 0]?).getD (m' i)
  rw [hbyte]
  rfl

/-- What was read is in front, whatever it has overwritten. -/
theorem storeBytes_front (m m' : Nat → UInt8) (bs : List UInt8) :
    storeBytes m bs = fun i => if i < bs.length then storeBytes m' bs i else storeBytes m bs i := by
  funext i
  by_cases hi : i < bs.length
  · rw [if_pos hi]
    exact storeBytes_of_lt m m' hi
  · rw [if_neg hi]

/-- `underflow` looks at no byte from `egptr()` on. -/
theorem underflow_scribble (K : Kernel) (s : St UInt8) (m : Nat → UInt8) :
    wp (underflow K) (fun c s1 => ∃ m', underflow K (s.scribble m) = .ok c (s1.scribble m'))
      (fun e s1 => ∃ m', underflow K (s.scribble m) = .error e (s1.scribble m')) s := by
  cases hget : s.self.get with
  | none =>
    have hget' : (s.scribble m).self.get = none := by
      simp [St.scribble, Streambuf.scribble, hget]
    rw [wp_iff_of_ok (underflow_of_shut K hget)]
    exact ⟨m, underflow_of_shut K hget'⟩
  | some g =>
    by_cases hsome : s.self.unread = []
    · have hempty : ¬ g.gptr < g.egptr := Nat.not_lt.mpr ((unread_nil_iff hget).mp hsome)
      have hget' : (s.scribble m).self.get
          = some { g with mem := fun i => if i < g.egptr then g.mem i else m i } := by
        simp [St.scribble, Streambuf.scribble, hget]
      have hread := blind_read K m (s.rep.gend * CharType.sizeof UInt8) s
      rw [wp_congr (underflow_of_get K hget), underflow_of_get K hget', if_neg hempty,
        if_neg hempty]
      cases hrun : read K (s.rep.gend * CharType.sizeof UInt8) s with
      | error e s1 =>
        rw [hrun] at hread
        rw [wp_bind_of_error hrun]
        exact ⟨m, bind_error hread⟩
      | ok bs s1 =>
        rw [hrun] at hread
        rw [wp_bind_of_ok hrun]
        by_cases hbs : bs.length = 0
        · rw [if_pos hbs]
          refine ⟨m, (bind_ok hread).trans ?_⟩
          rw [if_pos hbs]
          rfl
        · rw [if_neg hbs]
          let mem := fun i => if i < g.egptr then g.mem i else m i
          refine ⟨storeBytes mem bs, (bind_ok hread).trans ?_⟩
          have hfirst : storeBytes mem bs 0 = storeBytes g.mem bs 0 :=
            storeBytes_of_lt mem g.mem (by omega)
          rw [if_neg hbs]
          show EStateM.Result.ok ((storeBytes mem bs 0).toNat : Int)
              { s1 with self := { s1.self with get := some ⟨storeBytes mem bs, 0, bs.length⟩ } }
            = .ok ((storeBytes g.mem bs 0).toNat : Int)
              { s1 with self := { s1.self with get := some ⟨fun i =>
                if i < bs.length then storeBytes g.mem bs i else storeBytes mem bs i,
                0, bs.length⟩ } }
          rw [hfirst, ← storeBytes_front mem g.mem bs]
    · have hsome' : (s.scribble m).self.unread ≠ [] := by
        rwa [show (s.scribble m).self.unread = _ from s.self.unread_scribble m]
      rw [wp_iff_of_ok (underflow_unread K hsome)]
      refine ⟨m, ?_⟩
      rw [underflow_unread K hsome']
      exact congrArg (fun bytes => EStateM.Result.ok (peek bytes) _) (s.self.unread_scribble m)

end Scribble

/-! ## Rounds that stay inside

A round that takes a line with its CRLF writes and skips bytes of the get area only. Without a CRLF
there it writes one byte too many. -/

/-- What the call sent to `o` came out of the bytes received, in order, and is not unread. -/
def Moved {ρ : Type} (t t' : Client ρ) : Prop :=
  ∃ w, Took w t.buf t'.buf ∧ t'.o = t.o.map (· ++ w)

def St.Inside (s : St UInt8) : Prop := ∀ g, s.self.get = some g → g.gptr ≤ g.egptr

/-- What is asked of a round that starts in `t`. -/
structure StaysInside {ρ α : Type} (round : ClientM ρ α) (t : Client ρ) : Prop where
  blind : ∀ m, wp round (fun a t1 => ∃ m', round (t.scribble m) = .ok a (t1.scribble m'))
    (fun e t1 => ∃ m', round (t.scribble m) = .error e (t1.scribble m')) t
  inside : wp round (fun _ t1 => t1.buf.Inside) (fun _ t1 => t1.buf.Inside) t
  passed : wp round (fun _ t1 => Moved t t1) (fun _ t1 => Moved t t1) t

/-- Whenever a round finds five bytes or more, there is a CRLF among them. -/
def St.CrlfThere (K : Kernel) (s : St UInt8) : Prop :=
  ∀ c s1, underflow K s = .ok c s1 → 5 ≤ s1.self.unread.length → [13, 10] <:+: s1.self.unread

section Rounds

variable {ρ β : Type} {K : Kernel} {t t' t'' : Client ρ}

theorem Moved.trans (h : Moved t t') (h' : Moved t' t'') : Moved t t'' := by
  obtain ⟨w, htook, ho⟩ := h
  obtain ⟨w', htook', ho'⟩ := h'
  refine ⟨w ++ w', htook.trans htook', ?_⟩
  rw [ho', ho]
  cases t.o <;> simp

theorem Moved.of_took {s : St UInt8} (h : Took [] t.buf s) : Moved t { t with buf := s } := by
  refine ⟨[], h, ?_⟩
  cases t.o <;> simp

theorem Moved.inside (h : Moved t t') : t'.buf.Inside := by
  obtain ⟨w, htook, -⟩ := h
  obtain ⟨g, hget, hle, -⟩ := htook.getOpen
  intro g' hget'
  cases hget.symm.trans hget'
  exact hle

/-- Some of the unread bytes are passed on. -/
theorem Moved.of_pass (hopen : t.buf.GetOpen) {i : Nat} (hi : i ≤ t.buf.self.unread.length) :
    Moved t (t.pass i) := by
  have hwritten := slice_atGptr hi
  obtain ⟨⟨rep, ⟨get, put, sockname, stored, copied⟩, sys⟩, o, own⟩ := t
  obtain ⟨g, hget, hle, hend⟩ := hopen
  cases hget
  have hi' : g.gptr + i ≤ g.egptr := by
    simp only [Streambuf.unread, length_slice] at hi
    omega
  have htook := Took.of_gbump (s := ⟨rep, ⟨some g, put, sockname, stored, copied⟩, sys⟩) rfl hend
    hi' copied
  refine ⟨_, htook, ?_⟩
  show o.map _ = o.map _
  rw [hwritten]
  simp only [Streambuf.unread]
  rw [take_slice _ _ (by simp only [Streambuf.unread, length_slice] at hi; exact hi)]

theorem Client.scribble_pass (m : Nat → UInt8) {i : Nat} (hi : i ≤ t.buf.self.unread.length) :
    (t.scribble m).pass i = (t.pass i).scribble m := by
  have hsame : slice (t.scribble m).buf.self.atGptr 0 i = slice t.buf.self.atGptr 0 i := by
    have hunread := t.buf.self.unread_scribble m
    rw [slice_atGptr hi]
    show slice (t.buf.self.scribble m).atGptr 0 i = _
    rw [slice_atGptr (hunread ▸ hi), hunread]
  unfold Client.pass
  rw [hsame]
  show ({ t with o := _, buf := { t.buf with self := (t.buf.self.scribble m).bump i } }
    : Client ρ) = _
  rw [Streambuf.scribble_bump]
  rfl

/-- A round stays inside if what it does with a line does. -/
theorem replyRound_stays {short : Turn β Unit} {line : Client ρ → ClientM ρ (Turn β Unit)}
    (hopen : t.buf.GetOpen)
    (hline : ∀ c s, underflow K t.buf = .ok c s → 5 ≤ s.self.unread.length →
      ∃ turn t2, Moved { t with buf := s } t2 ∧
        line { t with buf := s } { t with buf := s } = .ok turn t2 ∧
        ∀ m, line (Client.scribble { t with buf := s } m) (Client.scribble { t with buf := s } m)
          = .ok turn (t2.scribble m)) :
    StaysInside (replyRound K short line) t := by
  have hspec := underflow_spec K hopen
  have hblind := underflow_scribble K t.buf
  have hpassed : wp (replyRound K short line) (fun _ t1 => Moved t t1) (fun _ t1 => Moved t t1)
      t := by
    have htook : ∀ {c s}, underflow K t.buf = .ok c s → Moved t { t with buf := s } :=
      fun hunder => .of_took (hspec.of_ok hunder).1
    apply wp_replyRound
    · exact fun e s hunder => .of_took (hspec.of_error hunder).2.1
    · exact fun s hunder => htook hunder
    · exact fun c s hunder _ _ => htook hunder
    · intro c s hunder _ hlong
      obtain ⟨turn, t2, h2, hrun, -⟩ := hline c s hunder hlong
      rw [wp_iff_of_ok hrun]
      exact (htook hunder).trans h2
  refine ⟨fun m => ?_, hpassed.mono (fun _ _ h => h.inside) (fun _ _ h => h.inside), hpassed⟩
  have hunread : ∀ (s : St UInt8) m', (s.scribble m').self.unread = s.self.unread :=
    fun s m' => s.self.unread_scribble m'
  apply wp_replyRound
  · intro e s hunder
    obtain ⟨m', hunder'⟩ := (hblind m).of_error hunder
    exact ⟨m', replyRound_error (t := t.scribble m) hunder'⟩
  · intro s hunder
    obtain ⟨m', hunder'⟩ := (hblind m).of_ok hunder
    exact ⟨m', replyRound_eof (t := t.scribble m) hunder'⟩
  · intro c s hunder hc hshort
    obtain ⟨m', hunder'⟩ := (hblind m).of_ok hunder
    rw [← hunread s m'] at hshort
    exact ⟨m', replyRound_short (t := t.scribble m) short line hunder' hc hshort⟩
  · intro c s hunder hc hlong
    obtain ⟨m', hunder'⟩ := (hblind m).of_ok hunder
    obtain ⟨turn, t2, -, hrun, hrun'⟩ := hline c s hunder hlong
    rw [← hunread s m'] at hlong
    rw [wp_iff_of_ok hrun]
    refine ⟨m', ?_⟩
    rw [replyRound_line (t := t.scribble m) hunder' hc hlong]
    exact hrun' m'

end Rounds

/-! ### FTP -/

namespace Ftp

variable {K : Kernel} {firstline : Bool} {t : Client (List UInt8)}

theorem passed_scribble (m : Nat → UInt8) (hfound : [13, 10] <:+: t.buf.self.unread) :
    passed firstline (t.scribble m) = (passed firstline t).scribble m := by
  have hunread : (t.scribble m).buf.self.unread = t.buf.self.unread :=
    t.buf.self.unread_scribble m
  have hpass := t.scribble_pass m ((lineEnd_le_iff _).mpr hfound)
  unfold passed
  rw [hunread, hpass]
  rfl

/-- An FTP round stays inside exactly if it finds a CRLF where it looks for one. -/
theorem round_stays_iff (hopen : t.buf.GetOpen) :
    StaysInside (round K firstline) t ↔ t.buf.CrlfThere K := by
  constructor
  · intro h c s hunder hlong
    refine Classical.by_contradiction fun hmissing => ?_
    have hne : s.self.unread ≠ [] := List.ne_nil_of_length_pos (by omega)
    have hc : c ≠ eof := by
      obtain ⟨-, -, hpeek, -⟩ := (underflow_spec K hopen).of_ok hunder
      rw [hpeek]
      exact peek_ne_eof hne
    have hinside := h.inside.of_ok (round_passes firstline hunder hlong hc)
    -- the pointer is one behind the end
    cases hget : s.self.get with
    | none =>
      simp only [Streambuf.unread, hget] at hlong
      exact absurd hlong (by decide)
    | some g =>
      have hle : g.gptr + lineEnd s.self.unread ≤ g.egptr := by
        refine hinside { g with gptr := g.gptr + lineEnd s.self.unread } ?_
        show s.self.get.map _ = _
        rw [hget]
        rfl
      rw [lineEnd_missing hmissing] at hle
      simp only [Streambuf.unread, hget, length_slice] at hle hlong
      omega
  · intro hthere
    refine replyRound_stays hopen fun c s hunder hlong => ?_
    have hfound := hthere c s hunder hlong
    have hs : s.GetOpen := ((underflow_spec K hopen).of_ok hunder).1.getOpen
    refine ⟨_, _, ?_, lineRound_eq firstline hlong, fun m => ?_⟩
    · have hpass := Moved.of_pass (t := { t with buf := s }) hs ((lineEnd_le_iff _).mpr hfound)
      obtain ⟨w, htook, ho⟩ := hpass
      exact ⟨w, htook, ho⟩
    · have hunread : (Client.scribble { t with buf := s } m).buf.self.unread = s.self.unread :=
        s.self.unread_scribble m
      rw [lineRound_eq firstline (hunread ▸ hlong), hunread, passed_scribble m hfound]
      rfl

end Ftp

/-! ### SMTP -/

namespace Smtp

variable {K : Kernel} {t : Client Unit}

theorem round_stays (hopen : t.buf.GetOpen) : StaysInside (round K ()) t := by
  refine replyRound_stays hopen fun c s hunder hlong => ?_
  have hs : s.GetOpen := ((underflow_spec K hopen).of_ok hunder).1.getOpen
  refine ⟨_, _, ?_, lineRound_eq hlong, fun m => ?_⟩
  · exact Moved.of_pass (t := { t with buf := s }) hs (passes_le _)
  · have hunread : (Client.scribble { t with buf := s } m).buf.self.unread = s.self.unread :=
      s.self.unread_scribble m
    rw [lineRound_eq (hunread ▸ hlong), hunread, Client.scribble_pass m (passes_le _)]

end Smtp

/-! ## Calls

A call stays inside if each of its rounds does. Of the SMTP loop this is so for every reply. -/

/-- Every round of the call stays inside, and what the whole call sent to `o` came out of the bytes
received. -/
structure CallStays {ρ α β : Type} (call : Nat → ClientM ρ α) (round : β → ClientM ρ (Turn β Unit))
    (x : β × Client ρ) : Prop where
  rounds : ∀ y, Reaches round x y → StaysInside (round y.1) y.2
  passed : ∀ fuel, wp (call fuel) (fun _ t' => Moved x.2 t') (fun _ t' => Moved x.2 t') x.2

section Calls

variable {ρ β : Type} {round : β → ClientM ρ (Turn β Unit)} {x y : β × Client ρ}

theorem loop_passed (hopen : x.2.buf.GetOpen)
    (hrounds : ∀ y, Reaches round x y → StaysInside (round y.1) y.2) (fuel : Nat) :
    wp (loop round .outOfFuel fuel x.1) (fun _ t' => Moved x.2 t') (fun _ t' => Moved x.2 t')
      x.2 := by
  refine wp_loop_reached (I := fun _ t' => Moved x.2 t') (Q := fun _ t' => Moved x.2 t')
    (E := fun _ t' => Moved x.2 t') ?_ (fun _ _ h => h) (.of_took (.refl hopen)) fuel
  intro b s hreach hs
  refine (hrounds (b, s) hreach).passed.mono ?_ (fun _ _ h => hs.trans h)
  intro turn s' h
  cases turn with
  | again b' => exact hs.trans h
  | leave a => exact hs.trans h

/-- While the rounds stay inside, the get area stays open. -/
theorem reaches_open (hopen : x.2.buf.GetOpen)
    (hround : ∀ y, Reaches round x y → y.2.buf.GetOpen → StaysInside (round y.1) y.2)
    (hreach : Reaches round x y) : y.2.buf.GetOpen := by
  induction hreach with
  | refl => exact hopen
  | tail hbefore hturn ih =>
    obtain ⟨w, htook, -⟩ := (hround _ hbefore ih).passed.of_ok hturn
    exact htook.getOpen

end Calls

/-- **What `get_response` looks at and sends on.** For every kernel and whatever is in the get area,
SMTP's `get_response` looks at no byte from `egptr()` on, never steps behind it, and sends to `o`
bytes that were received, each once. FTP's does so exactly if, in every round that finds five bytes
or more, there is a CRLF among them. -/
theorem getResponse_stays_iff (K : Kernel) {t : Client (List UInt8)} {u : Client Unit}
    (ht : t.buf.GetOpen) (hu : u.buf.GetOpen) :
    (CallStays (Ftp.getResponse K) (Ftp.round K) (true, t) ↔
      ∀ y, Reaches (Ftp.round K) (true, t) y → y.2.buf.CrlfThere K) ∧
    CallStays (Smtp.getResponse K) (Smtp.round K) ((), u) := by
  constructor
  · constructor
    · intro h y hreach
      have hopen : y.2.buf.GetOpen := reaches_open (x := (true, t)) ht
        (fun z hz _ => h.rounds z hz) hreach
      exact (Ftp.round_stays_iff hopen).mp (h.rounds y hreach)
    · intro hthere
      have hrounds : ∀ y, Reaches (Ftp.round K) (true, t) y →
          StaysInside (Ftp.round K y.1) y.2 := by
        intro y hreach
        have hopen : y.2.buf.GetOpen := reaches_open (x := (true, t)) ht
          (fun z hz hzopen => (Ftp.round_stays_iff hzopen).mpr (hthere z hz)) hreach
        exact (Ftp.round_stays_iff hopen).mpr (hthere y hreach)
      refine ⟨hrounds, fun fuel => ?_⟩
      have hloop := loop_passed (x := (true, t)) ht hrounds fuel
      unfold Ftp.getResponse
      rw [wp_bind, Ftp.responseLoop_eq]
      exact hloop.mono (fun _ _ h => h) (fun _ _ h => h)
  · have hrounds : ∀ y, Reaches (Smtp.round K) ((), u) y → StaysInside (Smtp.round K y.1) y.2 := by
      intro y hreach
      have hopen : y.2.buf.GetOpen := reaches_open (x := ((), u)) hu
        (fun z _ hzopen => Smtp.round_stays hzopen) hreach
      exact Smtp.round_stays hopen
    refine ⟨hrounds, fun fuel => ?_⟩
    have hloop := loop_passed (x := ((), u)) hu hrounds fuel
    show wp (Smtp.responseLoop K fuel) _ _ u
    rwa [Smtp.responseLoop_eq]

theorem getOpen_buffering {bytes : List UInt8} (hfits : bytes.length ≤ 64) :
    (Ftp.buffering bytes).buf.GetOpen := ⟨_, rfl, Nat.zero_le _, hfits⟩

/-- `220 ok`, all of it buffered. -/
theorem getResponse_stays_ok :
    let bytes := [50, 50, 48, 32, 111, 107, 13, 10]
    CallStays (Ftp.getResponse Kernel.sink) (Ftp.round Kernel.sink) (true, Ftp.buffering bytes) ∧
      CallStays (Smtp.getResponse Kernel.sink) (Smtp.round Kernel.sink)
        ((), ⟨(Ftp.buffering bytes).buf, some [], ()⟩) := by
  intro bytes
  have hopen : (Ftp.buffering bytes).buf.GetOpen := getOpen_buffering (by decide)
  have hboth := getResponse_stays_iff Kernel.sink (t := Ftp.buffering bytes)
    (u := ⟨(Ftp.buffering bytes).buf, some [], ()⟩) hopen hopen
  have hunread : (Ftp.buffering bytes).buf.self.unread = bytes := by decide
  have hunder := underflow_unread Kernel.sink (s := (Ftp.buffering bytes).buf) (by decide)
  refine ⟨hboth.1.mpr fun y hreach => ?_, hboth.2⟩
  -- the first round leaves the loop, so only its beginning is reached
  have hround := Ftp.round_passes true hunder (by decide) (by decide)
  have hstops : Ftp.Stops true [] (Ftp.buffering bytes).buf.self.unread := by decide
  have hleave : Ftp.round Kernel.sink true (Ftp.buffering bytes)
      = .ok (.leave ()) (Ftp.passed true (Ftp.buffering bytes)) := by
    rw [hround]
    exact congrArg (fun turn => EStateM.Result.ok turn _) (if_pos hstops)
  rcases hreach.cases_head with rfl | ⟨z, hturn, -⟩
  · intro c s hs _
    cases hunder.symm.trans hs
    rw [hunread]
    decide
  · cases hturn.symm.trans hleave

/-- `220 hello` without its CRLF: the byte behind it is sent to `o` too. -/
theorem getResponse_oversteps :
    let start := Ftp.buffering [50, 50, 48, 32, 104, 101, 108, 108, 111]
    (attempt (Ftp.getResponse Kernel.sink 1) start).2.o
        = some [50, 50, 48, 32, 104, 101, 108, 108, 111, 0] ∧
      ¬ CallStays (Ftp.getResponse Kernel.sink) (Ftp.round Kernel.sink) (true, start) := by
  intro start
  refine ⟨by decide +kernel, fun h => ?_⟩
  have hopen : start.buf.GetOpen := getOpen_buffering (by decide)
  have hthere := (Ftp.round_stays_iff hopen).mp (h.rounds (true, start) .refl)
  have hunder := underflow_unread Kernel.sink (s := start.buf) (by decide)
  have hfound := hthere _ _ hunder (by decide)
  exact absurd hfound (by decide)

end Sockstream
