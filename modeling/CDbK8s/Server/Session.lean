import CDbK8s.Lib.Pieces
import CDbK8s.Server.Wakeup

/-!
# What a connection does with the lines it gets

The commands of a byte stream are its lines (`commands`); what is left behind the last line feed is
its `fragment`. `respondAll` is what the commands answer and do to the database, one after the
other.
-/

namespace CDbK8s.Server

open Base Sock Lib.Pieces List

variable {r x : Bytes}
variable {content l out : Bytes} {b : Rwbuf}

/-! ## Streams of commands -/

/-- The complete lines of a stream. -/
def commands (stream : Bytes) : List Bytes := (pieces 10 stream).1.map stripCr

/-- What is left of a stream behind its last line feed. -/
def fragment (stream : Bytes) : Bytes := (pieces 10 stream).2

/-- The lines are short enough for the server, and none of them is `QUIT`. -/
structure Lines (stream : Bytes) : Prop where
  short : ∀ l ∈ (pieces 10 stream).1, l.length ≤ 255
  rest : (fragment stream).length ≤ 255
  noQuit : ∀ line ∈ commands stream, lineCmd line ≠ .quit

theorem commands_append (x y : Bytes) :
    commands (x ++ y) = commands x ++ commands (fragment x ++ y) := by
  unfold commands fragment
  rw [pieces_append, map_append]

theorem fragment_append (x y : Bytes) : fragment (x ++ y) = fragment (fragment x ++ y) := by
  unfold fragment
  rw [pieces_append]

theorem commands_line (hl : 10 ∉ l) (r : Bytes) :
    commands (l ++ 10 :: r) = stripCr l :: commands r := by
  unfold commands
  simp [pieces_sep hl]

theorem fragment_line (hl : 10 ∉ l) (r : Bytes) : fragment (l ++ 10 :: r) = fragment r := by
  unfold fragment
  rw [pieces_sep hl]

theorem commands_free (hx : 10 ∉ x) : commands x = [] := by
  unfold commands
  rw [pieces_free hx, map_nil]

theorem notMem_of_commands (h : commands x = []) : 10 ∉ x := by
  rcases free_or_sep 10 x with hfree | ⟨l, r, hl, rfl⟩
  · exact hfree
  · rw [commands_line hl] at h
    cases h

theorem fragment_free (hx : 10 ∉ x) : fragment x = x := by
  unfold fragment
  rw [pieces_free hx]

theorem notMem_fragment (x : Bytes) : 10 ∉ fragment x := sep_notMem_rest 10 x

theorem Lines.split {y : Bytes} (h : Lines (x ++ y)) : Lines x ∧ Lines (fragment x ++ y) := by
  have hrest := length_rest_le h.short h.rest
  obtain ⟨hshort, hfrag, hquit⟩ := h
  rw [commands_append] at hquit
  rw [fragment_append] at hfrag
  rw [pieces_append] at hshort
  constructor
  · exact ⟨fun l hl => hshort l (mem_append_left _ hl), hrest,
      fun line hline => hquit line (mem_append_left _ hline)⟩
  · exact ⟨fun l hl => hshort l (mem_append_right _ hl), hfrag,
      fun line hline => hquit line (mem_append_right _ hline)⟩

theorem Lines.line (h : Lines (l ++ 10 :: r)) (hl : 10 ∉ l) :
    l.length ≤ 255 ∧ lineCmd (stripCr l) ≠ .quit ∧ Lines r := by
  obtain ⟨hshort, hrest, hquit⟩ := h
  rw [pieces_sep hl] at hshort
  rw [fragment_line hl] at hrest
  rw [commands_line hl] at hquit
  exact ⟨hshort l mem_cons_self, hquit _ mem_cons_self,
    fun l' hl' => hshort l' (.tail _ hl'), hrest,
    fun line hline => hquit line (.tail _ hline)⟩

section
variable {D : Type} (store : Store D)

/-- The response to a command, with line end and prompt, and the database after it. -/
def respond (db : D) (line : Bytes) : Bytes × D :=
  let a := answer store db (sliceTrim (sliceSplitch line 32).2) (lineCmd line)
  (a.1.bytes ++ crlf ++ prompt, a.2)

/-- The answers to some lines, and the database after them. -/
def respondAll (db : D) : List Bytes → Bytes × D
  | [] => ([], db)
  | line :: lines =>
    ((respond store db line).1 ++ (respondAll (respond store db line).2 lines).1,
      (respondAll (respond store db line).2 lines).2)

theorem respondAll_append (db : D) (xs ys : List Bytes) : respondAll store db (xs ++ ys) =
      ((respondAll store db xs).1 ++ (respondAll store (respondAll store db xs).2 ys).1,
        (respondAll store (respondAll store db xs).2 ys).2) := by
  induction xs generalizing db with
  | nil => rfl
  | cons _ _ ih => simp only [cons_append, respondAll, ih, append_assoc]

theorem respond_ne_nil (db : D) (line : Bytes) : (respond store db line).1 ≠ [] := by
  simp [respond, prompt]

end

/-! ## The buffers -/

/-- A send buffer of the server that holds `out`. -/
structure OutBuf (b : Rwbuf) (out : Bytes) : Prop where
  unread : b.unread = out
  wf : b.Wf
  maxSize : b.maxSize = SOCK_MAX_BUFSIZE
  isGrow : b.isGrow = true
  size : b.size = SOCK_INIT_BUFSIZE ∨ b.size = SOCK_MAX_BUFSIZE

section
variable (h : OutBuf b out)
include h

theorem OutBuf.shift : OutBuf b.shift out := by
  refine ⟨b.unread_shift.trans h.unread, h.wf.shift, b.maxSize_shift.trans h.maxSize,
    b.isGrow_shift.trans h.isGrow, ?_⟩
  rw [b.size_shift]
  exact h.size

theorem OutBuf.length_out : out.length = rwbufUsed b := by
  rw [← h.unread, length_unread]

theorem OutBuf.length_le : out.length ≤ SOCK_MAX_BUFSIZE := by
  have hsizes := bufsizes
  have hlen := h.length_out
  have hle := h.wf.widx_le
  unfold rwbufUsed at hlen
  rcases h.size with hsize | hsize <;> omega

omit h in
theorem growSize_initial {need : Nat} (hsize : b.size = SOCK_INIT_BUFSIZE)
    (hfit : b.widx + need ≤ SOCK_MAX_BUFSIZE) : growSize b need = SOCK_MAX_BUFSIZE := by
  have hsizes := bufsizes
  unfold growSize
  rw [hsize]
  dsimp only
  rw [if_neg (by omega)]
  rfl

theorem OutBuf.mkspace {need : Nat} (hneed : need < 2 ^ 63) :
    ((rwbufMkspace b need true).1 = true ↔ out.length + need ≤ SOCK_MAX_BUFSIZE) ∧
      OutBuf (rwbufMkspace b need true).2 out := by
  have hsizes := bufsizes
  have hs := h.shift
  have hwidx : b.shift.widx = out.length := by rw [b.widx_shift, h.length_out]
  have hsize : b.shift.size = SOCK_INIT_BUFSIZE ∨ b.shift.size = SOCK_MAX_BUFSIZE := hs.size
  have hsle := hs.wf.widx_le
  have hinit : rwbufSpace b.shift < need → out.length + need ≤ SOCK_MAX_BUFSIZE →
      growSize b.shift need = SOCK_MAX_BUFSIZE := by
    rw [rwbufSpace_eq hsle]
    exact fun hfull hfit => growSize_initial (by omega) (by omega)
  have hmade := rwbufMkspace_made b need true
  generalize rwbufMkspace b need true = r at hmade ⊢
  cases hmade with
  | fits hroom =>
    have hlen := h.length_out
    have hlimit := h.size
    rw [rwbufSpace_eq h.wf.widx_le] at hroom
    unfold rwbufUsed at hlen
    exact ⟨iff_of_true rfl (by omega), h⟩
  | shifted hroom =>
    rw [rwbufSpace_eq hsle] at hroom
    exact ⟨iff_of_true rfl (by omega), hs⟩
  | grown hfull _ hcap =>
    rw [h.maxSize] at hcap
    have hle := (le_growSize hs.wf (show b.shift.widx + need + 127 < 2 ^ 64 by omega)).1
    have hfit : out.length + need ≤ SOCK_MAX_BUFSIZE := by
      omega
    rw [hinit hfull hfit]
    refine ⟨iff_of_true rfl hfit, hs.unread, ⟨hs.wf.ridx_le, ?_, ?_⟩, hs.maxSize, hs.isGrow,
      .inr rfl⟩
    · show b.shift.widx ≤ SOCK_MAX_BUFSIZE
      omega
    · show SOCK_MAX_BUFSIZE < 2 ^ 62
      decide
  | fixed _ hfix => exact absurd (hfix.symm.trans h.isGrow) Bool.false_ne_true
  | capped hfull _ hcap =>
    rw [h.maxSize] at hcap
    refine ⟨iff_of_false Bool.false_ne_true fun hfit => ?_, hs⟩
    omega
  | failed _ hcap hno =>
    rw [h.maxSize] at hcap
    have := hno rfl
    omega

theorem OutBuf.write (mem : Bytes) (hfit : out.length + mem.length ≤ SOCK_MAX_BUFSIZE) :
    ∃ b', rwbufWrite b mem true = (0, b') ∧ OutBuf b' (out ++ mem) := by
  have hsizes := bufsizes
  have hmem : mem.length < 2 ^ 63 := by omega
  obtain ⟨hok, hbuf⟩ := h.mkspace hmem
  obtain ⟨hwf, hres⟩ := rwbufWrite_spec h.wf hmem true
  have htrue := hok.2 hfit
  unfold rwbufWrite at hwf hres ⊢
  cases hmk : rwbufMkspace b mem.length true with
  | mk ok _ =>
    rw [hmk] at hbuf hwf hres htrue
    obtain rfl : ok = true := htrue
    refine ⟨_, rfl, ?_⟩
    rcases hres with ⟨-, hun⟩ | ⟨hfalse, -⟩
    · exact ⟨by rw [← h.unread]; exact hun, hwf, hbuf.maxSize, hbuf.isGrow, hbuf.size⟩
    · cases hfalse

theorem OutBuf.write_full (mem : Bytes) (hmem : mem.length < 2 ^ 63)
    (hfull : SOCK_MAX_BUFSIZE < out.length + mem.length) : (rwbufWrite b mem true).1 = -1 := by
  obtain ⟨hok, -⟩ := h.mkspace hmem
  unfold rwbufWrite
  cases hmk : rwbufMkspace b mem.length true with
  | mk ok _ =>
    rw [hmk] at hok
    cases ok with
    | false => rfl
    | true => exact absurd (hok.1 rfl) (by omega)

end

/-- A receive buffer of the server that holds `content`. -/
structure InBuf (b : Rwbuf) (content : Bytes) : Prop where
  unread : b.unread = content
  wf : b.Wf
  size : b.size = SOCK_INIT_BUFSIZE

theorem InBuf.length_content (h : InBuf b content) : content.length = rwbufUsed b := by
  rw [← h.unread, length_unread]

theorem InBuf.shift (h : InBuf b content) : InBuf b.shift content ∧ b.shift.ridx = 0 :=
  ⟨⟨b.unread_shift.trans h.unread, h.wf.shift, b.size_shift.trans h.size⟩, b.ridx_shift⟩

theorem InBuf.skip {y : Bytes} (h : InBuf b (x ++ y)) : InBuf (b.skip x.length) y := by
  have hlen := h.length_content
  rw [length_append] at hlen
  refine ⟨?_, h.wf.skip (by omega), ?_⟩
  · simp [Rwbuf.unread_skip, h.unread]
  · unfold Rwbuf.skip
    split <;> exact h.size

theorem InBuf.skip_line (h : InBuf b (l ++ 10 :: r)) : InBuf (b.skip (l.length + 1)) r := by
  have hcut : l ++ 10 :: r = (l ++ [10]) ++ r := by simp
  rw [hcut] at h
  simpa using h.skip

theorem trimEol_line (l : Bytes) : trimEol (l ++ [10]) = stripCr l := by
  unfold trimEol
  rw [List.getLast?_concat, dropLast_concat]
  rfl

theorem length_stripCr_le (l : Bytes) : (stripCr l).length ≤ l.length := by
  unfold stripCr
  split
  · rw [length_dropLast]
    omega
  · exact le_rfl

theorem readline_line (h : InBuf b (l ++ 10 :: r)) (hl : 10 ∉ l) (hshort : l.length ≤ 255)
    (eof : Bool) :
    rwbufReadline b MAX_LINE eof =
      (((l.length + 1 : Nat) : Int), stripCr l, b.skip (l.length + 1)) := by
  have hsizes := bufsizes
  have hstrip := length_stripCr_le l
  rw [readline_found h.unread hl, trimEol_line, if_neg (by omega)]

theorem readline_more (h : InBuf b content) (hfree : 10 ∉ content) (hshort : content.length ≤ 255) :
    rwbufReadline b MAX_LINE false = (0, [], b.shift) := by
  have hsizes := bufsizes
  have hlen := h.length_content
  rw [readline_unfinished (by rw [h.unread]; exact hfree), if_neg (by omega)]
  rfl

theorem readline_end (h : InBuf b content) (hfree : 10 ∉ content) (hshort : content.length ≤ 255) :
    rwbufReadline b MAX_LINE true =
      ((content.length : Int), content, { b with data := [], ridx := 0 }) := by
  have hsizes := bufsizes
  have hlen := h.length_content
  rw [readline_unfinished (by rw [h.unread]; exact hfree), if_neg (by omega), h.unread, ← hlen]
  rfl

/-! ## Open and broken connections -/

/-- The socket of an open connection; `fin` says that the end of the stream was read. -/
def openSock (sb rb : Rwbuf) (fin : Bool) : SimpleSock :=
  { sockStatic MAX_LINE SOCK_MIN_BUFSIZE 0 0 with
    sendBuf := sb, recvBuf := rb, isEpoll := true, recvFin := fin }

/-- A connection that was greeted. -/
def openConn {D : Type} (db : D) (executed : List Bytes) (sb rb : Rwbuf) (fin : Bool) : Conn D :=
  { db, sock := openSock sb rb fin, sndPrompt := true, interest := .rd, executed
    destroyed := false }

/-- A connection that failed and is not yet destroyed. -/
structure Broken {D : Type} (c : Conn D) (db : D) (executed : List Bytes) : Prop where
  db_eq : c.db = db
  executed_eq : c.executed = executed
  sysErr : c.sock.sysErr = true
  alive : c.destroyed = false

variable {D : Type} {store : Store D} {db : D} {executed : List Bytes} {sb rb : Rwbuf} {fin : Bool}
  {out : Bytes}

theorem processLine_eq (c : Conn D) {line : Bytes} (hquit : lineCmd line ≠ .quit) (reallocOk : Bool) :
    processLine store c line reallocOk =
      sendRsp { c with
          db := (answer store c.db (sliceTrim (sliceSplitch line 32).2) (lineCmd line)).2
          executed := c.executed ++ [line] }
        (answer store c.db (sliceTrim (sliceSplitch line 32).2) (lineCmd line)).1 reallocOk := by
  unfold processLine
  dsimp only
  split
  · rename_i hq
    exact absurd hq hquit
  · rfl

theorem sockWriteMem_openSock {sb' : Rwbuf} {mem : Bytes} (h : rwbufWrite sb mem true = (0, sb')) :
    sockWriteMem (openSock sb rb fin) mem true = (0, openSock sb' rb fin) := by
  unfold sockWriteMem
  rw [show (openSock sb rb fin).sendBuf = sb from rfl, h]
  rfl

theorem sockWriteLine_eq (s : SimpleSock) (line : Bytes) :
    sockWriteLine s line true = sockWriteMem s (line ++ crlf) true := by
  have hflat : [line, crlf].flatten = line ++ crlf := by simp
  unfold sockWriteLine sockWriteMem rwbufWritev
  rw [hflat]
  dsimp only
  split
  · rfl
  · rename_i hzero
    rw [not_not.1 hzero]

theorem sockWriteMem_full {s : SimpleSock} {mem : Bytes}
    (h : (rwbufWrite s.sendBuf mem true).1 = -1) :
    sockWriteMem s mem true =
      (-1, { s with sendBuf := (rwbufWrite s.sendBuf mem true).2, sysErr := true }) := by
  unfold sockWriteMem
  dsimp only
  rw [h]
  rfl

theorem sendRsp_fits (h : OutBuf sb out) {rsp : Slice}
    (hfit : out.length + (rsp.bytes ++ crlf ++ prompt).length ≤ SOCK_MAX_BUFSIZE) :
    ∃ sb', sendRsp (openConn db executed sb rb fin) rsp true =
        (0, openConn db executed sb' rb fin) ∧ OutBuf sb' (out ++ (rsp.bytes ++ crlf ++ prompt)) := by
  rw [length_append] at hfit
  obtain ⟨b1, hw1, h1⟩ := h.write (rsp.bytes ++ crlf) (by omega)
  obtain ⟨b2, hw2, h2⟩ := h1.write prompt (by rw [length_append]; omega)
  refine ⟨b2, ?_, by rw [← append_assoc]; exact h2⟩
  unfold sendRsp sendPrompt
  rw [show (openConn db executed sb rb fin).sock = openSock sb rb fin from rfl, sockWriteLine_eq,
    sockWriteMem_openSock hw1]
  dsimp only
  rw [sockWriteMem_openSock hw2]
  rfl

theorem sendRsp_full (h : OutBuf sb out) {rsp : Slice}
    (hfull : SOCK_MAX_BUFSIZE < out.length + (rsp.bytes ++ crlf ++ prompt).length) :
    ∃ c, sendRsp (openConn db executed sb rb fin) rsp true = (-1, c) ∧ Broken c db executed := by
  have hlt : (rsp.bytes ++ crlf).length < 2 ^ 63 := by
    have := rsp.size_lt
    have hcrlf : crlf.length = 2 := rfl
    rw [length_append]
    omega
  rw [length_append] at hfull
  unfold sendRsp sendPrompt
  rw [show (openConn db executed sb rb fin).sock = openSock sb rb fin from rfl, sockWriteLine_eq]
  by_cases hline : out.length + (rsp.bytes ++ crlf).length ≤ SOCK_MAX_BUFSIZE
  · -- the line fits and the prompt does not
    obtain ⟨b1, hw1, h1⟩ := h.write _ hline
    have hw2 := h1.write_full prompt (by decide) (by rw [length_append]; omega)
    rw [sockWriteMem_openSock hw1]
    dsimp only
    rw [sockWriteMem_full hw2]
    exact ⟨_, rfl, rfl, rfl, rfl, rfl⟩
  · have hw := h.write_full _ hlt (by omega)
    rw [sockWriteMem_full hw]
    exact ⟨_, rfl, rfl, rfl, rfl, rfl⟩

theorem processLine_fits (store : Store D) (db : D) (executed : List Bytes) (rb : Rwbuf) (fin : Bool)
    (h : OutBuf sb out) {line : Bytes} (hquit : lineCmd line ≠ .quit)
    (hfit : out.length + (respond store db line).1.length ≤ SOCK_MAX_BUFSIZE) :
    ∃ sb', processLine store (openConn db executed sb rb fin) line true =
        (0, openConn (respond store db line).2 (executed ++ [line]) sb' rb fin) ∧
      OutBuf sb' (out ++ (respond store db line).1) := by
  rw [processLine_eq _ hquit]
  exact sendRsp_fits h hfit

theorem processLine_full (store : Store D) (db : D) (executed : List Bytes) (rb : Rwbuf) (fin : Bool)
    (h : OutBuf sb out) {line : Bytes} (hquit : lineCmd line ≠ .quit)
    (hfull : SOCK_MAX_BUFSIZE < out.length + (respond store db line).1.length) :
    ∃ c, processLine store (openConn db executed sb rb fin) line true = (-1, c) ∧
      Broken c (respond store db line).2 (executed ++ [line]) := by
  rw [processLine_eq _ hquit]
  exact sendRsp_full h hfull

theorem recvLines_step {rb' : Rwbuf} {eof : Bool} {n : Nat} {line : Bytes}
    (h : rwbufReadline rb MAX_LINE eof = ((n : Int), line, rb')) (fuel : Nat) :
    recvLines store eof true (fuel + 1) (openConn db executed sb rb fin) =
      let c := openConn db executed sb rb' fin
      if n = 0 then (0, c)
      else
        let p := processLine store c line true
        if p.1 ≠ 0 then p else recvLines store eof true fuel p.2 := by
  have hline : sockRecvLine (openSock sb rb fin) eof = ((n : Int), line, openSock sb rb' fin) := by
    unfold sockRecvLine
    rw [show (openSock sb rb fin).recvBuf = rb from rfl,
      show (openSock sb rb fin).maxLine = MAX_LINE from rfl, h]
    rfl
  rw [recvLines, show (openConn db executed sb rb fin).sock = openSock sb rb fin from rfl, hline]
  by_cases hzero : n = 0
  · rw [hzero]
    rfl
  · rw [if_neg hzero, if_pos (by omega)]
    rfl

theorem recvLines_line (h : InBuf rb (l ++ 10 :: r)) (hl : 10 ∉ l) (hshort : l.length ≤ 255)
    (eof : Bool) (fuel : Nat) :
    recvLines store eof true (fuel + 1) (openConn db executed sb rb fin) =
      let p := processLine store (openConn db executed sb (rb.skip (l.length + 1)) fin)
        (stripCr l) true
      if p.1 ≠ 0 then p else recvLines store eof true fuel p.2 :=
  recvLines_step (readline_line h hl hshort eof) _

theorem recvLines_more (h : InBuf rb content) (hfree : 10 ∉ content) (hshort : content.length ≤ 255)
    (fuel : Nat) :
    recvLines store false true (fuel + 1) (openConn db executed sb rb fin) =
      (0, openConn db executed sb rb.shift fin) :=
  recvLines_step (readline_more h hfree hshort) _

theorem recvLines_end (h : InBuf rb content) (hfree : 10 ∉ content) (hshort : content.length ≤ 255)
    (fuel : Nat) :
    recvLines store true true (fuel + 1) (openConn db executed sb rb fin) =
      let c := openConn db executed sb { rb with data := [], ridx := 0 } fin
      if content = [] then (0, c)
      else
        let p := processLine store c content true
        if p.1 ≠ 0 then p else recvLines store true true fuel p.2 := by
  rw [recvLines_step (readline_end h hfree hshort) _]
  exact if_congr length_eq_zero_iff rfl rfl

/-- A line that does not fit after those before it breaks the connection. -/
def Overflow {D : Type} (store : Store D) (db : D) (executed : List Bytes) (out : Bytes)
    (lines : List Bytes) (c : Conn D) : Prop :=
  ∃ done line todo, lines = done ++ line :: todo ∧
    out.length + (respondAll store db done).1.length ≤ SOCK_MAX_BUFSIZE ∧
    SOCK_MAX_BUFSIZE < out.length + (respondAll store db (done ++ [line])).1.length ∧
    Broken c (respondAll store db (done ++ [line])).2 (executed ++ (done ++ [line]))

theorem Overflow.after (xs : List Bytes) {ys : List Bytes} {c : Conn D}
    (h : Overflow store (respondAll store db xs).2 (executed ++ xs)
      (out ++ (respondAll store db xs).1) ys c) : Overflow store db executed out (xs ++ ys) c := by
  obtain ⟨done, line, todo, hlines, hdone, hover, hbroken⟩ := h
  rw [length_append] at hdone hover
  refine ⟨xs ++ done, line, todo, by rw [hlines, append_assoc], ?_, ?_, ?_⟩
  · simp [respondAll_append]
    omega
  · rw [append_assoc, respondAll_append, length_append]
    omega
  · rw [append_assoc, respondAll_append, ← append_assoc _]
    exact hbroken

/-- The lines of the buffer are executed in order while their responses fit, and the loop comes to
what is behind them; or one does not fit. -/
theorem recvLines_cases (store : Store D) (db : D) (executed : List Bytes) (fin : Bool) {fuel : Nat}
    (h : InBuf rb content) (hl : Lines content) (ho : OutBuf sb out) (hfuel : content.length < fuel)
    (eof : Bool) :
    (out.length + (respondAll store db (commands content)).1.length ≤ SOCK_MAX_BUFSIZE ∧
      ∃ sb' rb' fuel', recvLines store eof true fuel (openConn db executed sb rb fin) =
          recvLines store eof true fuel' (openConn (respondAll store db (commands content)).2
            (executed ++ commands content) sb' rb' fin) ∧
        OutBuf sb' (out ++ (respondAll store db (commands content)).1) ∧
        InBuf rb' (fragment content) ∧ (fragment content).length < fuel') ∨
    SOCK_MAX_BUFSIZE < out.length + (respondAll store db (commands content)).1.length ∧
      ∃ c, recvLines store eof true fuel (openConn db executed sb rb fin) = (-1, c) ∧
        Overflow store db executed out (commands content) c := by
  induction hn : content.length using Nat.strong_induction_on
    generalizing content db executed sb rb out fuel with
  | _ n ih =>
    rcases free_or_sep 10 content with hfree | ⟨l, r, hfree, rfl⟩
    · rw [commands_free hfree, fragment_free hfree, respondAll, append_nil, append_nil]
      exact .inl ⟨ho.length_le, sb, rb, fuel, rfl, ho, h, hfuel⟩
    · obtain ⟨hshort, hquit, hlr⟩ := hl.line hfree
      rw [commands_line hfree, fragment_line hfree]
      rw [length_append, length_cons] at hn hfuel
      obtain ⟨fuel, rfl⟩ : ∃ n, fuel = n + 1 := ⟨fuel - 1, by omega⟩
      rw [recvLines_line h hfree hshort]
      by_cases hfit : out.length + (respond store db (stripCr l)).1.length ≤ SOCK_MAX_BUFSIZE
      · obtain ⟨sb1, hrun, ho1⟩ := processLine_fits _ db _ _ fin ho hquit hfit
        rw [hrun]
        dsimp only
        rw [respondAll, length_append, ← add_assoc, ← length_append]
        rcases @ih _ (by omega) r _ _ _ (respond _ db _).2
          _ fuel h.skip_line hlr ho1 (by omega) rfl with
          ⟨hall, sb', rb', fuel', hrec, hout, hin, hlt⟩ | ⟨hmany, c, hrec, hover⟩
        · refine .inl ⟨hall, sb', rb', fuel', ?_, ?_, hin, hlt⟩
          · rw [hrec, append_assoc]
            rfl
          · rw [append_assoc] at hout
            exact hout
        · refine .inr ⟨hmany, c, hrec, Overflow.after [stripCr l] ?_⟩
          show Overflow store _ _ (out ++ ((respond store db (stripCr l)).1 ++ [])) _ c
          rw [append_nil]
          exact hover
      · obtain ⟨c, hrun, hbroken⟩ := processLine_full store db _ _ fin ho hquit (by omega)
        rw [hrun, respondAll, length_append]
        refine .inr ⟨by omega, c, rfl, [], stripCr l, commands r, rfl, ?_, ?_, hbroken⟩
        · simpa [respondAll] using ho.length_le
        · simpa [respondAll] using hfit

end CDbK8s.Server
