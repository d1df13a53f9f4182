import CDbK8s.Server.Delivery
import CDbK8s.Server.Upcoming

/-!
# The pipe of `client.c`

`my_pipe_readwrite` sends on whatever the receive buffer has after each read. Without a log label
the buffer is then emptied; with one, the lines are taken from it and a line that is not complete
stays.
-/

namespace CDbK8s.Client

open Base Sock Server Lib.Pieces List

variable {logLine : Bool} {x : Bytes} {m : Nat} {b : Rwbuf}

/-! ## The model -/

/-- One direction of the client: `src->recv_sock` and `dst->send_sock` with the kernel's
side of each, whether their poll entries have a descriptor, whether the second waits for
`POLLOUT`, and the lines logged. -/
structure Pipe where
  input : Kernel
  src : SimpleSock
  output : Kernel
  dst : SimpleSock
  pollIn : Bool
  pollOut : Bool
  wantOut : Bool
  logged : List Bytes

def BUFSIZ : Nat := 8192

/-- A socket of `MY_PIPE_INIT`. -/
def myPipeSock : SimpleSock := sockStatic MAX_LINE 0 BUFSIZ BUFSIZ

/-- `sock_recvbuf_consume` on the socket that is read. -/
def Pipe.consume (p : Pipe) (len : Nat) : Pipe :=
  { p with src := { p.src with recvBuf := (rwbufRdinc p.src.recvBuf len).2 } }

/-- The inner loop of `my_pipe_readwrite`: the lines of the receive buffer are logged.
The last value of `rc`, the socket and the log. -/
def logLines (isEof : Bool) : Nat → SimpleSock → List Bytes → Option (Int × SimpleSock × List Bytes)
  | 0, _, _ => none
  | fuel + 1, s, logged =>
    let r := sockRecvLine s isEof
    if r.1 > 0 then logLines isEof fuel r.2.2 (logged ++ [r.2.1])
    else some (r.1, r.2.2, logged)

/-- How the outer loop is left: with `return` after a write error, or with the value of
`rc`. -/
inductive Exit where
  | bail
  | rc (rc : Int)
deriving DecidableEq

/-- One pass of the outer loop of `my_pipe_readwrite`. The buffers are static, so the
outcome of a `realloc` does not matter. -/
def pass (logLine : Bool) (p : Pipe) : Option ((Exit × Pipe) ⊕ Pipe) :=
  let r := sockRecv p.input p.src true
  let p := { p with input := r.2.1, src := r.2.2 }
  if r.1 ≠ SOCK_DATA then some (.inl (.rc r.1, p))
  else
    let str := p.src.recvBuf.unread
    let w := sockSendMem p.output p.dst str true
    let p := { p with output := w.2.1, dst := w.2.2 }
    if w.1 < 0 then some (.inl (.bail, { p with pollOut := false }))
    else
      let p := { p with wantOut := rwbufUsed p.dst.sendBuf != 0 }
      if !logLine then some (.inr (p.consume str.length))
      else
        match logLines p.src.recvFin (rwbufUsed p.src.recvBuf + 1) p.src p.logged with
        | none => none
        | some (rc, src, logged) =>
          let p := { p with src, logged }
          if rc < 0 then some (.inl (.rc rc, p))
          else
            let str := p.src.recvBuf.unread
            if str = prompt then some (.inr (p.consume str.length)) else some (.inr p)

/-- The outer loop of `my_pipe_readwrite`. -/
def passes (logLine : Bool) : Nat → Pipe → Option (Exit × Pipe)
  | 0, _ => none
  | fuel + 1, p =>
    match pass logLine p with
    | none => none
    | some (.inl r) => some r
    | some (.inr p) => passes logLine fuel p

/-- What `my_pipe_readwrite` does behind the loop. -/
def afterLoop (r : Exit × Pipe) : Pipe :=
  match r with
  | (.bail, p) => p
  | (.rc rc, p) =>
    if rc < 0 then
      if rc = SOCK_AGAIN then p
      else
        let p := { p with pollIn := false }
        if rc ≠ SOCK_CLOSED then p else { p with dst := sockWriteClose p.dst false }
    else p

/-- `my_pipe_readwrite`; `logLine` says whether there is a label. `none` would be a loop
that does not end. -/
def myPipeReadwrite (logLine : Bool) (p : Pipe) : Option Pipe :=
  (passes logLine (readable p.input.reads + 1) p).map afterLoop

/-- The next `n` calls of `my_pipe_readwrite`, one for each event of the descriptor that
is read, as long as it is polled. -/
def serve (logLine : Bool) : Nat → Pipe → Option Pipe
  | 0, p => some p
  | n + 1, p => if p.pollIn then (myPipeReadwrite logLine p).bind (serve logLine n) else some p

/-- A direction of the client as `main` sets it up. -/
def myPipeInit (reads : List ReadResult) (writes : List WriteResult) : Pipe :=
  { input := ⟨[], reads, []⟩, src := myPipeSock, output := ⟨writes, [], []⟩, dst := myPipeSock
    pollIn := true, pollOut := true, wantOut := false, logged := [] }

/-! ## Fuel -/

theorem passes_mono {n : Nat} {p : Pipe} {r : Exit × Pipe} (h : passes logLine n p = some r)
    (hle : n ≤ m) : passes logLine m p = some r := by
  induction n generalizing m p with
  | zero => cases h
  | succ n ih =>
    obtain ⟨m, rfl⟩ := Nat.exists_eq_succ_of_ne_zero (by omega : m ≠ 0)
    unfold passes at h ⊢
    cases hpass : pass logLine p with
    | none => rw [hpass] at h; cases h
    | some s =>
      rw [hpass] at h
      cases s with
      | inl _ => exact h
      | inr _ => exact ih h (by omega)

theorem serve_next {p p' : Pipe} (h : pass logLine p = some (.inr p')) (hin : p.pollIn = true)
    (hin' : p'.pollIn = true) (hless : readable p'.input.reads < readable p.input.reads) {n : Nat}
    {q : Pipe} (hq : serve logLine (n + 1) p' = some q) : serve logLine (n + 1) p = some q := by
  rw [serve, if_pos hin'] at hq
  rw [serve, if_pos hin]
  obtain ⟨q', hcall, hrest⟩ := Option.bind_eq_some_iff.1 hq
  obtain ⟨r, hr, hafter⟩ := Option.map_eq_some_iff.1 hcall
  have hpasses : passes logLine (readable p.input.reads + 1) p = some r := by
    rw [passes, h]
    exact passes_mono hr (by omega)
  unfold myPipeReadwrite
  simp [hpasses, hafter, hrest]

theorem serve_exit {p : Pipe} {r : Exit × Pipe} (h : pass logLine p = some (.inl r))
    (hin : p.pollIn = true) (n : Nat) :
    serve logLine (n + 1) p = serve logLine n (afterLoop r) := by
  rw [serve, if_pos hin, myPipeReadwrite, passes, h]
  rfl

theorem serve_closed {p : Pipe} (h : p.pollIn = false) (n : Nat) : serve logLine n p = some p := by
  cases n with
  | zero => rfl
  | succ n => rw [serve, h]; rfl

/-! ## Open pipes -/

/-- The receive buffer of a pipe, with `data` behind the first `ridx` bytes. -/
def holding (data : Bytes) (ridx : Nat) : Rwbuf := { rwbufStatic BUFSIZ with data, ridx }

/-- The socket that is read; `fin` says that the end of the stream was read. -/
def srcSock (rb : Rwbuf) (fin : Bool) : SimpleSock :=
  { myPipeSock with recvBuf := rb, recvFin := fin }

/-- An open pipe that keeps `carry` in its receive buffer and has sent `sent`. -/
def pipeAt (carry : Bytes) (fin : Bool) (reads : List ReadResult) (writes : List WriteResult)
    (sent : Bytes) (logged : List Bytes) : Pipe :=
  { input := ⟨[], reads, []⟩, src := srcSock (holding carry 0) fin, output := ⟨writes, [], sent⟩
    dst := myPipeSock, pollIn := true, pollOut := true, wantOut := false, logged }

/-- The writes to come succeed in full, and there are at least `n` of them. -/
structure InFull (n : Nat) (writes : List WriteResult) : Prop where
  enough : n ≤ writes.length
  full : ∀ w ∈ writes, ∃ m, w = .wrote m ∧ BUFSIZ ≤ m

theorem InFull.cons {n : Nat} {writes : List WriteResult} (h : InFull (n + 1) writes) :
    ∃ m ws, writes = .wrote m :: ws ∧ BUFSIZ ≤ m ∧ InFull n ws := by
  cases writes with
  | nil => exact absurd h.enough (by simp)
  | cons w ws =>
    obtain ⟨m, rfl, hm⟩ := h.full w mem_cons_self
    exact ⟨m, ws, rfl, hm, Nat.le_of_succ_le_succ h.enough, fun w hw => h.full w (.tail _ hw)⟩

theorem InFull.le {n : Nat} {writes : List WriteResult} (h : InFull n writes) (hle : m ≤ n) :
    InFull m writes :=
  ⟨le_trans hle h.enough, h.full⟩

theorem sockSendMem_full {mem : Bytes} (hne : mem ≠ []) (hlen : mem.length ≤ BUFSIZ)
    (hm : BUFSIZ ≤ m) (ws : List WriteResult) (sent : Bytes) :
    sockSendMem ⟨.wrote m :: ws, [], sent⟩ myPipeSock mem true =
      (0, ⟨ws, [], sent ++ mem⟩, myPipeSock) := by
  have hpos := length_pos_iff.2 hne
  have hmin : min m mem.length = mem.length := by omega
  have hrest : writeLoop ws [[], []] = (ws, [[], []], [], .done) := by
    cases ws <;> rfl
  have hloop : writeLoop (.wrote m :: ws) [[], mem] = (ws, [[], []], mem, .done) := by
    rw [writeLoop]
    simp only [flatten_cons, flatten_nil, nil_append, append_nil, hmin]
    rw [if_neg (by omega)]
    have hadv : advance mem.length [[], mem] = [[], []] := by simp [advance]
    simp [hadv, hrest]
  have hwrite : sockWriteIovs ⟨.wrote m :: ws, [], sent⟩ myPipeSock [[], mem] =
      ((mem.length : Int), [[], []], ⟨ws, [], sent ++ mem⟩, myPipeSock) := by
    rw [sockWriteIovs_open _ rfl rfl]
    dsimp only
    rw [hloop, if_neg hpos.ne']
    rfl
  have hunread : myPipeSock.sendBuf.unread = [] := rfl
  unfold sockSendMem sockSendVec
  rw [hunread, map_cons, map_nil, hwrite]
  rw [if_neg (by omega)]
  rfl

/-- What one read takes from the stream is put behind what the buffer has. -/
theorem sockRecv_pipe {carry bytes : Bytes} {reads left : List ReadResult} {stop : Stop}
    (hfit : carry.length ≤ BUFSIZ)
    (h : readLoop false reads (BUFSIZ - carry.length) = (left, bytes, stop))
    (hstop : stop = .done ∨ stop = .again ∨ stop = .closed) :
    sockRecv ⟨[], reads, []⟩ (srcSock (holding carry 0) false) true = if bytes = [] then
        (stop.code false, ⟨[], left, []⟩, srcSock (holding carry 0) (stop == .closed))
      else
        (SOCK_DATA, ⟨[], left, []⟩, srcSock (holding (carry ++ bytes) 0) (stop == .closed)) := by
  have hstopped : (srcSock (holding carry 0) false).stopped stop =
      srcSock (holding carry 0) (stop == .closed) := by
    rcases hstop with rfl | rfl | rfl <;> rfl
  have hread : sockReadData ⟨[], reads, []⟩ (srcSock (holding carry 0) false)
      (BUFSIZ - carry.length) =
        (if bytes.length = 0 then stop.code false else (bytes.length : Int), bytes, ⟨[], left, []⟩,
          srcSock (holding carry 0) (stop == .closed)) := by
    unfold sockReadData
    dsimp only
    rw [show (srcSock _ false).isUdp = false from rfl, h, hstopped]
    rfl
  have hspace : recvSpace (srcSock (holding carry 0) false) true =
      (true, srcSock (holding carry 0) false) := by
    unfold recvSpace
    exact if_neg fun hmin => hmin.1 rfl
  have hroom : rwbufSpace (srcSock (holding carry 0) false).recvBuf = BUFSIZ - carry.length :=
    rwbufSpace_eq hfit
  unfold sockRecv
  rw [hspace]
  dsimp only
  rw [hroom, hread]
  by_cases hnil : bytes = []
  · have hcode := code_le_zero false stop
    subst hnil
    simp [hcode]
  · have hpos := length_pos_iff.2 hnil
    have hrc : ¬ (bytes.length : Int) ≤ 0 := by omega
    rw [if_neg hpos.ne', if_neg hrc, if_neg hnil]
    rfl

/-! ## Logging the lines -/

/-- No line of the stream is longer than `MAX_LINE`. -/
structure NoLongLine (stream : Bytes) : Prop where
  lines : ∀ line ∈ commands stream, line.length ≤ MAX_LINE
  rest : (fragment stream).length ≤ MAX_LINE

/-- A receive buffer that has `x`. -/
structure Has (b : Rwbuf) (x : Bytes) : Prop where
  unread : b.unread = x
  wf : b.Wf
  fixed : b = holding b.data b.ridx

theorem has_holding (hlen : x.length ≤ BUFSIZ) : Has (holding x 0) x :=
  ⟨rfl, ⟨zero_le, hlen, show BUFSIZ < 2 ^ 62 by decide⟩, rfl⟩

theorem Has.length_eq (h : Has b x) : x.length = rwbufUsed b := by
  rw [← h.unread, length_unread]

theorem Has.shift (h : Has b x) : b.shift = holding x 0 := by
  obtain ⟨hunread, -, hfixed⟩ := h
  unfold Rwbuf.shift
  split
  · rw [hunread, hfixed]
    rfl
  · have hzero : b.ridx = 0 := by omega
    rw [Rwbuf.unread, hzero, drop_zero] at hunread
    rw [hfixed, hzero, hunread]

theorem Has.skip_line {l r : Bytes} (h : Has b (l ++ 10 :: r)) : Has (b.skip (l.length + 1)) r := by
  have hlen := h.length_eq
  rw [length_append, length_cons] at hlen
  refine ⟨?_, h.wf.skip (by omega), ?_⟩
  · rw [Rwbuf.unread_skip, h.unread]
    simp
  · rw [h.fixed]
    unfold Rwbuf.skip
    split <;> rfl

theorem sockRecvLine_line {l r : Bytes} (h : Has b (l ++ 10 :: r)) (hl : 10 ∉ l)
    (hshort : (stripCr l).length ≤ MAX_LINE) (eof fin : Bool) :
    sockRecvLine (srcSock b fin) eof =
      (((l.length + 1 : Nat) : Int), stripCr l, srcSock (b.skip (l.length + 1)) fin) := by
  have hread : rwbufReadline b MAX_LINE eof =
      (((l.length + 1 : Nat) : Int), stripCr l, b.skip (l.length + 1)) := by
    rw [readline_found h.unread hl, trimEol_line, if_neg (by omega)]
  have hbuf : (srcSock b fin).recvBuf = b := rfl
  have hmax : (srcSock b fin).maxLine = MAX_LINE := rfl
  unfold sockRecvLine
  rw [hbuf, hmax, hread]
  rfl

theorem sockRecvLine_free (h : Has b x) (hfree : 10 ∉ x) (eof fin : Bool) :
    sockRecvLine (srcSock b fin) eof =
      if x.length > MAX_LINE then (-1, [], { srcSock b fin with sysErr := true })
      else if eof then ((x.length : Int), x, srcSock (holding [] 0) fin)
      else (0, [], srcSock (holding x 0) fin) := by
  have hread : rwbufReadline b MAX_LINE eof = if x.length > MAX_LINE then (-1, [], b)
      else if eof then ((x.length : Int), x, holding [] 0) else (0, [], holding x 0) := by
    have hmax : MAX_LINE ≠ 0 := by decide
    have hempty : { b with data := [], ridx := 0 } = holding [] 0 := by
      rw [h.fixed]
      rfl
    rw [readline_unfinished (by rw [h.unread]; exact hfree), h.unread, ← h.length_eq, hempty, h.shift]
    simp [hmax]
  have hbuf : (srcSock b fin).recvBuf = b := rfl
  have hmax : (srcSock b fin).maxLine = MAX_LINE := rfl
  unfold sockRecvLine
  rw [hbuf, hmax, hread]
  by_cases hlong : x.length > MAX_LINE
  · simp only [if_pos hlong]
    rfl
  · cases eof with
    | true =>
      simp only [if_neg hlong]
      rfl
    | false =>
      simp only [if_neg hlong]
      rfl

theorem logLines_rest (hfree : 10 ∉ x) (hshort : x.length ≤ MAX_LINE) (eof fin : Bool) {fuel : Nat}
    (hfuel : x.length ≤ fuel) (logged : List Bytes) :
    (let r := if eof then ((x.length : Int), x, srcSock (holding [] 0) fin)
        else (0, [], srcSock (holding x 0) fin)
      if r.1 > 0 then logLines eof fuel r.2.2 (logged ++ [r.2.1]) else some (r.1, r.2.2, logged)) =
      some (0, srcSock (holding (if eof then [] else x) 0) fin, logged ++ upcoming x eof) := by
  cases eof with
  | false =>
    have hnone : upcoming x false = [] := by
      rw [upcoming, commands_free hfree]
      rfl
    rw [hnone, append_nil]
    rfl
  | true =>
    cases x with
    | nil => simp [upcoming_nil]
    | cons a x =>
      -- the buffer is empty when the loop asks once more
      obtain ⟨fuel, rfl⟩ := Nat.exists_eq_succ_of_ne_zero
        (by rw [length_cons] at hfuel; omega : fuel ≠ 0)
      rw [upcoming_fragment hfree (cons_ne_nil a x)]
      rw [if_pos (by simp)]
      rfl

/-- The lines of the buffer are logged. What has no line feed stays, unless the stream is
at its end or it is too long. -/
theorem logLines_spec (hlines : ∀ line ∈ commands x, line.length ≤ MAX_LINE) (h : Has b x)
    (eof fin : Bool) {fuel : Nat} (hfuel : x.length < fuel) (logged : List Bytes) :
    ∃ src', logLines eof fuel (srcSock b fin) logged =
      if (fragment x).length > MAX_LINE then some (-1, src', logged ++ commands x)
      else some (0, srcSock (holding (if eof then [] else fragment x) 0) fin,
        logged ++ upcoming x eof) := by
  induction hn : x.length using Nat.strong_induction_on generalizing x b fuel logged with
  | _ n ih =>
    subst hn
    obtain ⟨fuel, rfl⟩ := Nat.exists_eq_succ_of_ne_zero (by omega : fuel ≠ 0)
    rw [logLines]
    rcases free_or_sep 10 x with hfree | ⟨l, r, hl, rfl⟩
    · rw [sockRecvLine_free h hfree, fragment_free hfree, commands_free hfree, append_nil]
      by_cases hlong : x.length > MAX_LINE
      · simp only [if_pos hlong]
        exact ⟨_, rfl⟩
      · refine ⟨srcSock b fin, ?_⟩
        simp only [if_neg hlong]
        exact logLines_rest hfree (by omega) eof fin (by omega) logged
    · have hstrip : (stripCr l).length ≤ MAX_LINE :=
        hlines _ (by rw [commands_line hl]; exact mem_cons_self)
      have hmore : ∀ line ∈ commands r, line.length ≤ MAX_LINE := fun line hline =>
        hlines line (by rw [commands_line hl]; exact .tail _ hline)
      have hless : r.length < (l ++ 10 :: r).length := by
        simp
        omega
      have hleft : r.length < fuel := by omega
      obtain ⟨src', hrec⟩ := ih r.length hless hmore h.skip_line hleft _ rfl
      refine ⟨src', ?_⟩
      rw [sockRecvLine_line h hl hstrip]
      rw [hrec, fragment_line hl, commands_line hl, upcoming_line hl]
      simp

/-! ## One pass -/

/-- What the receive buffer keeps of its contents `x`. -/
def kept (logLine fin : Bool) (x : Bytes) : Bytes :=
  if logLine = true ∧ fin = false ∧ fragment x ≠ prompt then fragment x else []

theorem consume_pipeAt (hlen : x.length ≤ BUFSIZ) (fin : Bool) (reads : List ReadResult)
    (writes : List WriteResult) (sent : Bytes) (logged : List Bytes) :
    (pipeAt x fin reads writes sent logged).consume x.length =
      pipeAt [] fin reads writes sent logged := by
  have hskip : (rwbufRdinc (holding x 0) x.length).2 = holding [] 0 := by
    have hwidx : (holding x 0).widx = x.length := rfl
    have hwf : (holding x 0).Wf := ⟨zero_le, hlen, show BUFSIZ < 2 ^ 62 by decide⟩
    have hall : (holding x 0).ridx + x.length = (holding x 0).widx := zero_add _
    rw [rwbufRdinc_eq hwf hwidx.ge, Rwbuf.skip, if_pos hall]
    rfl
  unfold Pipe.consume
  rw [show (pipeAt x fin reads writes sent logged).src.recvBuf = holding x 0 from rfl, hskip]
  rfl

section
variable {carry bytes : Bytes} {reads left : List ReadResult} {stop : Stop}
variable (h : readLoop false reads (BUFSIZ - carry.length) = (left, bytes, stop))
variable (hstop : stop = .done ∨ stop = .again ∨ stop = .closed)
include h hstop

theorem pass_nothing (hfit : carry.length ≤ BUFSIZ) (hnil : bytes = []) (logLine : Bool)
    (writes : List WriteResult) (sent : Bytes) (logged : List Bytes) :
    pass logLine (pipeAt carry false reads writes sent logged) = some (.inl (.rc (stop.code false),
        pipeAt carry (stop == .closed) left writes sent logged)) := by
  have hrc : stop.code false ≠ SOCK_DATA := by
    rcases hstop with rfl | rfl | rfl <;> decide
  unfold pass
  dsimp only [pipeAt]
  rw [sockRecv_pipe hfit h hstop, if_pos hnil, if_pos hrc]

theorem pass_sends (hne : bytes ≠ []) (hlen : (carry ++ bytes).length ≤ BUFSIZ) (hm : BUFSIZ ≤ m)
    (logLine : Bool) (ws : List WriteResult) (sent : Bytes) (logged : List Bytes) :
    pass logLine (pipeAt carry false reads (.wrote m :: ws) sent logged) = if !logLine then
        some (.inr (pipeAt [] (stop == .closed) left ws (sent ++ (carry ++ bytes)) logged))
      else
        match logLines (stop == .closed) ((carry ++ bytes).length + 1)
            (srcSock (holding (carry ++ bytes) 0) (stop == .closed)) logged with
        | none => none
        | some (rc, src, logged) =>
          let p := { pipeAt [] false left ws (sent ++ (carry ++ bytes)) logged with src }
          if rc < 0 then some (.inl (.rc rc, p))
          else if src.recvBuf.unread = prompt then
            some (.inr (p.consume src.recvBuf.unread.length))
          else some (.inr p) := by
  have hsome : carry ++ bytes ≠ [] := fun hnil => hne (append_eq_nil_iff.1 hnil).2
  have hcons := consume_pipeAt hlen (stop == .closed) left ws (sent ++ (carry ++ bytes)) logged
  unfold pass
  dsimp only [pipeAt]
  rw [sockRecv_pipe (by rw [length_append] at hlen; omega) h hstop, if_neg hne]
  rw [show (srcSock _ _).recvBuf.unread = carry ++ bytes from rfl, sockSendMem_full hsome hlen hm]
  cases logLine with
  | false => exact congrArg (fun p => some _) hcons
  | true => rfl

variable (hne : bytes ≠ []) (hlen : (carry ++ bytes).length ≤ BUFSIZ)
variable (hlines : ∀ line ∈ commands (carry ++ bytes), line.length ≤ MAX_LINE)
include hne hlen hlines

theorem pass_next (hshort : logLine = true → (fragment (carry ++ bytes)).length ≤ MAX_LINE)
    (hm : BUFSIZ ≤ m) (ws : List WriteResult) (sent : Bytes) (logged : List Bytes) :
    ∃ logged', pass logLine (pipeAt carry false reads (.wrote m :: ws) sent logged) =
      some (.inr (pipeAt (kept logLine (stop == .closed) (carry ++ bytes)) (stop == .closed) left ws
        (sent ++ (carry ++ bytes)) logged')) := by
  rw [pass_sends h hstop hne hlen hm]
  cases logLine with
  | false => exact ⟨logged, rfl⟩
  | true =>
    obtain ⟨src', hlog⟩ := logLines_spec hlines (has_holding hlen) _ _ (Nat.lt_succ_self _) _
    have hfrag := hshort rfl
    refine ⟨logged ++ upcoming (carry ++ bytes) (stop == .closed), ?_⟩
    rw [hlog, if_neg (not_lt.2 hfrag)]
    dsimp only
    generalize hy : (if (stop == .closed) = true then [] else fragment (carry ++ bytes)) = y
    have hkept : kept true (stop == .closed) (carry ++ bytes) = if y = prompt then [] else y := by
      rw [← hy, kept]
      cases stop == .closed with
      | true => rfl
      | false =>
        by_cases hprompt : fragment (carry ++ bytes) = prompt
        · simp [hprompt]
        · simp [hprompt]
    have hy' : y.length ≤ BUFSIZ := by
      rw [← hy]
      split
      · exact zero_le
      · exact le_trans hfrag (by decide)
    have hcons := consume_pipeAt hy' (stop == .closed) left ws (sent ++ (carry ++ bytes))
      (logged ++ upcoming (carry ++ bytes) (stop == .closed))
    have hunread : (srcSock (holding y 0) (stop == .closed)).recvBuf.unread = y := rfl
    rw [hkept, hunread]
    by_cases hprompt : y = prompt
    · rw [if_pos hprompt, if_pos hprompt]
      exact congrArg (fun p => some _) hcons
    · rw [if_neg hprompt, if_neg hprompt]
      rfl

theorem pass_abort (hlong : (fragment (carry ++ bytes)).length > MAX_LINE) (hm : BUFSIZ ≤ m)
    (ws : List WriteResult) (sent : Bytes) (logged : List Bytes) :
    ∃ p, pass true (pipeAt carry false reads (.wrote m :: ws) sent logged) =
      some (.inl (.rc (-1), p)) ∧ p.output.accepted = sent ++ (carry ++ bytes) := by
  obtain ⟨src', hlog⟩ := logLines_spec hlines (has_holding hlen) _ _ (Nat.lt_succ_self _) _
  rw [pass_sends h hstop hne hlen hm, hlog, if_pos hlong]
  exact ⟨_, rfl, rfl⟩

end

theorem pass_fin (logLine : Bool) (carry : Bytes) (reads : List ReadResult)
    (writes : List WriteResult) (sent : Bytes) (logged : List Bytes) :
    pass logLine (pipeAt carry true reads writes sent logged) =
      some (.inl (.rc SOCK_CLOSED, pipeAt carry true reads writes sent logged)) := rfl

end CDbK8s.Client
