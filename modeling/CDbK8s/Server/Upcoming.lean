import CDbK8s.Server.Session

/-!
# The lines an event can execute

What a connection can read while an event is handled is known before it: what is in its receive
buffer and what the reads deliver, up to the end of the stream if they reach it (`ahead`, `atEnd`).
The lines that the event executes are the first lines of this, in order, and the database is changed
by them only.
-/

namespace CDbK8s.Server

open Base Sock Lib.Pieces List

variable {fin : Bool} {rest : Bytes} {res : Int × Bytes × Rwbuf}
variable {s : SimpleSock}

/-! ## The stream ahead -/

/-- The bytes that some reads deliver, up to the end of the stream. -/
def delivered : List ReadResult → Bytes
  | [] => []
  | .data bytes :: rs => if bytes = [] then [] else bytes ++ delivered rs
  | _ :: rs => delivered rs

/-- Some read finds the end of the stream. -/
def endsIn (reads : List ReadResult) : Bool := reads.any (· == .data [])

/-- The bytes that are buffered or still to be read. -/
def ahead (k : Kernel) (s : SimpleSock) : Bytes :=
  s.recvBuf.unread ++ (if s.recvFin then [] else delivered k.reads)

/-- The end of the stream was read or will be. -/
def atEnd (k : Kernel) (s : SimpleSock) : Bool := s.recvFin || endsIn k.reads

/-- The lines of a stream. At its end, what is left without a line feed is a line too. -/
def upcoming (stream : Bytes) (fin : Bool) : List Bytes :=
  commands stream ++ (if fin = true ∧ fragment stream ≠ [] then [fragment stream] else [])

theorem upcoming_line {l : Bytes} (hl : 10 ∉ l) (r : Bytes) (fin : Bool) :
    upcoming (l ++ 10 :: r) fin = stripCr l :: upcoming r fin := by
  unfold upcoming
  simp [commands_line hl, fragment_line hl]

theorem upcoming_fragment {x : Bytes} (hfree : 10 ∉ x) (hne : x ≠ []) : upcoming x true = [x] := by
  unfold upcoming
  rw [commands_free hfree, fragment_free hfree, if_pos ⟨rfl, hne⟩, nil_append]

theorem upcoming_nil (fin : Bool) : upcoming [] fin = [] := by
  cases fin <;> rfl

/-- The read loop of a stream socket takes the first bytes of what is delivered, and ends
with `closed` only at the end of the stream. -/
theorem readLoop_delivered (reads : List ReadResult) (len : Nat) :
    if (readLoop false reads len).2.2 = .closed then
      delivered reads = (readLoop false reads len).2.1 ∧ endsIn reads = true
    else
      delivered reads = (readLoop false reads len).2.1 ++ delivered (readLoop false reads len).1 ∧
        endsIn reads = endsIn (readLoop false reads len).1 := by
  induction reads generalizing len with
  | nil => cases len <;> exact ⟨rfl, rfl⟩
  | cons r rs ih =>
    unfold readLoop
    by_cases hlen : len = 0
    · rw [if_pos hlen]
      exact ⟨rfl, rfl⟩
    · rw [if_neg hlen]
      cases r with
      | again => exact ⟨rfl, rfl⟩
      | intr => exact ⟨rfl, rfl⟩
      | error => exact ⟨rfl, rfl⟩
      | data bytes =>
        by_cases hnil : bytes = []
        · subst hnil
          exact ⟨rfl, rfl⟩
        · have hpos : ¬ bytes.length = 0 := fun h => hnil (length_eq_zero_iff.1 h)
          have hdel : delivered (.data bytes :: rs) = bytes ++ delivered rs := if_neg hnil
          have hend : ∀ b : Bytes, b ≠ [] → endsIn (.data b :: rs) = endsIn rs := by
            intro b hb
            simp [endsIn, hb]
          simp only [hpos, Bool.false_eq_true]
          by_cases hlong : bytes.length > len
          · -- what does not fit is delivered by the next read
            have hrest : bytes.drop len ≠ [] := by
              intro h
              have := drop_eq_nil_iff.1 h
              omega
            simp only [hlong, if_true, if_false]
            refine ⟨?_, (hend _ hnil).trans (hend _ hrest).symm⟩
            rw [hdel, delivered, if_neg hrest, ← append_assoc, take_append_drop]
          · simp only [hlong, if_false]
            have hrec := ih (len - bytes.length)
            rw [hdel, hend bytes hnil]
            split
            · rename_i hclosed
              rw [if_pos hclosed] at hrec
              exact ⟨by rw [hrec.1], hrec.2⟩
            · rename_i hopen
              rw [if_neg hopen] at hrec
              exact ⟨by rw [hrec.1, append_assoc], hrec.2⟩

/-! ## What the handlers do to the flags -/

/-- The flags that reading keeps. -/
structure Reads (s s' : SimpleSock) : Prop where
  isUdp : s'.isUdp = s.isUdp
  closeNow : s'.closeNow = s.closeNow
  sysErr : s.sysErr = true → s'.sysErr = true

theorem Reads.refl (s : SimpleSock) : Reads s s := ⟨rfl, rfl, id⟩

theorem Reads.trans {s1 s2 s3 : SimpleSock} (h : Reads s1 s2) (h' : Reads s2 s3) : Reads s1 s3 :=
  ⟨h'.isUdp.trans h.isUdp, h'.closeNow.trans h.closeNow, fun herr => h'.sysErr (h.sysErr herr)⟩

/-- The indices of the receive buffer are in order. -/
def InOrder (s : SimpleSock) : Prop := s.recvBuf.ridx ≤ s.recvBuf.widx

theorem unread_received (s : SimpleSock) (bytes : Bytes) (h : InOrder s) :
    (s.received bytes).recvBuf.unread = s.recvBuf.unread ++ bytes :=
  drop_append_of_le_length h

/-- A call of `sock_recv` keeps the stream ahead; it ends without data and with an error
only where no end of the stream was read, unless `sys_err` is set. -/
structure Received (k : Kernel) (s : SimpleSock) (r : Int × Kernel × SimpleSock) : Prop where
  reads : Reads s r.2.2
  inOrder : InOrder r.2.2
  ahead : ahead r.2.1 r.2.2 = ahead k s
  atEnd : atEnd r.2.1 r.2.2 = atEnd k s
  failed : r.1 ≠ SOCK_DATA → r.1 ≠ SOCK_CLOSED → r.2.2.sysErr = true ∨ r.2.2.recvFin = false

theorem recvSpace_keeps (h : InOrder s) (reallocOk : Bool) :
    Reads s (recvSpace s reallocOk).2 ∧ InOrder (recvSpace s reallocOk).2 ∧
      (recvSpace s reallocOk).2.recvBuf.unread = s.recvBuf.unread ∧
      (recvSpace s reallocOk).2.recvFin = s.recvFin := by
  unfold recvSpace
  dsimp only
  split
  · exact ⟨⟨rfl, rfl, id⟩, ridx_mkspace_le h _ _, unread_mkspace _ _ _, rfl⟩
  · exact ⟨Reads.refl s, h, rfl, rfl⟩

theorem recvFin_stopped (s : SimpleSock) (stop : Stop) :
    (s.stopped stop).recvFin = (s.recvFin || decide (stop = .closed)) := by
  cases stop <;> simp [SimpleSock.stopped]

theorem stopped_recvBuf (s : SimpleSock) (stop : Stop) :
    (s.stopped stop).recvBuf = s.recvBuf ∧ Reads s (s.stopped stop) := by
  cases stop <;> exact ⟨rfl, rfl, rfl, fun h => by first | exact h | rfl⟩

/-- Reading from the descriptor: what is read is taken from what is delivered. -/
theorem sockReadData_keeps (k : Kernel) (hudp : s.isUdp = false) (len : Nat) :
    let r := sockReadData k s len
    Reads s r.2.2.2 ∧ r.2.2.2.recvBuf = s.recvBuf ∧
      s.recvBuf.unread ++ r.2.1 ++ (if r.2.2.2.recvFin then [] else delivered r.2.2.1.reads) =
        ahead k s ∧
      atEnd r.2.2.1 r.2.2.2 = atEnd k s ∧
      (r.1 ≤ 0 → r.2.1 = [] ∧
        (r.1 ≠ SOCK_CLOSED → r.2.2.2.sysErr = true ∨ r.2.2.2.recvFin = false)) := by
  unfold sockReadData ahead atEnd
  cases hsys : s.sysErr with
  | true => simp [hsys, Reads.refl]
  | false =>
    cases hfin : s.recvFin with
    | true => simp [hfin, Reads.refl]
    | false =>
      have hloop := readLoop_delivered k.reads len
      simp only [hudp, Bool.false_eq_true, if_false]
      generalize readLoop false k.reads len = r at hloop ⊢
      obtain ⟨hbuf, hreads⟩ := stopped_recvBuf s _
      have hfin' := recvFin_stopped s r.2.2
      rw [hfin] at hfin'
      refine ⟨hreads, hbuf, ?_, ?_, ?_⟩
      · rw [hfin']
        by_cases hclosed : r.2.2 = .closed
        · rw [if_pos hclosed] at hloop
          simp [hclosed, hloop.1]
        · rw [if_neg hclosed] at hloop
          simp [hclosed, hloop.1]
      · rw [hfin']
        by_cases hclosed : r.2.2 = .closed
        · rw [if_pos hclosed] at hloop
          simp [hclosed, hloop.2]
        · rw [if_neg hclosed] at hloop
          simp [hclosed, hloop.2]
      · intro _
        by_cases hnone : r.2.1.length = 0
        · refine ⟨length_eq_zero_iff.1 hnone, fun hne => .inr ?_⟩
          rw [hfin']
          rw [if_pos hnone] at hne
          refine decide_eq_false ?_
          intro hclosed
          rw [hclosed] at hne
          exact hne rfl
        · omega

theorem sockRecv_received (k : Kernel) (hudp : s.isUdp = false) (h : InOrder s) (reallocOk : Bool) :
    Received k s (sockRecv k s reallocOk) := by
  obtain ⟨hreads, horder, hunread, hfin⟩ := recvSpace_keeps h _
  have hahead : ahead k (recvSpace s reallocOk).2 = ahead k s := by
    unfold ahead
    rw [hunread, hfin]
  have hend : atEnd k (recvSpace s reallocOk).2 = atEnd k s := by
    unfold atEnd
    rw [hfin]
  unfold sockRecv
  generalize recvSpace s reallocOk = p at *
  dsimp only
  split
  · exact ⟨hreads.trans ⟨rfl, rfl, fun _ => rfl⟩, horder, hahead, hend, fun _ _ => .inl rfl⟩
  · obtain ⟨hreads', hbuf, hrest, hend', hnone⟩ := sockReadData_keeps k (hreads.isUdp.trans hudp) _
    generalize sockReadData k p.2 _ = r at *
    have horder' : InOrder r.2.2.2 := by
      unfold InOrder
      rw [hbuf]
      exact horder
    split
    · rename_i hrc
      refine ⟨hreads.trans hreads', horder', ?_, hend'.trans hend, fun _ => (hnone hrc).2⟩
      rw [(hnone hrc).1, append_nil, ← hbuf] at hrest
      exact hrest.trans hahead
    · refine ⟨hreads.trans ⟨hreads'.isUdp, hreads'.closeNow, hreads'.sysErr⟩, ?_, ?_,
        hend'.trans hend, fun hne => absurd rfl hne⟩
      · have hle : r.2.2.2.recvBuf.ridx ≤ r.2.2.2.recvBuf.widx := horder'
        show r.2.2.2.recvBuf.ridx ≤ (r.2.2.2.recvBuf.data ++ r.2.1).length
        rw [length_append]
        exact le_trans hle (Nat.le_add_right _ _)
      · rw [← hahead, ← hrest, ← hbuf, ← unread_received _ _ horder']
        rfl

/-- One call of `sock_recv_line`: a line is the first of the lines ahead; without one the
lines ahead stay, or `sys_err` is set. -/
structure LineRead (s : SimpleSock) (rest : Bytes) (fin : Bool) (r : Int × Bytes × SimpleSock) :
    Prop where
  reads : Reads s r.2.2
  inOrder : InOrder r.2.2
  recvFin : r.2.2.recvFin = s.recvFin
  failed : r.1 < 0 → r.2.2.sysErr = true
  none : r.1 = 0 → upcoming (r.2.2.recvBuf.unread ++ rest) fin =
    upcoming (s.recvBuf.unread ++ rest) fin
  line : 0 < r.1 → upcoming (s.recvBuf.unread ++ rest) fin =
    r.2.1 :: upcoming (r.2.2.recvBuf.unread ++ rest) fin

theorem readline_complete {b : Rwbuf} {l r : Bytes} (h : b.unread = l ++ 10 :: r) (hl : 10 ∉ l)
    (max : Nat) (eof : Bool) :
    (rwbufReadline b max eof).2 = (stripCr l, b.skip (l.length + 1)) ∧
      ((rwbufReadline b max eof).1 = -1 ∨ (rwbufReadline b max eof).1 = (l.length + 1 : Nat)) := by
  rw [readline_found h hl, trimEol_line]
  split
  · exact ⟨rfl, .inl rfl⟩
  · exact ⟨rfl, .inr rfl⟩

theorem lineRead_failed {eof : Bool} (rest : Bytes) (fin : Bool)
    (hres : rwbufReadline s.recvBuf s.maxLine eof = res) (hneg : res.1 < 0)
    (horder : res.2.2.ridx ≤ res.2.2.widx) : LineRead s rest fin (sockRecvLine s eof) := by
  unfold sockRecvLine
  rw [hres]
  rw [if_pos hneg]
  refine ⟨⟨rfl, rfl, fun _ => rfl⟩, horder, rfl, fun _ => rfl, ?_, ?_⟩
  · intro hzero
    cases hzero
  · intro hpos
    exact absurd hpos (show ¬ (0 : Int) < -1 by decide)

theorem lineRead_ok {eof : Bool} (hres : rwbufReadline s.recvBuf s.maxLine eof = res)
    (hok : 0 ≤ res.1) (horder : res.2.2.ridx ≤ res.2.2.widx)
    (hnone : res.1 = 0 →
      upcoming (res.2.2.unread ++ rest) fin = upcoming (s.recvBuf.unread ++ rest) fin)
    (hline : 0 < res.1 → upcoming (s.recvBuf.unread ++ rest) fin =
      res.2.1 :: upcoming (res.2.2.unread ++ rest) fin) :
    LineRead s rest fin (sockRecvLine s eof) := by
  unfold sockRecvLine
  rw [hres]
  rw [if_neg (by omega)]
  refine ⟨⟨rfl, rfl, id⟩, horder, rfl, ?_, hnone, hline⟩
  omega

theorem sockRecvLine_free (h : InOrder s) (hfree : 10 ∉ s.recvBuf.unread) (eof : Bool)
    (heof : eof = true → rest = [] ∧ fin = true) : LineRead s rest fin (sockRecvLine s eof) := by
  have hlen := length_unread s.recvBuf
  have hres := readline_unfinished hfree s.maxLine eof
  by_cases hlong : s.maxLine ≠ 0 ∧ rwbufUsed s.recvBuf > s.maxLine
  · rw [if_pos hlong] at hres
    exact lineRead_failed _ fin hres (show (-1 : Int) < 0 by decide) h
  · rw [if_neg hlong] at hres
    cases eof with
    | false =>
      refine lineRead_ok hres (Int.le_refl 0) (ridx_shift_le _) ?_ ?_
      · intro _
        show upcoming (s.recvBuf.shift.unread ++ rest) fin = _
        rw [Rwbuf.unread_shift]
      · intro hpos
        exact absurd hpos (show ¬ (0 : Int) < 0 by decide)
    | true =>
      -- the rest of the stream is a line, unless there is nothing left
      obtain ⟨rfl, rfl⟩ := heof rfl
      refine lineRead_ok hres (Int.natCast_nonneg _) zero_le ?_ ?_
      · intro hzero
        have hused : ((rwbufUsed s.recvBuf : Nat) : Int) = 0 := hzero
        have hnil : s.recvBuf.unread = [] := length_eq_zero_iff.1 (by omega)
        rw [hnil]
        rfl
      · intro hpos
        have hused : (0 : Int) < (rwbufUsed s.recvBuf : Nat) := hpos
        have hne : s.recvBuf.unread ≠ [] := by
          intro hnil
          simp [hnil] at hlen
          omega
        rw [append_nil, upcoming_fragment hfree hne]
        rfl

/-- `sock_recv_line`, with the end flag only for a stream that has no more than what is
in the buffer. -/
theorem sockRecvLine_read (h : InOrder s) (eof : Bool) (heof : eof = true → rest = [] ∧ fin = true) :
    LineRead s rest fin (sockRecvLine s eof) := by
  rcases free_or_sep 10 s.recvBuf.unread with hfree | ⟨l, r, hl, hsplit⟩
  · exact sockRecvLine_free h hfree eof heof
  · have hlen : l.length + 1 ≤ s.recvBuf.unread.length := by
      rw [hsplit, length_append, length_cons]
      omega
    rw [length_unread, rwbufUsed] at hlen
    have hskip : (s.recvBuf.skip (l.length + 1)).ridx ≤ (s.recvBuf.skip (l.length + 1)).widx :=
      ridx_skip_le (by have : s.recvBuf.ridx ≤ s.recvBuf.widx := h; omega)
    obtain ⟨hpair, hrc⟩ := readline_complete hsplit hl _ eof
    cases hres : rwbufReadline s.recvBuf s.maxLine eof with
    | mk _ pair =>
      rw [hres] at hpair hrc
      obtain rfl : pair = (stripCr l, s.recvBuf.skip (l.length + 1)) := hpair
      rcases hrc with rfl | rfl
      · exact lineRead_failed _ fin hres (show (-1 : Int) < 0 by decide) hskip
      · refine lineRead_ok hres (Int.natCast_nonneg _) hskip ?_ ?_
        · omega
        · have hdrop : (s.recvBuf.skip (l.length + 1)).unread = r := by
            rw [Rwbuf.unread_skip, hsplit, drop_length_add_append]
            rfl
          simp [hdrop, hsplit, upcoming_line hl]

variable {D : Type} {store : Store D}

/-- Buffering an answer: only the send buffer changes, and `sys_err` is set when the
answer does not fit. -/
structure Answered (c : Conn D) (r : Int × Conn D) : Prop where
  db : r.2.db = c.db
  executed : r.2.executed = c.executed
  destroyed : r.2.destroyed = c.destroyed
  reads : Reads c.sock r.2.sock
  recvBuf : r.2.sock.recvBuf = c.sock.recvBuf
  recvFin : r.2.sock.recvFin = c.sock.recvFin
  failed : r.1 ≠ 0 → r.2.sock.sysErr = true

theorem sendPrompt_answered (c : Conn D) (reallocOk : Bool) :
    Answered c (sendPrompt c reallocOk) := by
  unfold sendPrompt sockWriteMem
  dsimp only
  split
  · exact ⟨rfl, rfl, rfl, ⟨rfl, rfl, fun _ => rfl⟩, rfl, rfl, fun _ => rfl⟩
  · rename_i hzero
    exact ⟨rfl, rfl, rfl, ⟨rfl, rfl, id⟩, rfl, rfl, fun hne => absurd hne hzero⟩

theorem sendRsp_answered (c : Conn D) (rsp : Slice) (reallocOk : Bool) :
    Answered c (sendRsp c rsp reallocOk) := by
  have hline : Answered c ((sockWriteLine c.sock rsp.bytes reallocOk).1,
      { c with sock := (sockWriteLine c.sock rsp.bytes reallocOk).2 }) := by
    unfold sockWriteLine
    dsimp only
    split
    · exact ⟨rfl, rfl, rfl, ⟨rfl, rfl, fun _ => rfl⟩, rfl, rfl, fun _ => rfl⟩
    · exact ⟨rfl, rfl, rfl, ⟨rfl, rfl, id⟩, rfl, rfl, fun hne => absurd rfl hne⟩
  unfold sendRsp
  dsimp only
  split
  · have hprompt := sendPrompt_answered
      { c with sock := (sockWriteLine c.sock rsp.bytes reallocOk).2 } reallocOk
    exact ⟨hprompt.db, hprompt.executed, hprompt.destroyed, hline.reads.trans hprompt.reads,
      hprompt.recvBuf.trans hline.recvBuf, hprompt.recvFin.trans hline.recvFin, hprompt.failed⟩
  · exact hline

/-- Some lines are executed. A `QUIT` among them closes the connection or finds it
broken, and without one nothing closes. -/
structure Taken (store : Store D) (lines : List Bytes) (c c' : Conn D) : Prop where
  executed : c'.executed = c.executed ++ lines
  db : c'.db = (respondAll store c.db lines).2
  destroyed : c'.destroyed = c.destroyed
  isUdp : c'.sock.isUdp = c.sock.isUdp
  sysErr : c.sock.sysErr = true → c'.sock.sysErr = true
  closeNow : c.sock.closeNow = true → c'.sock.closeNow = true
  quit : (∃ q ∈ lines, lineCmd q = .quit) → c'.sock.sysErr = true ∨ c'.sock.closeNow = true
  plain : (∀ q ∈ lines, lineCmd q ≠ .quit) → c'.sock.closeNow = c.sock.closeNow

theorem taken_reads (c : Conn D) (h : Reads c.sock s) : Taken store [] c { c with sock := s } := by
  refine ⟨(append_nil _).symm, rfl, rfl, h.isUdp, h.sysErr, ?_, ?_, fun _ => h.closeNow⟩
  · intro hclose
    exact h.closeNow.trans hclose
  · rintro ⟨q, hq, -⟩
    cases hq

theorem Taken.trans {c1 c2 c3 : Conn D} {xs ys : List Bytes} (h : Taken store xs c1 c2)
    (h' : Taken store ys c2 c3) : Taken store (xs ++ ys) c1 c3 := by
  refine ⟨?_, ?_, h'.destroyed.trans h.destroyed, h'.isUdp.trans h.isUdp, ?_, ?_, ?_, ?_⟩
  · simp [h'.executed, h.executed]
  · rw [h'.db, h.db, respondAll_append]
  · exact fun herr => h'.sysErr (h.sysErr herr)
  · exact fun hclose => h'.closeNow (h.closeNow hclose)
  · rintro ⟨q, hq, hquit⟩
    rcases mem_append.1 hq with hx | hy
    · exact (h.quit ⟨q, hx, hquit⟩).imp h'.sysErr h'.closeNow
    · exact h'.quit ⟨q, hy, hquit⟩
  · intro hplain
    rw [h'.plain fun q hq => hplain q (mem_append_right _ hq),
      h.plain fun q hq => hplain q (mem_append_left _ hq)]

theorem processLine_taken (store : Store D) (c : Conn D) (line : Bytes) (reallocOk : Bool) :
    let r := processLine store c line reallocOk
    Taken store [line] c r.2 ∧ r.2.sock.recvBuf = c.sock.recvBuf ∧
      r.2.sock.recvFin = c.sock.recvFin ∧ (r.1 ≠ 0 → r.2.sock.sysErr = true) := by
  by_cases hquit : lineCmd line = .quit
  · -- the answer is buffered without a prompt, and the connection is closed
    unfold processLine
    rw [hquit]
    dsimp only
    generalize hans : sendRsp _ _ reallocOk = r
    have h := sendRsp_answered { c with
      db := (answer store c.db (sliceTrim (sliceSplitch line 32).2) CliCmd.quit).2
      executed := c.executed ++ [line], sndPrompt := false }
      (answer store c.db (sliceTrim (sliceSplitch line 32).2) CliCmd.quit).1 reallocOk
    rw [hans] at h
    have hclose : r.2.sock.closeNow = c.sock.closeNow := h.reads.closeNow
    refine ⟨⟨h.executed, ?_, h.destroyed, h.reads.isUdp, h.reads.sysErr, ?_, ?_, ?_⟩, h.recvBuf,
      h.recvFin, h.failed⟩
    · refine h.db.trans ?_
      simp [respondAll, respond, hquit]
    · intro hnow
      show (r.2.sock.closeNow || (r.1 == 0)) = true
      simp [hclose, hnow]
    · intro _
      by_cases hrc : r.1 = 0
      · right
        show (r.2.sock.closeNow || (r.1 == 0)) = true
        simp [hrc]
      · exact .inl (h.failed hrc)
    · intro hplain
      exact absurd hquit (hplain line mem_cons_self)
  · rw [processLine_eq c hquit]
    have h := sendRsp_answered { c with
      db := (answer store c.db (sliceTrim (sliceSplitch line 32).2) (lineCmd line)).2
      executed := c.executed ++ [line] }
      (answer store c.db (sliceTrim (sliceSplitch line 32).2) (lineCmd line)).1 reallocOk
    refine ⟨⟨h.executed, ?_, h.destroyed, h.reads.isUdp, h.reads.sysErr, ?_, ?_, ?_⟩, h.recvBuf,
      h.recvFin, h.failed⟩
    · exact h.db
    · exact fun hnow => h.reads.closeNow.trans hnow
    · rintro ⟨q, hq, hqq⟩
      rw [mem_singleton.1 hq] at hqq
      exact absurd hqq hquit
    · exact fun _ => h.reads.closeNow

/-! ## The loops -/

/-- What the inner loop of `do_client_recv` executes. -/
structure LinesRead (store : Store D) (c : Conn D) (rest : Bytes) (fin : Bool) (lines : List Bytes)
    (r : Int × Conn D) : Prop where
  taken : Taken store lines c r.2
  inOrder : InOrder r.2.sock
  recvFin : r.2.sock.recvFin = c.sock.recvFin
  first : lines <+: upcoming (c.sock.recvBuf.unread ++ rest) fin
  failed : r.1 < 0 → r.2.sock.sysErr = true
  left : 0 ≤ r.1 → upcoming (c.sock.recvBuf.unread ++ rest) fin =
    lines ++ upcoming (r.2.sock.recvBuf.unread ++ rest) fin

theorem recvLines_read (store : Store D) (eof reallocOk : Bool) (rest : Bytes) (fin : Bool)
    (heof : eof = true → rest = [] ∧ fin = true) :
    ∀ (fuel : Nat) (c : Conn D), InOrder c.sock →
      ∃ lines, LinesRead store c rest fin lines (recvLines store eof reallocOk fuel c) := by
  intro fuel
  induction fuel with
  | zero =>
    intro c h
    exact ⟨[], taken_reads c (Reads.refl _), h, rfl, nil_prefix,
      fun hneg => absurd hneg (Int.lt_irrefl 0), fun _ => rfl⟩
  | succ fuel ih =>
    intro c h
    have hread := sockRecvLine_read h eof heof
    unfold recvLines
    generalize sockRecvLine c.sock eof = r at hread
    have htaken : Taken store [] c { c with sock := r.2.2 } := taken_reads c hread.reads
    dsimp only
    by_cases hpos : r.1 > 0
    · rw [if_pos hpos]
      obtain ⟨hline, hbuf, hfin, hfailed⟩ :=
        processLine_taken _ { c with sock := r.2.2 } r.2.1 _
      have hup := hread.line hpos
      generalize processLine store { c with sock := r.2.2 } r.2.1 reallocOk = p at *
      have horder : InOrder p.2.sock := by
        unfold InOrder
        rw [hbuf]
        exact hread.inOrder
      have hone : Taken store [r.2.1] c p.2 := htaken.trans hline
      have hup' : upcoming (c.sock.recvBuf.unread ++ rest) fin =
          r.2.1 :: upcoming (p.2.sock.recvBuf.unread ++ rest) fin := by
        rw [hup, hbuf]
      split
      · -- the answer did not fit: the loop ends behind this line
        rename_i hrc
        refine ⟨[r.2.1], hone, horder, hfin.trans hread.recvFin, ?_, fun _ => hfailed hrc,
          fun _ => hup'⟩
        rw [hup']
        exact prefix_append [r.2.1] _
      · obtain ⟨lines, hrest⟩ := ih p.2 horder
        refine ⟨r.2.1 :: lines, hone.trans hrest.taken, hrest.inOrder,
          hrest.recvFin.trans (hfin.trans hread.recvFin), ?_, hrest.failed, ?_⟩
        · rw [hup']
          exact cons_prefix_cons.2 ⟨rfl, hrest.first⟩
        · intro hok
          simp [hup', hrest.left hok]
    · rw [if_neg hpos]
      refine ⟨[], htaken, hread.inOrder, hread.recvFin, nil_prefix, hread.failed, ?_⟩
      intro hok
      have hzero : r.1 = 0 := by
        omega
      exact (hread.none hzero).symm

/-- What the outer loop executes. It ends with an error that is not the end of the stream
only where that end was not read, unless `sys_err` is set. -/
structure LoopRead (store : Store D) (k : Kernel) (c : Conn D) (lines : List Bytes)
    (r : Int × Kernel × Conn D) : Prop where
  taken : Taken store lines c r.2.2
  first : lines <+: upcoming (ahead k c.sock) (atEnd k c.sock)
  failed : r.1 < 0 → r.1 ≠ SOCK_CLOSED → r.2.2.sock.sysErr = true ∨ r.2.2.sock.recvFin = false
  inOrder : InOrder r.2.2.sock

theorem recvLoop_read (store : Store D) (reallocOk : Bool) :
    ∀ (fuel : Nat) (k : Kernel) (c : Conn D), c.sock.isUdp = false → InOrder c.sock →
      ∃ lines, LoopRead store k c lines (recvLoop store reallocOk fuel k c) := by
  intro fuel
  induction fuel with
  | zero =>
    intro k c _ h
    exact ⟨[], taken_reads c (Reads.refl _), nil_prefix,
      fun hneg => absurd hneg (Int.lt_irrefl 0), h⟩
  | succ fuel ih =>
    intro k c hudp h
    have hrecv := sockRecv_received k hudp h reallocOk
    unfold recvLoop
    generalize sockRecv k c.sock reallocOk = r at hrecv
    have htaken : Taken store [] c { c with sock := r.2.2 } := taken_reads c hrecv.reads
    dsimp only
    by_cases hdata : r.1 = SOCK_DATA
    · rw [if_pos hdata]
      obtain ⟨lines, hlines⟩ := recvLines_read _ r.2.2.recvFin _
        (if r.2.2.recvFin then [] else delivered r.2.1.reads) (atEnd r.2.1 r.2.2)
        (fun hfin => by rw [atEnd, hfin]; exact ⟨rfl, rfl⟩) _ { c with sock := r.2.2 } hrecv.inOrder
      generalize recvLines store r.2.2.recvFin reallocOk _ { c with sock := r.2.2 } = p at *
      have hstream : r.2.2.recvBuf.unread ++ (if r.2.2.recvFin then [] else delivered r.2.1.reads) =
          ahead k c.sock := hrecv.ahead
      have hfirst := hlines.first
      have hleft := hlines.left
      rw [hstream, hrecv.atEnd] at hfirst hleft
      split
      · rename_i hneg
        exact ⟨lines, htaken.trans hlines.taken, hfirst, fun _ _ => .inl (hlines.failed hneg),
          hlines.inOrder⟩
      · rename_i hok
        -- the next call of `sock_recv` goes on with the bytes that are left
        have hnext : upcoming (ahead r.2.1 p.2.sock) (atEnd r.2.1 p.2.sock) =
            upcoming (p.2.sock.recvBuf.unread ++
              (if r.2.2.recvFin then [] else delivered r.2.1.reads)) (atEnd k c.sock) := by
          unfold ahead
          rw [← hrecv.atEnd]
          unfold atEnd
          rw [hlines.recvFin]
        obtain ⟨more, hmore⟩ := ih r.2.1 p.2 (hlines.taken.isUdp.trans (hrecv.reads.isUdp.trans hudp))
          hlines.inOrder
        refine ⟨lines ++ more, htaken.trans (hlines.taken.trans hmore.taken), ?_, hmore.failed,
          hmore.inOrder⟩
        rw [hleft (by omega), ← hnext]
        exact (prefix_append_right_inj _).2 hmore.first
    · rw [if_neg hdata]
      exact ⟨[], htaken, nil_prefix, fun _ => hrecv.failed hdata, hrecv.inOrder⟩

end CDbK8s.Server
