import CDbK8s.Server.Delivery

/-!
# Sessions and their wake-ups

A session is a connection with the reads to come on it and all that the client was sent. The
kernel takes every write in full here, so that between two wake-ups nothing waits in the send
buffer.
-/

namespace CDbK8s.Server

open Base Sock List

/-! ## Flushing in full -/

section
variable {D : Type} {out : Bytes}

theorem sockSend_nothing (k : Kernel) {s : SimpleSock} (hsys : s.sysErr = false)
    (hfin : s.finSent = false) (hnil : s.sendBuf.unread = []) : sockSend k s = (0, k, s) := by
  unfold sockSend sockWriteData
  rw [hnil, sockWriteIovs_open k hsys hfin, writeLoop_nothing _ rfl]
  show (0, { k with accepted := k.accepted ++ [] }, s) = (0, k, s)
  rw [append_nil]

theorem sockSend_all {n : Nat} {ws : List WriteResult} {reads : List ReadResult} {acc : Bytes}
    {s : SimpleSock} (hsys : s.sysErr = false) (hfin : s.finSent = false)
    (hsome : s.sendBuf.unread.length ≠ 0) (hn : s.sendBuf.unread.length ≤ n) :
    sockSend ⟨.wrote n :: ws, reads, acc⟩ s = (SOCK_DATA, ⟨ws, reads, acc ++ s.sendBuf.unread⟩,
        { s with sendBuf := s.sendBuf.skip s.sendBuf.unread.length }) := by
  unfold sockSend sockWriteData
  rw [sockWriteIovs_open _ hsys hfin, writeLoop_all ws hsome hn]
  dsimp only
  rw [if_neg hsome, if_neg (by omega)]
  rfl

theorem doClientSend_all {n : Nat} (hn : SOCK_MAX_BUFSIZE ≤ n) (ws : List WriteResult)
    (reads : List ReadResult)
    (acc : Bytes) {c : Conn D} (h : OutBuf c.sock.sendBuf out) (hsys : c.sock.sysErr = false)
    (hfin : c.sock.finSent = false) (hwait : c.sock.waitWrite = false) :
    ∃ ws' sb, doClientSend ⟨.wrote n :: ws, reads, acc⟩ c true =
        (⟨ws', reads, acc ++ out⟩, { c with sock := { c.sock with sendBuf := sb } }) ∧
      OutBuf sb [] := by
  have hlen := h.length_out
  have hle := h.length_le
  have hunread := h.unread
  unfold doClientSend
  by_cases hnil : out = []
  · subst hnil
    rw [sockSend_nothing _ hsys hfin hunread]
    dsimp only
    rw [if_neg (by decide), if_neg (by rw [hwait]; exact Bool.false_ne_true), append_nil]
    exact ⟨_, c.sock.sendBuf, rfl, h⟩
  · have hsome : c.sock.sendBuf.unread.length ≠ 0 := by
      rw [hunread]
      exact fun hzero => hnil (length_eq_zero_iff.1 hzero)
    rw [sockSend_all hsys hfin hsome (by rw [hunread]; omega), hunread]
    dsimp only
    rw [if_neg (by decide), if_neg (by rw [hwait]; exact Bool.false_ne_true)]
    refine ⟨_, c.sock.sendBuf.skip _, rfl, ?_⟩
    refine ⟨by rw [Rwbuf.unread_skip, hunread, drop_length], h.wf.skip hlen.le, ?_, ?_, ?_⟩
    all_goals
      unfold Rwbuf.skip
      split
    exacts [h.maxSize, h.maxSize, h.isGrow, h.isGrow, h.size, h.size]

theorem doClientSend_nothing (k : Kernel) {c : Conn D} (hsys : c.sock.sysErr = false)
    (hfin : c.sock.finSent = false) (hwait : c.sock.waitWrite = false)
    (hnil : c.sock.sendBuf.unread = []) : doClientSend k c true = (k, c) := by
  unfold doClientSend
  rw [sockSend_nothing k hsys hfin hnil]
  dsimp only
  rw [if_neg (by decide), if_neg (by rw [hwait]; exact Bool.false_ne_true)]

theorem doClientSend_broken (k : Kernel) {c : Conn D} (hsys : c.sock.sysErr = true) :
    doClientSend k c true = (k, c) := by
  unfold doClientSend sockSend sockWriteData sockWriteIovs
  rw [hsys]
  rfl

end

/-! ## Sessions -/

/-- A wake-up by `epoll_wait`: its mask, and the results of the writes made meanwhile. -/
structure Wake where
  mask : Mask
  writes : List WriteResult

/-- The next write takes all that can be buffered. -/
def TakesAll (writes : List WriteResult) : Prop :=
  ∃ n ws, writes = .wrote n :: ws ∧ SOCK_MAX_BUFSIZE ≤ n

/-- The client is to be read from, and the kernel takes what is written. -/
structure Wake.Smooth (w : Wake) : Prop where
  reads : (w.mask.epollIn || w.mask.epollHup || w.mask.epollRdhup || w.mask.epollErr) = true
  writes : TakesAll w.writes

/-- A connection, the reads to come on it, and what the client was sent. -/
structure Session (D : Type) where
  conn : Conn D
  reads : List ReadResult
  output : Bytes

variable {D : Type} (store : Store D)

/-- The server handles a wake-up; a client that is freed gets none. -/
def Session.handle (s : Session D) (w : Wake) : Session D :=
  if s.conn.destroyed then s
  else
    let r := clientRecvEvent store ⟨w.writes, s.reads, s.output⟩ s.conn w.mask true true
    ⟨r.2, r.1.reads, r.1.accepted⟩

/-- The session of a client that is accepted. -/
def opening (db : D) (writes : List WriteResult) (reads : List ReadResult) : Session D :=
  let r := serverAccept ⟨writes, reads, []⟩ db true true true true
  ⟨r.2, r.1.reads, r.1.accepted⟩

/-- An open session between two wake-ups. -/
def Session.Live (s : Session D) (db : D) (executed : List Bytes) (pending : Bytes) : Prop :=
  ∃ sb rb, s.conn = openConn db executed sb rb false ∧ OutBuf sb [] ∧ Ready rb pending

/-- The session is over, with this outcome. -/
structure Session.Ended (s : Session D) (db : D) (executed : List Bytes) (output : Bytes) : Prop where
  destroyed : s.conn.destroyed = true
  db_eq : s.conn.db = db
  executed_eq : s.conn.executed = executed
  output_eq : s.output = output

theorem opening_live (db : D) {writes : List WriteResult} (hw : TakesAll writes)
    (reads : List ReadResult) :
    (opening db writes reads).Live db [] [] ∧ (opening db writes reads).reads = reads ∧
      (opening db writes reads).output = prompt := by
  obtain ⟨n, ws, rfl, hn⟩ := hw
  have hempty : OutBuf (clientBuf true) [] := by
    exact ⟨rfl, ⟨le_rfl, zero_le, by decide⟩, rfl, rfl, .inl rfl⟩
  have hready : Ready (clientBuf true) [] := by
    exact ⟨⟨rfl, ⟨le_rfl, zero_le, by decide⟩, rfl⟩, rfl⟩
  obtain ⟨sb, hwrite, ho⟩ := hempty.write prompt (by decide)
  have hprompt : (sendPrompt (openConn db [] (clientBuf true) (clientBuf true) false) true).2 =
      openConn db [] sb (clientBuf true) false := by
    unfold sendPrompt
    rw [show (openConn db [] (clientBuf true) (clientBuf true) false).sock =
      openSock (clientBuf true) (clientBuf true) false from rfl, sockWriteMem_openSock hwrite]
    rfl
  have haccept : serverAccept ⟨.wrote n :: ws, reads, []⟩ db true true true true =
      doClientSend ⟨.wrote n :: ws, reads, []⟩ (openConn db [] sb (clientBuf true) false)
        true := by
    unfold serverAccept pollCtrl
    simp only [if_true, ne_eq, not_true_eq_false, if_false]
    exact congrArg (fun c => doClientSend _ c true) hprompt
  obtain ⟨ws', sb', hflush, ho'⟩ := doClientSend_all hn ws _ []
    (c := openConn db [] sb (clientBuf true) false) ho rfl rfl rfl
  unfold opening
  rw [haccept, hflush]
  exact ⟨⟨sb', _, rfl, ho', hready⟩, rfl, rfl⟩

/-- The end of `client_recv_event`: the flush, and the client is freed if it can be. -/
def settle {D : Type} (k : Kernel) (c : Conn D) : Session D :=
  let f := doClientSend k c true
  ⟨{ f.2 with destroyed := f.2.destroyed || sockCanclose f.2.sock }, f.1.reads, f.1.accepted⟩

theorem settle_eq {k k' : Kernel} {c c' : Conn D} (h : doClientSend k c true = (k', c')) :
    settle k c = ⟨{ c' with destroyed := c'.destroyed || sockCanclose c'.sock }, k'.reads,
      k'.accepted⟩ := by
  unfold settle
  rw [h]

theorem settle_broken (k : Kernel) {c : Conn D} (hsys : c.sock.sysErr = true) :
    (settle k c).Ended c.db c.executed k.accepted := by
  rw [settle_eq (doClientSend_broken k hsys)]
  refine ⟨?_, rfl, rfl, rfl⟩
  unfold sockCanclose sockMustclose
  simp [hsys]

theorem settle_closed {n : Nat} (hn : SOCK_MAX_BUFSIZE ≤ n) (ws : List WriteResult)
    (reads : List ReadResult)
    (acc : Bytes) {c : Conn D} {out : Bytes} (h : OutBuf c.sock.sendBuf out)
    (hsys : c.sock.sysErr = false) (hfin : c.sock.finSent = false)
    (hwait : c.sock.waitWrite = false) (hclose : c.sock.sendFin = true) :
    (settle ⟨.wrote n :: ws, reads, acc⟩ c).Ended c.db c.executed (acc ++ out) := by
  obtain ⟨ws', sb, hflush, ho⟩ := doClientSend_all hn ws reads acc h hsys hfin hwait
  have hused : rwbufUsed sb = 0 := by rw [← ho.length_out, length_nil]
  rw [settle_eq hflush]
  refine ⟨?_, rfl, rfl, rfl⟩
  show (c.destroyed || (sockMustclose _ || c.sock.sendFin && rwbufUsed sb == 0)) = true
  simp [hclose, hused]

theorem handle_eq {s : Session D} {sb rb : Rwbuf} {db : D} {executed : List Bytes}
    (hconn : s.conn = openConn db executed sb rb false) (ho : OutBuf sb []) {w : Wake}
    (hw : w.Smooth) :
    s.handle store w =
      let r := recvLoop store true (readable s.reads + 1) ⟨w.writes, s.reads, s.output⟩ s.conn
      if r.1 < 0 ∧ r.1 ≠ SOCK_AGAIN then
        settle r.2.1 { r.2.2 with sock := sockWriteClose r.2.2.sock (r.1 != SOCK_CLOSED) }
      else settle r.2.1 r.2.2 := by
  have hsend : sendPhase ⟨w.writes, s.reads, s.output⟩ s.conn w.mask true =
      (⟨w.writes, s.reads, s.output⟩, s.conn) := by
    unfold sendPhase
    split
    · rw [hconn]
      exact doClientSend_nothing _ rfl rfl rfl ho.unread
    · rfl
  unfold Session.handle
  rw [if_neg (by rw [hconn]; exact Bool.false_ne_true)]
  unfold clientRecvEvent
  rw [hsend]
  unfold recvPhase
  dsimp only
  rw [if_pos hw.reads]
  unfold doClientRecv
  dsimp only
  split <;> rfl

variable {store} {s : Session D} {sb rb : Rwbuf} {db : D} {executed : List Bytes}
  {pending bytes : Bytes} {w : Wake} {left : List ReadResult} {c : Conn D}

section
variable (hconn : s.conn = openConn db executed sb rb false) (ho : OutBuf sb []) (hw : w.Smooth)
include hconn ho hw

theorem handle_again
    (hloop : recvLoop store true (readable s.reads + 1) ⟨w.writes, s.reads, s.output⟩ s.conn =
      (SOCK_AGAIN, ⟨w.writes, left, s.output⟩, c))
    (hc : Opened store db executed [] pending bytes false c) :
    (s.handle store w).Live (respondAll store db (commands (pending ++ bytes))).2
        (executed ++ commands (pending ++ bytes)) (fragment (pending ++ bytes)) ∧
      (s.handle store w).reads = left ∧
      (s.handle store w).output =
        s.output ++ (respondAll store db (commands (pending ++ bytes))).1 := by
  obtain ⟨n, ws, hwrites, hn⟩ := hw.writes
  obtain ⟨sb1, rb1, rfl, ho1, hready⟩ := hc
  obtain ⟨ws', sb', hflush, ho'⟩ := doClientSend_all hn ws left s.output
    (c := openConn (respondAll store db _).2 _ sb1 rb1 false) ho1 rfl rfl rfl
  rw [handle_eq store hconn ho hw, hloop]
  dsimp only
  rw [hwrites, settle_eq hflush]
  exact ⟨⟨sb', rb1, rfl, ho', hready⟩, rfl, rfl⟩

theorem handle_overflow {db' : D} {executed' : List Bytes}
    (hloop : recvLoop store true (readable s.reads + 1) ⟨w.writes, s.reads, s.output⟩ s.conn = (-1,
      ⟨w.writes, left, s.output⟩, c)) (hc : Broken c db' executed') :
    (s.handle store w).Ended db' executed' s.output := by
  rw [handle_eq store hconn ho hw, hloop]
  rw [← hc.db_eq, ← hc.executed_eq]
  exact settle_broken _ hc.sysErr

theorem handle_closed {db' : D} {executed' : List Bytes} {sb' rb' : Rwbuf} {out : Bytes}
    (hloop : recvLoop store true (readable s.reads + 1) ⟨w.writes, s.reads, s.output⟩ s.conn =
      (SOCK_CLOSED, ⟨w.writes, left, s.output⟩, openConn db' executed' sb' rb' true))
    (ho' : OutBuf sb' out) : (s.handle store w).Ended db' executed' (s.output ++ out) := by
  obtain ⟨n, ws, hwrites, hn⟩ := hw.writes
  rw [handle_eq store hconn ho hw, hloop]
  dsimp only
  rw [hwrites]
  exact settle_closed hn ws left s.output ho' rfl rfl rfl rfl

end

/-- What a wake-up of an open session can come to: the responses are sent and more is to
come, or one of them does not fit, or the stream is at its end. -/
theorem handle_spec (store : Store D) {stream : Bytes} (h : s.Live db executed pending)
    (hfree : 10 ∉ pending) (hs : Script s.reads stream) (hl : Lines (pending ++ stream))
    (hw : w.Smooth) :
    ∃ bytes left, Rounds s.reads bytes left ∧ ((left = .again :: (s.handle store w).reads ∧
          (respondAll store db (commands (pending ++ bytes))).1.length ≤ SOCK_MAX_BUFSIZE ∧
          (s.handle store w).Live (respondAll store db (commands (pending ++ bytes))).2
            (executed ++ commands (pending ++ bytes)) (fragment (pending ++ bytes)) ∧
          (s.handle store w).output =
            s.output ++ (respondAll store db (commands (pending ++ bytes))).1) ∨
        (∃ done line todo, commands (pending ++ bytes) = done ++ line :: todo ∧
          (respondAll store db done).1.length ≤ SOCK_MAX_BUFSIZE ∧
          SOCK_MAX_BUFSIZE < (respondAll store db (done ++ [line])).1.length ∧
          (s.handle store w).Ended (respondAll store db (done ++ [line])).2
            (executed ++ (done ++ [line])) s.output) ∨
        (bytes = stream ∧ (left = [] ∨ left = [.data []]) ∧
          (respondAll store db (commands (pending ++ stream))).1.length ≤ SOCK_MAX_BUFSIZE ∧
          (left = [.data []] ∨ fragment (pending ++ stream) = [] →
            (s.handle store w).Ended (respondAll store db (commands (pending ++ stream))).2
              (executed ++ commands (pending ++ stream))
              (s.output ++ (respondAll store db (commands (pending ++ stream))).1)))) := by
  obtain ⟨sb, rb, hconn, ho, hready⟩ := h
  have hspec := @recvLoop_spec D store db sb rb [] pending executed s.reads stream hready hfree hs hl
    ho (readable s.reads + 1) (by rw [hs.readable]; exact Nat.lt_succ_self _)
    w.writes s.output
  rw [← hconn] at hspec
  simp only [length_nil, zero_add] at hspec
  obtain ⟨bytes, left, hrounds, hcase⟩ := hspec
  refine ⟨bytes, left, hrounds, ?_⟩
  rcases hcase with ⟨left', c, rfl, hloop, hopen⟩ | ⟨c, hloop, hover⟩ | ⟨hall, hleft, hfit, hclosed⟩
  · obtain ⟨hlive, hreads, houtput⟩ := handle_again hconn ho hw hloop hopen
    refine .inl ⟨by rw [hreads], ?_, hlive, houtput⟩
    obtain ⟨sb', rb', -, ho', -⟩ := hopen
    exact ho'.length_le
  · obtain ⟨done, line, todo, hlines, hdone, hfull, hbroken⟩ := hover
    simp only [length_nil, zero_add] at hdone hfull
    exact .inr (.inl ⟨done, line, todo, hlines, hdone, hfull,
      handle_overflow hconn ho hw hloop hbroken⟩)
  · refine .inr (.inr ⟨hall, hleft, hfit, fun hend => ?_⟩)
    obtain ⟨c, hloop, sb', rb', rfl, ho', -⟩ := hclosed hend
    exact handle_closed hconn ho hw hloop ho'

end CDbK8s.Server
