import CDbK8s.Server.Model
import CDbK8s.Sock.ClientSend

/-!
# Pending output and the wake-up for it

`do_client_send` changes the registration of a client only when `wait_write` is already set, and
nothing else sets it. So `wait_write` stays clear (`Quiet`), and output that a flush leaves in the
buffer waits without `EPOLLOUT` until the client sends more.
-/

namespace CDbK8s.Server

open Base Sock Lib.Runs List

variable {k : Kernel}
variable {s : SimpleSock}

/-! ## What stays as it is -/

/-- The limit of `config.h`. -/
def Limited (b : Rwbuf) : Prop := b.maxSize = SOCK_MAX_BUFSIZE ∧ b.size ≤ SOCK_MAX_BUFSIZE

/-- The socket does not wait for writing, and its send buffer is in order and within
`SOCK_MAX_BUFSIZE`. -/
structure Quiet (s : SimpleSock) : Prop where
  waitWrite : s.waitWrite = false
  finSent : s.finSent = false
  wf : s.sendBuf.Wf
  maxSize : s.sendBuf.maxSize = SOCK_MAX_BUFSIZE
  size_le : s.sendBuf.size ≤ SOCK_MAX_BUFSIZE

section
variable (h : Quiet s)
include h

theorem Quiet.unread_le : s.sendBuf.unread.length ≤ SOCK_MAX_BUFSIZE := by
  have hlen := length_unread s.sendBuf
  have hle := h.wf.widx_le
  have hsize := h.size_le
  unfold rwbufUsed at hlen
  omega

omit h in
theorem rwbufWrite_limits {b : Rwbuf} (h : Limited b) (mem : Bytes) (reallocOk : Bool) :
    Limited (rwbufWrite b mem reallocOk).2 := by
  have hshift : Limited b.shift := by
    unfold Rwbuf.shift
    split <;> exact h
  unfold rwbufWrite rwbufMkspace
  dsimp only
  split_ifs with h1 h2 h3 h4 h5
  · exact h
  · exact hshift
  · exact hshift
  · have hmax := hshift.1
    refine ⟨hmax, ?_⟩
    show growSize b.shift mem.length ≤ SOCK_MAX_BUFSIZE
    rw [hmax] at h4
    exact not_lt.1 fun hover => h4 ⟨by decide, hover⟩
  · exact hshift
  · exact hshift

theorem Quiet.write {mem : Bytes} (hmem : mem.length < 2 ^ 63) (reallocOk err : Bool) :
    Quiet { s with sendBuf := (rwbufWrite s.sendBuf mem reallocOk).2, sysErr := err } := by
  obtain ⟨hmax, hsize⟩ := rwbufWrite_limits ⟨h.maxSize, h.size_le⟩ mem _
  exact ⟨h.waitWrite, h.finSent, (rwbufWrite_spec h.wf hmem _).1, hmax, hsize⟩

theorem Quiet.sockWriteMem {mem : Bytes} (hmem : mem.length < 2 ^ 63) (reallocOk : Bool) :
    Quiet (sockWriteMem s mem reallocOk).2 := by
  unfold Sock.sockWriteMem
  dsimp only
  split
  · exact h.write hmem reallocOk true
  · exact h.write hmem reallocOk s.sysErr

theorem Quiet.sockWriteLine (line : Slice) (reallocOk : Bool) :
    Quiet (sockWriteLine s line.bytes reallocOk).2 := by
  have hlt := line.size_lt
  have hlen : [line.bytes, crlf].flatten.length < 2 ^ 63 := by
    simp [crlf]
    omega
  unfold Sock.sockWriteLine
  dsimp only
  split
  · exact h.write hlen reallocOk true
  · exact h.write hlen reallocOk s.sysErr

theorem Quiet.congr {s' : SimpleSock} (hwait : s'.waitWrite = s.waitWrite)
    (hfin : s'.finSent = s.finSent) (hbuf : s'.sendBuf = s.sendBuf) : Quiet s' := by
  refine ⟨hwait.trans h.waitWrite, hfin.trans h.finSent, ?_, ?_, ?_⟩ <;> rw [hbuf]
  · exact h.wf
  · exact h.maxSize
  · exact h.size_le

theorem Quiet.sockWriteClose (force : Bool) : Quiet (sockWriteClose s force) :=
  h.congr rfl rfl rfl

theorem Quiet.stopped (stop : Stop) : Quiet (s.stopped stop) := by
  cases stop <;> exact h.congr rfl rfl rfl

end

section
variable {D : Type} {store : Store D}

theorem quiet_sendPrompt (c : Conn D) (h : Quiet c.sock) (reallocOk : Bool) :
    Quiet (sendPrompt c reallocOk).2.sock :=
  h.sockWriteMem (by decide) reallocOk

theorem quiet_sendRsp (c : Conn D) (h : Quiet c.sock) (rsp : Slice) (reallocOk : Bool) :
    Quiet (sendRsp c rsp reallocOk).2.sock := by
  have hline := h.sockWriteLine rsp reallocOk
  unfold sendRsp
  dsimp only
  split
  · refine quiet_sendPrompt _ ?_ _
    exact hline
  · exact hline

theorem quiet_processLine (c : Conn D) (h : Quiet c.sock) (line : Bytes) (reallocOk : Bool) :
    Quiet (processLine store c line reallocOk).2.sock := by
  unfold processLine
  dsimp only
  split
  · refine Quiet.sockWriteClose (quiet_sendRsp _ ?_ _ _) _
    exact h
  · refine quiet_sendRsp _ ?_ _ _
    exact h

theorem quiet_recvLines (eof reallocOk : Bool) : ∀ (fuel : Nat) (c : Conn D), Quiet c.sock →
      Quiet (recvLines store eof reallocOk fuel c).2.sock := by
  intro fuel
  induction fuel with
  | zero => exact fun c h => h
  | succ fuel ih =>
    intro c h
    have hline : Quiet (sockRecvLine c.sock eof).2.2 := by
      unfold sockRecvLine
      dsimp only
      split <;> exact h.congr rfl rfl rfl
    unfold recvLines
    dsimp only
    split
    · split
      · refine quiet_processLine _ ?_ _ _
        exact hline
      · refine ih _ (quiet_processLine _ ?_ _ _)
        exact hline
    · exact hline

theorem quiet_sockReadData (k : Kernel) (h : Quiet s) (len : Nat) :
    Quiet (sockReadData k s len).2.2.2 ∧ (sockReadData k s len).2.2.1.writes = k.writes := by
  unfold sockReadData
  split_ifs
  · exact ⟨h, rfl⟩
  · exact ⟨h, rfl⟩
  · exact ⟨h.stopped _, rfl⟩

theorem quiet_sockRecv (k : Kernel) (h : Quiet s) (reallocOk : Bool) :
    Quiet (sockRecv k s reallocOk).2.2 ∧ (sockRecv k s reallocOk).2.1.writes = k.writes := by
  have hspace : Quiet (recvSpace s reallocOk).2 := by
    unfold recvSpace
    dsimp only
    split <;> exact h.congr rfl rfl rfl
  obtain ⟨hread, hwrites⟩ := quiet_sockReadData k hspace _
  unfold sockRecv
  dsimp only
  split_ifs
  · exact ⟨hspace.congr rfl rfl rfl, rfl⟩
  · exact ⟨hread, hwrites⟩
  · exact ⟨hread.congr rfl rfl rfl, hwrites⟩

theorem quiet_recvLoop (store : Store D) (reallocOk : Bool) :
    ∀ (fuel : Nat) (k : Kernel) (c : Conn D), Quiet c.sock →
      Quiet (recvLoop store reallocOk fuel k c).2.2.sock ∧
        (recvLoop store reallocOk fuel k c).2.1.writes = k.writes := by
  intro fuel
  induction fuel with
  | zero => exact fun k c h => ⟨h, rfl⟩
  | succ fuel ih =>
    intro k c h
    obtain ⟨hrecv, hwrites⟩ := quiet_sockRecv k h _
    unfold recvLoop
    dsimp only
    split
    · split
      · refine ⟨quiet_recvLines _ _ _ _ ?_, hwrites⟩
        exact hrecv
      · rw [← hwrites]
        refine ih _ _ (quiet_recvLines _ _ _ _ ?_)
        exact hrecv
    · exact ⟨hrecv, hwrites⟩

theorem quiet_doClientRecv (store : Store D) (k : Kernel) (c : Conn D) (h : Quiet c.sock)
    (reallocOk : Bool) :
    Quiet (doClientRecv store k c reallocOk).2.sock ∧
      (doClientRecv store k c reallocOk).1.writes = k.writes := by
  obtain ⟨hloop, hwrites⟩ := quiet_recvLoop _ _ _ k c h
  unfold doClientRecv
  dsimp only
  split
  · exact ⟨hloop.sockWriteClose _, hwrites⟩
  · exact ⟨hloop, hwrites⟩

/-! ## Flushing -/

/-- A write that fails or takes all that can be buffered. -/
def FullWrite (w : WriteResult) : Prop := w = .error ∨ ∃ n, w = .wrote n ∧ SOCK_MAX_BUFSIZE ≤ n

/-- Enough results for the two flushes of an event, all of them full. -/
def FullWrites (ws : List WriteResult) : Prop := 2 ≤ ws.length ∧ ∀ w ∈ ws, FullWrite w

/-- Nothing waits to be sent, or the connection is given up. -/
def Drained (s : SimpleSock) : Prop :=
  s.sendBuf.unread = [] ∨ s.sysErr = true ∨ s.closeNow = true

theorem Quiet.skip (h : Quiet s) {n : Nat} (hn : n ≤ rwbufUsed s.sendBuf) :
    Quiet { s with sendBuf := s.sendBuf.skip n } := by
  have hlimits : Limited (s.sendBuf.skip n) := by
    unfold Rwbuf.skip
    split <;> exact ⟨h.maxSize, h.size_le⟩
  exact ⟨h.waitWrite, h.finSent, h.wf.skip hn, hlimits.1, hlimits.2⟩

theorem writeLoop_nothing (ws : List WriteResult) {iovs : List Bytes}
    (h : iovs.flatten.length = 0) : writeLoop ws iovs = (ws, iovs, [], .done) := by
  cases ws with
  | nil =>
    unfold writeLoop
    rw [if_pos h]
  | cons w ws =>
    unfold writeLoop
    rw [if_pos h]

theorem writeLoop_all {n : Nat} (ws : List WriteResult) {data : Bytes} (hsome : data.length ≠ 0)
    (hn : data.length ≤ n) :
    writeLoop (.wrote n :: ws) [data] = (ws, advance data.length [data], data, .done) := by
  have hmin : min n data.length = data.length := by omega
  have hnil : (advance data.length [data]).flatten.length = 0 := by
    simp [flatten_advance]
  unfold writeLoop
  simp [hmin, hsome, writeLoop_nothing ws hnil]

theorem writeLoop_full {w : WriteResult} (hw : FullWrite w) (ws : List WriteResult) {data : Bytes}
    (hlen : data.length ≤ SOCK_MAX_BUFSIZE) :
    ((writeLoop (w :: ws) [data]).2.2 = (data, .done) ∨
      (writeLoop (w :: ws) [data]).2.2 = ([], .error)) ∧
      (writeLoop (w :: ws) [data]).1 <:+ w :: ws ∧
      ws.length ≤ (writeLoop (w :: ws) [data]).1.length := by
  have hflat : [data].flatten = data := flatten_singleton
  by_cases hzero : data.length = 0
  · rw [writeLoop_nothing _ (by rw [hflat]; exact hzero)]
    refine ⟨.inl ?_, suffix_refl _, Nat.le_succ _⟩
    rw [length_eq_zero_iff.1 hzero]
  · rcases hw with rfl | ⟨n, rfl, hn⟩
    · unfold writeLoop
      rw [hflat, if_neg hzero]
      exact ⟨.inr rfl, suffix_cons _ _, le_rfl⟩
    · rw [writeLoop_all ws hzero (by omega)]
      exact ⟨.inl rfl, suffix_cons _ _, le_rfl⟩

theorem sockSend_full (h : Quiet s) {w : WriteResult} {ws : List WriteResult}
    (hk : k.writes = w :: ws) (hw : FullWrite w) :
    Quiet (sockSend k s).2.2 ∧ Drained (sockSend k s).2.2 ∧
      (sockSend k s).2.1.writes <:+ w :: ws ∧ ws.length ≤ (sockSend k s).2.1.writes.length := by
  obtain ⟨hres, hsuf, hlen⟩ := writeLoop_full hw ws h.unread_le
  unfold sockSend sockWriteData sockWriteIovs
  cases hsys : s.sysErr with
  | true =>
    have herr : SOCK_ERROR ≤ 0 := by decide
    simp only [if_true, herr, hk]
    exact ⟨h, .inr (.inl hsys), suffix_refl _, Nat.le_succ _⟩
  | false =>
    simp only [Bool.false_eq_true, h.finSent, hk]
    rcases hres with hres | hres
    · rw [hres]
      by_cases hzero : s.sendBuf.unread.length = 0
      · simp only [hzero]
        exact ⟨h, .inl (length_eq_zero_iff.1 hzero), hsuf, hlen⟩
      · have hpos : ¬ ((s.sendBuf.unread.length : Int) ≤ 0) := by omega
        simp only [hzero, if_false, hpos]
        refine ⟨h.skip (length_unread _).le, .inl ?_, hsuf, hlen⟩
        show (s.sendBuf.skip s.sendBuf.unread.length).unread = []
        simp [Rwbuf.unread_skip]
    · rw [hres]
      exact ⟨h.congr rfl rfl rfl, .inr (.inl rfl), hsuf, hlen⟩

theorem doClientSend_full {c : Conn D} (h : Quiet c.sock) {n : Nat} (hn : n < k.writes.length)
    (hk : ∀ w ∈ k.writes, FullWrite w) (epollOk : Bool) :
    Quiet (doClientSend k c epollOk).2.sock ∧ Drained (doClientSend k c epollOk).2.sock ∧
      n ≤ (doClientSend k c epollOk).1.writes.length ∧
      ∀ w ∈ (doClientSend k c epollOk).1.writes, FullWrite w := by
  cases hws : k.writes with
  | nil =>
    rw [hws] at hn
    exact absurd hn (Nat.not_lt_zero n)
  | cons w _ =>
    rw [hws] at hn hk
    obtain ⟨hquiet, hdrained, hsuf, hlen⟩ := sockSend_full h hws (hk w mem_cons_self)
    have hfull : ∀ w' ∈ (sockSend k c.sock).2.1.writes, FullWrite w' := fun w' hw' =>
      hk w' (hsuf.subset hw')
    have hleft : n ≤ (sockSend k c.sock).2.1.writes.length := by
      simp at hn
      omega
    unfold doClientSend
    dsimp only
    rw [hquiet.waitWrite]
    split <;> exact ⟨hquiet, hdrained, hleft, hfull⟩

/-! ## Events -/

/-- An event of `epoll_wait` for the client, and what the outside decides while it is
handled. -/
structure Event where
  mask : Mask
  reads : List ReadResult
  writes : List WriteResult
  reallocOk : Bool
  epollOk : Bool

/-- A client that is freed gets no more events. -/
def Conn.handle (store : Store D) (c : Conn D) (ev : Event) : Conn D :=
  if c.destroyed then c
  else (clientRecvEvent store ⟨ev.writes, ev.reads, []⟩ c ev.mask ev.reallocOk ev.epollOk).2

/-- A pending response of a connection that is not given up has a wake-up: the client is
registered for `EPOLLOUT`. -/
def Conn.HasWakeup (c : Conn D) : Prop :=
  c.destroyed = false → c.sock.sendBuf.unread ≠ [] → c.sock.sysErr = false →
    c.sock.closeNow = false → c.sock.waitWrite = true ∧ c.interest = .rdwr

/-- A quiet socket with nothing to send, or given up. -/
def Conn.Idle (c : Conn D) : Prop := Quiet c.sock ∧ Drained c.sock

theorem Conn.Idle.hasWakeup {c : Conn D} (h : c.destroyed = false → c.Idle) : c.HasWakeup := by
  intro halive hpending herr hclose
  rcases (h halive).2 with hnil | hsys | hnow
  · exact absurd hnil hpending
  · rw [herr] at hsys
    cases hsys
  · rw [hclose] at hnow
    cases hnow

theorem sendPhase_idle {c : Conn D} (h : c.Idle) (hk : FullWrites k.writes) (mask : Mask)
    (epollOk : Bool) :
    (sendPhase k c mask epollOk).2.Idle ∧ 0 < (sendPhase k c mask epollOk).1.writes.length ∧
      ∀ w ∈ (sendPhase k c mask epollOk).1.writes, FullWrite w := by
  have hlen := hk.1
  unfold sendPhase
  split
  · obtain ⟨hquiet, hdrained, hleft, hfull⟩ := doClientSend_full h.1 hlen hk.2 _
    exact ⟨⟨hquiet, hdrained⟩, hleft, hfull⟩
  · exact ⟨h, show 0 < k.writes.length by omega, hk.2⟩

theorem recvPhase_idle {c : Conn D} (h : c.Idle) (hleft : 0 < k.writes.length)
    (hfull : ∀ w ∈ k.writes, FullWrite w) (mask : Mask) (reallocOk epollOk : Bool) :
    (recvPhase store k c mask reallocOk epollOk).2.Idle := by
  unfold recvPhase
  split
  · obtain ⟨hquiet, hwrites⟩ := quiet_doClientRecv _ k c h.1 _
    rw [← hwrites] at hleft hfull
    obtain ⟨hquiet', hdrained, -⟩ := doClientSend_full hquiet hleft hfull _
    exact ⟨hquiet', hdrained⟩
  · exact h

theorem handle_idle (store : Store D) (c : Conn D) (ev : Event) (h : c.destroyed = false → c.Idle)
    (hev : FullWrites ev.writes) :
    (c.handle store ev).destroyed = false → (c.handle store ev).Idle := by
  unfold Conn.handle
  split
  · exact h
  · rename_i halive
    obtain ⟨hidle, hleft, hfull⟩ := sendPhase_idle (k := ⟨ev.writes, ev.reads, []⟩)
      (h (Bool.eq_false_iff.2 halive)) hev _ _
    exact fun _ => recvPhase_idle hidle hleft hfull _ _ _

/-! ## From the accept on -/

/-- What the outside decides while a client is accepted. -/
structure Accept where
  writes : List WriteResult
  recvOk : Bool
  sendOk : Bool
  reallocOk : Bool
  epollOk : Bool

/-- The connection after it is accepted. -/
def accepted (db : D) (a : Accept) : Conn D :=
  (serverAccept ⟨a.writes, [], []⟩ db a.recvOk a.sendOk a.reallocOk a.epollOk).2

theorem quiet_clientSock (recvOk sendOk : Bool) : Quiet (clientSock recvOk sendOk) := by
  have hbuf : ∀ ok, (clientBuf ok).Wf ∧ Limited (clientBuf ok) := by
    intro ok
    cases ok with
    | false => exact ⟨⟨by decide, by decide, by decide⟩, rfl, by decide⟩
    | true =>
      exact ⟨⟨le_rfl, zero_le, by decide⟩, rfl, by decide⟩
  exact ⟨rfl, rfl, (hbuf sendOk).1, (hbuf sendOk).2.1, (hbuf sendOk).2.2⟩

theorem accepted_idle (db : D) {a : Accept} (ha : FullWrites a.writes) :
    (accepted db a).destroyed = false → (accepted db a).Idle := by
  have hlen : 1 < a.writes.length := ha.1
  unfold accepted
  cases a.epollOk with
  | false =>
    intro hfalse
    cases hfalse
  | true =>
    intro _
    have hquiet : Quiet { clientSock a.recvOk a.sendOk with isEpoll := true } :=
      (quiet_clientSock a.recvOk _).congr rfl rfl rfl
    obtain ⟨hq, hd, -⟩ := doClientSend_full (k := ⟨a.writes, [], []⟩)
      (quiet_sendPrompt ⟨db, _, true, .rd, [], false⟩ hquiet _) hlen ha.2 true
    exact ⟨hq, hd⟩

/-- In every state between events of a connection whose writes the kernel takes in full
or fails for good, pending output has its wake-up. -/
theorem pending_output_has_wakeup (store : Store D) (db : D) (a : Accept)
    (ha : FullWrites a.writes) (evs : List Event) (hevs : ∀ ev ∈ evs, FullWrites ev.writes) :
    EveryState (Conn.handle store) Conn.HasWakeup (accepted db a) evs := by
  refine everyState_of_step (fun c ev h hev => handle_idle _ c ev h hev)
    (fun c h => Conn.Idle.hasWakeup h) evs _ (accepted_idle db ha) ?_
  exact everyStep_of_forall (fun ev hev _ => hevs ev hev) _

end

/-! ## Two connections -/

def emptyStore : Store Unit :=
  { dbSet := fun _ _ _ => (-1, ()), dbGet := fun _ _ => none, dbDel := fun _ _ => (-1, ()) }

/-- A client that is accepted while the kernel takes all of the prompt. -/
def plainAccept : Accept :=
  { writes := [.wrote 8192, .wrote 8192], recvOk := true, sendOk := true, reallocOk := true
    epollOk := true }

/-- The client sends `GET a` and a line feed; the kernel answers the flush with `ws`. -/
def getEvent (ws : List WriteResult) : Event :=
  { mask := ⟨true, false, false, false, false⟩, reads := [.data [71, 69, 84, 32, 97, 10]]
    writes := ws, reallocOk := true, epollOk := true }

theorem plain_output_has_wakeup :
    EveryState (Conn.handle emptyStore) Conn.HasWakeup (accepted () plainAccept)
      [getEvent [.wrote 8192, .wrote 8192]] := by
  have hfull : FullWrites [.wrote 8192, .wrote 8192] := by
    refine ⟨Nat.le_refl 2, fun w hw => .inr ⟨8192, ?_, Nat.le_refl 8192⟩⟩
    simpa using hw
  refine pending_output_has_wakeup _ () _ hfull _ fun _ hev => ?_
  rw [mem_singleton.1 hev]
  exact hfull

/-- The answer to `GET a` would block: it stays in the buffer, without an error, and the
client is not registered for writing. -/
theorem stuck_after_would_block :
    ¬ EveryState (Conn.handle emptyStore) Conn.HasWakeup (accepted () plainAccept)
      [getEvent [.again]] := by
  intro h
  exact absurd (h.2 rfl (by decide) rfl rfl).1 (by decide)

end CDbK8s.Server
