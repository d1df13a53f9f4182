import CDbK8s.Sock.ClientSend

/-!
# The send path of the server

The server queues its responses with `sock_write_mem` and `sock_write_line` and flushes them with
`sock_send`. The stream of a socket is what the kernel has accepted, followed by what is still in
the send buffer: a flush does not change it.
-/

namespace CDbK8s.Sock

open Base Lib.Runs List

variable {s : SimpleSock}

/-- The calls of the server. The flags are the outcomes of the `realloc`s. -/
inductive QueueCall where
  | mem (data : Slice) (reallocOk : Bool)
  | line (text : Slice) (reallocOk : Bool)
  | send

/-- The bytes that a call is given to queue. -/
def QueueCall.data : QueueCall → Bytes
  | .mem data _ => data.bytes
  | .line text _ => text.bytes ++ crlf
  | .send => []

/-- `sock_write_mem`, `sock_write_line` or `sock_send`. -/
def QueueCall.run (k : Kernel) (s : SimpleSock) : QueueCall → Int × Kernel × SimpleSock
  | .mem data reallocOk =>
    let r := sockWriteMem s data.bytes reallocOk
    (r.1, k, r.2)
  | .line text reallocOk =>
    let r := sockWriteLine s text.bytes reallocOk
    (r.1, k, r.2)
  | .send => sockSend k s

/-- The kernel, the socket, and the data of the queueing calls that returned `0`. -/
structure QueueState where
  kernel : Kernel
  sock : SimpleSock
  queued : Bytes

/-- One call. -/
def QueueState.next (st : QueueState) (c : QueueCall) : QueueState :=
  let r := c.run st.kernel st.sock
  { kernel := r.2.1, sock := r.2.2
    queued := if r.1 = 0 then st.queued ++ c.data else st.queued }

/-- The bytes accepted by the kernel, followed by the unread bytes of the send buffer. -/
def QueueState.stream (st : QueueState) : Bytes :=
  st.kernel.accepted ++ st.sock.sendBuf.unread

/-- Nothing that was queued is lost, duplicated or moved. -/
def QueueState.Fifo (st : QueueState) : Prop := st.stream = st.queued

/-- A call that fails leaves the stream unchanged. -/
def QueueState.FailsCleanly (st : QueueState) (c : QueueCall) : Prop :=
  (c.run st.kernel st.sock).1 ≠ 0 → (st.next c).stream = st.stream

/-! ## One call -/

/-- What a queueing call returns and does to the send buffer: it appends its data, or
fails. -/
structure Queued (s : SimpleSock) (data : Bytes) (r : Int × SimpleSock) : Prop where
  wf : r.2.sendBuf.Wf
  appended : r.1 = 0 → r.2.sendBuf.unread = s.sendBuf.unread ++ data
  failed : r.1 ≠ 0 → r.2.sendBuf.unread = s.sendBuf.unread

theorem queued_of_write {s' : SimpleSock} (h : s.sendBuf.Wf) {data : Bytes}
    (hdata : data.length < 2 ^ 63) (reallocOk : Bool) {rc : Int}
    (hrc : rc = (rwbufWrite s.sendBuf data reallocOk).1)
    (hbuf : s'.sendBuf = (rwbufWrite s.sendBuf data reallocOk).2) : Queued s data (rc, s') := by
  obtain ⟨hwf, hres⟩ := rwbufWrite_spec h hdata _
  rw [← hbuf] at hwf hres
  rw [← hrc] at hres
  refine ⟨hwf, ?_, ?_⟩
  · intro hzero
    rcases hres with ⟨-, happ⟩ | ⟨herr, -⟩
    · exact happ
    · exact absurd (hzero.symm.trans herr) (by decide)
  · intro hne
    rcases hres with ⟨hzero, -⟩ | ⟨-, hkeep⟩
    · exact absurd hzero hne
    · exact hkeep

theorem sockWriteMem_queued (h : s.sendBuf.Wf) (data : Slice) (reallocOk : Bool) :
    Queued s data.bytes (sockWriteMem s data.bytes reallocOk) := by
  have hlt := data.size_lt
  unfold sockWriteMem
  dsimp only
  split <;> exact queued_of_write h (by omega) _ rfl rfl

theorem sockWriteLine_queued (h : s.sendBuf.Wf) (text : Slice) (reallocOk : Bool) :
    Queued s (text.bytes ++ crlf) (sockWriteLine s text.bytes reallocOk) := by
  have hlt := text.size_lt
  have hlen : (text.bytes ++ crlf).length < 2 ^ 63 := by
    simp [show crlf.length = 2 from rfl]
    omega
  unfold sockWriteLine
  dsimp only
  split
  · exact queued_of_write h hlen _ rfl rfl
  · rename_i hzero
    exact queued_of_write h hlen _ (not_not.1 hzero).symm rfl

theorem Queued.stream {st st' : QueueState} {data : Bytes} {r : Int × SimpleSock}
    (h : Queued st.sock data r) (hk : st'.kernel = st.kernel) (hs : st'.sock = r.2) :
    (r.1 = 0 → st'.stream = st.stream ++ data) ∧ (r.1 ≠ 0 → st'.stream = st.stream) := by
  unfold QueueState.stream
  rw [hk, hs, append_assoc]
  exact ⟨fun hzero => by rw [h.appended hzero], fun hne => by rw [h.failed hne]⟩

theorem next_stream (st : QueueState) (h : st.sock.sendBuf.Wf) (c : QueueCall) :
    (st.next c).sock.sendBuf.Wf ∧
      ((c.run st.kernel st.sock).1 = 0 → (st.next c).stream = st.stream ++ c.data) ∧
      st.FailsCleanly c := by
  cases c with
  | mem data reallocOk =>
    have hq := sockWriteMem_queued h data reallocOk
    exact ⟨hq.wf, hq.stream rfl rfl⟩
  | line text reallocOk =>
    have hq := sockWriteLine_queued h text reallocOk
    exact ⟨hq.wf, hq.stream rfl rfl⟩
  | send =>
    -- a flush moves bytes over the boundary inside the stream
    obtain ⟨hacc, hwf, hun⟩ := sockSend_spec _ h
    have hkeep : (st.next .send).stream = st.stream := by
      show (sockSend st.kernel st.sock).2.1.accepted ++
        (sockSend st.kernel st.sock).2.2.sendBuf.unread = st.stream
      rw [hacc, hun, append_assoc, take_append_drop]
      rfl
    refine ⟨hwf, ?_, fun _ => hkeep⟩
    intro _
    rw [hkeep]
    exact (append_nil _).symm

/-! ## Runs -/

def QueueState.Good (st : QueueState) : Prop := st.sock.sendBuf.Wf ∧ st.Fifo

theorem QueueState.Good.next {st : QueueState} (h : st.Good) (c : QueueCall) :
    (st.next c).Good := by
  obtain ⟨hwf, hok, hfail⟩ := next_stream st h.1 c
  refine ⟨hwf, ?_⟩
  have hfifo : st.stream = st.queued := h.2
  unfold QueueState.Fifo
  by_cases hrc : (c.run st.kernel st.sock).1 = 0
  · rw [hok hrc, hfifo]
    exact (if_pos hrc).symm
  · rw [hfail hrc, hfifo]
    exact (if_neg hrc).symm

/-- In every run of queueing and sending calls, from any socket whose buffer is in order
and for all kernel results, the stream is what was there followed by the data queued, and
a call that fails leaves it unchanged. -/
theorem write_queue_fifo (k : Kernel) (s : SimpleSock) (hwf : s.sendBuf.Wf)
    (calls : List QueueCall) :
    EveryState QueueState.next QueueState.Fifo ⟨k, s, k.accepted ++ s.sendBuf.unread⟩ calls ∧
      EveryStep QueueState.next QueueState.FailsCleanly
        ⟨k, s, k.accepted ++ s.sendBuf.unread⟩ calls := by
  have hgood : QueueState.Good ⟨k, s, k.accepted ++ s.sendBuf.unread⟩ := ⟨hwf, rfl⟩
  constructor
  · refine everyState_of_step (Q := fun _ _ => True)
      (fun st c h _ => h.next c) (fun _ h => h.2) _ _ hgood ?_
    exact everyStep_of_forall (fun _ _ _ => trivial) _
  · exact everyStep_of_invariant (fun st c h => h.next c)
      (fun st c h => (next_stream st h.1 c).2.2) _ _ hgood

/-- A response that is sent in two parts, the second after a write that would block. -/
theorem write_queue_partial : EveryState QueueState.next QueueState.Fifo
        ⟨⟨[.wrote 1, .again, .wrote 9], [], []⟩, sockStatic 256 0 8192 8192, []⟩
        [.line ⟨[79, 75], by decide⟩ true, .send, .mem ⟨[62, 32], by decide⟩ true, .send] ∧
      EveryStep QueueState.next QueueState.FailsCleanly
        ⟨⟨[.wrote 1, .again, .wrote 9], [], []⟩, sockStatic 256 0 8192 8192, []⟩
        [.line ⟨[79, 75], by decide⟩ true, .send, .mem ⟨[62, 32], by decide⟩ true, .send] :=
  write_queue_fifo ⟨[.wrote 1, .again, .wrote 9], [], []⟩ _ ⟨by decide, by decide, by decide⟩ _

end CDbK8s.Sock
