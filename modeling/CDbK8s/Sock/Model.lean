import CDbK8s.Sock.Rwbuf

/-!
# The socket layer of `sock.c`

A `Kernel` is what the outside decides for one descriptor: the results of the next
`write` and `read` calls, and the bytes it has accepted so far. Once the listed results
are used up a call would block. A `write` accepts at most what it is offered and a
`read` delivers at most what it is asked for, so a longer result is cut; what a `read`
leaves is delivered by the next one, and a `read` of no bytes is the end of the stream.
-/

namespace CDbK8s.Sock

open Base

/-! ## The kernel -/

/-- The outcome of `write` and `writev`. -/
inductive WriteResult where
  | wrote (n : Nat)
  | again
  | intr
  | error
deriving DecidableEq

/-- The outcome of `read`. -/
inductive ReadResult where
  | data (bytes : Bytes)
  | again
  | intr
  | error
deriving DecidableEq

/-- The results to come on a descriptor, and the bytes accepted. -/
structure Kernel where
  writes : List WriteResult
  reads : List ReadResult
  accepted : Bytes

/-! ## The socket -/

def SOCK_OK : Int := 0

def SOCK_DATA : Int := 1

def SOCK_ERROR : Int := -1

def SOCK_AGAIN : Int := -2

def SOCK_CLOSED : Int := -3

def SOCK_TIMEOUT : Int := -4

/-- `struct simple_sock`: the buffers, the limits and the state flags. `isUdp` is the
flag `SOCK_UDP` of its mode. -/
structure SimpleSock where
  sendBuf : Rwbuf
  recvBuf : Rwbuf
  maxLine : Nat
  minSize : Nat
  isUdp : Bool
  isEpoll : Bool
  sendTimeout : Bool
  recvTimeout : Bool
  recvFin : Bool
  sendFin : Bool
  finSent : Bool
  closeNow : Bool
  waitWrite : Bool
  sysErr : Bool

/-- `SOCK_INIT` with a receive buffer of `len1` and a send buffer of `len2` bytes. -/
def sockStatic (maxLine minSize len1 len2 : Nat) : SimpleSock :=
  { sendBuf := rwbufStatic len2, recvBuf := rwbufStatic len1, maxLine, minSize, isUdp := false
    isEpoll := false, sendTimeout := false, recvTimeout := false, recvFin := false
    sendFin := false, finSent := false, closeNow := false, waitWrite := false, sysErr := false }

/-- Why a loop of reads or writes ends. -/
inductive Stop where
  | done
  | again
  | intr
  | error
  | closed
deriving DecidableEq

/-- The value of `ec` after the loop; `timeout` is the timeout flag of its direction. -/
def Stop.code (timeout : Bool) : Stop → Int
  | .done => SOCK_OK
  | .again => if timeout then SOCK_TIMEOUT else SOCK_AGAIN
  | .intr => SOCK_ERROR
  | .error => SOCK_ERROR
  | .closed => SOCK_CLOSED

/-- A loop that ended with a hard error sets `sys_err`. -/
def SimpleSock.stopped (s : SimpleSock) (stop : Stop) : SimpleSock :=
  match stop with
  | .error => { s with sysErr := true }
  | .closed => { s with recvFin := true }
  | _ => s

/-! ## Writing to the descriptor -/

/-- The update of the vectors after `nw` bytes were written. -/
def advance : Nat → List Bytes → List Bytes
  | _, [] => []
  | nw, iov :: iovs =>
    if nw ≥ iov.length then [] :: advance (nw - iov.length) iovs else iov.drop nw :: iovs

/-- The loop of `sock_write_iovs`: the results left, the vectors, the bytes written and
how it ended. -/
def writeLoop : List WriteResult → List Bytes → List WriteResult × List Bytes × Bytes × Stop
  | [], iovs => ([], iovs, [], if iovs.flatten.length = 0 then .done else .again)
  | w :: ws, iovs =>
    if iovs.flatten.length = 0 then (w :: ws, iovs, [], .done)
    else
      match w with
      | .again => (ws, iovs, [], .again)
      | .intr => (ws, iovs, [], .intr)
      | .error => (ws, iovs, [], .error)
      | .wrote n =>
        let nw := min n iovs.flatten.length
        if nw = 0 then (ws, iovs, [], .done)
        else
          let r := writeLoop ws (advance nw iovs)
          (r.1, r.2.1, iovs.flatten.take nw ++ r.2.2.1, r.2.2.2)

/-- `sock_write_iovs`: the return value and the vectors as they are left. -/
def sockWriteIovs (k : Kernel) (s : SimpleSock) (iovs : List Bytes) :
    Int × List Bytes × Kernel × SimpleSock :=
  if s.sysErr then (SOCK_ERROR, iovs, k, s)
  else if s.finSent then (SOCK_CLOSED, iovs, k, s)
  else
    let r := writeLoop k.writes iovs
    let rc := if r.2.2.1.length = 0 then r.2.2.2.code s.sendTimeout else r.2.2.1.length
    (rc, r.2.1, { k with writes := r.1, accepted := k.accepted ++ r.2.2.1 }, s.stopped r.2.2.2)

/-- `sock_write_data`: the same loop with one vector. -/
def sockWriteData (k : Kernel) (s : SimpleSock) (data : Bytes) : Int × Kernel × SimpleSock :=
  let r := sockWriteIovs k s [data]
  (r.1, r.2.2)

/-! ## Reading from the descriptor -/

/-- The loop of `sock_read_data` for `len` bytes: the results left, the bytes read and
how it ended. What does not fit of a datagram is lost. -/
def readLoop (isUdp : Bool) : List ReadResult → Nat → List ReadResult × Bytes × Stop
  | [], len => ([], [], if len = 0 then .done else .again)
  | r :: rs, len =>
    if len = 0 then (r :: rs, [], .done)
    else
      match r with
      | .again => (rs, [], .again)
      | .intr => (rs, [], .intr)
      | .error => (rs, [], .error)
      | .data bytes =>
        if bytes.length = 0 then (rs, [], .closed)
        else if isUdp then (rs, bytes.take len, .done)
        else if bytes.length > len then (.data (bytes.drop len) :: rs, bytes.take len, .done)
        else
          let r := readLoop isUdp rs (len - bytes.length)
          (r.1, bytes ++ r.2.1, r.2.2)

/-- `sock_read_data`: the return value and the bytes read. -/
def sockReadData (k : Kernel) (s : SimpleSock) (len : Nat) : Int × Bytes × Kernel × SimpleSock :=
  if s.sysErr then (SOCK_ERROR, [], k, s)
  else if s.recvFin then (SOCK_CLOSED, [], k, s)
  else
    let r := readLoop s.isUdp k.reads len
    let rc := if r.2.1.length = 0 then r.2.2.code s.recvTimeout else r.2.1.length
    (rc, r.2.1, { k with reads := r.1 }, s.stopped r.2.2)

/-! ## The buffers -/

/-- `sock_write_mem`: what does not fit is an error of the socket. -/
def sockWriteMem (s : SimpleSock) (mem : Bytes) (reallocOk : Bool) : Int × SimpleSock :=
  let r := rwbufWrite s.sendBuf mem reallocOk
  if r.1 ≠ 0 then (r.1, { s with sendBuf := r.2, sysErr := true })
  else (r.1, { s with sendBuf := r.2 })

def crlf : Bytes := [13, 10]

/-- `sock_write_line`: the line and its CR LF. -/
def sockWriteLine (s : SimpleSock) (line : Bytes) (reallocOk : Bool) : Int × SimpleSock :=
  let r := rwbufWritev s.sendBuf [line, crlf] reallocOk
  if r.1 ≠ 0 then (r.1, { s with sendBuf := r.2, sysErr := true })
  else (0, { s with sendBuf := r.2 })

/-- `sock_send`: what was written leaves the buffer. -/
def sockSend (k : Kernel) (s : SimpleSock) : Int × Kernel × SimpleSock :=
  let r := sockWriteData k s s.sendBuf.unread
  if r.1 ≤ 0 then r
  else (SOCK_DATA, r.2.1, { r.2.2 with sendBuf := r.2.2.sendBuf.skip r.1.toNat })

/-- The end of `sock_send_mem` and `sock_send_line`: the unsent parts of the vectors
behind the backlog go to the buffer one by one. -/
def bufferRest : Rwbuf → List (Bytes × Bool) → Int × Rwbuf
  | b, [] => (0, b)
  | b, (rest, reallocOk) :: more =>
    if rest.length ≠ 0 then
      let r := rwbufWrite b rest reallocOk
      if r.1 ≠ 0 then r else bufferRest r.2 more
    else bufferRest b more

/-- `sock_send_mem` and `sock_send_line`: backlog and data in one `writev`, and what
is left to the buffer. The data come in vectors, each with the outcome of the `realloc`
its rest may need. -/
def sockSendVec (k : Kernel) (s : SimpleSock) (data : List (Bytes × Bool)) :
    Int × Kernel × SimpleSock :=
  let w := sockWriteIovs k s (s.sendBuf.unread :: data.map Prod.fst)
  let k := w.2.2.1
  let s := w.2.2.2
  if w.1 ≤ 0 then (w.1, k, s)
  else
    let r := rwbufRdinc s.sendBuf (w.2.1.headD []).length
    if r.1 ≠ 0 then (r.1, k, { s with sendBuf := r.2 })
    else
      let r := bufferRest r.2 (w.2.1.tail.zip (data.map Prod.snd))
      (r.1, k, { s with sendBuf := r.2 })

/-- `sock_send_mem`, and `sock_send_str` of a slice. -/
def sockSendMem (k : Kernel) (s : SimpleSock) (mem : Bytes) (reallocOk : Bool) :
    Int × Kernel × SimpleSock :=
  sockSendVec k s [(mem, reallocOk)]

def sockSendLine (k : Kernel) (s : SimpleSock) (line : Bytes) (reallocOk1 reallocOk2 : Bool) :
    Int × Kernel × SimpleSock :=
  sockSendVec k s [(line, reallocOk1), (crlf, reallocOk2)]

/-- The start of `sock_recv`: whether there is space to read into. The need it asks for,
`space - min_size`, wraps below zero. -/
def recvSpace (s : SimpleSock) (reallocOk : Bool) : Bool × SimpleSock :=
  let space := rwbufSpace s.recvBuf
  if s.minSize ≠ 0 ∧ space < s.minSize then
    let r := rwbufMkspace s.recvBuf (sizeSub space s.minSize) reallocOk
    (r.1, { s with recvBuf := r.2 })
  else (true, s)

/-- The bytes read are behind the write index. -/
def SimpleSock.received (s : SimpleSock) (bytes : Bytes) : SimpleSock :=
  { s with recvBuf := { s.recvBuf with data := s.recvBuf.data ++ bytes } }

/-- `sock_recv`: what can be read goes into the space of the buffer. -/
def sockRecv (k : Kernel) (s : SimpleSock) (reallocOk : Bool) : Int × Kernel × SimpleSock :=
  let p := recvSpace s reallocOk
  if !p.1 then (SOCK_ERROR, k, { p.2 with sysErr := true })
  else
    let r := sockReadData k p.2 (rwbufSpace p.2.recvBuf)
    if r.1 ≤ 0 then (r.1, r.2.2) else (SOCK_DATA, r.2.2.1, r.2.2.2.received r.2.1)

/-- `sock_recv_line`: the return value, the line and the socket. -/
def sockRecvLine (s : SimpleSock) (eof : Bool) : Int × Bytes × SimpleSock :=
  let r := rwbufReadline s.recvBuf s.maxLine eof
  let s := { s with recvBuf := r.2.2 }
  if r.1 < 0 then (-1, r.2.1, { s with sysErr := true }) else (r.1, r.2.1, s)

/-! ## Status -/

/-- `sock_write_close`. -/
def sockWriteClose (s : SimpleSock) (force : Bool) : SimpleSock :=
  { s with sendFin := true, closeNow := s.closeNow || force }

/-- `sock_isclosed`: both directions are closed. -/
def sockIsclosed (s : SimpleSock) : Bool := s.recvFin && s.finSent

def sockMustclose (s : SimpleSock) : Bool := s.sysErr || s.closeNow || sockIsclosed s

/-- `sock_canclose`: nothing is left to be sent, or it must close. -/
def sockCanclose (s : SimpleSock) : Bool :=
  sockMustclose s || (s.sendFin && rwbufUsed s.sendBuf == 0)

end CDbK8s.Sock
