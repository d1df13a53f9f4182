import Mathlib.Data.List.DropRight
import CDbK8s.Sock.Model

/-!
# A client connection of `server.c`

The server handles its clients one after the other, so a connection is a state machine of its own
over the shared database, which is a parameter (`Store`).

An event of `epoll_wait` carries what the outside decides while it is handled: the results of the
reads and writes, and whether `realloc` and `epoll_ctl` succeed. The loops of the source are bounded
by the bytes there are to read, which is their fuel.
-/

namespace CDbK8s.Server

open Base Sock

/-! ## Slices -/

/-- `slice_splitch`: the part before the first `ch` and the part after it. Without a
match the slice that is left is null, which reads as empty. -/
def sliceSplitch (src : Bytes) (ch : UInt8) : Bytes × Bytes :=
  if src.idxOf ch < src.length then (src.take (src.idxOf ch), src.drop (src.idxOf ch + 1))
  else (src, [])

/-- `is_white`: SP, TAB, VT, CR or LF. -/
def isWhite (ch : UInt8) : Bool := ch == 32 || ch == 9 || ch == 11 || ch == 13 || ch == 10

def sliceTrim (str : Bytes) : Bytes := (str.rdropWhile isWhite).dropWhile isWhite

def sliceToupper (str : Bytes) : Bytes :=
  str.map fun ch => if 97 ≤ ch ∧ ch ≤ 122 then ch - 0x20 else ch

/-! ## The connection -/

/-- What the server uses of the database. -/
structure Store (D : Type) where
  dbSet : D → Bytes → Bytes → Int × D
  dbGet : D → Bytes → Option Slice
  dbDel : D → Bytes → Int × D

/-- `RD_EVENTS` and `RDWR_EVENTS`: what a client is registered for. -/
inductive Interest where
  | rd
  | rdwr
deriving DecidableEq

/-- The database, `struct simple_client`, and what `epoll` is to watch for. `executed`
are the lines given to `process_line` so far, and `destroyed` is set once the client is
freed. -/
structure Conn (D : Type) where
  db : D
  sock : SimpleSock
  sndPrompt : Bool
  interest : Interest
  executed : List Bytes
  destroyed : Bool

variable {D : Type} (store : Store D)

/-! ## Responses and commands -/

def prompt : Bytes := [62, 32]

def sendPrompt (c : Conn D) (reallocOk : Bool) : Int × Conn D :=
  let r := sockWriteMem c.sock prompt reallocOk
  (r.1, { c with sock := r.2 })

/-- `send_rsp`: the answer and, if it was buffered, the prompt. -/
def sendRsp (c : Conn D) (rsp : Slice) (reallocOk : Bool) : Int × Conn D :=
  let r := sockWriteLine c.sock rsp.bytes reallocOk
  let c := { c with sock := r.2 }
  if r.1 = 0 ∧ c.sndPrompt then sendPrompt c reallocOk else (r.1, c)

/-- The text `OK`. -/
def rspOk : Slice := ⟨[79, 75], by decide⟩

/-- The text `FAIL`. -/
def rspFail : Slice := ⟨[70, 65, 73, 76], by decide⟩

/-- The text `UNSUPP`. -/
def rspUnsupp : Slice := ⟨[85, 78, 83, 85, 80, 80], by decide⟩

/-- The entries of `cli_cmds`. -/
inductive CliCmd where
  | unsupp
  | set
  | get
  | del
  | quit
deriving DecidableEq

def findCliCmd (cmd : Bytes) : CliCmd :=
  if strCmp cmd [83, 69, 84] = 0 then .set
  else if strCmp cmd [71, 69, 84] = 0 then .get
  else if strCmp cmd [68, 69, 76] = 0 then .del
  else if strCmp cmd [81, 85, 73, 84] = 0 then .quit
  else .unsupp

/-- The answer of `cmd_set`, `cmd_get`, `cmd_del`, `cmd_quit` or `cmd_unsupp`, and the
database after it. -/
def answer (db : D) (args : Bytes) : CliCmd → Slice × D
  | .set =>
    let key := sliceTrim (sliceSplitch args 32).1
    let val := sliceTrim (sliceSplitch args 32).2
    if key.length = 0 ∨ val.length = 0 then (rspFail, db)
    else
      let r := store.dbSet db key val
      if r.1 ≠ 0 then (rspFail, r.2) else (rspOk, r.2)
  | .get =>
    match store.dbGet db args with
    | none => (rspFail, db)
    | some val => (val, db)
  | .del =>
    if args.length = 0 then (rspFail, db)
    else
      let r := store.dbDel db args
      if r.1 ≠ 0 then (rspFail, r.2) else (rspOk, r.2)
  | .quit => (rspOk, db)
  | .unsupp => (rspUnsupp, db)

/-- The command of a line, whatever its case. -/
def lineCmd (line : Bytes) : CliCmd := findCliCmd (sliceToupper (sliceSplitch line 32).1)

/-- `process_line`. After its answer `QUIT` closes the connection, by force when the
answer could be buffered. -/
def processLine (c : Conn D) (line : Bytes) (reallocOk : Bool) : Int × Conn D :=
  let cmd := lineCmd line
  let a := answer store c.db (sliceTrim (sliceSplitch line 32).2) cmd
  let c := { c with db := a.2, executed := c.executed ++ [line] }
  match cmd with
  | .quit =>
    let r := sendRsp { c with sndPrompt := false } a.1 reallocOk
    (r.1, { r.2 with sock := sockWriteClose r.2.sock (r.1 == 0) })
  | _ => sendRsp c a.1 reallocOk

/-! ## Events -/

/-- `poll_ctrl` of the client's socket. -/
def pollCtrl (c : Conn D) (events : Interest) (epollOk : Bool) : Int × Conn D :=
  if epollOk then (0, { c with interest := events, sock := { c.sock with isEpoll := true } })
  else (-1, { c with sock := { c.sock with sysErr := true } })

/-- `do_client_send`. The interest changes only if `wait_write` is set. -/
def doClientSend (k : Kernel) (c : Conn D) (epollOk : Bool) : Kernel × Conn D :=
  let r := sockSend k c.sock
  let c := { c with sock := r.2.2 }
  if r.1 < 0 then (r.2.1, c)
  else if c.sock.waitWrite then
    let events := if rwbufUsed c.sock.sendBuf ≠ 0 then Interest.rdwr else Interest.rd
    let p := pollCtrl c events epollOk
    if p.1 ≠ 0 then (r.2.1, p.2)
    else (r.2.1, { p.2 with sock := { p.2.sock with waitWrite := events == Interest.rdwr } })
  else (r.2.1, c)

/-- The inner loop of `do_client_recv`: the lines in the buffer. -/
def recvLines (eof reallocOk : Bool) : Nat → Conn D → Int × Conn D
  | 0, c => (0, c)
  | fuel + 1, c =>
    let r := sockRecvLine c.sock eof
    let c := { c with sock := r.2.2 }
    if r.1 > 0 then
      let p := processLine store c r.2.1 reallocOk
      if p.1 ≠ 0 then p else recvLines eof reallocOk fuel p.2
    else (r.1, c)

/-- The outer loop of `do_client_recv`. -/
def recvLoop (reallocOk : Bool) : Nat → Kernel → Conn D → Int × Kernel × Conn D
  | 0, k, c => (0, k, c)
  | fuel + 1, k, c =>
    let r := sockRecv k c.sock reallocOk
    let c := { c with sock := r.2.2 }
    if r.1 = SOCK_DATA then
      let p := recvLines store c.sock.recvFin reallocOk (rwbufUsed c.sock.recvBuf + 1) c
      if p.1 < 0 then (p.1, r.2.1, p.2) else recvLoop reallocOk fuel r.2.1 p.2
    else (r.1, r.2.1, c)

/-- How many bytes there are to read. -/
def readable (reads : List ReadResult) : Nat :=
  (reads.map fun r => match r with | .data bytes => bytes.length | _ => 0).sum

/-- `do_client_recv`. The end of the stream does not close by force. -/
def doClientRecv (k : Kernel) (c : Conn D) (reallocOk : Bool) : Kernel × Conn D :=
  let r := recvLoop store reallocOk (readable k.reads + 1) k c
  if r.1 < 0 ∧ r.1 ≠ SOCK_AGAIN then
    (r.2.1, { r.2.2 with sock := sockWriteClose r.2.2.sock (r.1 != SOCK_CLOSED) })
  else r.2

/-- The bits of `epoll_event.events` that the server looks at. -/
structure Mask where
  epollIn : Bool
  epollOut : Bool
  epollHup : Bool
  epollErr : Bool
  epollRdhup : Bool

/-- The first part of `client_recv_event`: flush a client that can be written to. -/
def sendPhase (k : Kernel) (c : Conn D) (mask : Mask) (epollOk : Bool) : Kernel × Conn D :=
  if mask.epollOut || mask.epollHup || mask.epollErr then doClientSend k c epollOk else (k, c)

/-- The second part: read and answer. -/
def recvPhase (k : Kernel) (c : Conn D) (mask : Mask) (reallocOk epollOk : Bool) :
    Kernel × Conn D :=
  if mask.epollIn || mask.epollHup || mask.epollRdhup || mask.epollErr then
    let r := doClientRecv store k c reallocOk
    doClientSend r.1 r.2 epollOk
  else (k, c)

/-- `client_recv_event`: a client that can be closed is destroyed. -/
def clientRecvEvent (k : Kernel) (c : Conn D) (mask : Mask) (reallocOk epollOk : Bool) :
    Kernel × Conn D :=
  let r := sendPhase k c mask epollOk
  let r := recvPhase store r.1 r.2 mask reallocOk epollOk
  (r.1, { r.2 with destroyed := r.2.destroyed || sockCanclose r.2.sock })

/-- The longest line, in `config.h`. -/
abbrev MAX_LINE : Nat := 256

abbrev SOCK_INIT_BUFSIZE : Nat := 4096

abbrev SOCK_MIN_BUFSIZE : Nat := MAX_LINE * 2

abbrev SOCK_MAX_BUFSIZE : Nat := 8192

theorem bufsizes : MAX_LINE = 256 ∧ SOCK_INIT_BUFSIZE = 4096 ∧ SOCK_MIN_BUFSIZE = 512 ∧
    SOCK_MAX_BUFSIZE = 8192 := ⟨rfl, rfl, rfl, rfl⟩

/-- A buffer of a client's socket. -/
abbrev clientBuf (reallocOk : Bool) : Rwbuf :=
  (rwbufInit SOCK_INIT_BUFSIZE SOCK_MAX_BUFSIZE reallocOk).2

/-- The socket of `client_create`: `sock_init` with the limits of `config.h`. The flags
are the outcomes of the two allocations, which the caller does not check. -/
def clientSock (recvOk sendOk : Bool) : SimpleSock :=
  { sockStatic MAX_LINE SOCK_MIN_BUFSIZE 0 0 with
    recvBuf := clientBuf recvOk
    sendBuf := clientBuf sendOk }

/-- `server_accept` behind `sock_accept` and `malloc`: the client is registered for
reading, and the prompt is sent. -/
def serverAccept (k : Kernel) (db : D) (recvOk sendOk reallocOk epollOk : Bool) :
    Kernel × Conn D :=
  let c : Conn D :=
    { db, sock := clientSock recvOk sendOk, sndPrompt := false, interest := .rd, executed := []
      destroyed := false }
  let p := pollCtrl c .rd epollOk
  if p.1 ≠ 0 then (k, { p.2 with destroyed := true })
  else doClientSend k (sendPrompt { p.2 with sndPrompt := true } reallocOk).2 epollOk

end CDbK8s.Server
