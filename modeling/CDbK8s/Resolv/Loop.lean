import CDbK8s.Resolv.Model
import CDbK8s.Lib.Runs

/-!
# The loop of `try_nameserver`

Sending of the two queries, and the loop around `poll` that sends and receives until no query is
outstanding. The result of `poll` and of the system calls behind it are the events of a run, so that
a list of events stands for every order in which the network can answer.
-/

namespace CDbK8s.Resolv

open Base Dns Lib.ByteMem

/-! ## Sending -/

/-- What `write` returns in the end. -/
inductive WriteRes where
  | wrote (n : Nat)
  | eagain
  | fail
deriving DecidableEq

/-- `snd_dnspkt`. A datagram that is sent in part is an error. -/
def sndDnspkt (s : DnsSock) : WriteRes → Int × DnsSock
  | .eagain => (DNS_EAGAIN, s)
  | .fail => (DNS_ERR, s)
  | .wrote n =>
    let off := s.txOff + min n (s.txLen - s.txOff)
    if off = s.txLen then (0, { s with txLen := 0, txOff := 0 })
    else (if s.isTcp then DNS_EAGAIN else DNS_ERR, { s with txOff := off })

/-- The length prefix of TCP. -/
def DnsSock.pre (s : DnsSock) : Nat := if s.isTcp then 2 else 0

section
variable {C : Type} (ov : Overlay)

/-- `enc_dnspkt`, with the length in front over TCP. -/
def encDnspkt (s : DnsSock) (msg : Msg) : Int × DnsSock :=
  let r := dnsMsgEncode (DNS_PKTSIZE - s.pre) ov msg fun i => s.txBuf (i + s.pre)
  let mem : Mem := fun i => if i < s.pre then s.txBuf i else r.2.mem (i - s.pre)
  match r.1 with
  | none => (DNS_ERR, { s with txBuf := mem })
  | some len =>
    if len = 0 then (DNS_ERR, { s with txBuf := mem })
    else
      let mem := if s.isTcp then writeBytes mem 0 (beBytes 2 len) else mem
      (0, { s with txBuf := mem, txLen := len + s.pre })

/-- The OPT record of a request. -/
def esdnRr : Rr := ⟨none, DNS_TYPE_OPT, 0, 0, 0, .opt ⟨1232, 0, 0, false, 0⟩⟩

/-- `build_req`: one question and, with EDNS, an OPT record. -/
def buildReq (useEsdn : Bool) (msg : Msg) (tid : UInt16) (name : Bytes) (qtype : UInt16) :
    Int × Msg :=
  let msg := dnsMsgInit (dnsMsgReset msg) tid DNS_FLAGS_RD
  let r := dnsAddQdn msg name qtype DNS_CLASS_IN
  if r.1 ≠ 0 then r else if useEsdn then dnsAddRr ov r.2 .ar esdnRr else r

/-- `set_dnsreq`, with `gen_tid`. -/
def setDnsreq (ns : Ns C) (fam : Fam) : Int × Ns C :=
  let tid := ns.glob.nextTid
  let q := { ns.query fam with tid := tid, qname := ns.name, qclass := DNS_CLASS_IN }
  let r := buildReq ov ns.useEsdn ns.msg tid ns.name q.qtype
  (r.1, { ns with msg := r.2, glob := { ns.glob with nextTid := tid + 1 } }.setQuery fam q)

/-- Writes `last_rc` of a query. -/
def Ns.setRc (ns : Ns C) (fam : Fam) (rc : Int) : Ns C :=
  ns.setQuery fam { ns.query fam with lastRc := rc }

/-- The case `DNS_SEND` of `try_query`. -/
def sendNow (w : WriteRes) (ns : Ns C) (fam : Fam) : Ns C :=
  let r := sndDnspkt ns.sock w
  let q := ns.query fam
  { ns with sock := r.2 }.setQuery fam
    { q with lastRc := r.1, state := if r.1 = 0 then .recv else q.state }

/-- The case `DNS_IDLE`, on a socket that has nothing to send. -/
def startQuery (w : WriteRes) (ns : Ns C) (fam : Fam) : Ns C :=
  let ns := { ns with active := ns.active + 1 }.setQuery fam
    { ns.query fam with qtype := fam.qtype, state := .send }
  let req := setDnsreq ov ns fam
  let ns := req.2.setRc fam req.1
  if req.1 ≠ 0 then ns
  else
    let enc := encDnspkt ov ns.sock ns.msg
    let ns := { ns with sock := enc.2 }.setRc fam enc.1
    if enc.1 ≠ 0 then ns else sendNow w ns fam

/-- The `switch` of `try_query`. -/
def advanceQuery (w : WriteRes) (ns : Ns C) (fam : Fam) : Ns C :=
  match (ns.query fam).state with
  | .idle => if 0 < ns.sock.txLen then ns else startQuery ov w ns fam
  | .send => sendNow w ns fam
  | .recv => ns
  | .done => ns

/-- The end of `try_query`: a query that failed is done. -/
def settleQuery (ns : Ns C) (fam : Fam) : Ns C :=
  let q := ns.query fam
  if q.lastRc ≠ 0 ∧ q.lastRc ≠ DNS_EAGAIN then
    { ns with active := ns.active - 1 }.setQuery fam
      { q with state := .done, completed := q.completed + 1 }
  else ns

/-- `try_query`: a query goes as far as it can. -/
def tryQuery (w : WriteRes) (ns : Ns C) (fam : Fam) : DnsState × Ns C :=
  if !ns.res.needs fam then (.idle, ns)
  else
    let ns := settleQuery (advanceQuery ov w ns fam) fam
    ((ns.query fam).state, ns)

/-- The results of the system calls of one round: `SO_ERROR` of the socket, the two writes and
the read. -/
structure Io where
  soError : Bool
  write4 : WriteRes
  write6 : WriteRes
  read : ReadRes
deriving DecidableEq

/-- `send_query` on a socket that is connected. -/
def sendQueries (ns : Ns C) (io : Io) : Ns C × Pollfd :=
  let a := tryQuery ov io.write4 ns .ip4
  let b := tryQuery ov io.write6 a.2 .ip6
  (b.2, ⟨true, a.1 = .recv ∨ b.1 = .recv, a.1 = .send ∨ b.1 = .send⟩)

/-- `send_query`, which first ends a connect in progress. -/
def sendQuery (ns : Ns C) (pfd : Pollfd) (io : Io) : Ns C × Pollfd :=
  if ns.sock.inProgress then
    let ns := { ns with sock := { ns.sock with inProgress := false }, active := ns.active - 1 }
    if io.soError then (ns, pfd) else sendQueries ov ns io
  else sendQueries ov ns io

end

/-! ## The loop -/

/-- The results of `socket` and `connect`. -/
inductive ConnectRes where
  | noSocket
  | refused
  | inProgress
  | connected
deriving DecidableEq

/-- What `poll` returns: the socket is ready, with the results of the calls that follow; or a
timeout or an error, with `errno == EINTR` and `glob_sig->run`. -/
inductive Event where
  | ready (io : Io)
  | idle (timedOut intr run : Bool)
deriving DecidableEq

/-- The variables of `try_nameserver`; `broke` is set when the loop is left by `break`. -/
structure Loop (C : Type) where
  ns : Ns C
  pfd : Pollfd
  rc : Int
  broke : Bool

section
variable {C : Type} (api : CacheApi C) (ov : Overlay)

/-- `struct dns_ns` as `try_nameserver` initialises it. -/
def Ns.start (name : Bytes) (useTcp : Bool) (res : Res) (glob : Glob C) : Ns C :=
  { name := name, sock := .zero, active := 0, v4Query := .zero, v6Query := .zero, msg := Msg.zero,
    useTcp := useTcp, useEsdn := true, haveAns := false, haveIp4 := false, haveIp6 := false,
    res := res, glob := glob }

/-- The socket after `do_connect`. -/
def doConnect (c : ConnectRes) (isTcp : Bool) (s : DnsSock) : DnsSock :=
  match c with
  | .noSocket => s
  | .refused => { s with isOpen := true, isTcp := isTcp }
  | .inProgress => { s with isOpen := true, isTcp := isTcp, inProgress := true }
  | .connected => { s with isOpen := true, isTcp := isTcp }

/-- `try_nameserver` up to its loop: `connect_now`, and `send_query` on a socket that is connected
at once. -/
def Loop.start (ns : Ns C) (c : ConnectRes) (io : Io) : Loop C :=
  let ns := { ns with sock := doConnect c ns.useTcp ns.sock }
  match c with
  | .noSocket | .refused => ⟨ns, ⟨false, false, false⟩, DNS_OK, false⟩
  | .inProgress => ⟨{ ns with active := ns.active + 1 }, ⟨true, false, true⟩, DNS_OK, false⟩
  | .connected =>
    let r := sendQuery ov ns ⟨false, false, false⟩ io
    ⟨r.1, r.2, DNS_OK, false⟩

/-- The condition of the loop of `try_nameserver`. -/
def Loop.running (l : Loop C) : Bool := l.ns.active ≠ 0 ∧ l.broke = false

/-- `if (fd.events == POLLOUT) send_query(&ns, &fd);`. -/
def Loop.sending (l : Loop C) (io : Io) : Loop C :=
  if l.pfd.pollout ∧ ¬ l.pfd.pollin then
    let r := sendQuery ov l.ns l.pfd io
    { l with ns := r.1, pfd := r.2 }
  else l

/-- `if (fd.events == POLLIN) recv_resp(&ns, &fd);`. -/
def Loop.receiving (l : Loop C) (io : Io) : Loop C :=
  if l.pfd.pollin ∧ ¬ l.pfd.pollout then
    let r := recvResp api ov l.ns l.pfd io.read
    { l with ns := r.1, pfd := r.2 }
  else l

/-- One round of the loop. A loop that was left does nothing. -/
def Loop.step (l : Loop C) (e : Event) : Loop C :=
  if l.running then
    match e with
    | .ready io => (Loop.sending ov { l with rc := 1 } io).receiving api ov io
    | .idle timedOut intr run =>
      { l with rc := if timedOut then DNS_ETIMEOUT else DNS_ERR, broke := !(intr && run) }
  else l

/-- The loop over a list of events. -/
def Loop.run (l : Loop C) (es : List Event) : Loop C := es.foldl (Loop.step api ov) l

theorem step_stopped {l : Loop C} (h : l.running = false) (e : Event) : l.step api ov e = l := by
  unfold Loop.step
  rw [if_neg (by rw [h]; decide)]

end

/-! ## The result -/

def DNS_NODATA : Int := -12

def DNS_FORMERR : Int := -13

def DNS_SERVFAIL : Int := -14

def DNS_NXDOMAIN : Int := -15

def DNS_NOTIMP : Int := -16

def DNS_REFUSED : Int := -17

section
variable {C : Type} (api : CacheApi C) (ov : Overlay)

/-- `get_rcode`: the result of one query. -/
def getRcode (ns : Ns C) (fam : Fam) : Int :=
  if !ns.res.needs fam then 0
  else
    let rc := (ns.query fam).lastRc
    if rc = 0 then DNS_OK
    else if rc = 1 then DNS_FORMERR
    else if rc = 2 then DNS_SERVFAIL
    else if rc = 3 then DNS_NXDOMAIN
    else if rc = 4 then DNS_NOTIMP
    else if rc = 5 then DNS_REFUSED
    else if rc = DNS_ETRUNC then DNS_ETRUNC
    else DNS_ERR

/-- `ns_getrc`: an address counts most, then an answer, then the rcodes. -/
def nsGetrc (ns : Ns C) (rc : Int) : Int :=
  if rc = DNS_ETIMEOUT then rc
  else if ns.haveIp4 ∨ ns.haveIp6 then DNS_OK
  else if ns.haveAns then DNS_NODATA
  else
    let ip4Rc := getRcode ns .ip4
    let ip6Rc := getRcode ns .ip6
    if ip4Rc = ip6Rc then ip4Rc
    else if ip4Rc = DNS_NXDOMAIN then ip6Rc
    else if ip6Rc = DNS_NXDOMAIN then ip4Rc
    else ip4Rc

/-- What the network does while one nameserver is tried: the connection, the first writes, and
the events until the deadline. -/
structure Script where
  connect : ConnectRes
  io : Io
  events : List Event

/-- `try_nameserver`. After the last event of the script `poll` times out. -/
def tryNameserver (script : Script) (name : Bytes) (useTcp : Bool) (res : Res) (glob : Glob C) :
    Int × Res × Glob C :=
  let glob := { glob with tried := glob.tried + 1 }
  let l := (Loop.start ov (Ns.start name useTcp res glob) script.connect script.io).run api ov
    script.events
  let rc := if l.running then DNS_ETIMEOUT else l.rc
  (nsGetrc l.ns rc, l.ns.res, l.ns.glob)

end

/-! ## A state with two queries -/

/-- A cache that keeps nothing. -/
def noCache : CacheApi Unit := ⟨fun cache _ _ => (none, cache), fun cache _ _ _ _ => cache⟩

/-- The loop after both queries for the name `a` were sent, with the ids 7 and 8. -/
def twoQueries (useTcp : Bool) : Loop Unit :=
  let res : Res := Res.start ⟨true, false, true, true, false, false, false, false⟩ [97] [] 16
    fun _ => SockAddr.zero
  Loop.start Overlay.plain
    (Ns.start [97] useTcp { res with needIp4 := true, needIp6 := true } ⟨(), 7, 0⟩) .connected
    ⟨false, .wrote 100, .wrote 100, .eagain⟩

/-- A response with the given id and response code, that repeats the question for `a`. -/
def plainResponse (id rcode : UInt8) (qtype : UInt8) : Bytes :=
  [0, id, 0x81, 0x80 + rcode, 0, 1, 0, 0, 0, 0, 0, 0, 1, 97, 0, 0, qtype, 0, 1]

end CDbK8s.Resolv
