import CDbK8s.Dns.Decode
import CDbK8s.Dns.Encode
import CDbK8s.Resolv.Result

/-!
# One nameserver

The part of `dns_resolv.c` that talks to a nameserver: `struct dns_ns` with its socket and its two
queries, sending a query, and receiving and checking a response. What the system calls return is an
argument: a call that was interrupted is made again by the code, so that only its last result
counts.

The buffers are memory (`Mem`), since a decoder may be given a length that goes behind them.
-/

namespace CDbK8s.Resolv

open Base Dns Lib.ByteMem

/-! ## Codes -/

def DNS_OK : Int := 0

def DNS_ERR : Int := -1

def DNS_EBADHDR : Int := -2

def DNS_ENOTRSP : Int := -3

def DNS_ETID : Int := -4

def DNS_EBADMSG : Int := -5

def DNS_EQUEST : Int := -6

def DNS_ETRUNC : Int := -7

def DNS_EPROTO : Int := -8

def DNS_ETIMEOUT : Int := -10

def DNS_EAGAIN : Int := -11

def DNS_CLASS_IN : UInt16 := 1

def DNS_FLAGS_RD : UInt16 := 0x0100

/-- `DNS_PKTSIZE`, the size of both buffers of a socket. -/
def DNS_PKTSIZE : Nat := 1232

/-- `hdr->flags & DNS_FLAGS_QR`. -/
def isQr (flags : UInt16) : Bool := flags.toNat / 2 ^ 15 % 2 = 1

/-- `hdr->flags & DNS_FLAGS_TC`. -/
def isTc (flags : UInt16) : Bool := flags.toNat / 2 ^ 9 % 2 = 1

/-- `hdr->flags & DNS_FLAGS_RCODE`. -/
def rcodeOf (flags : UInt16) : Nat := flags.toNat % 16

/-! ## State -/

/-- `struct dns_sock` without the file descriptor. -/
structure DnsSock where
  txOff : Nat
  txLen : Nat
  rxOff : Nat
  rxLen : Nat
  txBuf : Mem
  rxBuf : Mem
  isOpen : Bool
  isTcp : Bool
  inProgress : Bool

def DnsSock.zero : DnsSock :=
  ⟨0, 0, 0, 0, fun _ => 0, fun _ => 0, false, false, false⟩

/-- `enum dns_state`. -/
inductive DnsState where
  | idle
  | send
  | recv
  | done
deriving DecidableEq

/-- `struct dns_query`. `completed` is not part of the program: how often the query was set to
`DNS_DONE`. -/
structure Query where
  qname : Bytes
  qtype : UInt16
  qclass : UInt16
  tid : UInt16
  lastRc : Int
  state : DnsState
  completed : Nat
deriving DecidableEq

def Query.zero : Query := ⟨[], 0, 0, 0, 0, .idle, 0⟩

/-- The query waits for its request or its answer. -/
def Query.outstanding (q : Query) : Bool := q.state = .send ∨ q.state = .recv

/-- The operations of the cache: `cache_get` and `cache_put`. -/
structure CacheApi (C : Type) where
  get : C → Fam → Bytes → Option SockAddr × C
  put : C → Fam → Bytes → SockAddr → UInt32 → C

/-- What outlives a nameserver: the cache, the next id of `gen_tid`, and the number of
nameservers that were tried. -/
structure Glob (C : Type) where
  cache : C
  nextTid : UInt16
  tried : Nat

/-- `struct dns_ns`, with the result and the globals that it changes. -/
structure Ns (C : Type) where
  name : Bytes
  sock : DnsSock
  active : Int
  v4Query : Query
  v6Query : Query
  msg : Msg
  useTcp : Bool
  useEsdn : Bool
  haveAns : Bool
  haveIp4 : Bool
  haveIp6 : Bool
  res : Res
  glob : Glob C

section
variable {C : Type}

/-- The query of a family. -/
def Ns.query (ns : Ns C) : Fam → Query
  | .ip4 => ns.v4Query
  | .ip6 => ns.v6Query

def Ns.setQuery (ns : Ns C) (fam : Fam) (q : Query) : Ns C :=
  match fam with
  | .ip4 => { ns with v4Query := q }
  | .ip6 => { ns with v6Query := q }

/-- `need_ip4` or `need_ip6`. -/
def Res.needs (res : Res) : Fam → Bool
  | .ip4 => res.needIp4
  | .ip6 => res.needIp6

/-- The type that is asked for. -/
def Fam.qtype : Fam → UInt16
  | .ip4 => DNS_TYPE_A
  | .ip6 => DNS_TYPE_AAAA

/-- `find_query`: the query with this id. -/
def findQuery (ns : Ns C) (tid : UInt16) : Option Fam :=
  if ns.res.needIp4 ∧ ns.v4Query.tid = tid then some .ip4
  else if ns.res.needIp6 ∧ ns.v6Query.tid = tid then some .ip6
  else none

end

/-! ## Receiving -/

/-- What `read` returns in the end: bytes, none of them at the end of the stream, or an error. -/
inductive ReadRes where
  | data (bs : Bytes)
  | eagain
  | fail
deriving DecidableEq

/-- The length in front of a TCP message. -/
def DnsSock.framing (s : DnsSock) : Nat := ofBe (readBytes s.rxBuf 0 2)

/-- The socket after a `read` of the bytes `bs`. -/
def DnsSock.filled (s : DnsSock) (bs : Bytes) : DnsSock :=
  { s with rxBuf := writeBytes s.rxBuf s.rxOff bs, rxOff := s.rxOff + bs.length }

/-- The end of `rcv_dnspkt`: whether the message is complete. -/
def rcvEnd (s : DnsSock) : Int × DnsSock :=
  if s.rxOff ≥ 2 + s.rxLen then (0, s) else (DNS_EAGAIN, s)

/-- `rcv_dnspkt`. No more than the space in the buffer is read; the rest of a datagram is
lost. -/
def rcvDnspkt (s : DnsSock) : ReadRes → Int × DnsSock
  | .eagain => (DNS_EAGAIN, s)
  | .fail => (DNS_ERR, s)
  | .data bs =>
    let bs := bs.take (DNS_PKTSIZE - s.rxOff)
    if bs = [] then (DNS_ERR, s)
    else
      let s := s.filled bs
      if !s.isTcp then (0, { s with rxLen := s.rxOff })
      else if s.rxLen = 0 ∧ s.rxOff ≥ 2 then
        let s := { s with rxLen := s.framing }
        if s.rxLen + 2 > DNS_PKTSIZE then (DNS_ERR, s) else rcvEnd s
      else rcvEnd s

def dnsSockFlush (s : DnsSock) : DnsSock := { s with rxOff := 0, rxLen := 0 }

/-- The bytes and the length that `dec_dnshdr` and `dec_dnsmsg` take from the buffer: on a TCP
connection both skip two bytes. -/
def DnsSock.payload (s : DnsSock) : Pkt :=
  if s.isTcp then ⟨fun i => s.rxBuf (i + 2), sizeSub s.rxLen 2⟩ else ⟨s.rxBuf, s.rxLen⟩

/-- `dec_dnshdr`: nothing is `DNS_EBADHDR`. -/
def decDnshdr (s : DnsSock) : Option Hdr :=
  if s.payload.len < DNS_HDR_LEN then none else some (hdrAt s.payload)

/-- `dec_dnsmsg`: what `dns_msg_decode` returns, and the message. -/
def decDnsmsg (ov : Overlay) (s : DnsSock) (msg : Msg) : Int × Msg :=
  let r := dnsMsgDecode s.payload ov msg
  (r.1, r.2.msg)

/-! ## Checking a response -/

/-- `chk_dnsqd`. The code compares the names as well, but does not use the result. -/
def chkDnsqd (q : Query) (rsp : Msg) : Bool :=
  if rsp.qdLen ≠ 1 then false
  else
    let qd := rsp.qd 0
    if q.qclass ≠ qd.qclass then false
    else if q.qtype ≠ qd.qtype then false
    else true

/-- `chk_dnsopt`: the response code with the upper bits from the first OPT record. -/
def chkDnsopt (ov : Overlay) (lastRc : Int) (rsp : Msg) : Option Int :=
  match rsp.ar.recs.find? (fun rr => rr.type = DNS_TYPE_OPT) with
  | some rr => some ((ov.opt rr.rdata).extRcode.toNat * 16 + lastRc % 16)
  | none => none

section
variable {C : Type} (ov : Overlay)

/-- The start of `chk_dnsrsp`: the query is done, with the code of the header. -/
def answered (ns : Ns C) (hdr : Hdr) (fam : Fam) : Ns C :=
  let q := ns.query fam
  { ns with active := ns.active - 1 }.setQuery fam
    { q with state := .done, lastRc := rcodeOf hdr.flags, completed := q.completed + 1 }

/-- The rest of `chk_dnsrsp`, for a whole message without an error. -/
def chkMsg (ns : Ns C) (fam : Fam) : Int × Ns C :=
  let r := decDnsmsg ov ns.sock ns.msg
  let ns := { ns with msg := r.2 }
  let q := ns.query fam
  if r.1 ≠ 0 then (DNS_EBADMSG, ns)
  else if !chkDnsqd q ns.msg then (DNS_EQUEST, ns)
  else
    match chkDnsopt ov q.lastRc ns.msg with
    | some rc => (rc, ns.setQuery fam { q with lastRc := rc })
    | none => (0, ns)

/-- `chk_dnsrsp`. The query is done, whatever is found. -/
def chkDnsrsp (ns : Ns C) (hdr : Hdr) (fam : Fam) : Int × Ns C :=
  let ns := answered ns hdr fam
  if isTc hdr.flags then (if ns.useTcp then DNS_EPROTO else DNS_ETRUNC, ns)
  else if rcodeOf hdr.flags ≠ 0 then (rcodeOf hdr.flags, ns)
  else chkMsg ov ns fam

/-- `chk_dnspkt`: a response with the id of a query. -/
def chkDnspkt (ns : Ns C) : Int × Ns C :=
  match decDnshdr ns.sock with
  | none => (DNS_EBADHDR, ns)
  | some hdr =>
    if !isQr hdr.flags then (DNS_ENOTRSP, ns)
    else
      match findQuery ns hdr.id with
      | none => (DNS_ETID, ns)
      | some fam => chkDnsrsp ov ns hdr fam

end

/-! ## Using a response -/

/-- The address of an A or AAAA record. -/
def rrIp (ov : Overlay) (rr : Rr) : Option Ip :=
  if rr.type = DNS_TYPE_A then some (.v4 (ov.a rr.rdata))
  else if rr.type = DNS_TYPE_AAAA then some (.v6 (ov.aaaa rr.rdata))
  else none

variable {C : Type} (api : CacheApi C) (ov : Overlay)

/-- `have_ip4` or `have_ip6`. -/
def Ns.have (ns : Ns C) : Fam → Ns C
  | .ip4 => { ns with haveIp4 := true }
  | .ip6 => { ns with haveIp6 := true }

/-- One record of `add_dnsans`. What is put in the cache is the entry at the index that
`res_add_ip` returned. -/
def addAnswer (ns : Ns C) (rr : Rr) : Ns C :=
  match rrIp ov rr with
  | none => ns
  | some ip =>
    let r := resAddIp ns.res ip
    let ns := { ns with res := r.2 }
    if r.1 ≠ -1 then
      { ns with
        glob := { ns.glob with
          cache := api.put ns.glob.cache ip.fam ns.name (r.2.addrs r.1.toNat) rr.ttl } }.have ip.fam
    else ns

/-- The loop of `add_dnsans`, which stops when the result is full. -/
def addAnswers (ns : Ns C) : List Rr → Ns C
  | [] => ns
  | rr :: rrs => if resIsfull ns.res then ns else addAnswers (addAnswer api ov ns rr) rrs

/-- `add_dnsans`. Without any record, too, `have_ans` is set. -/
def addDnsans (ns : Ns C) : Ns C := addAnswers api ov { ns with haveAns := true } ns.msg.an.recs

/-- `do_resp`: receive, check, add. -/
def doResp (ns : Ns C) (r : ReadRes) : Int × Ns C :=
  let rcv := rcvDnspkt ns.sock r
  let ns := { ns with sock := rcv.2 }
  if rcv.1 ≠ 0 then (rcv.1, ns)
  else
    let chk := chkDnspkt ov ns
    if chk.1 ≠ 0 then chk else (0, addDnsans api ov chk.2)

/-- The interest in a socket: whether its descriptor is in the set, and the events. -/
structure Pollfd where
  fd : Bool
  pollin : Bool
  pollout : Bool
deriving DecidableEq

/-- `recv_resp`. An error of the socket or, over TCP, a bad header ends the attempt. -/
def recvResp (ns : Ns C) (pfd : Pollfd) (r : ReadRes) : Ns C × Pollfd :=
  let resp := doResp api ov ns r
  let rc := resp.1
  let ns := resp.2
  if rc = DNS_EAGAIN then (ns, pfd)
  else
    let fails := rc = DNS_ERR ∨ (rc = DNS_EBADHDR ∧ ns.sock.isTcp)
    let active := if fails then 0 else ns.active
    let fd := if fails then false else pfd.fd
    ({ ns with active, sock := dnsSockFlush ns.sock }, { pfd with fd })

end CDbK8s.Resolv
