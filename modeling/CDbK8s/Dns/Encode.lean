import CDbK8s.Dns.Message
import CDbK8s.Lib.Exits

/-!
# The message encoder

`dns_msg_encode` of `dns_proto.c`, and the functions that build a message: `dns_add_qd`,
`dns_add_qdn` and `dns_add_rr`.

The encoder reserves the room that a field can need at most, writes at the start of it, and
gives the rest back. Where a record writes more or less than it reserved (`DNS_TYPE_HINFO`,
`DNS_TYPE_MX`, `DNS_TYPE_SRV`) or goes back in the packet (`DNS_TYPE_OPT`), the model does the
same. The section is an argument of the source's functions for their error texts only.
-/

namespace CDbK8s.Dns

open Base Lib.ByteMem Function

/-! ## The encoder -/

/-- `struct dns_enc`. `past` is whether a byte was written at `pkt_max` or behind it. `calls`
is not part of the program: where `encode_name` was called, and for which string, as long as
it succeeded. -/
structure Enc where
  mem : Mem
  pktLen : Nat
  table : List Suffix
  past : Bool
  calls : List (Nat × Bytes)

/-- The encoder: every failure ends it. -/
abbrev EncM := EStateM Unit Enc

/-- The string a pointer leads to; a null pointer is taken as the empty string, as
`safe_strlen` and `encode_name` do. -/
def cstring (str : Option Bytes) : Bytes := cstr (str.getD [])

section
variable (pktMax : Nat) (ov : Overlay)

/-- Writes bytes at a position of the buffer. -/
def put (pos : Nat) (bs : Bytes) : EncM Unit :=
  modify fun s =>
    { s with
      mem := writeBytes s.mem pos bs
      past := s.past || (bs ≠ [] && pktMax < pos + bs.length) }

/-- `dns_enc_mkspace`, and `enc_fld_mkspace`. -/
def dnsEncMkspace (len : Nat) : EncM Nat := fun s =>
  if s.pktLen + len > pktMax then .error () s
  else .ok s.pktLen { s with pktLen := s.pktLen + len }

/-- `dns_enc_retspace`: space that was not used is given back. -/
def dnsEncRetspace (len : Nat) : EncM Unit := fun s =>
  if len > s.pktLen then .error () s else .ok () { s with pktLen := s.pktLen - len }

/-- The call of `encode_name` at `wptr`: what it wrote stays also if it fails. -/
def putName (wptr : Nat) (name : Option Bytes) : EncM Nat := fun s =>
  let e := encodeName s.table wptr (some (cstring name))
  let s := { s with
    mem := writeBytes s.mem wptr e.wire
    past := s.past || (e.wire ≠ [] && pktMax < wptr + e.wire.length)
    table := e.table }
  if e.ok then .ok (wptr + e.wire.length) { s with calls := s.calls ++ [(wptr, cstring name)] }
  else .error () s

/-- `dns_enc_quest`. The space is that of the longest name. -/
def dnsEncQuest (quest : Qd) : EncM Unit := do
  let len := DNS_NAME_MAXLEN + 4
  let wbuf ← dnsEncMkspace pktMax len
  let wptr ← putName pktMax wbuf quest.qname
  put pktMax wptr (encU16 quest.qtype ++ encU16 quest.qclass)
  dnsEncRetspace (sizeSub len (wptr + 4 - wbuf))

/-- A name of the RDATA. -/
def dnsEncName (name : Option Bytes) : EncM Unit := do
  let len := DNS_NAME_MAXLEN
  let wbuf ← dnsEncMkspace pktMax len
  let wptr ← putName pktMax wbuf name
  dnsEncRetspace (sizeSub len (wptr - wbuf))

def dnsEncMem (mem : Bytes) : EncM Unit := do
  let wbuf ← dnsEncMkspace pktMax mem.length
  put pktMax wbuf mem

/-- `dns_enc_str`: the length of the string in eight bits, and the string. -/
def dnsEncStr (str : Option Bytes) : EncM Unit := do
  let wbuf ← dnsEncMkspace pktMax ((cstring str).length + 1)
  put pktMax wbuf (UInt8.ofNat (cstring str).length :: cstring str)

/-- The strings of `DNS_TYPE_TXT`. -/
def encodeTxt : List (Option Bytes) → EncM Unit
  | [] => pure ()
  | str :: strs => do
      dnsEncStr pktMax str
      encodeTxt strs

/-- The RDATA of `DNS_TYPE_SOA`. -/
def encodeSoa (v : Soa) : EncM Unit := do
  dnsEncName pktMax v.mname
  dnsEncName pktMax v.rname
  let wptr ← dnsEncMkspace pktMax 20
  put pktMax wptr
    (encU32 v.serial ++ encU32 v.refresh ++ encU32 v.retry ++ encU32 v.expire ++ encU32 v.minTtl)

/-- The RDATA of `DNS_TYPE_HINFO`. The length of the second string is written where the first
string starts. -/
def encodeHinfo (v : Hinfo) : EncM Unit := do
  let cpu := cstring v.cpuStr
  let os := cstring v.osStr
  let wptr ← dnsEncMkspace pktMax (2 + cpu.length + os.length)
  put pktMax wptr [UInt8.ofNat cpu.length]
  put pktMax (wptr + 1) cpu
  put pktMax (wptr + 1) [UInt8.ofNat os.length]
  put pktMax (wptr + 2) os

/-- The RDATA of `DNS_TYPE_MX`. Four bytes are reserved for the preference, and two written. -/
def encodeMx (v : Mx) : EncM Unit := do
  let wptr ← dnsEncMkspace pktMax 4
  put pktMax wptr (encU16 v.pref)
  dnsEncName pktMax v.name

/-- The RDATA of `DNS_TYPE_SRV`. Two bytes are reserved for the three numbers. -/
def encodeSrv (v : Srv) : EncM Unit := do
  let wptr ← dnsEncMkspace pktMax 2
  put pktMax wptr (encU16 v.prior ++ encU16 v.weight ++ encU16 v.port)
  dnsEncName pktMax v.name

/-- The low half of the TTL of `DNS_TYPE_OPT`, which is all of it that is written. -/
def optTtl (v : Opt) : UInt16 := (if v.doBit then 0x8000 else 0) ||| (v.zBits &&& 0x7fff)

/-- `DNS_TYPE_OPT` goes back to the class, and writes there. -/
def encodeOpt (v : Opt) (rdlenPtr : Nat) : EncM Unit :=
  put pktMax (rdlenPtr - 6) (encU16 v.udpSize ++ encU16 (optTtl v))

/-- The `switch` of `dns_rr_encode`. -/
def encodeRdata (rr : Rr) (rdlenPtr : Nat) : EncM Unit :=
  if rr.type = DNS_TYPE_A then dnsEncMem pktMax (ov.a rr.rdata).1
  else if rr.type = DNS_TYPE_NS then dnsEncName pktMax (ov.ns rr.rdata)
  else if rr.type = DNS_TYPE_CNAME then dnsEncName pktMax (ov.cname rr.rdata)
  else if rr.type = DNS_TYPE_SOA then encodeSoa pktMax (ov.soa rr.rdata)
  else if rr.type = DNS_TYPE_PTR then dnsEncName pktMax (ov.ptr rr.rdata)
  else if rr.type = DNS_TYPE_HINFO then encodeHinfo pktMax (ov.hinfo rr.rdata)
  else if rr.type = DNS_TYPE_MX then encodeMx pktMax (ov.mx rr.rdata)
  else if rr.type = DNS_TYPE_TXT then encodeTxt pktMax (ov.txt rr.rdata).strs
  else if rr.type = DNS_TYPE_AAAA then dnsEncMem pktMax (ov.aaaa rr.rdata).1
  else if rr.type = DNS_TYPE_SRV then encodeSrv pktMax (ov.srv rr.rdata)
  else if rr.type = DNS_TYPE_OPT then encodeOpt pktMax (ov.opt rr.rdata) rdlenPtr
  else pure ()

/-- The name of a record and what follows it up to the RDATA, with no length yet: the position
of the length. -/
def encodeRrHdr (rr : Rr) : EncM Nat := do
  let len := DNS_NAME_MAXLEN + 10
  let wbuf ← dnsEncMkspace pktMax len
  let wptr ← putName pktMax wbuf rr.name
  put pktMax wptr (encU16 rr.type ++ encU16 rr.cls ++ encU32 rr.ttl ++ encU16 0)
  dnsEncRetspace (sizeSub len (wptr + 10 - wbuf))
  pure (wptr + 8)

/-- `dns_rr_encode`. The length of the RDATA is computed in 16 bits. -/
def dnsRrEncode (rr : Rr) : EncM Unit := do
  let rdlenPtr ← encodeRrHdr pktMax rr
  let pktLen := (← get).pktLen % 2 ^ 16
  encodeRdata pktMax ov rr rdlenPtr
  let rdlen := UInt16.ofNat ((← get).pktLen - pktLen)
  put pktMax rdlenPtr (encU16 rdlen)

def dnsSectEnc : List Rr → EncM Unit
  | [] => pure ()
  | rr :: recs => do
      dnsRrEncode pktMax ov rr
      dnsSectEnc recs

def encodeQd : List Qd → EncM Unit
  | [] => pure ()
  | quest :: quests => do
      dnsEncQuest pktMax quest
      encodeQd quests

/-- The bytes of a header. -/
def Hdr.bytes (hdr : Hdr) : Bytes :=
  encU16 hdr.id ++ encU16 hdr.flags ++ encU16 hdr.qdCount ++ encU16 hdr.anCount ++
    encU16 hdr.nsCount ++ encU16 hdr.arCount

/-- `encode_hdr`, for a header that has the counts. -/
def encodeHdr (hdr : Hdr) : EncM Unit := do
  let wbuf ← dnsEncMkspace pktMax DNS_HDR_LEN
  put pktMax wbuf hdr.bytes

/-- The header with the counts of the sections. -/
def syncHdr (m : Msg) : Hdr :=
  { m.hdr with
    qdCount := UInt16.ofNat m.qdLen, anCount := UInt16.ofNat m.an.count,
    nsCount := UInt16.ofNat m.ns.count, arCount := UInt16.ofNat m.ar.count }

/-- The body of `dns_msg_encode`. -/
def encodeMsg (m : Msg) : EncM Unit := do
  encodeHdr pktMax (syncHdr m)
  encodeQd pktMax m.questions
  dnsSectEnc pktMax ov m.an.recs
  dnsSectEnc pktMax ov m.ns.recs
  dnsSectEnc pktMax ov m.ar.recs

/-- The encoder that `dns_msg_encode` starts with, on a buffer with contents `buf`. -/
def Enc.start (buf : Mem) : Enc := ⟨buf, 0, [], false, []⟩

/-- `dns_msg_encode`: the length of the packet, or nothing for -1, and the encoder. -/
def dnsMsgEncode (m : Msg) (buf : Mem) : Option Nat × Enc :=
  match encodeMsg pktMax ov m (Enc.start buf) with
  | .ok _ s => (some s.pktLen, s)
  | .error _ s => (none, s)

end

/-! ## Building a message -/

/-- `dns_add_qdn` of the string `qname`. -/
def dnsAddQdn (m : Msg) (qname : Bytes) (qtype qclass : UInt16) : Int × Msg :=
  if m.qdLen ≥ DNS_MAX_QD then (-1, m)
  else
    match msgStoreStr m.names qname with
    | (none, names) =>
      (-1, { m with
        names, qd := update m.qd m.qdLen { m.qd m.qdLen with qname := none } })
    | (some str, names) =>
      (0, { m with
        names, qd := update m.qd m.qdLen ⟨some str, qtype, qclass⟩, qdLen := m.qdLen + 1 })

/-- `dns_add_qd`: `dns_add_qdn` on a C string. -/
def dnsAddQd (m : Msg) (qname : Option Bytes) (qtype qclass : UInt16) : Int × Msg :=
  dnsAddQdn m (cstring qname) qtype qclass

/-- What `dns_sect_add_rr` works on: the store of names, and the slot. -/
structure Adding where
  names : Bytes
  rr : Rr

/-- Code of `dns_sect_add_rr`; its exits return -1. -/
abbrev AddM := EStateM Unit Adding

/-- `msg_store_name` of a string of the source record; `set` writes it to the slot. -/
def addName (name : Option Bytes) (set : Option Bytes → Rr → Rr) : AddM (Option Bytes) :=
  modifyGet fun s =>
    let r := msgStoreName s.names (name.getD [])
    (r.1, { s with names := r.2, rr := set r.1 s.rr })

/-- The return of -1 if `c` holds. -/
def addStopIf (c : Prop) [Decidable c] : AddM Unit := if c then throw () else pure ()

def addRequire (str : Option Bytes) : AddM Unit := addStopIf (str = none)

/-- A name without which the record is refused. -/
def addNeeded (name : Option Bytes) (set : Option Bytes → Rr → Rr) : AddM Unit := do
  let str ← addName name set
  addRequire str

def addSet (f : Rr → Rr) : AddM Unit := modify fun s => { s with rr := f s.rr }

/-- The strings of `DNS_TYPE_TXT`, behind those that the slot has. A string that is not stored
is not counted. -/
def addTxt (ov : Overlay) : List (Option Bytes) → AddM Unit
  | [] => pure ()
  | str :: strs => do
      let old := (ov.txt (← get).rr.rdata).strs
      addStopIf (old.length ≥ DNS_MAX_TXT)
      let stored ← addName str fun _ rr => rr
      addRequire stored
      addSet fun rr => { rr with rdata := .txt ⟨old ++ [stored]⟩ }
      addTxt ov strs

/-- The strings of `DNS_TYPE_SOA`. Whether the second was stored is not checked: the code looks
at the first again. -/
def addSoa (ov : Overlay) (v : Soa) : AddM Unit := do
  addNeeded v.mname fun str rr => { rr with rdata := .soa { ov.soa rr.rdata with mname := str } }
  let _ ← addName v.rname fun str rr =>
    { rr with rdata := .soa { ov.soa rr.rdata with rname := str } }
  addRequire (ov.soa (← get).rr.rdata).mname
  addSet fun rr =>
    { rr with
      rdata := .soa
        { ov.soa rr.rdata with
          serial := v.serial, refresh := v.refresh, retry := v.retry, expire := v.expire,
          minTtl := v.minTtl } }

/-- The `switch` of `dns_sect_add_rr` for a record whose member is `src`. -/
def addRdata (ov : Overlay) (type : UInt16) (src : Rdata) : AddM Unit :=
  if type = DNS_TYPE_A then addSet fun rr => { rr with rdata := .a (ov.a src) }
  else if type = DNS_TYPE_NS then addNeeded (ov.ns src) fun str rr => { rr with rdata := .ns str }
  else if type = DNS_TYPE_CNAME then
    addNeeded (ov.cname src) fun str rr => { rr with rdata := .cname str }
  else if type = DNS_TYPE_SOA then addSoa ov (ov.soa src)
  else if type = DNS_TYPE_PTR then addNeeded (ov.ptr src) fun str rr => { rr with rdata := .ptr str }
  else if type = DNS_TYPE_HINFO then do
    let _ ← addName (ov.hinfo src).cpuStr fun str rr =>
      { rr with rdata := .hinfo { ov.hinfo rr.rdata with cpuStr := str } }
    let _ ← addName (ov.hinfo src).osStr fun str rr =>
      { rr with rdata := .hinfo { ov.hinfo rr.rdata with osStr := str } }
  else if type = DNS_TYPE_MX then
    addNeeded (ov.mx src).name fun str rr => { rr with rdata := .mx ⟨(ov.mx src).pref, str⟩ }
  else if type = DNS_TYPE_TXT then addTxt ov (ov.txt src).strs
  else if type = DNS_TYPE_AAAA then addSet fun rr => { rr with rdata := .aaaa (ov.aaaa src) }
  else if type = DNS_TYPE_SRV then
    addNeeded (ov.srv src).name fun str rr =>
      { rr with rdata := .srv ⟨(ov.srv src).prior, (ov.srv src).weight, (ov.srv src).port, str⟩ }
  else if type = DNS_TYPE_OPT then
    -- the flag bits `z_bits` are not copied
    addSet fun rr =>
      { rr with
        rdata := .opt
          { ov.opt rr.rdata with
            udpSize := (ov.opt src).udpSize, extRcode := (ov.opt src).extRcode,
            ednsVer := (ov.opt src).ednsVer, doBit := (ov.opt src).doBit } }
  else pure ()

/-- The body of `dns_sect_add_rr` behind the choice of the slot. -/
def addRr (ov : Overlay) (src : Rr) : AddM Unit := do
  addNeeded src.name fun str rr => { rr with name := str }
  addSet fun rr => { rr with type := src.type, cls := src.cls, ttl := src.ttl }
  addRdata ov src.type src.rdata

/-- `dns_add_rr` to a section that exists, of a record that is there. -/
def dnsAddRr (ov : Overlay) (m : Msg) (sc : Sc) (src : Rr) : Int × Msg :=
  let t := m.sect sc
  if t.count ≥ DNS_MAX_RR then (-1, m)
  else
    let leave := fun (s : Adding) (used : Nat) =>
      { m with names := s.names }.setSect sc ⟨update t.slots t.count s.rr, t.count + used⟩
    match addRr ov src ⟨m.names, t.slots t.count⟩ with
    | .error _ s => (-1, leave s 0)
    | .ok _ s => (0, leave s 1)

end CDbK8s.Dns
