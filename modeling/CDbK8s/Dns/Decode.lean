import CDbK8s.Dns.Message
import CDbK8s.Lib.Exits

/-!
# The message decoder

`dns_msg_decode` and `dns_validate` of `dns_proto.c`, which share `decode_msg`. The first
loads a `dns_msg` (`Mode.load`), the second describes the packet in a text buffer
(`Mode.validate`).

A question or a record is decoded by straight-line code with many returns: either an error is
pushed on the error stack as the last thing (`Exit.refuse`), or the function returns -1
without one (`Exit.fail`). `dns_dec_err` returns 0 while the stack has room, so a refused
entry looks like a success to the loop over the section.

Of the texts only the lengths matter, since they move the scratch cursor `wptr`. Whether the
caller's text buffer has room for a line is an argument (`room`, by the number of the line).
-/

namespace CDbK8s.Dns

open Base Lib.ByteMem Function

/-! ## Errors -/

/-- `enum dns_location`. -/
inductive Location where
  | none
  | pdu
  | hdr
  | qd
  | an
  | ns
  | ar
  | rr
  | rdata
  | name
  | a
  | tns
  | cname
  | soa
  | ptr
  | hinfo
  | mx
  | txt
  | aaaa
  | srv
  | opt
  | any
deriving DecidableEq

def Sc.loc : Sc → Location
  | .an => .an
  | .ns => .ns
  | .ar => .ar

/-- The number of an error. -/
def DnsError.code : DnsError → Int
  | .eok => 0
  | .ehdrlen => 1
  | .ebadjmp => 2
  | .emaxjmp => 3
  | .enamelen => 4
  | .eoutlen => 5
  | .enonull => 6
  | .etrunc => 7
  | .erdatalen => 8
  | .emsgfmt => 9
  | .espace => 10
  | .eopcode => 11
  | .ercode => 12

/-- `struct dns_err`. -/
structure DnsErr where
  group : Location
  field : Location
  ec : Int
deriving DecidableEq

def DNS_MAX_EMSG : Nat := 10

def DNS_EC_ISROW : Int := 10000

/-- `DNS_MSG_SIZE`, the size of the scratch buffer. -/
def DNS_MSG_SIZE : Nat := 1124

def DNS_MAX_UDP : Nat := 512

/-- `load_msg` or `need_emsg`. -/
inductive Mode where
  | load
  | validate
deriving DecidableEq

/-- How an entry is left: with an error that is recorded, or at once. -/
inductive Exit where
  | refuse (group field : Location) (ec : Int)
  | fail
deriving DecidableEq

/-! ## Entries -/

/-- What the code of one entry works on: `dec->offset`, whether a byte behind the packet was
read, the cursor in `dec->msg`, the store of names, the slot, and `dec->udp_size`. -/
structure Entering where
  offset : Nat
  past : Bool
  wptr : Nat
  names : Bytes
  rr : Rr
  udpSize : Nat

/-- The decoding of one record. -/
abbrev EntryM := EStateM Exit Entering

/-- Notes a read of `n` bytes at `idx`. -/
def touch (pkt : Pkt) (idx n : Nat) : EntryM Unit :=
  modify fun s => { s with past := s.past || pkt.beyond idx n }

/-- `dec->offset += n`. -/
def skip (n : Nat) : EntryM Unit := modify fun s => { s with offset := s.offset + n }

/-- `wptr += n`. -/
def advance (n : Nat) : EntryM Unit := modify fun s => { s with wptr := s.wptr + n }

/-- A text of length `n` for the description. -/
def describe (mode : Mode) (n : Nat) : EntryM Unit :=
  if mode = .validate then advance n else pure ()

def setRr (f : Rr → Rr) : EntryM Unit := modify fun s => { s with rr := f s.rr }

/-- `msg_store_str`. -/
def storeStr (str : Bytes) : EntryM (Option Bytes) :=
  modifyGet fun s => ((msgStoreStr s.names str).1, { s with names := (msgStoreStr s.names str).2 })

/-- `msg_store_name`. -/
def storeName (name : Bytes) : EntryM (Option Bytes) := storeStr (cstr name)

/-- A check: `x` is returned if it fails. -/
def stopIf (c : Prop) [Decidable c] (x : Exit) : EntryM Unit := if c then throw x else pure ()

theorem stopIf_stop {c : Prop} [Decidable c] (h : c) (x : Exit) (s : Entering) :
    stopIf c x s = .error x s := by
  rw [stopIf, if_pos h]
  rfl

theorem stopIf_pass {c : Prop} [Decidable c] (h : ¬ c) (x : Exit) (s : Entering) :
    stopIf c x s = .ok () s := by
  rw [stopIf, if_neg h]
  rfl

/-- A string that must have been stored. -/
def require (str : Option Bytes) : EntryM Unit := stopIf (str = none) .fail

/-- What only `dns_msg_decode` does. -/
def whenLoad (mode : Mode) (x : EntryM Unit) : EntryM Unit := if mode = .load then x else pure ()

/-- The text of a name and the result of `decode_name`. -/
structure NameText where
  text : Bytes
  rc : Nat

/-- `decode_name` at the scratch cursor, then `fix_label`. -/
def nameField (pkt : Pkt) (field : Location) : EntryM NameText := fun s =>
  let nlen := sizeSub DNS_MSG_SIZE s.wptr
  let d := decodeName pkt s.offset nlen
  let s := { s with offset := d.offset, past := s.past || d.overread }
  match d.res with
  | .error ec => .error (.refuse .rr field ec.code) s
  | .ok (name, rc) =>
    if rc ≠ 1 then .ok ⟨name, rc - 1⟩ s
    else if nlen < 2 then .error .fail s
    else .ok ⟨[dot], 1⟩ s

/-- The number of decimal digits. -/
def decLen (n : Nat) : Nat := Nat.log 10 n + 1

/-- The length of the text that `ip4_str_encode` writes. -/
def ip4Len (addr : Octets 4) : Nat := (addr.1.map fun b => decLen b.toNat).sum + 3

def IP4_ADDR_STRLEN : Nat := 16

/-- The description of an address by `ip4_str_encode`, which has no room for it or reads it. -/
def describeIp4 (pkt : Pkt) (mode : Mode) (idx : Nat) : EntryM Unit := fun s =>
  if mode = .load then .ok () s
  else if sizeSub DNS_MSG_SIZE s.wptr < IP4_ADDR_STRLEN then .ok () { s with wptr := s.wptr + 3 }
  else
    .ok () { s with
      past := s.past || pkt.beyond idx 4, wptr := s.wptr + ip4Len (octetsAt pkt.buf idx 4) }

/-- The RDATA of `DNS_TYPE_A`. -/
def decodeA (pkt : Pkt) (mode : Mode) (rdlen : Nat) : EntryM Unit := do
  stopIf (rdlen ≠ 4) (.refuse .rr .a DnsError.erdatalen.code)
  let idx := (← get).offset
  whenLoad mode do
    touch pkt idx 4
    setRr fun rr => { rr with rdata := .a (octetsAt pkt.buf idx 4) }
  skip 4
  describeIp4 pkt mode idx

/-- Keeps a name in the slot; `set` writes it. -/
def keepName (mode : Mode) (text : Bytes) (set : Option Bytes → Rr → Rr) : EntryM Unit :=
  whenLoad mode do
    let str ← storeName text
    setRr (set str)
    require str

/-- A name at the end of the RDATA; `set` keeps it. -/
def nameRdata (pkt : Pkt) (mode : Mode) (field : Location) (set : Option Bytes → Rr → Rr) :
    EntryM Nat := do
  let name ← nameField pkt field
  keepName mode name.text set
  advance name.rc
  pure name.rc

/-- The RDATA of the types that are one name; `member` is where it is kept. -/
def decodeOneName (pkt : Pkt) (mode : Mode) (field : Location) (member : Option Bytes → Rdata) :
    EntryM Nat :=
  nameRdata pkt mode field fun str rr => { rr with rdata := member str }

/-- The lengths of the texts in front of the five numbers of `DNS_TYPE_SOA`. -/
def soaTexts : List Nat := [8, 9, 7, 8, 9]

/-- The numbers of `DNS_TYPE_SOA`. -/
def decodeSoaVals (pkt : Pkt) (mode : Mode) (ov : Overlay) (rdEnd : Nat) : EntryM Unit := do
  let idx := (← get).offset
  stopIf (idx + 20 > rdEnd) (.refuse .rr .soa DnsError.erdatalen.code)
  touch pkt idx 20
  skip 20
  let val := fun i => decU32 pkt.buf (idx + 4 * i)
  describe mode ((List.range 5).map fun i => soaTexts.getD i 0 + decLen (val i).toNat).sum
  whenLoad mode do
    setRr fun rr =>
      { rr with
        rdata := .soa
          { ov.soa rr.rdata with
            serial := val 0, refresh := val 1, retry := val 2, expire := val 3, minTtl := val 4 } }

/-- The RDATA of `DNS_TYPE_SOA`. Whether the second name was stored is not checked: the code
looks at the first one again. -/
def decodeSoa (pkt : Pkt) (mode : Mode) (ov : Overlay) (rdEnd : Nat) : EntryM Nat := do
  describe mode 6
  let name ← nameField pkt .soa
  keepName mode name.text fun str rr =>
    { rr with rdata := .soa { ov.soa rr.rdata with mname := str } }
  advance name.rc
  describe mode 7
  let name ← nameField pkt .soa
  whenLoad mode do
    let str ← storeName name.text
    setRr fun rr => { rr with rdata := .soa { ov.soa rr.rdata with rname := str } }
    require (ov.soa (← get).rr.rdata).mname
  advance name.rc
  decodeSoaVals pkt mode ov rdEnd
  pure name.rc

/-- A string with its length in front; `n` characters stand in front of it in the description,
and `keep` stores it. -/
def charString (pkt : Pkt) (mode : Mode) (field : Location) (rdEnd n : Nat)
    (keep : Bytes → EntryM Unit) : EntryM Unit := do
  let idx := (← get).offset
  let len := (pkt.buf idx).toNat
  touch pkt idx 1
  skip 1
  stopIf (idx + 1 + len > rdEnd) (.refuse .rr field DnsError.erdatalen.code)
  touch pkt (idx + 1) len
  describe mode (n + (cstr (readBytes pkt.buf (idx + 1) len)).length)
  whenLoad mode (keep (readBytes pkt.buf (idx + 1) len))
  skip len

/-- Keeps a string of `DNS_TYPE_HINFO`; `set` writes it. -/
def keepHinfo (set : Option Bytes → Rr → Rr) (bs : Bytes) : EntryM Unit := do
  let str ← storeStr bs
  setRr (set str)
  require str

/-- The RDATA of `DNS_TYPE_HINFO`. -/
def decodeHinfo (pkt : Pkt) (mode : Mode) (ov : Overlay) (rdlen rdEnd : Nat) : EntryM Unit := do
  stopIf (rdlen < 2) (.refuse .rr .hinfo DnsError.erdatalen.code)
  charString pkt mode .hinfo rdEnd 5 (keepHinfo fun str rr =>
    { rr with rdata := .hinfo { ov.hinfo rr.rdata with cpuStr := str } })
  stopIf ((← get).offset ≥ rdEnd) (.refuse .rr .hinfo DnsError.erdatalen.code)
  charString pkt mode .hinfo rdEnd 8 (keepHinfo fun str rr =>
    { rr with rdata := .hinfo { ov.hinfo rr.rdata with osStr := str } })

/-- The RDATA of `DNS_TYPE_MX`. -/
def decodeMx (pkt : Pkt) (mode : Mode) (rdlen : Nat) : EntryM Nat := do
  stopIf (rdlen < 3) (.refuse .rr .mx DnsError.erdatalen.code)
  let idx := (← get).offset
  touch pkt idx 2
  let pref := decU16 pkt.buf idx
  skip 2
  describe mode (6 + decLen pref.toNat)
  nameRdata pkt mode .mx fun str rr => { rr with rdata := .mx ⟨pref, str⟩ }

/-- Keeps a string of `DNS_TYPE_TXT` behind those that the slot has. -/
def keepTxt (ov : Overlay) (bs : Bytes) : EntryM Unit := do
  let strs := (ov.txt (← get).rr.rdata).strs
  stopIf (strs.length ≥ DNS_MAX_TXT) .fail
  let str ← storeStr bs
  require str
  setRr fun rr => { rr with rdata := .txt ⟨strs ++ [str]⟩ }

/-- The loop over the strings of `DNS_TYPE_TXT`. Every round moves the offset, so `rdEnd`
rounds are enough. -/
def decodeTxtLoop (pkt : Pkt) (mode : Mode) (ov : Overlay) (rdEnd : Nat) : Nat → EntryM Unit
  | 0 => pure ()
  | fuel + 1 => do
      if (← get).offset < rdEnd then
        charString pkt mode .txt rdEnd 5 (keepTxt ov)
        decodeTxtLoop pkt mode ov rdEnd fuel

/-- The RDATA of `DNS_TYPE_AAAA`. It is described as if it were an IPv4 address. -/
def decodeAaaa (pkt : Pkt) (mode : Mode) (rdlen : Nat) : EntryM Unit := do
  stopIf (rdlen ≠ 16) (.refuse .rr .aaaa DnsError.erdatalen.code)
  let idx := (← get).offset
  skip 16
  whenLoad mode do
    touch pkt idx 16
    setRr fun rr => { rr with rdata := .aaaa (octetsAt pkt.buf idx 16) }
  describeIp4 pkt mode idx

/-- The RDATA of `DNS_TYPE_SRV`. -/
def decodeSrv (pkt : Pkt) (mode : Mode) (rdlen : Nat) : EntryM Nat := do
  stopIf (rdlen < 7) (.refuse .rr .srv DnsError.erdatalen.code)
  let idx := (← get).offset
  touch pkt idx 6
  let prior := decU16 pkt.buf idx
  let weight := decU16 pkt.buf (idx + 2)
  let port := decU16 pkt.buf (idx + 4)
  skip 6
  describe mode (24 + decLen prior.toNat + decLen weight.toNat + decLen port.toNat)
  nameRdata pkt mode .srv fun str rr => { rr with rdata := .srv ⟨prior, weight, port, str⟩ }

/-- The fields that `DNS_TYPE_OPT` has in place of class and TTL. -/
def optFields (cls : UInt16) (ttl : UInt32) : Opt :=
  { udpSize := cls
    extRcode := UInt8.ofNat (ttl.toNat / 2 ^ 24)
    ednsVer := UInt8.ofNat (ttl.toNat / 2 ^ 16)
    doBit := ttl.toNat / 2 ^ 15 % 2 = 1
    zBits := UInt16.ofNat (ttl.toNat % 2 ^ 15) }

/-- The length of the description of `DNS_TYPE_OPT`. -/
def optText (v : Opt) : Nat :=
  38 + decLen v.udpSize.toNat + decLen v.extRcode.toNat + decLen v.ednsVer.toNat

/-- The RDATA of `DNS_TYPE_OPT`: nothing of it is read. The name is put in the store again,
and the text is made in both modes. -/
def decodeOpt (mode : Mode) (sc : Sc) (name : Bytes) (cls : UInt16) (ttl : UInt32) (rdEnd : Nat) :
    EntryM Nat := do
  stopIf (sc ≠ .ar) (.refuse .rr .opt DnsError.emsgfmt.code)
  let v := optFields cls ttl
  keepName mode name fun str rr => { rr with rdata := .opt v, cls := 0, name := str }
  advance (optText v)
  modify fun s => { s with udpSize := cls.toNat, offset := rdEnd }
  pure (optText v)

/-- The `switch` over the type, with the last value of `rc`: `rc` is that of the owner's name
unless a case sets it. -/
def decodeRdata (pkt : Pkt) (mode : Mode) (sc : Sc) (ov : Overlay) (type : UInt16) (name : Bytes)
    (cls : UInt16) (ttl : UInt32) (rdlen rdEnd rc : Nat) : EntryM Nat :=
  if type = DNS_TYPE_A then do decodeA pkt mode rdlen; pure rc
  else if type = DNS_TYPE_NS then decodeOneName pkt mode .tns .ns
  else if type = DNS_TYPE_CNAME then decodeOneName pkt mode .cname .cname
  else if type = DNS_TYPE_SOA then decodeSoa pkt mode ov rdEnd
  else if type = DNS_TYPE_PTR then decodeOneName pkt mode .cname .ptr
  else if type = DNS_TYPE_HINFO then do decodeHinfo pkt mode ov rdlen rdEnd; pure rc
  else if type = DNS_TYPE_MX then decodeMx pkt mode rdlen
  else if type = DNS_TYPE_TXT then do decodeTxtLoop pkt mode ov rdEnd rdEnd; pure rc
  else if type = DNS_TYPE_AAAA then do decodeAaaa pkt mode rdlen; pure rc
  else if type = DNS_TYPE_SRV then decodeSrv pkt mode rdlen
  else if type = DNS_TYPE_OPT then decodeOpt mode sc name cls ttl rdEnd
  else do skip rdlen; pure rc

/-- The fixed fields of a record. -/
structure RrFields where
  type : UInt16
  cls : UInt16
  ttl : UInt32
  rdlen : UInt16

/-- The fields at `idx`. -/
def rrFieldsAt (pkt : Pkt) (idx : Nat) : RrFields :=
  ⟨decU16 pkt.buf idx, decU16 pkt.buf (idx + 2), decU32 pkt.buf (idx + 4), decU16 pkt.buf (idx + 8)⟩

def rrName (pkt : Pkt) (mode : Mode) : EntryM NameText := do
  let name ← nameField pkt .name
  advance (name.rc + 1)
  keepName mode name.text fun str rr => { rr with name := str }
  pure name

/-- The fixed fields, ten bytes. -/
def rrFields (pkt : Pkt) (mode : Mode) : EntryM RrFields := do
  let idx := (← get).offset
  stopIf (idx + 10 > pkt.len) (.refuse .rr .hdr DnsError.etrunc.code)
  let f := rrFieldsAt pkt idx
  touch pkt idx 10
  skip 10
  whenLoad mode do
    setRr fun rr => { rr with type := f.type, cls := f.cls, ttl := f.ttl, rdlen := f.rdlen }
  pure f

/-- The RDATA, up to `rd_end`, a `uint16_t`. -/
def rrRdata (pkt : Pkt) (mode : Mode) (sc : Sc) (ov : Overlay) (name : NameText) (f : RrFields) :
    EntryM Nat := do
  let rdEnd := ((← get).offset + f.rdlen.toNat) % 2 ^ 16
  stopIf (rdEnd > pkt.len) (.refuse .rr .rdata DnsError.etrunc.code)
  let rc ← decodeRdata pkt mode sc ov f.type name.text f.cls f.ttl f.rdlen.toNat rdEnd name.rc
  stopIf ((← get).offset ≠ rdEnd) (.refuse .rr .rdata DnsError.erdatalen.code)
  pure rc

/-- The body of `dns_rr_decode` between the choice of the slot and the description. -/
def rrBody (pkt : Pkt) (mode : Mode) (sc : Sc) (ov : Overlay) : EntryM Nat := do
  let name ← rrName pkt mode
  let f ← rrFields pkt mode
  rrRdata pkt mode sc ov name f

/-! ## The decoder -/

/-- A call of `dns_rr_decode` that chose a slot: what its code started from, and what it came
to. -/
structure RrCall where
  sc : Sc
  start : Entering
  result : EStateM.Result Exit Entering Nat

/-- `struct dns_dec` with the message. `lines` is the number of lines described so far.
`calls` is not part of the program: the calls of `dns_rr_decode` so far, which the statements
about runs refer to. -/
structure Dec where
  offset : Nat
  past : Bool
  errs : List DnsErr
  lines : Nat
  udpSize : Nat
  msg : Msg
  calls : List RrCall

/-- `dns_dec_err`: at most `DNS_MAX_EMSG` errors are kept. -/
def dnsDecErr (group field : Location) (ec : Int) (d : Dec) : Int × Dec :=
  if d.errs.length ≥ DNS_MAX_EMSG then (-1, d)
  else (0, { d with errs := d.errs ++ [⟨group, field, ec⟩] })

/-- A line of the report; `room` says whether it fits. -/
def dnsWmsg (room : Nat → Bool) (d : Dec) : Int × Dec :=
  (if room d.lines then 0 else -1, { d with lines := d.lines + 1 })

/-- The next step, unless the one before returned an error: `if ((rc = f())) return rc;`. -/
def onOk (next : Dec → Int × Dec) (r : Int × Dec) : Int × Dec := if r.1 ≠ 0 then r else next r.2

/-- The loop over the entries of a section, with `n` entries to go. An entry that does not
return 0 ends it with one more error, under the number of the entry. -/
def decodeEntries (entry : Dec → Int × Dec) (loc : Location) : Nat → Nat → Dec → Int × Dec
  | 0, _, d => (0, d)
  | n + 1, i, d =>
    let r := entry d
    if r.1 ≠ 0 then dnsDecErr .pdu loc (i + DNS_EC_ISROW) r.2
    else decodeEntries entry loc n (i + 1) r.2

/-- What the code of a record in section `sc` starts from. -/
def Dec.enter (d : Dec) (sc : Sc) : Entering :=
  ⟨d.offset, d.past, 0, d.msg.names, (d.msg.sect sc).slots (d.msg.sect sc).count, d.udpSize⟩

/-- The decoder behind a call of `dns_rr_decode`. -/
def Dec.leave (d : Dec) (sc : Sc) (r : EStateM.Result Exit Entering Nat) (s : Entering) (used : Nat) :
    Dec :=
  let t := d.msg.sect sc
  { d with
    offset := s.offset, past := s.past, udpSize := s.udpSize,
    msg := { d.msg with names := s.names }.setSect sc ⟨update t.slots t.count s.rr, t.count + used⟩
    calls := d.calls ++ [⟨sc, d.enter sc, r⟩] }

section
variable (pkt : Pkt) (mode : Mode) (ov : Overlay) (room : Nat → Bool)

/-- `dns_rr_decode`. In load mode it returns the length that the last name had. -/
def dnsRrDecode (sc : Sc) (d : Dec) : Int × Dec :=
  if mode = .load ∧ (d.msg.sect sc).count ≥ DNS_MAX_RR then (-1, d)
  else
    match rrBody pkt mode sc ov (d.enter sc) with
    | .error .fail s => (-1, d.leave sc (.error .fail s) s 0)
    | .error (.refuse group field ec) s =>
      dnsDecErr group field ec (d.leave sc (.error (.refuse group field ec) s) s 0)
    | .ok rc s =>
      match mode with
      | .load => (rc, d.leave sc (.ok rc s) s 1)
      | .validate => dnsWmsg room (d.leave sc (.ok rc s) s 0)

/-- `dns_qd_decode`. When loading, a second question is refused. -/
def dnsQdDecode (d : Dec) : Int × Dec :=
  if mode = .load ∧ d.msg.qdLen ≥ DNS_MAX_QD then (-1, d)
  else
    let r := decodeName pkt d.offset DNS_MSG_SIZE
    let d := { d with offset := r.offset, past := d.past || r.overread }
    match r.res with
    | .error ec => dnsDecErr .qd .name (-ec.code) d
    | .ok (name, rc) =>
      if d.offset + 4 > pkt.len then dnsDecErr .qd .hdr DnsError.etrunc.code d
      else
        let qtype := decU16 pkt.buf d.offset
        let qclass := decU16 pkt.buf (d.offset + 2)
        let d := { d with past := d.past || pkt.beyond d.offset 4, offset := d.offset + 4 }
        match mode with
        | .validate => dnsWmsg room d
        | .load =>
          let i := d.msg.qdLen
          let (str, names) := msgStoreName d.msg.names name
          if str.isNone then
            (-1, { d with
              msg := { d.msg with
                names, qd := update d.msg.qd i { d.msg.qd i with qname := str } } })
          else
            (rc, { d with
              msg := { d.msg with
                names, qd := update d.msg.qd i ⟨str, qtype, qclass⟩, qdLen := i + 1 } })

/-- `dns_sect_decode` of `n` records. -/
def dnsSectDecode (sc : Sc) (n : Nat) (d : Dec) : Int × Dec :=
  decodeEntries (dnsRrDecode pkt mode ov room sc) sc.loc n 0 d

/-- `decode_qd` of `n` questions. -/
def decodeQd (n : Nat) (d : Dec) : Int × Dec :=
  decodeEntries (dnsQdDecode pkt mode room) .qd n 0 d

/-- `dns_hdr_decode` of a packet that has a header. -/
def hdrAt : Hdr :=
  ⟨decU16 pkt.buf 0, decU16 pkt.buf 2, decU16 pkt.buf 4, decU16 pkt.buf 6, decU16 pkt.buf 8,
    decU16 pkt.buf 10⟩

/-- The flags that `decode_hdr` objects to when it describes a header: a response code above
10, or the opcode of a query. -/
def hdrError (flags : UInt16) : Option DnsError :=
  if flags.toNat / 2 ^ 15 = 1 then
    if flags.toNat % 16 > 10 then some .ercode else none
  else
    let opcode := flags.toNat / 2 ^ 11 % 16
    if opcode = 3 ∨ opcode > 5 then some .eopcode else none

/-- The header. Only `dns_msg_validate` checks its flags. -/
def decodeHdr (d : Dec) : Int × Dec :=
  if pkt.len < DNS_HDR_LEN then dnsDecErr .pdu .hdr DnsError.ehdrlen.code d
  else
    let d := { d with
      past := d.past || pkt.beyond 0 DNS_HDR_LEN, offset := d.offset + DNS_HDR_LEN,
      msg := { d.msg with hdr := hdrAt pkt } }
    match mode with
    | .load => (0, d)
    | .validate =>
      match hdrError d.msg.hdr.flags with
      | some ec => dnsWmsg room (dnsDecErr .pdu .hdr ec.code d).2
      | none => dnsWmsg room d

/-- `decode_msg` without the reset and the last line: the header, the questions and the three
sections, up to the first that returns an error. -/
def decodeSections (d : Dec) : Int × Dec :=
  decodeHdr pkt mode room d
    |> onOk (fun d => decodeQd pkt mode room d.msg.hdr.qdCount.toNat d)
    |> onOk (fun d => dnsSectDecode pkt mode ov room .an d.msg.hdr.anCount.toNat d)
    |> onOk (fun d => dnsSectDecode pkt mode ov room .ns d.msg.hdr.nsCount.toNat d)
    |> onOk (fun d => dnsSectDecode pkt mode ov room .ar d.msg.hdr.arCount.toNat d)

/-- The decoder that `dns_msg_decode` and `dns_validate` start with. -/
def Dec.start (msg : Msg) : Dec := ⟨0, false, [], 0, DNS_MAX_UDP, dnsMsgReset msg, []⟩

/-- The common part of `dns_msg_decode` and `dns_msg_validate`. -/
def decodeMsg (msg : Msg) : Int × Dec :=
  decodeSections pkt mode ov room (Dec.start msg)
    |> onOk (fun d => if mode = .validate ∧ pkt.len > d.udpSize then dnsWmsg room d else (0, d))

end

/-- `dns_msg_decode`. No line is described. -/
def dnsMsgDecode (pkt : Pkt) (ov : Overlay) (msg : Msg) : Int × Dec :=
  decodeMsg pkt .load ov (fun _ => true) msg

/-- `dns_validate`: with errors on the stack the result is not 0. -/
def dnsValidate (pkt : Pkt) (ov : Overlay) (room : Nat → Bool) : Int × Dec :=
  let r := decodeMsg pkt .validate ov room Msg.zero
  (if r.1 = 0 ∧ r.2.errs ≠ [] then -1 else r.1, r.2)

end CDbK8s.Dns
