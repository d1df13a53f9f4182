import CDbK8s.Base.Bytes
import CDbK8s.Lib.ByteMem
import CDbK8s.Lib.Pieces

/-!
# Names in a DNS packet

`decode_name` and `encode_name` of `dns_proto.c`. A packet is a piece of memory: a read behind its
end would see what lies there, so `Pkt` has all bytes from `pkt_buf` on and the length apart, and
the decoder reports whether a byte behind the end was read.

The encoder's bytes depend on the table of suffixes, the position and the name only; they are
returned as a list that the caller stores in its buffer.
-/

namespace CDbK8s.Dns

open Base Lib.ByteMem Lib.Pieces

/-! ## Packets and errors -/

/-- `pkt_buf` with the memory behind it, and `pkt_len`. -/
structure Pkt where
  buf : Mem
  len : Nat

/-- Whether a read of `n` bytes at `idx` goes behind the end of the packet. -/
def Pkt.beyond (pkt : Pkt) (idx n : Nat) : Bool := pkt.len < idx + n

/-- A buffer that holds exactly these bytes. -/
def Pkt.ofBytes (bs : Bytes) : Pkt := ⟨fun idx => bs.getD idx 0, bs.length⟩

/-- `enum dns_dec_error`. -/
inductive DnsError where
  | eok
  | ehdrlen
  | ebadjmp
  | emaxjmp
  | enamelen
  | eoutlen
  | enonull
  | etrunc
  | erdatalen
  | emsgfmt
  | espace
  | eopcode
  | ercode
deriving DecidableEq

def DNS_MAX_JMP : Nat := 16

def DNS_MAX_SUFFIX : Nat := 32

def DNS_LABEL_MAXSTR : Nat := 63

def DNS_NAME_MAXSTR : Nat := 253

def dot : UInt8 := 46

/-! ## Decoding -/

/-- The outcome of `decode_name`: the bytes written, without the terminator, and the count
that is returned, or the error; `dec->offset`; and whether a byte behind the end of the
packet was read. -/
structure NameDec where
  res : Except DnsError (Bytes × Nat)
  offset : Nat
  overread : Bool

/-- The variables of `decode_name`: `pkt_idx`, `out_len`, the number of jumps, what was written,
and `dec->offset`; and whether a byte behind the end of the packet was read. -/
structure NameCursor where
  idx : Nat
  space : Nat
  njmp : Nat
  name : Bytes
  offset : Nat
  past : Bool

/-- A pass of the loop returns, with all that was written, or goes on. -/
inductive NameStep where
  | ret (r : NameDec) (written : Bytes)
  | go (c : NameCursor)

/-- One pass of the loop of `decode_name` into a buffer of `nlen` bytes, and its end. It is left in
one of three ways: at a zero byte, with an error, or at the end of the packet, where the last label
length was not zero. -/
def nameStep (pkt : Pkt) (nlen : Nat) (c : NameCursor) : NameStep :=
  if c.idx < pkt.len then
    let len := (pkt.buf c.idx).toNat
    let past := c.past || pkt.beyond c.idx 1
    let idx := c.idx + 1
    -- both upper bits are set
    if 192 ≤ len then
      if idx = pkt.len then .ret ⟨.error .ebadjmp, c.offset, past⟩ c.name
      else if c.njmp > DNS_MAX_JMP then .ret ⟨.error .emaxjmp, c.offset, past⟩ c.name
      else
        let offset := if c.njmp = 0 then c.offset + 2 else c.offset
        let past := past || pkt.beyond idx 1
        let target := len % 64 * 256 + (pkt.buf idx).toNat
        if target < 12 then .ret ⟨.error .ebadjmp, offset, past⟩ c.name
        else if target > pkt.len then .ret ⟨.error .ebadjmp, offset, past⟩ c.name
        else .go ⟨target, c.space, c.njmp + 1, c.name, offset, past⟩
    else if len > pkt.len - idx then .ret ⟨.error .enamelen, c.offset, past⟩ c.name
    else if len > c.space then .ret ⟨.error .eoutlen, c.offset, past⟩ c.name
    else
      let offset := if c.njmp = 0 then c.offset + 1 + len else c.offset
      if len = 0 then
        if c.space = 0 then .ret ⟨.error .eoutlen, offset, past⟩ c.name
        else .ret ⟨.ok (c.name, nlen - (c.space - 1)), offset, past⟩ (c.name ++ [0])
      else
        let past := past || pkt.beyond idx len
        let name := c.name ++ readBytes pkt.buf idx len
        let space := c.space - len
        let idx := idx + len
        if space = 0 then .ret ⟨.error .eoutlen, offset, past⟩ name
        else if idx < pkt.len ∧ pkt.buf idx ≠ 0 then
          .go ⟨idx, space - 1, c.njmp, name ++ [dot], offset, past || pkt.beyond idx 1⟩
        else .go ⟨idx, space, c.njmp, name, offset, past⟩
  else .ret ⟨.error .enonull, c.offset, c.past⟩ c.name

/-- The loop of `decode_name`, for `fuel` passes at most. -/
def decodeNameLoop (pkt : Pkt) (nlen : Nat) : Nat → NameCursor → NameDec
  | 0, c => ⟨.error .enonull, c.offset, c.past⟩
  | fuel + 1, c =>
    match nameStep pkt nlen c with
    | .ret r _ => r
    | .go c' => decodeNameLoop pkt nlen fuel c'

/-- The cursor that `decode_name` starts with. -/
def NameCursor.start (nlen offset : Nat) : NameCursor := ⟨offset, nlen, 0, [], offset, false⟩

/-- `decode_name` into a buffer of `nlen` bytes. The loop makes at most 17 jumps, and moves
forward in between; `nameRun_spec` says that the fuel is enough. -/
def decodeName (pkt : Pkt) (offset nlen : Nat) : NameDec :=
  decodeNameLoop pkt nlen (19 * (pkt.len + 1)) (.start nlen offset)

/-! ## Encoding -/

/-- `struct dns_suffix`: a suffix of a name that was written, and its position. -/
structure Suffix where
  name : Bytes
  offset : Nat
deriving DecidableEq

/-- A letter in lower case, as `strcasecmp` compares it in the C locale. -/
def lower (ch : UInt8) : UInt8 := if 65 ≤ ch ∧ ch ≤ 90 then ch + 32 else ch

/-- `strcasecmp(a, b) == 0`. -/
def strcaseEq (a b : Bytes) : Bool := a.map lower == b.map lower

/-- A compression pointer. -/
def compPtr (offset : Nat) : Bytes :=
  [UInt8.ofNat ((0xc000 ||| offset) / 256), UInt8.ofNat (0xc000 ||| offset)]

/-- What `encode_name` writes from `wptr` on, whether it succeeds, and the table. -/
structure NameEnc where
  wire : Bytes
  ok : Bool
  table : List Suffix

/-- The loop of `encode_name` for a name that starts at `start`; `wptr` is where the next
label goes. A label length is converted to eight bits before it is checked. -/
def encodeNameLoop (start : Nat) : Nat → List Suffix → Nat → Bytes → NameEnc
  | 0, table, _, _ => ⟨[], false, table⟩
  | fuel + 1, table, wptr, name =>
    if name = [] then ⟨[0], true, table⟩
    else
      match table.find? fun s => s.offset < start && strcaseEq s.name name with
      | some s => ⟨compPtr s.offset, true, table⟩
      | none =>
        let table :=
          if table.length < DNS_MAX_SUFFIX then table ++ [⟨name, wptr % 2 ^ 16⟩] else table
        let len := name.idxOf dot % 256
        if len > DNS_LABEL_MAXSTR then ⟨[], false, table⟩
        else
          let r := encodeNameLoop start fuel table (wptr + 1 + len) (name.drop (name.idxOf dot + 1))
          ⟨UInt8.ofNat len :: name.take len ++ r.wire, r.ok, r.table⟩

/-- `encode_name` of a string, or of a null pointer. -/
def encodeName (table : List Suffix) (wptr : Nat) (name : Option Bytes) : NameEnc :=
  encodeNameLoop wptr ((name.getD []).length + 1) table wptr (name.getD [])

/-! ## Labels -/

/-- The labels of a name: what is in front of its dots, and what is behind the last one
unless that is empty. -/
def labelsOf (name : Bytes) : List Bytes :=
  (pieces dot name).1 ++ (if (pieces dot name).2 = [] then [] else [(pieces dot name).2])

/-- Labels joined by dots. -/
def dotted : List Bytes → Bytes
  | [] => []
  | [l] => l
  | l :: ls => l ++ dot :: dotted ls

/-- A name made of non-empty labels that fit the wire format, with or without a dot at the
end. -/
structure IsName (name : Bytes) : Prop where
  noNul : 0 ∉ name
  labels : ∀ l ∈ labelsOf name, l ≠ [] ∧ l.length ≤ DNS_LABEL_MAXSTR

/-- A name in lower case and without a dot at its end. -/
def canonical (name : Bytes) : Bytes := (dotted (labelsOf name)).map lower

/-- The dot between a label and the text behind it. -/
def Pkt.joint (pkt : Pkt) (pos : Nat) (text : Bytes) : Bytes :=
  if pkt.buf pos = 0 then text else dot :: text

/-- A name at position `pos` of a packet: its text, the jumps behind it, and the position
after it. -/
inductive Wire (pkt : Pkt) : Nat → Bytes → Nat → Nat → Prop where
  | root {pos : Nat} (hpos : pos < pkt.len) (hzero : pkt.buf pos = 0) : Wire pkt pos [] 0 (pos + 1)
  | label {pos jumps stop : Nat} {l text : Bytes} (hne : l ≠ [])
      (hshort : l.length ≤ DNS_LABEL_MAXSTR) (hfit : pos + 1 + l.length ≤ pkt.len)
      (hlen : pkt.buf pos = UInt8.ofNat l.length) (hread : readBytes pkt.buf (pos + 1) l.length = l)
      (hrest : Wire pkt (pos + 1 + l.length) text jumps stop) :
      Wire pkt pos (l ++ pkt.joint (pos + 1 + l.length) text) jumps stop
  | jump {pos target jumps stop : Nat} {text : Bytes}
      (hfit : pos + 1 < pkt.len) (hptr : 192 ≤ (pkt.buf pos).toNat)
      (htarget : target = (pkt.buf pos).toNat % 64 * 256 + (pkt.buf (pos + 1)).toNat)
      (hmin : 12 ≤ target) (hrest : Wire pkt target text jumps stop) :
      Wire pkt pos text (jumps + 1) (pos + 2)

end CDbK8s.Dns
