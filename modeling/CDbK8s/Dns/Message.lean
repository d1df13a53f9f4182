import CDbK8s.Dns.Name

/-!
# DNS messages

`struct dns_msg` of `dns_proto.h`: header, store of names, and the tables of questions and
records. A record of a table keeps what was written to it last, also after its message was
reset, so a table has all its slots and the number in use apart.

A string that was put in the store is kept as its bytes: the store only grows until the next
reset, so a pointer into it sees the same bytes all the time. `Option` is a pointer that may
be null.

The RDATA of a record is a union. `Rdata` says which member was written last; what a member
reads is given by an `Overlay`. When another member was written last nothing is known of it,
but that a zeroed union has no strings of text.
-/

namespace CDbK8s.Dns

open Base Lib.ByteMem List Function

/-! ## Limits and codes -/

def DNS_HDR_LEN : Nat := 12

def DNS_NAME_MAXLEN : Nat := 255

/-- `DNS_MAX_PDUSIZE`, the size of the store of names. -/
def DNS_MAX_PDUSIZE : Nat := 2048

def DNS_MAX_QD : Nat := 1

def DNS_MAX_RR : Nat := 32

def DNS_MAX_TXT : Nat := 32

def DNS_TYPE_A : UInt16 := 1

def DNS_TYPE_NS : UInt16 := 2

def DNS_TYPE_CNAME : UInt16 := 5

def DNS_TYPE_SOA : UInt16 := 6

def DNS_TYPE_PTR : UInt16 := 12

def DNS_TYPE_HINFO : UInt16 := 13

def DNS_TYPE_MX : UInt16 := 15

def DNS_TYPE_TXT : UInt16 := 16

def DNS_TYPE_AAAA : UInt16 := 28

def DNS_TYPE_SRV : UInt16 := 33

def DNS_TYPE_OPT : UInt16 := 41

/-! ## Records -/

/-- `struct dns_hdr`. -/
structure Hdr where
  id : UInt16
  flags : UInt16
  qdCount : UInt16
  anCount : UInt16
  nsCount : UInt16
  arCount : UInt16
deriving DecidableEq

/-- `dns_hdr_reset`. -/
def Hdr.reset : Hdr := ⟨0, 0, 0, 0, 0, 0⟩

/-- `struct dns_qd`. -/
structure Qd where
  qname : Option Bytes
  qtype : UInt16
  qclass : UInt16
deriving DecidableEq

abbrev Octets (n : Nat) := { bs : Bytes // bs.length = n }

/-- The `n` bytes at `idx`. -/
def octetsAt (m : Mem) (idx n : Nat) : Octets n := ⟨readBytes m idx n, length_readBytes m idx n⟩

/-- The member `soa` of the union. -/
structure Soa where
  mname : Option Bytes
  rname : Option Bytes
  serial : UInt32
  refresh : UInt32
  retry : UInt32
  expire : UInt32
  minTtl : UInt32
deriving DecidableEq

/-- The member `hinfo`. -/
structure Hinfo where
  cpuStr : Option Bytes
  osStr : Option Bytes
deriving DecidableEq

/-- The member `mx`. -/
structure Mx where
  pref : UInt16
  name : Option Bytes
deriving DecidableEq

/-- The member `txt`: the strings in use, so that `num_str` is their number. As with all names of a
record, the code has a pointer into `names`; the string is what was stored there. It is what the
pointer leads to until `dns_msg_reset` rewinds the store. -/
structure Txt where
  strs : List (Option Bytes)
deriving DecidableEq

/-- The member `srv`. -/
structure Srv where
  prior : UInt16
  weight : UInt16
  port : UInt16
  name : Option Bytes
deriving DecidableEq

/-- The member `opt`. -/
structure Opt where
  udpSize : UInt16
  extRcode : UInt8
  ednsVer : UInt8
  doBit : Bool
  zBits : UInt16
deriving DecidableEq

/-- The union `rdata`, by the member that was written last. `zero` is a union that was set
to zero bytes. -/
inductive Rdata where
  | zero
  | a (addr : Octets 4)
  | ns (name : Option Bytes)
  | cname (name : Option Bytes)
  | soa (v : Soa)
  | ptr (name : Option Bytes)
  | hinfo (v : Hinfo)
  | mx (v : Mx)
  | txt (v : Txt)
  | aaaa (addr : Octets 16)
  | srv (v : Srv)
  | opt (v : Opt)
deriving DecidableEq

/-- What each member reads from a union: the value that was written to it last, if nothing
was written to another member since. -/
structure Overlay where
  a : Rdata → Octets 4
  ns : Rdata → Option Bytes
  cname : Rdata → Option Bytes
  soa : Rdata → Soa
  ptr : Rdata → Option Bytes
  hinfo : Rdata → Hinfo
  mx : Rdata → Mx
  txt : Rdata → Txt
  aaaa : Rdata → Octets 16
  srv : Rdata → Srv
  opt : Rdata → Opt
  a_a : ∀ v, a (.a v) = v
  ns_ns : ∀ v, ns (.ns v) = v
  cname_cname : ∀ v, cname (.cname v) = v
  soa_soa : ∀ v, soa (.soa v) = v
  ptr_ptr : ∀ v, ptr (.ptr v) = v
  hinfo_hinfo : ∀ v, hinfo (.hinfo v) = v
  mx_mx : ∀ v, mx (.mx v) = v
  txt_txt : ∀ v, txt (.txt v) = v
  aaaa_aaaa : ∀ v, aaaa (.aaaa v) = v
  srv_srv : ∀ v, srv (.srv v) = v
  opt_opt : ∀ v, opt (.opt v) = v
  txt_zero : txt .zero = ⟨[]⟩

attribute [simp] Overlay.a_a Overlay.ns_ns Overlay.cname_cname Overlay.soa_soa Overlay.ptr_ptr
  Overlay.hinfo_hinfo Overlay.mx_mx Overlay.txt_txt Overlay.aaaa_aaaa Overlay.srv_srv
  Overlay.opt_opt Overlay.txt_zero

/-- An overlay in which a member that was not written last reads zeros, for runs on fixed inputs in
which no such member is read. -/
def Overlay.plain : Overlay where
  a
    | .a v => v
    | _ => ⟨[0, 0, 0, 0], rfl⟩
  ns
    | .ns v => v
    | _ => none
  cname
    | .cname v => v
    | _ => none
  soa
    | .soa v => v
    | _ => ⟨none, none, 0, 0, 0, 0, 0⟩
  ptr
    | .ptr v => v
    | _ => none
  hinfo
    | .hinfo v => v
    | _ => ⟨none, none⟩
  mx
    | .mx v => v
    | _ => ⟨0, none⟩
  txt
    | .txt v => v
    | _ => ⟨[]⟩
  aaaa
    | .aaaa v => v
    | _ => ⟨replicate 16 0, rfl⟩
  srv
    | .srv v => v
    | _ => ⟨0, 0, 0, none⟩
  opt
    | .opt v => v
    | _ => ⟨0, 0, 0, false, 0⟩
  a_a _ := rfl
  ns_ns _ := rfl
  cname_cname _ := rfl
  soa_soa _ := rfl
  ptr_ptr _ := rfl
  hinfo_hinfo _ := rfl
  mx_mx _ := rfl
  txt_txt _ := rfl
  aaaa_aaaa _ := rfl
  srv_srv _ := rfl
  opt_opt _ := rfl
  txt_zero := rfl

/-- `struct dns_rr`. -/
structure Rr where
  name : Option Bytes
  type : UInt16
  cls : UInt16
  ttl : UInt32
  rdlen : UInt16
  rdata : Rdata
deriving DecidableEq

def Rr.zero : Rr := ⟨none, 0, 0, 0, 0, .zero⟩

/-! ## Messages -/

/-- The sections of records. -/
inductive Sc where
  | an
  | ns
  | ar
deriving DecidableEq

/-- A section: its slots and how many are used. -/
structure Sect where
  slots : Nat → Rr
  count : Nat

def Sect.recs (s : Sect) : List Rr := (range s.count).map s.slots

/-- `struct dns_msg`; `names` are the used bytes of the store. -/
structure Msg where
  hdr : Hdr
  names : Bytes
  qd : Nat → Qd
  qdLen : Nat
  an : Sect
  ns : Sect
  ar : Sect

/-- A message of zero bytes. -/
def Msg.zero : Msg :=
  ⟨Hdr.reset, [], fun _ => ⟨none, 0, 0⟩, 0, ⟨fun _ => Rr.zero, 0⟩, ⟨fun _ => Rr.zero, 0⟩,
    ⟨fun _ => Rr.zero, 0⟩⟩

theorem map_range_update {α : Type} (f : Nat → α) (n : Nat) (x : α) :
    (range n).map (update f n x) = (range n).map f := by
  refine map_congr_left fun i hi => ?_
  exact update_of_ne (ne_of_lt (mem_range.1 hi)) _ _

theorem map_range_succ_update {α : Type} (f : Nat → α) (n : Nat) (x : α) :
    (range (n + 1)).map (update f n x) = (range n).map f ++ [x] := by
  simp [range_succ, map_range_update]

def Msg.questions (m : Msg) : List Qd := (range m.qdLen).map m.qd

/-- The table of a section. -/
def Msg.sect (m : Msg) : Sc → Sect
  | .an => m.an
  | .ns => m.ns
  | .ar => m.ar

def Msg.setSect (m : Msg) (sc : Sc) (t : Sect) : Msg :=
  match sc with
  | .an => { m with an := t }
  | .ns => { m with ns := t }
  | .ar => { m with ar := t }

/-- `dns_msg_reset`: the tables keep their contents. -/
def dnsMsgReset (m : Msg) : Msg :=
  { m with
    hdr := Hdr.reset, names := [], qdLen := 0, an := { m.an with count := 0 },
    ns := { m.ns with count := 0 }, ar := { m.ar with count := 0 } }

/-- `dns_msg_init`: nothing but the id and the flags is set. -/
def dnsMsgInit (m : Msg) (id flags : UInt16) : Msg := { m with hdr := { m.hdr with id, flags } }

/-- `msg_store_str`: the string in the store, or null, and the store. -/
def msgStoreStr (names str : Bytes) : Option Bytes × Bytes :=
  if str.length > DNS_NAME_MAXSTR then (none, names)
  else if names.length + str.length + 1 > DNS_MAX_PDUSIZE then (none, names)
  else (some str, names ++ str ++ [0])

/-- `msg_store_name` of the bytes at a pointer; a null pointer is the empty string. -/
def msgStoreName (names name : Bytes) : Option Bytes × Bytes := msgStoreStr names (cstr name)

/-! ## Words in a packet -/

/-- A 16-bit field in network order. -/
def decU16 (m : Mem) (idx : Nat) : UInt16 := UInt16.ofNat (ofBe (readBytes m idx 2))

def decU32 (m : Mem) (idx : Nat) : UInt32 := UInt32.ofNat (ofBe (readBytes m idx 4))

/-- A 16-bit field as it is written. -/
def encU16 (v : UInt16) : Bytes := beBytes 2 v.toNat

def encU32 (v : UInt32) : Bytes := beBytes 4 v.toNat

end CDbK8s.Dns
