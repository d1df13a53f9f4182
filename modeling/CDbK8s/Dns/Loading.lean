import CDbK8s.Dns.Legible
import CDbK8s.Dns.Overrun

/-!
# Loading a record that was laid

The decoder, at a record of one of the seven types whose encoding describes them (`plainTypes`),
stores a record whose numbers are the same, and whose names are up to the case of letters and a dot
at the end (`SameRr`).
-/

namespace CDbK8s.Dns

open Base Lib.ByteMem Lib.Exits List

variable {strs : List (Option Bytes)}
variable {stop : Nat} {ov : Overlay}

/-! ## The same record -/

/-- `kept` is the stored reading of `name`. -/
def NameKept (name kept : Option Bytes) : Prop :=
  ∃ text, kept = some text ∧ text.map lower = readBack (cstring name)

/-- The member `soa` of a record that was given, and of the one read back. -/
structure SameSoa (v w : Soa) : Prop where
  mname : NameKept v.mname w.mname
  rname : NameKept v.rname w.rname
  serial : w.serial = v.serial
  refresh : w.refresh = v.refresh
  retry : w.retry = v.retry
  expire : w.expire = v.expire
  minTtl : w.minTtl = v.minTtl

/-- The RDATA `d` is that of the record `rr`. -/
def SameRdata (ov : Overlay) (rr : Rr) (d : Rdata) : Prop :=
  if rr.type = DNS_TYPE_A then ov.a d = ov.a rr.rdata
  else if rr.type = DNS_TYPE_NS then NameKept (ov.ns rr.rdata) (ov.ns d)
  else if rr.type = DNS_TYPE_CNAME then NameKept (ov.cname rr.rdata) (ov.cname d)
  else if rr.type = DNS_TYPE_SOA then SameSoa (ov.soa rr.rdata) (ov.soa d)
  else if rr.type = DNS_TYPE_PTR then NameKept (ov.ptr rr.rdata) (ov.ptr d)
  else if rr.type = DNS_TYPE_HINFO then
    (ov.hinfo d).cpuStr = some (cstring (ov.hinfo rr.rdata).cpuStr) ∧
      (ov.hinfo d).osStr = some (cstring (ov.hinfo rr.rdata).osStr)
  else if rr.type = DNS_TYPE_MX then
    (ov.mx d).pref = (ov.mx rr.rdata).pref ∧ NameKept (ov.mx rr.rdata).name (ov.mx d).name
  else if rr.type = DNS_TYPE_TXT then
    (ov.txt d).strs = (ov.txt rr.rdata).strs.map fun str => some (cstring str)
  else if rr.type = DNS_TYPE_AAAA then ov.aaaa d = ov.aaaa rr.rdata
  else if rr.type = DNS_TYPE_SRV then
    (ov.srv d).prior = (ov.srv rr.rdata).prior ∧ (ov.srv d).weight = (ov.srv rr.rdata).weight ∧
      (ov.srv d).port = (ov.srv rr.rdata).port ∧ NameKept (ov.srv rr.rdata).name (ov.srv d).name
  else if rr.type = DNS_TYPE_OPT then
    (ov.opt d).udpSize = (ov.opt rr.rdata).udpSize ∧
      (ov.opt d).extRcode = (ov.opt rr.rdata).extRcode ∧
      (ov.opt d).ednsVer = (ov.opt rr.rdata).ednsVer ∧ (ov.opt d).doBit = (ov.opt rr.rdata).doBit
  else True

/-- The record `out` is the record `rr`, read back. -/
structure SameRr (ov : Overlay) (rr out : Rr) : Prop where
  name : NameKept rr.name out.name
  type : out.type = rr.type
  cls : out.cls = rr.cls
  ttl : out.ttl = rr.ttl
  rdata : SameRdata ov rr out.rdata

/-- The types whose RDATA the encoder writes as the decoder reads it. -/
def plainTypes : List UInt16 :=
  [DNS_TYPE_A, DNS_TYPE_AAAA, DNS_TYPE_NS, DNS_TYPE_CNAME, DNS_TYPE_PTR, DNS_TYPE_SOA, DNS_TYPE_TXT]

/-- What the reading of a name takes of the store. -/
def nameRoom (name : Bytes) : Nat := (readBack name).length + 1

/-- What character strings take of the store. -/
def textRoom (strs : List (Option Bytes)) : Nat :=
  (strs.map fun str => (cstring str).length + 1).sum

/-- What the RDATA takes of the store. -/
def rdataRoom (ov : Overlay) (rr : Rr) : Nat :=
  ((pieceNames (rdataPieces ov rr)).map nameRoom).sum +
    if rr.type = DNS_TYPE_TXT then textRoom (ov.txt rr.rdata).strs else 0

/-- The room that a record takes in the store when it is read back. -/
def Rr.room (ov : Overlay) (rr : Rr) : Nat := nameRoom (cstring rr.name) + rdataRoom ov rr

/-! ## The parts of a record -/

variable {pkt : Pkt} {s : Entering} {p p' : Nat} {ps : List Piece}

theorem found_nil : Found pkt p [] p' ↔ p' = p := by
  constructor
  · intro h
    cases h
    rfl
  · rintro rfl
    exact .nil

theorem found_name {str : Bytes} :
    Found pkt p (.name str :: ps) p' ↔ ∃ text q, Legible pkt str text p q ∧ Found pkt q ps p' := by
  constructor
  · intro h
    cases h with
    | name h hrest => exact ⟨_, _, h, hrest⟩
  · rintro ⟨text, q, h, hrest⟩
    exact .name h hrest

theorem found_bytes {bs : Bytes} :
    Found pkt p (.bytes bs :: ps) p' ↔ Holds pkt.buf p bs ∧ Found pkt (p + bs.length) ps p' := by
  constructor
  · intro h
    cases h with
    | bytes hheld hrest => exact ⟨hheld, hrest⟩
  · rintro ⟨hheld, hrest⟩
    exact .bytes hheld hrest

theorem storable_of_room {name text names : Bytes} {pos n : Nat}
    (h : Legible pkt name text pos stop)
    (hroom : names.length + nameRoom name + n ≤ DNS_MAX_PDUSIZE) : Storable names text := by
  have hlen := h.length
  refine ⟨h.short, ?_⟩
  unfold nameRoom at hroom
  omega

theorem keepName_legible {name text : Bytes} {pos stop n : Nat} {set : Option Bytes → Rr → Rr}
    (h : Legible pkt name text pos stop)
    (hroom : s.names.length + nameRoom name + n ≤ DNS_MAX_PDUSIZE) :
    keepName .load text set s =
      .ok () { s with names := s.names ++ text ++ [0], rr := set (some text) s.rr } := by
  have hstore := storable_of_room h hroom
  have hkeep := @keepName_ok .load s _ set fun _ => by rw [h.clean]; exact hstore
  rw [hkeep, Entering.kept, h.clean]

theorem length_keep {name text names : Bytes} {pos stop : Nat}
    (h : Legible pkt name text pos stop) :
    (names ++ text ++ [0]).length = names.length + nameRoom name := by
  have hlen := h.length
  simp [nameRoom]
  omega

/-- The code `x` of the RDATA from `s`: it ends with the offset at `stop` and `n` more bytes in the
store, and of the slot it changes the RDATA only, to one with `P`. -/
def Loads (x : EntryM Nat) (s : Entering) (stop n : Nat) (P : Rdata → Prop) : Prop :=
  ∃ rc s', x s = .ok rc s' ∧ s'.offset = stop ∧ s'.names.length = s.names.length + n ∧
    s'.rr = { s.rr with rdata := s'.rr.rdata } ∧ P s'.rr.rdata ∧ s'.udpSize = s.udpSize

theorem nameRdata_loads {name : Option Bytes} (field : Location) (member : Option Bytes → Rdata)
    (read : Rdata → Option Bytes) (hread : ∀ str, read (member str) = str)
    (hfound : Found pkt s.offset [.name (cstring name)] stop) (hwptr : s.wptr + 256 ≤ DNS_MSG_SIZE)
    (hroom : s.names.length + nameRoom (cstring name) ≤ DNS_MAX_PDUSIZE) :
    Loads (decodeOneName pkt .load field member) s stop (nameRoom (cstring name))
      fun d => NameKept name (read d) := by
  obtain ⟨text, q, hlegible, hend⟩ := found_name.1 hfound
  obtain rfl := found_nil.1 hend
  refine ⟨_, _, (bind_ok (nameField_legible _ hlegible hwptr)).trans
    (bind_ok (keepName_legible (n := 0) hlegible hroom)), rfl, length_keep hlegible, rfl, ?_, rfl⟩
  exact ⟨text, hread _, hlegible.same⟩

theorem decodeA_loads {v : Octets 4} (rc : Nat) (hfound : Found pkt s.offset [.bytes v.1] stop) :
    Loads (do decodeA pkt .load (stop - s.offset); pure rc) s stop 0 fun d => ov.a d = v := by
  obtain ⟨hheld, hend⟩ := found_bytes.1 hfound
  have hstop : stop = s.offset + 4 := (found_nil.1 hend).trans (by rw [v.2])
  have hlen : stop - s.offset = 4 := by omega
  rw [hlen]
  refine ⟨rc, _, rfl, hstop.symm, rfl, rfl, ?_, rfl⟩
  exact (ov.a_a _).trans (octetsAt_of_holds hheld)

theorem decodeAaaa_loads {v : Octets 16} (rc : Nat) (hfound : Found pkt s.offset [.bytes v.1] stop) :
    Loads (do decodeAaaa pkt .load (stop - s.offset); pure rc) s stop 0 fun d => ov.aaaa d = v := by
  obtain ⟨hheld, hend⟩ := found_bytes.1 hfound
  have hstop : stop = s.offset + 16 := (found_nil.1 hend).trans (by rw [v.2])
  have hlen : stop - s.offset = 16 := by omega
  rw [hlen]
  refine ⟨rc, _, rfl, hstop.symm, rfl, rfl, ?_, rfl⟩
  exact (ov.aaaa_aaaa _).trans (octetsAt_of_holds hheld)

theorem decodeSoaVals_found (ov : Overlay) {v : Soa} (hheld : Holds pkt.buf s.offset (soaBytes v))
    (hstop : stop = s.offset + 20) :
    ∃ past, decodeSoaVals pkt .load ov stop s =
      .ok () { s with
        offset := stop, past := past,
        rr := { s.rr with
          rdata := .soa
            { ov.soa s.rr.rdata with
              serial := v.serial, refresh := v.refresh, retry := v.retry, expire := v.expire,
              minTtl := v.minTtl } } } := by
  obtain ⟨hheld, hmin⟩ := holds_append.1 hheld
  obtain ⟨hheld, hexpire⟩ := holds_append.1 hheld
  obtain ⟨hheld, hretry⟩ := holds_append.1 hheld
  obtain ⟨hserial, hrefresh⟩ := holds_append.1 hheld
  subst hstop
  refine ⟨s.past || pkt.beyond s.offset 20,
    (bind_ok rfl).trans ((bind_ok (stopIf_pass (by omega) _ s)).trans ?_)⟩
  rw [← decU32_of_holds hserial, ← decU32_of_holds hrefresh, ← decU32_of_holds hretry,
    ← decU32_of_holds hexpire, ← decU32_of_holds hmin]
  rfl

theorem decodeSoa_loads {v : Soa} (hfound : Found pkt s.offset
      [.name (cstring v.mname), .name (cstring v.rname), .bytes (soaBytes v)] stop)
    (hwptr : s.wptr ≤ 254)
    (hroom : s.names.length + (nameRoom (cstring v.mname) + nameRoom (cstring v.rname)) ≤
      DNS_MAX_PDUSIZE) :
    Loads (decodeSoa pkt .load ov stop) s stop
      (nameRoom (cstring v.mname) + nameRoom (cstring v.rname)) fun d => SameSoa v (ov.soa d) := by
  have hmsg : DNS_MSG_SIZE = 1124 := rfl
  have hmax : DNS_NAME_MAXSTR = 253 := rfl
  obtain ⟨mname, q1, hm, hrest⟩ := found_name.1 hfound
  obtain ⟨rname, q2, hr, hrest⟩ := found_name.1 hrest
  obtain ⟨hheld, hend⟩ := found_bytes.1 hrest
  have hstop : stop = q2 + 20 := (found_nil.1 hend).trans rfl
  have hshort := hm.short
  unfold ShortStr at hshort
  -- the state behind the first name, and behind the second
  let s1 : Entering :=
    { s with
      offset := q1, names := s.names ++ mname ++ [0], wptr := s.wptr + mname.length,
      rr := { s.rr with rdata := .soa { ov.soa s.rr.rdata with mname := some mname } } }
  have hlen1 : s1.names.length = s.names.length + nameRoom (cstring v.mname) := length_keep hm
  have hfield := nameField_legible (s := s1) .soa hr (show s.wptr + mname.length + 256 ≤ _ by omega)
  have hstore : Storable s1.names (cstr rname) := by
    rw [hr.clean]
    exact storable_of_room (n := 0) hr (by omega)
  have hkept : storeName rname { s1 with offset := q2 } =
      .ok (some rname) { s1 with offset := q2, names := s1.names ++ rname ++ [0] } := by
    have hok := storeStr_ok (s := { s1 with offset := q2 }) hstore
    rw [hr.clean] at hok
    rw [storeName, hr.clean]
    exact hok
  let rr2 : Rr :=
    { s.rr with
      rdata := .soa
        { ov.soa (.soa { ov.soa s.rr.rdata with mname := some mname }) with rname := some rname } }
  have hmname : (ov.soa rr2.rdata).mname = some mname := by
    simp [rr2]
  let s2 : Entering :=
    { s1 with
      offset := q2, names := s1.names ++ rname ++ [0], wptr := s1.wptr + rname.length, rr := rr2 }
  obtain ⟨past, hvals⟩ := decodeSoaVals_found (s := s2) ov hheld hstop
  have hload : whenLoad .load (do
      let str ← storeName rname
      setRr fun rr => { rr with rdata := .soa { ov.soa rr.rdata with rname := str } }
      require (ov.soa (← get).rr.rdata).mname) { s1 with offset := q2 } =
      .ok () { s1 with offset := q2, names := s1.names ++ rname ++ [0], rr := rr2 } := by
    refine (bind_ok hkept).trans ?_
    refine (bind_ok rfl).trans ((bind_ok rfl).trans ?_)
    exact stopIf_pass (by rw [hmname]; nofun) _ _
  have hfirst : s.names.length + nameRoom (cstring v.mname) + nameRoom (cstring v.rname) ≤
      DNS_MAX_PDUSIZE := by omega
  have hrun : decodeSoa pkt .load ov stop s =
      .ok rname.length { s2 with
        offset := stop, past := past,
        rr := { s2.rr with
          rdata := .soa
            { ov.soa s2.rr.rdata with
              serial := v.serial, refresh := v.refresh, retry := v.retry, expire := v.expire,
              minTtl := v.minTtl } } } :=
    (bind_ok rfl).trans <| (bind_ok (nameField_legible _ hm (by omega))).trans <|
      (bind_ok (keepName_legible (s := { s with offset := q1 }) hm hfirst)).trans <|
      (bind_ok rfl).trans <|
      (bind_ok rfl).trans <| (bind_ok hfield).trans <|
      (bind_ok hload).trans <| (bind_ok rfl).trans (bind_ok hvals)
  refine ⟨_, _, hrun, rfl, ?_, rfl, ?_, rfl⟩
  · rw [length_keep hr, hlen1, add_assoc]
  · simp only [ov.soa_soa, s2, rr2]
    exact ⟨⟨mname, rfl, hm.same⟩, ⟨rname, rfl, hr.same⟩, rfl, rfl, rfl, rfl, rfl⟩

theorem length_strBytes (str : Option Bytes) : (strBytes str).length = (cstring str).length + 1 := rfl

theorem charString_held (field : Location) (n : Nat) (keep : Bytes → EntryM Unit)
    {str : Option Bytes} {rdEnd : Nat} (hheld : Holds pkt.buf s.offset (strBytes str))
    (hshort : ShortStr (cstring str)) (hend : s.offset + (strBytes str).length ≤ rdEnd) :
    ∃ past, charString pkt .load field rdEnd n keep s =
      (keep (cstring str) >>= fun _ => skip (cstring str).length)
        { s with offset := s.offset + 1, past := past } := by
  have hmax : DNS_NAME_MAXSTR = 253 := rfl
  unfold ShortStr at hshort
  rw [length_strBytes] at hend
  obtain ⟨hfirst, hrest⟩ := holds_cons.1 hheld
  have hlen : (pkt.buf s.offset).toNat = (cstring str).length := by
    rw [hfirst, UInt8.toNat_ofNat_of_lt' (show (cstring str).length < 256 by omega)]
  have hread : readBytes pkt.buf (s.offset + 1) (pkt.buf s.offset).toNat = cstring str := by
    rw [hlen]
    exact hrest
  refine ⟨s.past || pkt.beyond s.offset 1 || pkt.beyond (s.offset + 1) (cstring str).length, ?_⟩
  refine (bind_ok rfl).trans ((bind_ok rfl).trans
    ((bind_ok rfl).trans ((bind_ok (stopIf_pass (by omega) _ _)).trans ?_)))
  rw [hread, hlen]
  rfl

theorem charString_inv {field : Location} {rdEnd n : Nat} {keep : Bytes → EntryM Unit}
    {s' : Entering} (h : charString pkt .load field rdEnd n keep s = .ok () s') :
    ∃ past t, keep (readBytes pkt.buf (s.offset + 1) (pkt.buf s.offset).toNat)
        { s with offset := s.offset + 1, past := past } = .ok () t ∧
      s' = { t with offset := t.offset + (pkt.buf s.offset).toNat } := by
  obtain ⟨_, _, hget, h⟩ := of_bind_ok h
  cases hget
  obtain ⟨_, s1, htouch, h⟩ := of_bind_ok h
  cases htouch
  obtain ⟨_, s2, hskip, h⟩ := of_bind_ok h
  cases hskip
  obtain ⟨_, s3, hcheck, h⟩ := of_bind_ok h
  obtain ⟨-, rfl⟩ := not_of_stopIf hcheck
  obtain ⟨_, s4, htouch, h⟩ := of_bind_ok h
  cases htouch
  obtain ⟨_, s5, hdesc, h⟩ := of_bind_ok h
  cases hdesc
  obtain ⟨_, s6, hkeep, h⟩ := of_bind_ok h
  cases h
  exact ⟨_, s6, hkeep, rfl⟩

theorem keepTxt_ok {bs : Bytes} (hstore : Storable s.names bs)
    (hfree : (ov.txt s.rr.rdata).strs.length < DNS_MAX_TXT) :
    keepTxt ov bs s = .ok () { s with
      names := s.names ++ bs ++ [0],
      rr := { s.rr with rdata := .txt ⟨(ov.txt s.rr.rdata).strs ++ [some bs]⟩ } } := by
  refine (bind_ok rfl).trans ((bind_ok (stopIf_pass (not_le.2 hfree) _ s)).trans
    ((bind_ok (storeStr_ok hstore)).trans ?_))
  exact (bind_ok (stopIf_pass (nofun) _ _)).trans rfl

/-- The loop over the strings of `DNS_TYPE_TXT`, by induction on the strings: it puts them behind
those that the slot has. -/
theorem decodeTxtLoop_found (ov : Overlay) :
    ∀ (strs : List (Option Bytes)) (fuel : Nat) (s : Entering),
      Found pkt s.offset (strs.map fun str => .bytes (strBytes str)) stop → strs.length ≤ fuel →
      (∀ str ∈ strs, ShortStr (cstring str)) →
      (ov.txt s.rr.rdata).strs.length + strs.length ≤ DNS_MAX_TXT →
      s.names.length + textRoom strs ≤ DNS_MAX_PDUSIZE →
      ∃ s', decodeTxtLoop pkt .load ov stop fuel s = .ok () s' ∧ s'.offset = stop ∧
        s'.names.length = s.names.length + textRoom strs ∧
        s'.rr = { s.rr with rdata := s'.rr.rdata } ∧
        (ov.txt s'.rr.rdata).strs =
          (ov.txt s.rr.rdata).strs ++ strs.map (fun str => some (cstring str)) ∧
        s'.udpSize = s.udpSize := by
  intro strs
  induction strs with
  | nil =>
    intro fuel s hfound _ _ _ _
    have hend := found_nil.1 hfound
    have hdone : decodeTxtLoop pkt .load ov stop fuel s = .ok () s := by
      cases fuel with
      | zero => rfl
      | succ fuel =>
        refine (bind_ok rfl).trans ?_
        rw [if_neg (by omega)]
        rfl
    exact ⟨s, hdone, hend.symm, rfl, rfl, (append_nil _).symm, rfl⟩
  | cons str strs ih =>
    intro fuel s hfound hfuel hshort hfree hroom
    obtain ⟨hheld, hrest⟩ := found_bytes.1 hfound
    have hle := hrest.le
    have hstr := hshort str mem_cons_self
    have hlen := length_strBytes str
    simp only [textRoom, map_cons, sum_cons, length_cons] at hroom hfuel hfree
    obtain ⟨past, hchar⟩ := charString_held _ 5 _ hheld hstr hle
    cases fuel with
    | zero => omega
    | succ fuel =>
      let s1 : Entering :=
        { s with
          offset := s.offset + 1 + (cstring str).length, past := past,
          names := s.names ++ cstring str ++ [0],
          rr := { s.rr with
            rdata := .txt ⟨(ov.txt s.rr.rdata).strs ++ [some (cstring str)]⟩ } }
      have hstore : Storable s.names (cstring str) := ⟨hstr, by omega⟩
      have hplace : (ov.txt s.rr.rdata).strs.length < DNS_MAX_TXT := by omega
      have hkeep := keepTxt_ok (s := { s with offset := s.offset + 1, past := past }) hstore hplace
      have hone : charString pkt .load .txt stop 5 (keepTxt ov) s = .ok () s1 :=
        hchar.trans (bind_ok hkeep)
      have hoffset : s.offset + (strBytes str).length = s1.offset := by
        show _ = s.offset + 1 + (cstring str).length
        omega
      have hnames : s1.names.length = s.names.length + ((cstring str).length + 1) := by
        simp only [s1, length_append, length_singleton]
        omega
      have htxt : (ov.txt s1.rr.rdata).strs = (ov.txt s.rr.rdata).strs ++ [some (cstring str)] := by
        simp [s1]
      rw [hoffset] at hrest
      obtain ⟨s', hloop, hstop, hlen', hrr, hstrs, hudp⟩ := ih fuel s1 hrest (by omega)
        (fun str' hmem => hshort str' (.tail _ hmem))
        (by rw [htxt, length_append, length_singleton]; omega)
        (by rw [hnames]; unfold textRoom; omega)
      refine ⟨s', ?_, hstop, ?_, hrr, ?_, hudp⟩
      · refine (bind_ok rfl).trans ?_
        rw [if_pos (by omega)]
        exact (bind_ok hone).trans hloop
      · rw [hlen']
        simp [textRoom]
        omega
      · rw [hstrs, htxt, append_assoc]
        rfl

theorem txt_length_le (h : Found pkt p (strs.map fun str => .bytes (strBytes str)) stop) :
    p + strs.length ≤ stop := by
  induction strs generalizing p with
  | nil => exact (found_nil.1 h).ge
  | cons _ strs ih =>
    have hrest := ih (found_bytes.1 h).2
    rw [length_strBytes] at hrest
    rw [length_cons]
    omega

theorem decodeTxt_loads (rc : Nat)
    (hfound : Found pkt s.offset (strs.map fun str => .bytes (strBytes str)) stop)
    (hshort : ∀ str ∈ strs, ShortStr (cstring str)) (hlen : strs.length ≤ DNS_MAX_TXT)
    (hfresh : (ov.txt s.rr.rdata).strs = [])
    (hroom : s.names.length + textRoom strs ≤ DNS_MAX_PDUSIZE) :
    Loads (do decodeTxtLoop pkt .load ov stop stop; pure rc) s stop (textRoom strs)
      fun d => (ov.txt d).strs = strs.map fun str => some (cstring str) := by
  have hle := txt_length_le hfound
  obtain ⟨s', hloop, hstop, hnames, hrr, hstrs, hudp⟩ := decodeTxtLoop_found ov _ stop s
    hfound (by omega) hshort (by rw [hfresh]; simpa using hlen) hroom
  rw [hfresh] at hstrs
  exact ⟨rc, s', bind_ok hloop, hstop, hnames, hrr, hstrs, hudp⟩

theorem decodeRdata_loads {rr : Rr} (sc : Sc) (name : Bytes) (cls : UInt16) (ttl : UInt32)
    (rc : Nat) (htype : rr.type ∈ plainTypes) (hfound : Found pkt s.offset (rdataPieces ov rr) stop)
    (hshort : ∀ str ∈ rdataStrings ov rr, ShortStr (cstring str))
    (hlen : (rdataStrings ov rr).length ≤ DNS_MAX_TXT) (hwptr : s.wptr ≤ 254)
    (hfresh : (ov.txt s.rr.rdata).strs = [])
    (hroom : s.names.length + rdataRoom ov rr ≤ DNS_MAX_PDUSIZE) :
    Loads (decodeRdata pkt .load sc ov rr.type name cls ttl (stop - s.offset) stop rc) s stop
      (rdataRoom ov rr) (SameRdata ov rr) := by
  have hmsg : DNS_MSG_SIZE = 1124 := rfl
  have hscratch : s.wptr + 256 ≤ DNS_MSG_SIZE := by omega
  obtain ⟨owner, type, cls', ttl', rdlen', rdata⟩ := rr
  simp only [plainTypes, mem_cons, not_mem_nil, or_false] at htype
  rcases htype with rfl | rfl | rfl | rfl | rfl | rfl | rfl
  · exact decodeA_loads rc hfound
  · exact decodeAaaa_loads rc hfound
  · exact nameRdata_loads _ .ns _ ov.ns_ns hfound hscratch hroom
  · exact nameRdata_loads _ _ _ ov.cname_cname hfound hscratch hroom
  · exact nameRdata_loads _ _ _ ov.ptr_ptr hfound hscratch hroom
  · exact decodeSoa_loads hfound hwptr hroom
  · have hrdata : rdataRoom ov ⟨owner, DNS_TYPE_TXT, cls', ttl', rdlen', rdata⟩ =
        textRoom (ov.txt rdata).strs := by
      have hnames : pieceNames (rdataPieces ov ⟨owner, DNS_TYPE_TXT, cls', ttl', rdlen', rdata⟩) =
          [] := by
        show pieceNames ((ov.txt rdata).strs.map fun str => .bytes (strBytes str)) = []
        induction (ov.txt rdata).strs with
        | nil => rfl
        | cons str strs ih => exact ih
      rw [rdataRoom, hnames]
      exact zero_add _
    rw [hrdata] at hroom ⊢
    exact decodeTxt_loads rc hfound hshort hlen hfresh hroom

theorem Legible.named {name text : Bytes} {n : Nat} (h : Legible pkt name text s.offset stop)
    (hroom : s.names.length + nameRoom name + n ≤ DNS_MAX_PDUSIZE) :
    Named pkt .load s text ∧ nameEnd pkt s.offset = stop := by
  have hmsg : DNS_MSG_SIZE = 1124 := rfl
  have hstore : Storable s.names (cstr text) := by
    rw [h.clean]
    exact storable_of_room h hroom
  have hshort := h.short
  obtain ⟨⟨bare, jumps, hwire, hjumps, rfl, -⟩, -⟩ := h
  have hlen : bare.length < DNS_MSG_SIZE := by
    have hmax : DNS_NAME_MAXSTR = 253 := rfl
    unfold ShortStr rooted at hshort
    split at hshort
    · rename_i hnil
      rw [hnil]
      decide
    · omega
  have hname := decodeName_wire hwire hlen
  refine ⟨⟨?_, fun _ => hstore⟩, ?_⟩
  · rw [ownerText, hname, if_pos (show jumps ≤ 17 from hjumps)]
    rfl
  · rw [nameEnd, hname]

theorem rrFieldsAt_found {rr : Rr} {rdlen : UInt16} {q : Nat} (htype : rr.type ≠ DNS_TYPE_OPT)
    (h : Holds pkt.buf q (fieldHead ov rr ++ encU16 rdlen)) :
    rrFieldsAt pkt q = ⟨rr.type, rr.cls, rr.ttl, rdlen⟩ := by
  rw [fieldHead, if_neg htype] at h
  obtain ⟨h, hrdlen⟩ := holds_append.1 h
  obtain ⟨h, httl⟩ := holds_append.1 h
  obtain ⟨htype, hcls⟩ := holds_append.1 h
  simp only [length_append, length_encU16, length_encU32] at hrdlen httl hcls
  rw [rrFieldsAt, decU16_of_holds htype, decU16_of_holds hcls, decU32_of_holds httl,
    decU16_of_holds hrdlen]

/-- The decoder at a record of a plain type, with a slot that has no strings and room in the store:
it stores the record, and stops behind it. -/
theorem rrBody_found {rr : Rr} {q : Nat} (sc : Sc) (htype : rr.type ∈ plainTypes)
    (hfound : RrFound pkt ov rr s.offset q stop)
    (hshort : ∀ str ∈ rdataStrings ov rr, ShortStr (cstring str))
    (hlen : (rdataStrings ov rr).length ≤ DNS_MAX_TXT) (hwptr : s.wptr = 0)
    (hfresh : (ov.txt s.rr.rdata).strs = []) (hroom : s.names.length + rr.room ov ≤ DNS_MAX_PDUSIZE)
    (hfit : stop ≤ pkt.len) (hpkt : pkt.len < 2 ^ 16) :
    ∃ rc s', rrBody pkt .load sc ov s = .ok rc s' ∧ s'.offset = stop ∧
      s'.names.length = s.names.length + rr.room ov ∧ SameRr ov rr s'.rr ∧
      s'.rr.rdlen.toNat = stop - (q + 10) ∧ s'.udpSize = s.udpSize := by
  have hmax : DNS_NAME_MAXSTR = 253 := rfl
  have hopt : rr.type ≠ DNS_TYPE_OPT := by
    intro heq
    rw [heq] at htype
    exact absurd htype (by decide)
  obtain ⟨⟨text, howner⟩, hhead, hrdata⟩ := hfound
  have hle := hrdata.le
  have htext := howner.short
  unfold ShortStr at htext
  unfold Rr.room at hroom ⊢
  have hstore : s.names.length + nameRoom (cstring rr.name) + rdataRoom ov rr ≤ DNS_MAX_PDUSIZE := by
    omega
  obtain ⟨hnamed, hend⟩ := howner.named hstore
  have hfields := rrFieldsAt_found hopt hhead
  have hrdlen : (UInt16.ofNat (stop - (q + 10))).toNat = stop - (q + 10) :=
    UInt16.toNat_ofNat_of_lt' (show stop - (q + 10) < 2 ^ 16 by omega)
  have hbody := @rrBody_of_named pkt _ s sc ov _ hwptr hnamed (by omega)
  rw [hend, hfields] at hbody
  -- the state at the RDATA
  have hoffset : (s.atRdata pkt .load text).offset = q + 10 := by rw [atRdata_offset, hend]
  have hnames : (s.atRdata pkt .load text).names.length =
      s.names.length + nameRoom (cstring rr.name) := by
    rw [atRdata_names, howner.clean]
    exact length_keep howner
  have hrr : (s.atRdata pkt .load text).rr =
      ⟨some text, rr.type, rr.cls, rr.ttl, UInt16.ofNat (stop - (q + 10)), s.rr.rdata⟩ := by
    show { s.rr with
      name := some (cstr text), type := (rrFieldsAt pkt (nameEnd pkt s.offset)).type,
      cls := (rrFieldsAt pkt (nameEnd pkt s.offset)).cls,
      ttl := (rrFieldsAt pkt (nameEnd pkt s.offset)).ttl,
      rdlen := (rrFieldsAt pkt (nameEnd pkt s.offset)).rdlen } = _
    rw [hend, hfields, howner.clean]
  have hudp : (s.atRdata pkt .load text).udpSize = s.udpSize := rfl
  have hwptr1 : (s.atRdata pkt .load text).wptr = text.length + 1 := atRdata_wptr _
  generalize s.atRdata pkt .load text = s1 at hbody hoffset hnames hrr hudp hwptr1
  have hmod : (s1.offset + (UInt16.ofNat (stop - (q + 10))).toNat) % 2 ^ 16 = stop := by
    omega
  rw [← hoffset] at hrdata
  obtain ⟨rc, s', hrun, hstop, hnames', hrr', hsame, hudp'⟩ := decodeRdata_loads sc _ _
    rr.ttl text.length htype hrdata hshort hlen (by omega) (by rw [hrr]; exact hfresh) (by omega)
  have htail := @rrRdata_eq pkt .load sc ov _ ⟨text, text.length⟩
    ⟨rr.type, rr.cls, rr.ttl, UInt16.ofNat _⟩ (by rw [hmod]; exact hfit)
  rw [hmod, hrdlen] at htail
  rw [hoffset] at hrun
  rw [htail] at hbody
  refine ⟨rc, s', hbody.trans ((bind_ok hrun).trans ?_), hstop, ?_, ?_, ?_, hudp'.trans hudp⟩
  · exact (bind_ok rfl).trans (bind_ok (stopIf_pass (not_not.2 hstop) _ s'))
  · rw [hnames', hnames, add_assoc]
  · rw [hrr', hrr]
    exact ⟨⟨text, rfl, howner.same⟩, rfl, rfl, rfl, hsame⟩
  · rw [hrr', hrr]
    exact hrdlen

end CDbK8s.Dns
