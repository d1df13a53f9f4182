import CDbK8s.Dns.Encode
import CDbK8s.Dns.NameCodec

/-!
# The layout of an encoded message

A packet as a list of pieces that stand one behind the other: names, which are compressed against
the table of suffixes, bytes, and gaps whose bytes are not described. The encoder lays the pieces of
a message: whatever it writes later stays behind what is laid (`Emits`), but for the length of the
RDATA, which it goes back to.
-/

namespace CDbK8s.Dns

open Base Lib.ByteMem Lib.Exits List

variable {bs : Bytes} {s1 : Enc} {len : Nat} {name : Option Bytes} {rr : Rr}
variable {w : Nat}

/-! ## Pieces -/

/-- A part of a packet: a name, bytes, or bytes that are not described. -/
inductive Piece where
  | name (str : Bytes)
  | bytes (bs : Bytes)
  | gap (n : Nat)

/-- The memory has the pieces from position `p` to position `p'`; the table of suffixes goes
from `t` to `t'`, and `calls` are the names with their positions. -/
inductive Lays (mem : Mem) : List Suffix → Nat → List Piece → List Suffix → Nat →
    List (Nat × Bytes) → Prop where
  | nil {t : List Suffix} {p : Nat} : Lays mem t p [] t p []
  | name {t t' : List Suffix} {p p' : Nat} {str : Bytes} {ps : List Piece}
      {calls : List (Nat × Bytes)} (hok : (encodeName t p (some str)).ok = true)
      (hheld : Holds mem p (encodeName t p (some str)).wire)
      (hrest : Lays mem (encodeName t p (some str)).table
        (p + (encodeName t p (some str)).wire.length) ps t' p' calls) :
      Lays mem t p (.name str :: ps) t' p' ((p, str) :: calls)
  | bytes {t t' : List Suffix} {p p' : Nat} {bs : Bytes} {ps : List Piece}
      {calls : List (Nat × Bytes)} (hheld : Holds mem p bs)
      (hrest : Lays mem t (p + bs.length) ps t' p' calls) :
      Lays mem t p (.bytes bs :: ps) t' p' calls
  | gap {t t' : List Suffix} {p p' n : Nat} {ps : List Piece} {calls : List (Nat × Bytes)}
      (hrest : Lays mem t (p + n) ps t' p' calls) : Lays mem t p (.gap n :: ps) t' p' calls

section
variable {mem mem' : Mem} {t t' t'' : List Suffix} {p p' p'' : Nat} {ps qs : List Piece}
  {calls calls' : List (Nat × Bytes)}

theorem Lays.le (h : Lays mem t p ps t' p' calls) : p ≤ p' := by
  induction h with
  | nil => exact le_rfl
  | name _ _ _ ih => omega
  | bytes _ _ ih => omega
  | gap _ ih => omega

theorem Lays.congr (h : Lays mem t p ps t' p' calls) (hagree : AgreeOn mem mem' p p') :
    Lays mem' t p ps t' p' calls := by
  induction h with
  | nil => exact .nil
  | name hok hheld hrest ih =>
    have hle := hrest.le
    exact .name hok (holds_congr hheld (hagree.mono le_rfl hle))
      (ih (hagree.mono (Nat.le_add_right _ _) le_rfl))
  | bytes hheld hrest ih =>
    have hle := hrest.le
    exact .bytes (holds_congr hheld (hagree.mono le_rfl hle))
      (ih (hagree.mono (Nat.le_add_right _ _) le_rfl))
  | gap hrest ih => exact .gap (ih (hagree.mono (Nat.le_add_right _ _) le_rfl))

theorem lays_nil : Lays mem t p [] t' p' calls ↔ t' = t ∧ p' = p ∧ calls = [] := by
  constructor
  · intro h
    cases h
    exact ⟨rfl, rfl, rfl⟩
  · rintro ⟨rfl, rfl, rfl⟩
    exact .nil

theorem lays_name {str : Bytes} : Lays mem t p (.name str :: ps) t' p' calls ↔
      (encodeName t p (some str)).ok = true ∧ Holds mem p (encodeName t p (some str)).wire ∧
        ∃ calls', calls = (p, str) :: calls' ∧ Lays mem (encodeName t p (some str)).table
          (p + (encodeName t p (some str)).wire.length) ps t' p' calls' := by
  constructor
  · intro h
    cases h with
    | name hok hheld hrest => exact ⟨hok, hheld, _, rfl, hrest⟩
  · rintro ⟨hok, hheld, calls', rfl, hrest⟩
    exact .name hok hheld hrest

theorem lays_bytes : Lays mem t p (.bytes bs :: ps) t' p' calls ↔
      Holds mem p bs ∧ Lays mem t (p + bs.length) ps t' p' calls := by
  constructor
  · intro h
    cases h with
    | bytes hheld hrest => exact ⟨hheld, hrest⟩
  · rintro ⟨hheld, hrest⟩
    exact .bytes hheld hrest

theorem lays_gap {n : Nat} :
    Lays mem t p (.gap n :: ps) t' p' calls ↔ Lays mem t (p + n) ps t' p' calls := by
  constructor
  · intro h
    cases h with
    | gap hrest => exact hrest
  · exact .gap

theorem Lays.append (h : Lays mem t p ps t' p' calls) (h' : Lays mem t' p' qs t'' p'' calls') :
    Lays mem t p (ps ++ qs) t'' p'' (calls ++ calls') := by
  induction h with
  | nil => exact h'
  | name hok hheld _ ih => exact .name hok hheld (ih h')
  | bytes hheld _ ih => exact .bytes hheld (ih h')
  | gap _ ih => exact .gap (ih h')

end

/-! ## What a step of the encoder lays -/

/-- From `s` to `s'` the encoder laid the pieces `ps`, behind what it had. -/
structure Emits (s s' : Enc) (ps : List Piece) : Prop where
  lays : ∃ calls, s'.calls = s.calls ++ calls ∧
    Lays s'.mem s.table s.pktLen ps s'.table s'.pktLen calls
  below : AgreeOn s.mem s'.mem 0 s.pktLen

section
variable {pktMax : Nat} {s s' s'' : Enc} {ps qs : List Piece}

theorem Emits.le (h : Emits s s' ps) : s.pktLen ≤ s'.pktLen := by
  obtain ⟨calls, -, hlays⟩ := h.lays
  exact hlays.le

theorem Emits.refl (s : Enc) : Emits s s [] :=
  ⟨⟨[], (append_nil _).symm, .nil⟩, AgreeOn.refl _ _ _⟩

theorem Emits.trans (h : Emits s s' ps) (h' : Emits s' s'' qs) : Emits s s'' (ps ++ qs) := by
  have hle := h.le
  obtain ⟨calls, hcalls, hlays⟩ := h.lays
  obtain ⟨calls', hcalls', hlays'⟩ := h'.lays
  refine ⟨⟨calls ++ calls', ?_, ?_⟩, h.below.trans (h'.below.mono le_rfl hle)⟩
  · simp [hcalls', hcalls]
  · exact (hlays.congr (h'.below.mono (Nat.zero_le _) le_rfl)).append hlays'

theorem mkspace_ok (h : dnsEncMkspace pktMax len s = .ok w s') :
    w = s.pktLen ∧ s' = { s with pktLen := s.pktLen + len } := by
  unfold dnsEncMkspace at h
  split at h
  · cases h
  · cases h
    exact ⟨rfl, rfl⟩

theorem retspace_ok (h : dnsEncRetspace len s = .ok () s') :
    s' = { s with pktLen := s.pktLen - len } := by
  unfold dnsEncRetspace at h
  split at h
  · cases h
  · cases h
    rfl

theorem putName_ok {wptr : Nat} (h : putName pktMax w name s = .ok wptr s') :
    (encodeName s.table w (some (cstring name))).ok = true ∧
      wptr = w + (encodeName s.table w (some (cstring name))).wire.length ∧
      s'.mem = writeBytes s.mem w (encodeName s.table w (some (cstring name))).wire ∧
      s'.pktLen = s.pktLen ∧ s'.table = (encodeName s.table w (some (cstring name))).table ∧
      s'.calls = s.calls ++ [(w, cstring name)] := by
  unfold putName at h
  dsimp only at h
  split at h
  · rename_i hok
    cases h
    exact ⟨hok, rfl, rfl, rfl, rfl, rfl⟩
  · cases h

theorem put_ok {pos : Nat} (h : put pktMax pos bs s = .ok () s') :
    s'.mem = writeBytes s.mem pos bs ∧ s'.pktLen = s.pktLen ∧ s'.table = s.table ∧
      s'.calls = s.calls := by
  cases h
  exact ⟨rfl, rfl, rfl, rfl⟩

/-- A string that the store admits. -/
def ShortStr (str : Bytes) : Prop := str.length ≤ DNS_NAME_MAXSTR

theorem length_encodeName_le {t : List Suffix} {str : Bytes} (h : ShortStr str) :
    (encodeName t w (some str)).wire.length ≤ DNS_NAME_MAXLEN := by
  have hmax : DNS_NAME_MAXSTR = 253 := rfl
  have hlen : DNS_NAME_MAXLEN = 255 := rfl
  have hwlen := length_encodeNameLoop w (str.length + 1) t w str
  unfold ShortStr at h
  show (encodeNameLoop w (str.length + 1) t w str).wire.length ≤ _
  split_ifs at hwlen <;> omega

theorem kept_of_reserved {p used : Nat} (hused : used ≤ len) (hlen : len ≤ 1000) :
    p + len - sizeSub len used = p + used := by
  unfold sizeSub
  omega

theorem emits_name {wptr : Nat} (bs : Bytes) {s2 s3 : Enc} (hshort : ShortStr (cstring name))
    (hroom : DNS_NAME_MAXLEN + bs.length ≤ len) (hlen : len ≤ 1000)
    (hspace : dnsEncMkspace pktMax len s = .ok w s1)
    (hname : putName pktMax w name s1 = .ok wptr s2) (hput : put pktMax wptr bs s2 = .ok () s3)
    (hret : dnsEncRetspace (sizeSub len (wptr + bs.length - w)) s3 = .ok () s') :
    Emits s s' [.name (cstring name), .bytes bs] ∧ s'.pktLen = wptr + bs.length := by
  obtain ⟨rfl, rfl⟩ := mkspace_ok hspace
  obtain ⟨hok, hwptr, hmem, hpkt, htable, hcalls⟩ := putName_ok hname
  obtain ⟨hmem', hpkt', htable', hcalls'⟩ := put_ok hput
  have hrets := retspace_ok hret
  have hwire := length_encodeName_le (t := s.table) (w := s.pktLen) hshort
  dsimp only at hok hwptr hmem hpkt htable hcalls
  have hstop : s'.pktLen = wptr + bs.length := by
    rw [hrets]
    show s3.pktLen - _ = _
    rw [hpkt', hpkt, kept_of_reserved (by omega) hlen]
    omega
  have hsmem : s'.mem = writeBytes s2.mem wptr bs := by rw [hrets]; exact hmem'
  have hheld : Holds s'.mem s.pktLen (encodeName s.table s.pktLen (some (cstring name))).wire := by
    rw [hsmem, hmem]
    exact holds_congr (holds_writeBytes _ _ _) (agreeOn_writeBytes _ _ _ (.inr (by omega)))
  refine ⟨⟨⟨[(s.pktLen, cstring name)], ?_, ?_⟩, ?_⟩, hstop⟩
  · rw [hrets]
    exact hcalls'.trans hcalls
  · refine .name hok hheld ?_
    rw [← hwptr, hstop]
    have htab : s'.table = (encodeName s.table s.pktLen (some (cstring name))).table := by
      rw [hrets]
      exact htable'.trans htable
    rw [htab]
    exact .bytes (by rw [hsmem]; exact holds_writeBytes _ _ _) .nil
  · rw [hsmem, hmem]
    exact (agreeOn_writeBytes _ _ _ (.inr (by omega))).trans
      (agreeOn_writeBytes _ _ _ (.inr (by omega)))

theorem emits_bytes (hroom : bs.length ≤ len) (hspace : dnsEncMkspace pktMax len s = .ok w s1)
    (hput : put pktMax w bs s1 = .ok () s') : Emits s s' [.bytes bs, .gap (len - bs.length)] := by
  obtain ⟨rfl, rfl⟩ := mkspace_ok hspace
  obtain ⟨hmem, hpkt, htable, hcalls⟩ := put_ok hput
  refine ⟨⟨[], ?_, ?_⟩, ?_⟩
  · simp [hcalls]
  · rw [htable, hpkt, hmem]
    refine .bytes (holds_writeBytes _ _ _) (.gap ?_)
    have hsum : s.pktLen + bs.length + (len - bs.length) = s.pktLen + len := by omega
    rw [hsum]
    exact .nil
  · rw [hmem]
    exact agreeOn_writeBytes _ _ _ (.inr le_rfl)

theorem emits_mem (bs : Bytes) (hspace : dnsEncMkspace pktMax bs.length s = .ok w s1)
    (hput : Dns.put pktMax w bs s1 = .ok () s') : Emits s s' [.bytes bs] := by
  have h := emits_bytes le_rfl hspace hput
  obtain ⟨calls, hcalls, hlays⟩ := h.lays
  refine ⟨⟨calls, hcalls, ?_⟩, h.below⟩
  -- the gap behind the bytes is empty
  rw [lays_bytes, lays_gap, Nat.sub_self] at hlays
  exact lays_bytes.2 hlays

theorem put_nil (pos : Nat) : Dns.put pktMax pos [] s = .ok () s := by
  have hpast : (s.past || (([] : Bytes) ≠ [] && pktMax < pos + ([] : Bytes).length)) = s.past := by
    simp
  show EStateM.Result.ok () { s with mem := s.mem, past := _ } = _
  rw [hpast]

theorem dnsEncName_emits (hshort : ShortStr (cstring name))
    (h : dnsEncName pktMax name s = .ok () s') : Emits s s' [.name (cstring name)] := by
  obtain ⟨w, s1, hspace, h⟩ := of_bind_ok h
  obtain ⟨wptr, s2, hname, h⟩ := of_bind_ok h
  have hemits := (emits_name [] hshort le_rfl (by decide) hspace hname (put_nil _) h).1
  obtain ⟨calls, hcalls, hlays⟩ := hemits.lays
  refine ⟨⟨calls, hcalls, ?_⟩, hemits.below⟩
  obtain ⟨hok, hheld, calls', rfl, hrest⟩ := lays_name.1 hlays
  exact .name hok hheld (lays_bytes.1 hrest).2

theorem dnsEncQuest_emits {quest : Qd} (hshort : ShortStr (cstring quest.qname))
    (h : dnsEncQuest pktMax quest s = .ok () s') :
    Emits s s' [.name (cstring quest.qname), .bytes (encU16 quest.qtype ++ encU16 quest.qclass)] := by
  obtain ⟨w, s1, hspace, h⟩ := of_bind_ok h
  obtain ⟨wptr, s2, hname, h⟩ := of_bind_ok h
  obtain ⟨_, s3, hput, h⟩ := of_bind_ok h
  exact (emits_name _ hshort (Nat.le_refl 259) (show 259 ≤ 1000 by decide) hspace hname hput h).1

theorem dnsEncMem_emits (h : dnsEncMem pktMax bs s = .ok () s') : Emits s s' [.bytes bs] := by
  obtain ⟨w, s1, hspace, h⟩ := of_bind_ok h
  exact emits_mem bs hspace h

/-- A string with its length in front. -/
def strBytes (str : Option Bytes) : Bytes := UInt8.ofNat (cstring str).length :: cstring str

theorem encodeTxt_emits {strs : List (Option Bytes)} (h : encodeTxt pktMax strs s = .ok () s') :
    Emits s s' (strs.map fun str => .bytes (strBytes str)) := by
  induction strs generalizing s with
  | nil =>
    cases h
    exact Emits.refl _
  | cons _ strs ih =>
    obtain ⟨_, s1, hstr, hrest⟩ := of_bind_ok h
    obtain ⟨w, s2, hspace, hput⟩ := of_bind_ok hstr
    exact (emits_mem _ hspace hput).trans (ih hrest)

/-- The numbers of `DNS_TYPE_SOA`. -/
def soaBytes (v : Soa) : Bytes :=
  encU32 v.serial ++ encU32 v.refresh ++ encU32 v.retry ++ encU32 v.expire ++ encU32 v.minTtl

theorem encodeSoa_emits {v : Soa} (hm : ShortStr (cstring v.mname)) (hr : ShortStr (cstring v.rname))
    (h : encodeSoa pktMax v s = .ok () s') :
    Emits s s' [.name (cstring v.mname), .name (cstring v.rname), .bytes (soaBytes v)] := by
  obtain ⟨_, s1, hmname, h⟩ := of_bind_ok h
  obtain ⟨_, s2, hrname, h⟩ := of_bind_ok h
  obtain ⟨w, s3, hspace, hput⟩ := of_bind_ok h
  exact (dnsEncName_emits hm hmname).trans
    ((dnsEncName_emits hr hrname).trans (emits_mem _ hspace hput))

theorem encodeHinfo_emits {v : Hinfo} (h : encodeHinfo pktMax v s = .ok () s') :
    Emits s s' [.gap (2 + (cstring v.cpuStr).length + (cstring v.osStr).length)] := by
  obtain ⟨w, s1, hspace, h⟩ := of_bind_ok h
  obtain ⟨_, s2, hput1, h⟩ := of_bind_ok h
  obtain ⟨_, s3, hput2, h⟩ := of_bind_ok h
  obtain ⟨_, s4, hput3, hput4⟩ := of_bind_ok h
  obtain ⟨rfl, rfl⟩ := mkspace_ok hspace
  obtain ⟨hmem1, hpkt1, htable1, hcalls1⟩ := put_ok hput1
  obtain ⟨hmem2, hpkt2, htable2, hcalls2⟩ := put_ok hput2
  obtain ⟨hmem3, hpkt3, htable3, hcalls3⟩ := put_ok hput3
  obtain ⟨hmem4, hpkt4, htable4, hcalls4⟩ := put_ok hput4
  refine ⟨⟨[], ?_, ?_⟩, ?_⟩
  · simp [hcalls4, hcalls3, hcalls2, hcalls1]
  · rw [htable4, htable3, htable2, htable1, hpkt4, hpkt3, hpkt2, hpkt1]
    exact .gap .nil
  · -- all four writes are in the room that was reserved or behind it
    have hbehind : ∀ (m : Mem) (k : Nat) (bs : Bytes),
        AgreeOn m (writeBytes m (s.pktLen + k) bs) 0 s.pktLen :=
      fun m k bs => agreeOn_writeBytes m _ bs (.inr (Nat.le_add_right _ _))
    rw [hmem4, hmem3, hmem2, hmem1]
    exact (hbehind _ 0 _).trans ((hbehind _ 1 _).trans ((hbehind _ 1 _).trans (hbehind _ 2 _)))

theorem encodeMx_emits {v : Mx} (hshort : ShortStr (cstring v.name))
    (h : encodeMx pktMax v s = .ok () s') :
    Emits s s' [.bytes (encU16 v.pref), .gap 2, .name (cstring v.name)] := by
  obtain ⟨w, s1, hspace, h⟩ := of_bind_ok h
  obtain ⟨_, s2, hput, hname⟩ := of_bind_ok h
  exact (emits_bytes (show 2 ≤ 4 by decide) hspace hput).trans (dnsEncName_emits hshort hname)

theorem encodeSrv_emits {v : Srv} (hshort : ShortStr (cstring v.name))
    (h : encodeSrv pktMax v s = .ok () s') :
    Emits s s' [.gap 2, .name (cstring v.name)] := by
  obtain ⟨w, s1, hspace, h⟩ := of_bind_ok h
  obtain ⟨_, s2, hput, hname⟩ := of_bind_ok h
  obtain ⟨rfl, rfl⟩ := mkspace_ok hspace
  obtain ⟨hmem, hpkt, htable, hcalls⟩ := put_ok hput
  have hgap : Emits s s2 [.gap 2] := by
    refine ⟨⟨[], ?_, ?_⟩, ?_⟩
    · simp [hcalls]
    · rw [htable, hpkt]
      exact .gap .nil
    · rw [hmem]
      exact agreeOn_writeBytes _ _ _ (.inr le_rfl)
  exact hgap.trans (dnsEncName_emits hshort hname)

end

/-! ## Records -/

/-- The pieces of the RDATA of a record. What the encoder makes of the strings of
`DNS_TYPE_HINFO` and of the numbers of `DNS_TYPE_SRV` is not described. -/
def rdataPieces (ov : Overlay) (rr : Rr) : List Piece :=
  if rr.type = DNS_TYPE_A then [.bytes (ov.a rr.rdata).1]
  else if rr.type = DNS_TYPE_NS then [.name (cstring (ov.ns rr.rdata))]
  else if rr.type = DNS_TYPE_CNAME then [.name (cstring (ov.cname rr.rdata))]
  else if rr.type = DNS_TYPE_SOA then
    [.name (cstring (ov.soa rr.rdata).mname), .name (cstring (ov.soa rr.rdata).rname),
      .bytes (soaBytes (ov.soa rr.rdata))]
  else if rr.type = DNS_TYPE_PTR then [.name (cstring (ov.ptr rr.rdata))]
  else if rr.type = DNS_TYPE_HINFO then
    [.gap (2 + (cstring (ov.hinfo rr.rdata).cpuStr).length +
      (cstring (ov.hinfo rr.rdata).osStr).length)]
  else if rr.type = DNS_TYPE_MX then
    [.bytes (encU16 (ov.mx rr.rdata).pref), .gap 2, .name (cstring (ov.mx rr.rdata).name)]
  else if rr.type = DNS_TYPE_TXT then (ov.txt rr.rdata).strs.map fun str => .bytes (strBytes str)
  else if rr.type = DNS_TYPE_AAAA then [.bytes (ov.aaaa rr.rdata).1]
  else if rr.type = DNS_TYPE_SRV then [.gap 2, .name (cstring (ov.srv rr.rdata).name)]
  else []

/-- The eight bytes behind the name of a record. `DNS_TYPE_OPT` has its values over the class
and half of the TTL. -/
def fieldHead (ov : Overlay) (rr : Rr) : Bytes :=
  if rr.type = DNS_TYPE_OPT then
    encU16 rr.type ++ (encU16 (ov.opt rr.rdata).udpSize ++ encU16 (optTtl (ov.opt rr.rdata))) ++
      (encU32 rr.ttl).drop 2
  else encU16 rr.type ++ encU16 rr.cls ++ encU32 rr.ttl

/-- The pieces of a record. -/
def rrPieces (ov : Overlay) (rr : Rr) (rdlen : UInt16) : List Piece :=
  .name (cstring rr.name) :: .bytes (fieldHead ov rr ++ encU16 rdlen) :: rdataPieces ov rr

/-- No name is longer than the store admits. -/
def Short (ps : List Piece) : Prop := ∀ str, Piece.name str ∈ ps → ShortStr str

section
variable {pktMax : Nat} {ov : Overlay} {s s' : Enc}

theorem emits_ite {c : Prop} [Decidable c] {x y : EncM Unit} {ps qs : List Piece}
    (hx : Short ps → x s = .ok () s' → Emits s s' ps)
    (hy : Short qs → y s = .ok () s' → Emits s s' qs) (hshort : Short (if c then ps else qs))
    (h : (if c then x else y) s = .ok () s') : Emits s s' (if c then ps else qs) := by
  by_cases hc : c
  · rw [if_pos hc] at hshort h ⊢
    exact hx hshort h
  · rw [if_neg hc] at hshort h ⊢
    exact hy hshort h

theorem emits_ite_right {c : Prop} [Decidable c] {x y : EncM Unit} {qs : List Piece} (hc : ¬ c)
    (hy : y s = .ok () s' → Emits s s' qs) (h : (if c then x else y) s = .ok () s') :
    Emits s s' qs := by
  rw [if_neg hc] at h
  exact hy h

theorem encodeRdata_emits {rdlenPtr : Nat} (hopt : rr.type ≠ DNS_TYPE_OPT)
    (hshort : Short (rdataPieces ov rr)) (h : encodeRdata pktMax ov rr rdlenPtr s = .ok () s') :
    Emits s s' (rdataPieces ov rr) := by
  have hname : ∀ name : Option Bytes, Short [.name (cstring name)] →
      dnsEncName pktMax name s = .ok () s' → Emits s s' [.name (cstring name)] :=
    fun name hs => dnsEncName_emits (hs _ (mem_singleton_self _))
  refine emits_ite (fun _ => dnsEncMem_emits) (fun hshort => ?_) hshort h
  refine emits_ite (hname _) (fun hshort => ?_) hshort
  refine emits_ite (hname _) (fun hshort => ?_) hshort
  refine emits_ite (fun hs => ?_) (fun hshort => ?_) hshort
  · exact encodeSoa_emits (hs _ mem_cons_self) (hs _ (.tail _ mem_cons_self))
  refine emits_ite (hname _) (fun hshort => ?_) hshort
  refine emits_ite (fun _ => encodeHinfo_emits) (fun hshort => ?_) hshort
  refine emits_ite (fun hs => ?_) (fun hshort => ?_) hshort
  · exact encodeMx_emits (hs _ (.tail _ (.tail _ mem_cons_self)))
  refine emits_ite (fun _ => encodeTxt_emits) (fun hshort => ?_) hshort
  refine emits_ite (fun _ => dnsEncMem_emits) (fun hshort => ?_) hshort
  refine emits_ite (fun hs => ?_) (fun hshort => ?_) hshort
  · exact encodeSrv_emits (hs _ (.tail _ mem_cons_self))
  refine emits_ite_right hopt ?_
  intro hpure
  cases hpure
  exact Emits.refl s

/-- The name of a record at its place, the fields behind it, and the position of the length. -/
structure HdrLaid (s s' : Enc) (rr : Rr) (e : NameEnc) (w : Nat) : Prop where
  ok : e.ok = true
  wire : Holds s'.mem s.pktLen e.wire
  fields : Holds s'.mem w (encU16 rr.type ++ encU16 rr.cls ++ encU32 rr.ttl)
  pktLen : s'.pktLen = w + 10
  table : s'.table = e.table
  calls : s'.calls = s.calls ++ [(s.pktLen, cstring rr.name)]
  below : AgreeOn s.mem s'.mem 0 s.pktLen

theorem encodeRrHdr_laid {rdlenPtr : Nat} (hshort : ShortStr (cstring rr.name))
    (h : encodeRrHdr pktMax rr s = .ok rdlenPtr s') :
    ∃ w, w = s.pktLen + (encodeName s.table s.pktLen (some (cstring rr.name))).wire.length ∧
      rdlenPtr = w + 8 ∧
      HdrLaid s s' rr (encodeName s.table s.pktLen (some (cstring rr.name))) w := by
  obtain ⟨wbuf, s1, hspace, h⟩ := of_bind_ok h
  obtain ⟨wptr, s2, hname, h⟩ := of_bind_ok h
  obtain ⟨_, s3, hput, h⟩ := of_bind_ok h
  obtain ⟨_, s4, hret, hpure⟩ := of_bind_ok h
  cases hpure
  obtain ⟨⟨⟨calls, hcalls, hlays⟩, hbelow⟩, hpkt⟩ :=
    emits_name _ hshort (Nat.le_refl 265) (by decide) hspace hname hput hret
  obtain ⟨rfl, rfl⟩ := mkspace_ok hspace
  obtain ⟨-, hwptr, -⟩ := putName_ok hname
  obtain ⟨hok, hwire, calls', rfl, hrest⟩ := lays_name.1 hlays
  rw [← hwptr] at hrest
  obtain ⟨hfields, hnil⟩ := lays_bytes.1 hrest
  obtain ⟨htable, -, rfl⟩ := lays_nil.1 hnil
  exact ⟨wptr, hwptr, rfl, hok, hwire, (holds_append.1 hfields).1, hpkt, htable, hcalls, hbelow⟩

@[simp] theorem length_encU16 (v : UInt16) : (encU16 v).length = 2 := length_beBytes 2 _

@[simp] theorem length_encU32 (v : UInt32) : (encU32 v).length = 4 := length_beBytes 4 _

theorem length_fieldHead (ov : Overlay) (rr : Rr) : (fieldHead ov rr).length = 8 := by
  unfold fieldHead
  split
  · simp
  · simp

/-- The RDATA behind the fields of a record, which are put right for `DNS_TYPE_OPT`. -/
theorem encodeRdata_lays (hshort : Short (rdataPieces ov rr)) (hpkt : s.pktLen = w + 10)
    (hheld : Holds s.mem w (encU16 rr.type ++ encU16 rr.cls ++ encU32 rr.ttl))
    (h : encodeRdata pktMax ov rr (w + 8) s = .ok () s') :
    Holds s'.mem w (fieldHead ov rr) ∧ AgreeOn s.mem s'.mem 0 w ∧
      ∃ calls, s'.calls = s.calls ++ calls ∧
        Lays s'.mem s.table s.pktLen (rdataPieces ov rr) s'.table s'.pktLen calls := by
  by_cases hopt : rr.type = DNS_TYPE_OPT
  · have hput : encodeRdata pktMax ov rr (w + 8) = encodeOpt pktMax (ov.opt rr.rdata) (w + 8) := by
      unfold encodeRdata
      rw [hopt]
      rfl
    have hpieces : rdataPieces ov rr = [] := by
      unfold rdataPieces
      rw [hopt]
      rfl
    rw [hput] at h
    obtain ⟨hmem, hlen, htable, hcalls⟩ := put_ok h
    have hpos : w + 8 - 6 = w + 2 := by omega
    rw [hpos] at hmem
    have hmid := holds_writeBytes s.mem (w + 2)
      (encU16 (ov.opt rr.rdata).udpSize ++ encU16 (optTtl (ov.opt rr.rdata)))
    rw [← hmem] at hmid
    -- the type and the low half of the TTL are still there
    obtain ⟨hfront, httl⟩ := holds_append.1 hheld
    obtain ⟨htype, -⟩ := holds_append.1 hfront
    rw [← take_append_drop 2 (encU32 _)] at httl
    obtain ⟨-, hlow⟩ := holds_append.1 httl
    have hhead : fieldHead ov rr = encU16 rr.type ++
        (encU16 (ov.opt rr.rdata).udpSize ++ encU16 (optTtl (ov.opt rr.rdata))) ++
          (encU32 rr.ttl).drop 2 := if_pos hopt
    refine ⟨?_, ?_, ⟨[], ?_, ?_⟩⟩
    · rw [hhead]
      refine holds_append.2 ⟨holds_append.2 ⟨?_, hmid⟩, ?_⟩
      · rw [hmem]
        exact holds_congr htype (agreeOn_writeBytes _ _ _ (.inr le_rfl))
      · rw [hmem]
        refine holds_congr hlow (agreeOn_writeBytes _ _ _ (.inl ?_))
        simp only [length_append, length_encU16]
        omega
    · rw [hmem]
      exact agreeOn_writeBytes _ _ _ (.inr (Nat.le_add_right _ _))
    · simp [hcalls]
    · rw [hpieces, htable, hlen]
      exact .nil
  · obtain ⟨hlays, hbelow⟩ := encodeRdata_emits hopt hshort h
    have hhead : fieldHead ov rr = encU16 rr.type ++ encU16 rr.cls ++ encU32 rr.ttl := if_neg hopt
    have hlen := length_fieldHead ov rr
    rw [hhead] at hlen ⊢
    exact ⟨holds_congr hheld (hbelow.mono (Nat.zero_le _) (by omega)),
      hbelow.mono le_rfl (by omega), hlays⟩

theorem ofNat_sub_mod {a b : Nat} (h : b ≤ a) :
    UInt16.ofNat (a - b % 2 ^ 16) = UInt16.ofNat (a - b) := by
  apply UInt16.toNat_inj.1
  simp
  omega

theorem dnsRrEncode_emits (hname : ShortStr (cstring rr.name)) (hshort : Short (rdataPieces ov rr))
    (h : dnsRrEncode pktMax ov rr s = .ok () s') :
    ∃ rdlen, Emits s s' (rrPieces ov rr rdlen) ∧ rdlen = UInt16.ofNat (s'.pktLen -
      (s.pktLen + (encodeName s.table s.pktLen (some (cstring rr.name))).wire.length + 10)) := by
  obtain ⟨rdlenPtr, s1, hhdr, h⟩ := of_bind_ok h
  obtain ⟨_, _, hget, h⟩ := of_bind_ok h
  cases hget
  obtain ⟨_, s2, hrdata, h⟩ := of_bind_ok h
  obtain ⟨_, _, hget, hput⟩ := of_bind_ok h
  cases hget
  obtain ⟨w, hw, rfl, hlaid⟩ := encodeRrHdr_laid hname hhdr
  obtain ⟨hhead, hkeep, calls, hcalls2, hlays⟩ :=
    encodeRdata_lays hshort hlaid.pktLen hlaid.fields hrdata
  obtain ⟨hmem, hpkt, htable, hcalls⟩ := put_ok hput
  have hlen := length_fieldHead ov rr
  have hle := hlays.le
  rw [ofNat_sub_mod hle] at hmem
  rw [← hw, hpkt, ← hlaid.pktLen]
  -- the length is written last, between the fields and the RDATA
  have hout : ∀ {lo hi : Nat}, w + 10 ≤ lo ∨ hi ≤ w + 8 → AgreeOn s2.mem s'.mem lo hi := by
    intro lo hi hrange
    rw [hmem]
    exact agreeOn_writeBytes _ _ _ hrange
  have hlast : Holds s'.mem (w + 8) (encU16 (UInt16.ofNat (s2.pktLen - s1.pktLen))) := by
    rw [hmem]
    exact holds_writeBytes _ _ _
  refine ⟨_, ⟨⟨(s.pktLen, cstring rr.name) :: calls, ?_, ?_⟩, ?_⟩, rfl⟩
  · simp [hcalls, hcalls2, hlaid.calls]
  · refine .name hlaid.ok ?_ ?_
    · exact holds_congr (holds_congr hlaid.wire (hkeep.mono (Nat.zero_le _) (by omega)))
        (hout (.inr (by omega)))
    · rw [← hw]
      refine .bytes (holds_append.2 ⟨holds_congr hhead (hout (.inr (by omega))), ?_⟩) ?_
      · rw [hlen]
        exact hlast
      · rw [length_append, hlen, htable, hpkt, ← hlaid.table]
        rw [hlaid.pktLen] at hlays
        exact hlays.congr (hout (.inl le_rfl))
  · exact hlaid.below.trans ((hkeep.mono le_rfl (by omega)).trans (hout (.inr (by omega))))

end

/-! ## Sections and messages -/

/-- The memory has the records one behind the other, each with the length of its RDATA. -/
inductive LaysRrs (mem : Mem) (ov : Overlay) : List Suffix → Nat → List Rr → List Suffix → Nat →
    List (Nat × Bytes) → Prop where
  | nil {t : List Suffix} {p : Nat} : LaysRrs mem ov t p [] t p []
  | cons {t t' t'' : List Suffix} {p p' p'' : Nat} {rr : Rr} {recs : List Rr} {rdlen : UInt16}
      {calls calls' : List (Nat × Bytes)}
      (hrdlen : rdlen = UInt16.ofNat
        (p' - (p + (encodeName t p (some (cstring rr.name))).wire.length + 10)))
      (hrr : Lays mem t p (rrPieces ov rr rdlen) t' p' calls)
      (hrest : LaysRrs mem ov t' p' recs t'' p'' calls') :
      LaysRrs mem ov t p (rr :: recs) t'' p'' (calls ++ calls')

/-- The pieces of the questions. -/
def qdPieces (quests : List Qd) : List Piece :=
  quests.flatMap fun q => [.name (cstring q.qname), .bytes (encU16 q.qtype ++ encU16 q.qclass)]

/-- All names of the record are short. -/
def Rr.Short (ov : Overlay) (rr : Rr) : Prop :=
  ShortStr (cstring rr.name) ∧ Dns.Short (rdataPieces ov rr)

/-- All names of the message are short. -/
structure Msg.Short (ov : Overlay) (m : Msg) : Prop where
  quests : ∀ q ∈ m.questions, ShortStr (cstring q.qname)
  recs : ∀ sc, ∀ rr ∈ (m.sect sc).recs, rr.Short ov

/-- A packet up to `stop` as the encoder lays it: the header, the questions and the sections. -/
structure MsgLaid (mem : Mem) (ov : Overlay) (m : Msg) (stop : Nat) (calls : List (Nat × Bytes)) :
    Prop where
  hdr : Holds mem 0 (syncHdr m).bytes
  body : ∃ t1 p1 c1 t2 p2 c2 t3 p3 c3 t4 c4,
    Lays mem [] DNS_HDR_LEN (qdPieces m.questions) t1 p1 c1 ∧
    LaysRrs mem ov t1 p1 m.an.recs t2 p2 c2 ∧ LaysRrs mem ov t2 p2 m.ns.recs t3 p3 c3 ∧
    LaysRrs mem ov t3 p3 m.ar.recs t4 stop c4 ∧ calls = c1 ++ c2 ++ c3 ++ c4

variable {pktMax : Nat} {ov : Overlay} {s s' : Enc} {mem mem' : Mem} {t t' : List Suffix}
  {p p' : Nat} {recs : List Rr} {calls : List (Nat × Bytes)}

section
variable (h : LaysRrs mem ov t p recs t' p' calls)
include h

theorem LaysRrs.le : p ≤ p' := by
  induction h with
  | nil => exact le_rfl
  | cons _ hrr _ ih => exact hrr.le.trans ih

theorem LaysRrs.congr (hagree : AgreeOn mem mem' p p') : LaysRrs mem' ov t p recs t' p' calls := by
  induction h with
  | nil => exact .nil
  | cons hrdlen hrr hrest ih =>
    exact .cons hrdlen (hrr.congr (hagree.mono le_rfl hrest.le)) (ih (hagree.mono hrr.le le_rfl))

end

theorem dnsSectEnc_lays (hshort : ∀ rr ∈ recs, rr.Short ov)
    (h : dnsSectEnc pktMax ov recs s = .ok () s') :
    ∃ calls, s'.calls = s.calls ++ calls ∧
      LaysRrs s'.mem ov s.table s.pktLen recs s'.table s'.pktLen calls ∧
      AgreeOn s.mem s'.mem 0 s.pktLen := by
  induction recs generalizing s with
  | nil =>
    cases h
    exact ⟨[], (append_nil _).symm, .nil, AgreeOn.refl _ _ _⟩
  | cons rr recs ih =>
    obtain ⟨_, s1, hrr, hrest⟩ := of_bind_ok h
    obtain ⟨hname, hrdata⟩ := hshort rr mem_cons_self
    obtain ⟨rdlen, hemits, hrdlen⟩ := dnsRrEncode_emits hname hrdata hrr
    obtain ⟨calls1, hcalls1, hlays⟩ := hemits.lays
    obtain ⟨calls2, hcalls2, hlays', hbelow⟩ := ih (fun rr' hrr' => hshort rr' (.tail _ hrr')) hrest
    refine ⟨calls1 ++ calls2, ?_, ?_, ?_⟩
    · simp [hcalls2, hcalls1]
    · exact .cons hrdlen (hlays.congr (hbelow.mono (Nat.zero_le _) le_rfl)) hlays'
    · exact hemits.below.trans (hbelow.mono le_rfl hemits.le)

theorem encodeQd_emits {quests : List Qd} (hshort : ∀ q ∈ quests, ShortStr (cstring q.qname))
    (h : encodeQd pktMax quests s = .ok () s') : Emits s s' (qdPieces quests) := by
  induction quests generalizing s with
  | nil =>
    cases h
    exact Emits.refl _
  | cons q quests ih =>
    obtain ⟨_, s1, hq, hrest⟩ := of_bind_ok h
    exact (dnsEncQuest_emits (hshort q mem_cons_self) hq).trans
      (ih (fun q' hq' => hshort q' (.tail _ hq')) hrest)

theorem encodeHdr_ok {hdr : Hdr} {buf : Mem} (h : encodeHdr pktMax hdr (Enc.start buf) = .ok () s') :
    s'.table = [] ∧ s'.pktLen = DNS_HDR_LEN ∧ s'.calls = [] ∧ Holds s'.mem 0 hdr.bytes := by
  obtain ⟨w, s0, hspace, hput⟩ := of_bind_ok h
  obtain ⟨rfl, rfl⟩ := mkspace_ok hspace
  obtain ⟨hmem, hpkt, htable, hcalls⟩ := put_ok hput
  refine ⟨htable, hpkt.trans (zero_add _), hcalls, ?_⟩
  rw [hmem]
  exact holds_writeBytes _ _ _

theorem dnsMsgEncode_laid {m : Msg} {buf : Mem} {n : Nat} (hshort : m.Short ov)
    (h : (dnsMsgEncode pktMax ov m buf).1 = some n) :
    MsgLaid (dnsMsgEncode pktMax ov m buf).2.mem ov m n (dnsMsgEncode pktMax ov m buf).2.calls := by
  unfold dnsMsgEncode at *
  cases hrun : encodeMsg pktMax ov m _ with
  | error e s =>
    rw [hrun] at h
    cases h
  | ok a s =>
    rw [hrun] at h
    cases h
    obtain ⟨_, s1, hhdr, hrun⟩ := of_bind_ok hrun
    obtain ⟨_, s2, hqd, hrun⟩ := of_bind_ok hrun
    obtain ⟨_, s3, han, hrun⟩ := of_bind_ok hrun
    obtain ⟨_, s4, hns, har⟩ := of_bind_ok hrun
    obtain ⟨htable, hpkt, hcalls, hheld⟩ := encodeHdr_ok hhdr
    obtain ⟨⟨c1, hcalls1, hlays1⟩, hbelow1⟩ := encodeQd_emits hshort.quests hqd
    obtain ⟨c2, hcalls2, hlays2, hbelow2⟩ := dnsSectEnc_lays (hshort.recs .an) han
    obtain ⟨c3, hcalls3, hlays3, hbelow3⟩ := dnsSectEnc_lays (hshort.recs .ns) hns
    obtain ⟨c4, hcalls4, hlays4, hbelow4⟩ := dnsSectEnc_lays (hshort.recs .ar) har
    have hle1 := hlays1.le
    have hle2 := hlays2.le
    have hle3 := hlays3.le
    -- what a section lays is below all that is written later
    have h3 : AgreeOn s3.mem s.mem 0 s3.pktLen := hbelow3.trans (hbelow4.mono le_rfl hle3)
    have h2 : AgreeOn s2.mem s.mem 0 s2.pktLen := hbelow2.trans (h3.mono le_rfl hle2)
    have h1 : AgreeOn s1.mem s.mem 0 s1.pktLen := hbelow1.trans (h2.mono le_rfl hle1)
    rw [htable, hpkt] at hlays1
    refine ⟨holds_congr hheld (h1.mono (Nat.zero_le _) ?_), _, _, c1, _, _, c2, _, _, c3, _, c4,
      hlays1.congr (h2.mono (Nat.zero_le _) le_rfl),
      hlays2.congr (h3.mono (Nat.zero_le _) le_rfl),
      hlays3.congr (hbelow4.mono (Nat.zero_le _) le_rfl), hlays4, ?_⟩
    · rw [hpkt]
      exact le_rfl
    · simp [hcalls4, hcalls3, hcalls2, hcalls1, hcalls]

end CDbK8s.Dns
