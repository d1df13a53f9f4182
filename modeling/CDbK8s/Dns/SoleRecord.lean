import CDbK8s.Dns.NameWire
import CDbK8s.Dns.Stages

/-!
# A message of one record

The message that `dns_add_rr` makes of a zeroed one.
-/

namespace CDbK8s.Dns

open Base Lib.ByteMem Lib.Exits

/-- Where the RDATA of an only record begins. -/
def soleRdata (rr : Rr) : Nat :=
  DNS_HDR_LEN + (encodeName [] DNS_HDR_LEN (some (cstring rr.name))).wire.length + 10

/-- A message without questions whose only record is `rr`, in section `sc`. -/
structure Sole (ov : Overlay) (m : Msg) (sc : Sc) (rr : Rr) : Prop where
  stored : m.Stored ov
  quests : m.qdLen = 0
  recs : ∀ sc', (m.sect sc').recs = if sc' = sc then [rr] else []

variable {pktMax : Nat} {ov : Overlay} {m : Msg} {sc : Sc} {rr src : Rr} {buf : Mem} {s s' : Enc}

theorem sole_of_added (hadd : dnsAddRr ov (dnsMsgReset Msg.zero) sc src = (0, m)) :
    Sole ov m sc (Given.slot ov ⟨[], src⟩) := by
  have hassembled := Assembled.reset.addRr hadd
  obtain ⟨s, -, hm⟩ := dnsAddRr_ok hadd
  refine ⟨hassembled.built.stored.1, ?_, fun sc' => ?_⟩
  · rw [hm]
    cases sc <;> rfl
  · rw [hassembled.slots.1 sc']
    by_cases hsc : sc' = sc
    · rw [if_pos hsc, hsc, Function.update_self]
      rfl
    · rw [if_neg hsc, Function.update_of_ne hsc]
      rfl

section
variable (h : Sole ov m sc rr)
include h

theorem Sole.short : rr.Short ov := by
  have hmem : rr ∈ (m.sect sc).recs := by
    rw [h.recs, if_pos rfl]
    exact List.mem_singleton_self _
  exact h.stored.short.recs sc rr hmem

theorem Sole.questions : m.questions = [] := by
  rw [Msg.questions, h.quests]
  rfl

theorem Sole.allRecs : m.allRecs = [rr] := by
  have han : m.an.recs = _ := h.recs .an
  have hns : m.ns.recs = _ := h.recs .ns
  have har : m.ar.recs = _ := h.recs .ar
  rw [Msg.allRecs, han, hns, har]
  cases sc <;> rfl

/-! ## The encoder -/

omit h in
theorem encodeRrHdr_above {rdlenPtr : Nat} (hshort : ShortStr (cstring rr.name))
    (h : encodeRrHdr pktMax rr s = .ok rdlenPtr s') (i : Nat) (hi : s'.pktLen ≤ i) :
    s'.mem i = s.mem i := by
  obtain ⟨w, hw, -, hlaid⟩ := encodeRrHdr_laid hshort h
  obtain ⟨wbuf, s1, hspace, h⟩ := of_bind_ok h
  obtain ⟨wptr, s2, hname, h⟩ := of_bind_ok h
  obtain ⟨_, s3, hput, h⟩ := of_bind_ok h
  obtain ⟨_, s4, hret, hpure⟩ := of_bind_ok h
  cases hpure
  obtain ⟨rfl, rfl⟩ := mkspace_ok hspace
  obtain ⟨-, hwptr, hmem, -⟩ := putName_ok hname
  obtain ⟨hmem', -⟩ := put_ok hput
  have hsame : s'.mem = s3.mem := by rw [retspace_ok hret]
  have hstop := hlaid.pktLen
  dsimp only at hwptr hmem
  rw [hsame, hmem', hmem, writeBytes_of_outside, writeBytes_of_outside]
  · exact .inr (by omega)
  · simp only [List.length_append, length_encU16, length_encU32]
    exact .inr (by omega)

/-- The encoder from the RDATA of the only record on: it comes there with the bytes of the buffer
still above it, and what it leaves there is in the packet. -/
structure SoleRun (pktMax : Nat) (ov : Overlay) (rr : Rr) (buf mem : Mem) (n : Nat) (s s' : Enc) :
    Prop where
  rdata : encodeRdata pktMax ov rr (soleRdata rr - 2) s = .ok () s'
  start : s.pktLen = soleRdata rr
  table : s.table = (encodeName [] DNS_HDR_LEN (some (cstring rr.name))).table
  above : ∀ i, soleRdata rr ≤ i → s.mem i = buf i
  stop : s'.pktLen = n
  kept : ∀ i, soleRdata rr ≤ i → mem i = s'.mem i

theorem Sole.run {n : Nat} (hn : (dnsMsgEncode pktMax ov m buf).1 = some n) :
    ∃ s s', SoleRun pktMax ov rr buf (dnsMsgEncode pktMax ov m buf).2.mem n s s' := by
  unfold dnsMsgEncode at *
  cases hrun : encodeMsg pktMax ov m _ with
  | error e s =>
    rw [hrun] at hn
    cases hn
  | ok a t =>
    rw [hrun] at hn
    cases hn
    rw [encodeMsg_eq, h.allRecs] at hrun
    obtain ⟨_, s0, hhead, hrun⟩ := of_bind_ok hrun
    obtain ⟨_, s1, hhdr, hqd⟩ := of_bind_ok hhead
    rw [h.questions] at hqd
    cases hqd
    obtain ⟨_, t', hrr, hpure⟩ := of_bind_ok hrun
    cases hpure
    obtain ⟨rdlenPtr, s2, hfields, hrr⟩ := of_bind_ok hrr
    obtain ⟨_, _, hget, hrr⟩ := of_bind_ok hrr
    cases hget
    obtain ⟨_, s3, hrdata, hrr⟩ := of_bind_ok hrr
    obtain ⟨_, _, hget, hput⟩ := of_bind_ok hrr
    cases hget
    obtain ⟨htable, hpkt, -⟩ := encodeHdr_ok hhdr
    have habove := encodeRrHdr_above h.short.1 hfields
    obtain ⟨w, hw, rfl, hlaid⟩ := encodeRrHdr_laid h.short.1 hfields
    obtain ⟨hmem, hpkt', -⟩ := put_ok hput
    rw [htable, hpkt] at hw
    have hstart : s2.pktLen = soleRdata rr := by rw [hlaid.pktLen, hw, soleRdata]
    have hpos : w + 8 = soleRdata rr - 2 := by
      rw [hw]
      rfl
    refine ⟨s2, s3, hpos ▸ hrdata, hstart, ?_, fun i hi => ?_, hpkt'.symm, fun i hi => ?_⟩
    · rw [hlaid.table, htable, hpkt]
    · rw [habove i (by omega)]
      obtain ⟨_, s4, hspace, hput'⟩ := of_bind_ok hhdr
      obtain ⟨rfl, rfl⟩ := mkspace_ok hspace
      obtain ⟨hmem', -⟩ := put_ok hput'
      rw [hmem']
      refine writeBytes_of_outside _ _ _ _ (.inr ?_)
      show 0 + DNS_HDR_LEN ≤ i
      omega
    · rw [hmem]
      refine writeBytes_of_outside _ _ _ _ (.inr ?_)
      rw [length_encU16]
      omega

end

/-! ## The decoder -/

theorem taken_iff (x : EntryM Nat) (s : Entering) (stop : Nat) (out : Rr) :
    taken ((x >>= fun rc => do
      stopIf ((← get).offset ≠ stop) (.refuse .rr .rdata DnsError.erdatalen.code)
      pure rc) s) = [out] ↔ ∃ rc s', x s = .ok rc s' ∧ s'.offset = stop ∧ s'.rr = out := by
  cases hrun : x s with
  | error e s' =>
    rw [bind_exit hrun]
    refine iff_of_false nofun ?_
    rintro ⟨rc, s'', hok, -⟩
    cases hok
  | ok rc s' =>
    rw [bind_ok hrun]
    by_cases hall : s'.offset = stop
    · rw [(bind_ok (x := get) rfl).trans (bind_ok (stopIf_pass (not_not.2 hall) _ s'))]
      constructor
      · intro hout
        exact ⟨rc, s', rfl, hall, List.singleton_inj.1 hout⟩
      · rintro ⟨rc', s'', hok, -, rfl⟩
        cases hok
        rfl
    · rw [(bind_ok (x := get) rfl).trans (bind_exit (stopIf_stop hall _ s'))]
      refine iff_of_false nofun ?_
      rintro ⟨rc', s'', hok, hoff, -⟩
      cases hok
      exact hall hoff

/-- The decoder comes to the RDATA of the only record, and takes the record if it can decode the
RDATA up to the end of the packet. -/
theorem Sole.decode (h : Sole ov m sc rr) (htype : rr.type ≠ DNS_TYPE_OPT)
    (hname : Labelled (cstring rr.name)) {n : Nat} {mem : Mem} {calls : List (Nat × Bytes)}
    (hlaid : MsgLaid mem ov m n calls) (msg : Msg) :
    Holds mem (soleRdata rr - 10) (encU16 rr.type) ∧ ∃ (text : Bytes) (s : Entering),
      s.offset = soleRdata rr ∧ s.wptr ≤ 254 ∧ s.names.length ≤ 254 ∧ s.rr.type = rr.type ∧
      s.rr.rdata = ((msg.sect sc).slots 0).rdata ∧
      ∀ out, ((dnsMsgDecode ⟨mem, n⟩ ov msg).2.msg.sect sc).recs = [out] ↔
        ∃ rc s', decodeRdata ⟨mem, n⟩ .load sc ov rr.type text rr.cls rr.ttl (n - soleRdata rr) n
          text.length s = .ok rc s' ∧ s'.offset = n ∧ s'.rr = out := by
  have hsmall := hlaid.small h.stored
  obtain ⟨t, p, c, t', c', hqd, hlays⟩ := hlaid.sole h.recs
  have hend := hqd
  rw [h.questions] at hend
  obtain ⟨rfl, rfl, -⟩ := lays_nil.1 hend
  have hle := hlays.le
  let pkt : Pkt := ⟨mem, n⟩
  have hroot : Mirrored pkt [] DNS_HDR_LEN [] := ⟨.nil, nofun⟩
  obtain ⟨q, t1, c1, hq, ⟨text, howner⟩, hhead, hrest⟩ := @Lays.rrHead pkt ov rr _ [] t' []
    DNS_HDR_LEN n 0 _ hlays hroot nofun zero_le le_rfl hsmall
    le_rfl h.short hname nofun
  have hrd : soleRdata rr = q + 10 := by rw [soleRdata, hq]
  have hstop := hrest.le
  rw [← hq] at hhead
  obtain ⟨s, hoffset, hwptr, hnames, hslot, hdecode⟩ := @dnsMsgDecode_sole pkt ov m rr [] _
    c sc hlaid.hdr (by rw [h.quests]; exact zero_le) h.recs hqd h.stored.quests
    (by rw [h.questions]; exact nofun) (by decide) hle msg
  rw [h.questions] at hnames
  have hempty : s.names.length = 0 := hnames
  have hroom : nameRoom (cstring rr.name) ≤ 254 := by
    have hback := length_readBack_le (cstring rr.name)
    have hshort : (cstring rr.name).length ≤ 253 := h.short.1
    unfold nameRoom
    omega
  have hpdu : DNS_MAX_PDUSIZE = 2048 := rfl
  rw [← hoffset] at howner
  obtain ⟨hnamed, hat⟩ := howner.named (n := 0) (by omega)
  have hbody := @rrBody_of_named pkt _ s sc ov _ hwptr hnamed (by rw [hat]; show q + 10 ≤ n; omega)
  have hfields := rrFieldsAt_found htype hhead
  rw [hat, hfields] at hbody
  have hoffset1 : (s.atRdata pkt .load text).offset = soleRdata rr := by
    rw [atRdata_offset, hat, hrd]
  have hnames1 : (s.atRdata pkt .load text).names.length ≤ 254 := by
    rw [atRdata_names, howner.clean]
    have hlen := @length_keep pkt _ _ s.names _ _ howner
    omega
  have hwptr1 : (s.atRdata pkt .load text).wptr ≤ 254 := by
    have hshort : text.length ≤ 253 := howner.short
    rw [atRdata_wptr]
    omega
  have htype1 : (s.atRdata pkt .load text).rr.type = rr.type := by
    show (rrFieldsAt pkt (nameEnd pkt s.offset)).type = _
    rw [hat, hfields]
  have hrdata1 : (s.atRdata pkt .load text).rr.rdata = ((msg.sect sc).slots 0).rdata := by
    rw [← hslot]
    rfl
  generalize s.atRdata pkt .load text = s1 at hbody hoffset1 hnames1 hwptr1 htype1 hrdata1
  refine ⟨?_, text, s1, hoffset1, hwptr1, hnames1, htype1, hrdata1, fun _ => ?_⟩
  · rw [hrd]
    rw [fieldHead, if_neg htype] at hhead
    exact (holds_append.1 (holds_append.1 (holds_append.1 hhead).1).1).1
  · have hrdlen : (UInt16.ofNat (n - (q + 10))).toNat = n - soleRdata rr := by
      rw [hrd]
      exact UInt16.toNat_ofNat_of_lt' (show n - (q + 10) < 2 ^ 16 by omega)
    have hmod : (s1.offset + (UInt16.ofNat (n - (q + 10))).toNat) % 2 ^ 16 = n := by
      omega
    have htail := @rrRdata_eq pkt .load sc ov _ ⟨text, text.length⟩
      ⟨rr.type, rr.cls, rr.ttl, UInt16.ofNat _⟩ (by rw [hmod])
    rw [hmod, hrdlen] at htail
    rw [hdecode, hbody, htail]
    exact taken_iff _ _ _ _

end CDbK8s.Dns
