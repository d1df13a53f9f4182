import CDbK8s.Resolv.Loop

/-!
# Which queries can be sent

`try_query` builds a message and encodes it. Whether that works depends on the name and the kind
of the socket only (`requestLen`): the two queries for a name differ in bytes that the encoder
does not look at, and so do the buffers they are written to.
-/

namespace CDbK8s.Resolv

open Base Dns Lib.ByteMem Lib.Exits Function

variable {name : Bytes}

/-! ## Two encoders in step -/

/-- The same place in the packet and the same suffixes. -/
def SameRoom (s t : Enc) : Prop := s.pktLen = t.pktLen ∧ s.table = t.table

section
variable {pktMax : Nat}

theorem put_inStep (pos : Nat) (bs cs : Bytes) :
    InStep SameRoom (put pktMax pos bs) (put pktMax pos cs) :=
  leads_modify fun _ _ h => h

theorem dnsEncMkspace_inStep (len : Nat) :
    InStep SameRoom (dnsEncMkspace pktMax len) (dnsEncMkspace pktMax len) := by
  rintro s t ⟨hlen, htable⟩
  unfold dnsEncMkspace
  rw [hlen]
  split
  · exact ⟨rfl, hlen, htable⟩
  · exact ⟨rfl, rfl, htable⟩

theorem dnsEncRetspace_inStep (len : Nat) :
    InStep SameRoom (dnsEncRetspace len) (dnsEncRetspace len) := by
  rintro s t ⟨hlen, htable⟩
  unfold dnsEncRetspace
  rw [hlen]
  split
  · exact ⟨rfl, hlen, htable⟩
  · exact ⟨rfl, rfl, htable⟩

theorem putName_inStep (wptr : Nat) (name : Option Bytes) :
    InStep SameRoom (putName pktMax wptr name) (putName pktMax wptr name) := by
  rintro s t ⟨hlen, htable⟩
  unfold putName
  simp only [htable]
  split
  · exact ⟨rfl, hlen, rfl⟩
  · exact ⟨rfl, hlen, rfl⟩

theorem dnsEncQuest_inStep {q q' : Qd} (h : q.qname = q'.qname) :
    InStep SameRoom (dnsEncQuest pktMax q) (dnsEncQuest pktMax q') := by
  unfold dnsEncQuest
  rw [h]
  refine (dnsEncMkspace_inStep _).bind fun wbuf => ?_
  refine (putName_inStep _ _).bind fun wptr => ?_
  exact (put_inStep _ _ _).bind fun _ => dnsEncRetspace_inStep _

theorem encodeRrHdr_inStep {rr rr' : Rr} (h : rr.name = rr'.name) :
    InStep SameRoom (encodeRrHdr pktMax rr) (encodeRrHdr pktMax rr') := by
  unfold encodeRrHdr
  rw [h]
  refine (dnsEncMkspace_inStep _).bind fun wbuf => ?_
  refine (putName_inStep _ _).bind fun wptr => ?_
  refine (put_inStep _ _ _).bind fun _ => ?_
  exact (dnsEncRetspace_inStep _).bind fun _ => leads_pure _

theorem encodeRdata_opt {rr : Rr} (ov : Overlay) (h : rr.type = DNS_TYPE_OPT) (rdlenPtr : Nat) :
    encodeRdata pktMax ov rr rdlenPtr = encodeOpt pktMax (ov.opt rr.rdata) rdlenPtr := by
  simp [encodeRdata, h, DNS_TYPE_OPT, DNS_TYPE_A, DNS_TYPE_NS, DNS_TYPE_CNAME, DNS_TYPE_SOA,
    DNS_TYPE_PTR, DNS_TYPE_HINFO, DNS_TYPE_MX, DNS_TYPE_TXT, DNS_TYPE_AAAA, DNS_TYPE_SRV]

theorem dnsRrEncode_inStep {rr rr' : Rr} (ov : Overlay) (hname : rr.name = rr'.name)
    (hrr : rr.type = DNS_TYPE_OPT) (hrr' : rr'.type = DNS_TYPE_OPT) :
    InStep SameRoom (dnsRrEncode pktMax ov rr) (dnsRrEncode pktMax ov rr') := by
  refine (encodeRrHdr_inStep hname).bind fun _ => ?_
  refine leads_get fun _ _ _ => ?_
  rw [encodeRdata_opt ov hrr, encodeRdata_opt ov hrr']
  -- the length of the RDATA is a matter of bytes
  exact (put_inStep _ _ _).bind fun _ => leads_get fun _ _ _ => put_inStep _ _ _

theorem encodeQd_inStep {q q' : Qd} (h : q.qname = q'.qname) :
    InStep SameRoom (encodeQd pktMax [q]) (encodeQd pktMax [q']) := by
  exact (dnsEncQuest_inStep h).bind fun _ => leads_pure _

theorem dnsSectEnc_inStep {rr rr' : Rr} (ov : Overlay) (hname : rr.name = rr'.name)
    (hrr : rr.type = DNS_TYPE_OPT) (hrr' : rr'.type = DNS_TYPE_OPT) :
    InStep SameRoom (dnsSectEnc pktMax ov [rr]) (dnsSectEnc pktMax ov [rr']) := by
  exact (dnsRrEncode_inStep ov hname hrr hrr').bind fun _ => leads_pure _

end

/-! ## The message of a query -/

/-- A request for a name. -/
structure IsReq (m : Msg) (name : Bytes) : Prop where
  quest : ∃ qtype qclass, m.questions = [⟨some name, qtype, qclass⟩]
  an : m.an.recs = []
  ns : m.ns.recs = []
  ar : ∃ rr, m.ar.recs = [rr] ∧ rr.name = some [] ∧ rr.type = DNS_TYPE_OPT

theorem encodeMsg_inStep {m m' : Msg} (pktMax : Nat) (ov : Overlay) (h : IsReq m name)
    (h' : IsReq m' name) : InStep SameRoom (encodeMsg pktMax ov m) (encodeMsg pktMax ov m') := by
  obtain ⟨qtype, qclass, hquest⟩ := h.quest
  obtain ⟨qtype', qclass', hquest'⟩ := h'.quest
  obtain ⟨rr, har, hname, htype⟩ := h.ar
  obtain ⟨rr', har', hname', htype'⟩ := h'.ar
  unfold encodeMsg
  rw [hquest, hquest', h.an, h'.an, h.ns, h'.ns, har, har']
  refine Leads.bind ((dnsEncMkspace_inStep _).bind fun _ => put_inStep _ _ _) fun _ => ?_
  refine Leads.bind (encodeQd_inStep rfl) fun _ => ?_
  refine (leads_pure _).bind fun _ => ?_
  refine (leads_pure _).bind fun _ => ?_
  exact dnsSectEnc_inStep ov (hname.trans hname'.symm) htype htype'

theorem msgStoreStr_fits {names str : Bytes} (hstr : str.length ≤ DNS_NAME_MAXSTR)
    (hroom : names.length + str.length + 1 ≤ DNS_MAX_PDUSIZE) :
    msgStoreStr names str = (some str, names ++ str ++ [0]) := by
  rw [msgStoreStr, if_neg (not_lt.2 hstr), if_neg (not_lt.2 hroom)]

theorem addRr_esdn (ov : Overlay) {names : Bytes} (h : names.length + 1 ≤ DNS_MAX_PDUSIZE)
    (slot : Rr) :
    ∃ s, addRr ov esdnRr ⟨names, slot⟩ = .ok () s ∧ s.rr.name = some [] ∧
      s.rr.type = DNS_TYPE_OPT := by
  have hstore : msgStoreName names [] = (some [], names ++ [] ++ [0]) := msgStoreStr_fits zero_le h
  have hneeded : addNeeded esdnRr.name (fun str rr => { rr with name := str }) ⟨names, slot⟩ =
      .ok () ⟨names ++ [] ++ [0], { slot with name := some [] }⟩ := by
    have hname : addName none (fun str rr => { rr with name := str }) ⟨names, slot⟩ =
        .ok (some []) ⟨names ++ [] ++ [0], { slot with name := some [] }⟩ := by
      show EStateM.Result.ok (msgStoreName names []).1 (⟨(msgStoreName names []).2,
        { slot with name := (msgStoreName names []).1 }⟩ : Adding) = _
      rw [hstore]
    exact (bind_ok hname).trans rfl
  unfold addRr
  simp only [bind, EStateM.bind, hneeded]
  exact ⟨_, rfl, rfl, rfl⟩

/-- The message of a request, in front of its OPT record. -/
def asked (msg : Msg) (tid : UInt16) (name : Bytes) (qtype : UInt16) : Msg :=
  { dnsMsgInit (dnsMsgReset msg) tid DNS_FLAGS_RD with
    names := name ++ [0]
    qd := update msg.qd 0 ⟨some name, qtype, DNS_CLASS_IN⟩
    qdLen := 1 }

theorem dnsAddQdn_reset (msg : Msg) (tid : UInt16) (qtype : UInt16)
    (h : name.length ≤ DNS_NAME_MAXSTR) :
    dnsAddQdn (dnsMsgInit (dnsMsgReset msg) tid DNS_FLAGS_RD) name qtype DNS_CLASS_IN =
      (0, asked msg tid name qtype) := by
  have hstore : msgStoreStr [] name = (some name, name ++ [0]) := msgStoreStr_fits h (by
      unfold DNS_NAME_MAXSTR at h
      unfold DNS_MAX_PDUSIZE
      rw [List.length_nil]
      omega)
  have hempty : (dnsMsgInit (dnsMsgReset msg) tid DNS_FLAGS_RD).names = [] := rfl
  rw [dnsAddQdn, hempty, hstore]
  rfl

/-- The message of a query can be built if its name can be stored, whatever the message held
before. -/
theorem buildReq_isReq (ov : Overlay) (h : name.length ≤ DNS_NAME_MAXSTR) (msg : Msg)
    (tid qtype : UInt16) :
    (buildReq ov true msg tid name qtype).1 = 0 ∧
      IsReq (buildReq ov true msg tid name qtype).2 name := by
  have hstore : (name ++ [0]).length + 1 ≤ DNS_MAX_PDUSIZE := by
    unfold DNS_NAME_MAXSTR at h
    unfold DNS_MAX_PDUSIZE
    simp
    omega
  obtain ⟨s, hadd, hname, htype⟩ := addRr_esdn ov hstore _
  have hrr : dnsAddRr ov (asked msg tid name qtype) .ar esdnRr =
      (0, { asked msg tid name qtype with
        names := s.names, ar := ⟨update msg.ar.slots 0 s.rr, 1⟩ }) := by
    have hroom : ¬ ((asked msg tid name qtype).sect .ar).count ≥ DNS_MAX_RR :=
      show ¬ 0 ≥ DNS_MAX_RR by decide
    have hslot : addRr ov esdnRr ⟨(asked msg tid name qtype).names,
        ((asked msg tid name qtype).sect .ar).slots ((asked msg tid name qtype).sect .ar).count⟩ =
        .ok () s := hadd
    unfold dnsAddRr
    rw [if_neg hroom, hslot]
    rfl
  have hbuild : buildReq ov true msg tid name qtype =
      (0, { asked msg tid name qtype with
        names := s.names, ar := ⟨update msg.ar.slots 0 s.rr, 1⟩ }) := by
    unfold buildReq
    dsimp only
    rw [dnsAddQdn_reset msg tid _ h, if_neg (fun hne => hne rfl), if_pos rfl, hrr]
  rw [hbuild]
  refine ⟨rfl, ⟨qtype, DNS_CLASS_IN, ?_⟩, rfl, rfl, s.rr, ?_, hname, htype⟩
  · show [update msg.qd 0 ⟨some name, qtype, DNS_CLASS_IN⟩ 0] = _
    rw [update_self]
  · show [update msg.ar.slots 0 s.rr 0] = _
    rw [update_self]

theorem buildReq_long (ov : Overlay) (h : DNS_NAME_MAXSTR < name.length) (msg : Msg)
    (tid qtype : UInt16) : (buildReq ov true msg tid name qtype).1 = DNS_ERR := by
  have hqdn : (dnsAddQdn (dnsMsgInit (dnsMsgReset msg) tid DNS_FLAGS_RD) name qtype
      DNS_CLASS_IN).1 = -1 := by
    have hroom : ¬ (dnsMsgInit (dnsMsgReset msg) tid DNS_FLAGS_RD).qdLen ≥ DNS_MAX_QD :=
      show ¬ 0 ≥ DNS_MAX_QD by decide
    rw [dnsAddQdn, if_neg hroom, msgStoreStr, if_pos h]
  unfold buildReq
  rw [if_pos (by rw [hqdn]; decide), hqdn]
  rfl

theorem dnsMsgEncode_req {m m' : Msg} (pktMax : Nat) (ov : Overlay) (buf buf' : Mem)
    (h : IsReq m name) (h' : IsReq m' name) :
    (dnsMsgEncode pktMax ov m buf).1 = (dnsMsgEncode pktMax ov m' buf').1 := by
  have hstep := encodeMsg_inStep pktMax ov h h' (Enc.start buf) (Enc.start buf') ⟨rfl, rfl⟩
  unfold dnsMsgEncode
  cases hrun : encodeMsg pktMax ov m _ with
  | ok a s =>
    cases hrun' : encodeMsg pktMax ov m' _ with
    | ok b t =>
      rw [hrun, hrun'] at hstep
      exact congrArg some hstep.2.1
    | error e t =>
      rw [hrun, hrun'] at hstep
      cases hstep
  | error e s =>
    cases hrun' : encodeMsg pktMax ov m' _ with
    | ok b t =>
      rw [hrun, hrun'] at hstep
      cases hstep
    | error _ t => rfl

/-- The number of bytes that the query for a name has on a socket, if it can be made. -/
def requestLen (ov : Overlay) (isTcp : Bool) (name : Bytes) : Option Nat :=
  let pre := if isTcp then 2 else 0
  let req := buildReq ov true Msg.zero 0 name DNS_TYPE_A
  if req.1 ≠ 0 then none
  else
    match (dnsMsgEncode (DNS_PKTSIZE - pre) ov req.2 fun _ => 0).1 with
    | none => none
    | some len => if len = 0 then none else some (len + pre)

/-- Whether a query can be made, and its length, depends on its name and the kind of the socket
only. -/
theorem request_spec (ov : Overlay) (s : DnsSock) (msg : Msg) (tid : UInt16) (name : Bytes)
    (qtype : UInt16) :
    match requestLen ov s.isTcp name with
    | none =>
      (buildReq ov true msg tid name qtype).1 = DNS_ERR ∨
        ((buildReq ov true msg tid name qtype).1 = 0 ∧
          (encDnspkt ov s (buildReq ov true msg tid name qtype).2).1 = DNS_ERR ∧
          ∃ buf, (encDnspkt ov s (buildReq ov true msg tid name qtype).2).2 =
            { s with txBuf := buf })
    | some len =>
      0 < len ∧ (buildReq ov true msg tid name qtype).1 = 0 ∧
        (encDnspkt ov s (buildReq ov true msg tid name qtype).2).1 = 0 ∧
        ∃ buf, (encDnspkt ov s (buildReq ov true msg tid name qtype).2).2 =
          { s with txBuf := buf, txLen := len } := by
  unfold requestLen
  by_cases hname : name.length ≤ DNS_NAME_MAXSTR
  · obtain ⟨hzero, hreq⟩ := buildReq_isReq ov hname msg tid _
    obtain ⟨hzero', hreq'⟩ := buildReq_isReq ov hname _ 0 _
    have hlen := dnsMsgEncode_req (DNS_PKTSIZE - s.pre) ov (fun i => s.txBuf (i + s.pre))
      (fun _ => 0) hreq hreq'
    have hpre : (if s.isTcp = true then 2 else 0) = s.pre := rfl
    rw [if_neg (fun hne => hne hzero'), hpre, ← hlen, hzero]
    unfold encDnspkt
    simp only
    cases (dnsMsgEncode _ ov (buildReq ov true msg tid _ _).2 fun i => s.txBuf _).1 with
    | none => exact .inr ⟨trivial, rfl, _, rfl⟩
    | some len =>
      simp only
      by_cases hnil : len = 0
      · rw [if_pos hnil, if_pos hnil]
        exact .inr ⟨trivial, rfl, _, rfl⟩
      · rw [if_neg hnil, if_neg hnil]
        exact ⟨by omega, trivial, rfl, _, rfl⟩
  · have hlong : DNS_NAME_MAXSTR < name.length := not_le.1 hname
    rw [if_pos (by rw [buildReq_long ov hlong]; decide)]
    exact .inl (buildReq_long ov hlong msg tid _)

end CDbK8s.Resolv
