import CDbK8s.Dns.SoleRecord

/-!
# `DNS_TYPE_HINFO`, `DNS_TYPE_MX` and `DNS_TYPE_SRV` there and back

The encoder miscounts the RDATA of these types. The length of the second string of
`DNS_TYPE_HINFO` goes over the first character of the first string; two of the four bytes that
are reserved for the preference of `DNS_TYPE_MX` are never written; the target of `DNS_TYPE_SRV`
goes over weight and port.
-/

namespace CDbK8s.Dns

open Base Lib.ByteMem Lib.Exits List

variable {s' : Entering} {buf : Mem}
variable {s : Enc} {m : Msg} {n : Nat} {set : Option Bytes → Rr → Rr} {rr : Rr} {sc : Sc}

/-! ## The extent of a name -/

/-- The two bytes in front of `stop` are a jump. -/
def EndsInJump (pkt : Pkt) (stop : Nat) : Prop := 192 ≤ (pkt.buf (stop - 2)).toNat

section
variable {pkt : Pkt} {nlen : Nat}

theorem decodeNameLoop_jumped :
    ∀ (fuel : Nat) (c : NameCursor), c.njmp ≠ 0 →
      (decodeNameLoop pkt nlen fuel c).offset = c.offset := by
  intro fuel
  induction fuel with
  | zero => exact fun _ _ => rfl
  | succ fuel ih =>
    intro c hjump
    rw [decodeNameLoop, nameStep]
    simp only [if_neg hjump]
    split_ifs
    · rfl
    · rfl
    · rfl
    · rfl
    · exact ih _ (Nat.succ_ne_zero _)
    · rfl
    · rfl
    · rfl
    · rfl
    · rfl
    · exact ih _ hjump
    · exact ih _ hjump
    · rfl

/-- A name has fewer characters than bytes that the decoder moves over, unless it ends in a jump. -/
theorem decodeNameLoop_extent :
    ∀ (fuel : Nat) (c : NameCursor) (out : Bytes) (rc : Nat),
      (decodeNameLoop pkt nlen fuel c).res = .ok (out, rc) → c.njmp = 0 → c.offset = c.idx →
      out.length + c.idx < c.name.length + (decodeNameLoop pkt nlen fuel c).offset ∨
        EndsInJump pkt (decodeNameLoop pkt nlen fuel c).offset := by
  intro fuel
  induction fuel with
  | zero =>
    intro c out rc h
    cases h
  | succ fuel ih =>
    intro c out rc h hfirst hsame
    rw [decodeNameLoop, nameStep] at h ⊢
    simp only [if_pos hfirst, hsame] at h ⊢
    split_ifs at h ⊢ with hidx hptr hend hlimit hmin hmax hlong hspace hzero hnone hfull hmore
    · -- a jump
      dsimp only
      rw [decodeNameLoop_jumped _ _ (Nat.succ_ne_zero _)]
      exact .inr hptr
    · cases h
      refine .inl ?_
      dsimp only
      omega
    · -- a label, with a dot behind it
      refine (ih _ _ _ h hfirst rfl).imp_left fun hlt => ?_
      dsimp only at hlt ⊢
      rw [length_append, length_append, length_readBytes, length_singleton] at hlt
      omega
    · refine (ih _ _ _ h hfirst rfl).imp_left fun hlt => ?_
      dsimp only at hlt ⊢
      rw [length_append, length_readBytes] at hlt
      omega

theorem decodeName_extent {offset rc : Nat} {out : Bytes}
    (h : (decodeName pkt offset nlen).res = .ok (out, rc)) :
    out.length < (decodeName pkt offset nlen).offset - offset ∨
      EndsInJump pkt (decodeName pkt offset nlen).offset := by
  refine (decodeNameLoop_extent _ _ _ _ h rfl rfl).imp_left fun hlt => ?_
  exact Nat.lt_sub_of_add_lt (hlt.trans_eq (zero_add _))

end

/-! ## Encoding with room to spare -/

section
variable {pktMax : Nat} {ov : Overlay} {m : Msg} {sc : Sc} {rr : Rr} {buf : Mem} {s : Enc}

theorem mkspace_pass {len : Nat} (h : s.pktLen + len ≤ pktMax) :
    dnsEncMkspace pktMax len s = .ok s.pktLen { s with pktLen := s.pktLen + len } :=
  if_neg (not_lt.2 h)

theorem retspace_pass {len : Nat} (h : len ≤ s.pktLen) :
    dnsEncRetspace len s = .ok () { s with pktLen := s.pktLen - len } :=
  if_neg (not_lt.2 h)

theorem putName_pass {w : Nat} {name : Option Bytes}
    (h : (encodeName s.table w (some (cstring name))).ok = true) :
    ∃ s', putName pktMax w name s =
      .ok (w + (encodeName s.table w (some (cstring name))).wire.length) s' ∧
      s'.pktLen = s.pktLen :=
  ⟨_, if_pos h, rfl⟩

theorem unused_le {w len used : Nat} (hused : used ≤ len) (hlen : len ≤ 1000) :
    sizeSub len (w + used - w) ≤ len := by
  unfold sizeSub
  omega

theorem dnsEncName_runs {name : Option Bytes} (hshort : ShortStr (cstring name))
    (hok : (encodeName s.table s.pktLen (some (cstring name))).ok = true)
    (hroom : s.pktLen + DNS_NAME_MAXLEN ≤ pktMax) : ∃ s', dnsEncName pktMax name s = .ok () s' := by
  obtain ⟨s1, hname, hpkt⟩ := @putName_pass _
    { s with pktLen := s.pktLen + DNS_NAME_MAXLEN } s.pktLen _ hok
  have hwire := length_encodeName_le (t := s.table) (w := s.pktLen) hshort
  refine ⟨_, (bind_ok (mkspace_pass hroom)).trans ((bind_ok hname).trans (retspace_pass ?_))⟩
  rw [hpkt]
  exact (unused_le hwire (by decide)).trans (Nat.le_add_left _ _)

theorem encodeRrHdr_runs (hshort : ShortStr (cstring rr.name))
    (hok : (encodeName s.table s.pktLen (some (cstring rr.name))).ok = true)
    (hroom : s.pktLen + 265 ≤ pktMax) :
    ∃ rdlenPtr s', encodeRrHdr pktMax rr s = .ok rdlenPtr s' := by
  obtain ⟨s1, hname, hpkt⟩ := @putName_pass _ { s with pktLen := s.pktLen + _ } s.pktLen _ hok
  have hwire := length_encodeName_le (t := s.table) (w := s.pktLen) hshort
  have hret : ∀ s2 : Enc, s2.pktLen = s1.pktLen → sizeSub (DNS_NAME_MAXLEN + 10) (s.pktLen +
        (encodeName s.table s.pktLen (some (cstring rr.name))).wire.length + 10 - s.pktLen) ≤
      s2.pktLen := by
    intro s2 hsame
    rw [hsame, hpkt]
    exact (unused_le (Nat.add_le_add_right hwire 10) (by decide)).trans (Nat.le_add_left _ _)
  exact ⟨_, _, (bind_ok (mkspace_pass hroom)).trans ((bind_ok hname).trans
    ((bind_ok rfl).trans (bind_ok (retspace_pass (hret _ rfl)))))⟩

theorem Sole.encodes (h : Sole ov m sc rr) (pktMax : Nat) (buf : Mem) (hroom : 277 ≤ pktMax)
    (hok : (encodeName [] DNS_HDR_LEN (some (cstring rr.name))).ok = true)
    (hrdata : ∀ s : Enc, s.pktLen = soleRdata rr →
      s.table = (encodeName [] DNS_HDR_LEN (some (cstring rr.name))).table →
      ∃ s', encodeRdata pktMax ov rr (soleRdata rr - 2) s = .ok () s') :
    ∃ n, (dnsMsgEncode pktMax ov m buf).1 = some n := by
  have hspace : dnsEncMkspace pktMax DNS_HDR_LEN (Enc.start buf) = _ :=
    mkspace_pass (show 0 + 12 ≤ pktMax by omega)
  have hhead : ∃ s1, encodeHdr pktMax (syncHdr m) (Enc.start buf) = .ok () s1 :=
    ⟨_, (bind_ok hspace).trans rfl⟩
  obtain ⟨s1, hhdr⟩ := hhead
  obtain ⟨htable, hpkt, -⟩ := encodeHdr_ok hhdr
  have hpos : DNS_HDR_LEN = 12 := rfl
  obtain ⟨rdlenPtr, s2, hfields⟩ := @encodeRrHdr_runs pktMax rr _ h.short.1
    (by rw [htable, hpkt]; exact hok) (by omega)
  obtain ⟨w, hw, rfl, hlaid⟩ := encodeRrHdr_laid h.short.1 hfields
  rw [htable, hpkt] at hw
  have hstart : s2.pktLen = soleRdata rr := by rw [hlaid.pktLen, hw, soleRdata]
  have hptr : w + 8 = soleRdata rr - 2 := by
    rw [hw]
    rfl
  obtain ⟨s3, hrun⟩ := hrdata s2 hstart (by rw [hlaid.table, htable, hpkt])
  rw [← hptr] at hrun
  have hrr : ∃ s4, dnsRrEncode pktMax ov rr s1 = .ok () s4 :=
    ⟨_, (bind_ok hfields).trans ((bind_ok rfl).trans ((bind_ok hrun).trans
      ((bind_ok rfl).trans rfl)))⟩
  obtain ⟨s4, hrr⟩ := hrr
  have hqd : encodeQd pktMax m.questions s1 = .ok () s1 := by
    rw [h.questions]
    rfl
  have hall : encodeMsg pktMax ov m (Enc.start buf) = .ok () s4 := by
    rw [encodeMsg_eq, h.allRecs]
    exact (bind_ok ((bind_ok hhdr).trans hqd)).trans ((bind_ok hrr).trans rfl)
  refine ⟨s4.pktLen, ?_⟩
  unfold dnsMsgEncode
  rw [hall]

end

/-! ## Adding with room to spare -/

section
variable {ov : Overlay} {src : Rr}

theorem addNeeded_pass {s : Adding} {name : Option Bytes} (set : Option Bytes → Rr → Rr)
    (h : Storable s.names (cstring name)) :
    addNeeded name set s =
      .ok () ⟨s.names ++ cstring name ++ [0], set (some (cstring name)) s.rr⟩ := by
  refine (bind_ok (addName_eq _ set s)).trans ?_
  rw [keptStr, storeAfter, if_pos h, if_pos h]
  rfl

theorem dnsAddRr_run {s : Adding} (hfree : (m.sect sc).count < DNS_MAX_RR)
    (h : addRr ov src ⟨m.names, (m.sect sc).slots (m.sect sc).count⟩ = .ok () s) :
    (dnsAddRr ov m sc src).1 = 0 := by
  unfold dnsAddRr
  rw [if_neg (not_le.2 hfree), h]

theorem dnsAddRr_accepts (sc : Sc) (hname : ShortStr (cstring src.name))
    (hrdata : ∀ s : Adding, s.names.length ≤ 254 →
      ∃ s', addRdata ov src.type src.rdata s = .ok () s') :
    ∃ m, dnsAddRr ov (dnsMsgReset Msg.zero) sc src = (0, m) := by
  have hmax : DNS_NAME_MAXSTR = 253 := rfl
  have hpdu : DNS_MAX_PDUSIZE = 2048 := rfl
  unfold ShortStr at hname
  have hstore : Storable [] (cstring src.name) := ⟨hname, by rw [length_nil]; omega⟩
  have howner := @addNeeded_pass ⟨[], Rr.zero⟩ _ (fun str rr => { rr with name := str }) hstore
  have hlen : ([] ++ cstring src.name ++ [0] : Bytes).length ≤ 254 := by
    simp
    omega
  obtain ⟨s', hrun⟩ := hrdata ⟨[] ++ cstring src.name ++ [0],
    { Rr.zero with
      name := some _, type := src.type, cls := src.cls, ttl := src.ttl }⟩ hlen
  have hadd : addRr ov src ⟨[], Rr.zero⟩ = .ok () s' :=
    (bind_ok howner).trans ((bind_ok rfl).trans hrun)
  have hslot : ((dnsMsgReset Msg.zero).sect sc).count = 0 ∧
      ((dnsMsgReset Msg.zero).sect sc).slots 0 = Rr.zero := by cases sc <;> exact ⟨rfl, rfl⟩
  refine ⟨_, Prod.ext ?_ rfl⟩
  refine dnsAddRr_run (s := s') (by rw [hslot.1]; exact Nat.zero_lt_succ 31) ?_
  rw [hslot.1, hslot.2]
  exact hadd

end

/-! ## The name at the end of the RDATA -/

theorem nameRdata_kept {pkt : Pkt} {field : Location} {s : Entering} {rc : Nat}
    (h : nameRdata pkt .load field set s = .ok rc s') :
    ∃ text k, (decodeName pkt s.offset (sizeSub DNS_MSG_SIZE s.wptr)).res = .ok (text, k) ∧
      s'.offset = (decodeName pkt s.offset (sizeSub DNS_MSG_SIZE s.wptr)).offset ∧
      s'.rr = set (some (cstr (rooted text))) s.rr := by
  obtain ⟨name, s1, hfield, h⟩ := of_bind_ok h
  obtain ⟨_, s2, hkeep, h⟩ := of_bind_ok h
  cases h
  unfold nameField at hfield
  dsimp only at hfield
  cases hres : (decodeName pkt s.offset _).res with
  | error _ =>
    rw [hres] at hfield
    cases hfield
  | ok r =>
    obtain ⟨text, k⟩ := r
    have hcount := (decodeName_count hres).1
    rw [hres] at hfield
    dsimp only at hfield
    have hname : name.text = rooted text ∧ s1.rr = s.rr ∧
        s1.offset = (decodeName pkt s.offset (sizeSub DNS_MSG_SIZE s.wptr)).offset := by
      split_ifs at hfield with hlong hroom
      · cases hfield
        have hne : text ≠ [] := by
          rintro rfl
          exact hlong hcount
        exact ⟨(if_neg hne).symm, rfl, rfl⟩
      · cases hfield
        have hnil : text = [] := length_eq_zero_iff.1 (by omega)
        exact ⟨(if_pos hnil).symm, rfl, rfl⟩
    obtain ⟨htext, hrr, hoffset⟩ := hname
    by_cases hstore : Storable s1.names (cstr name.text)
    · rw [keepName_ok fun _ => hstore] at hkeep
      cases hkeep
      refine ⟨text, k, rfl, hoffset, ?_⟩
      show set (some (cstr name.text)) s1.rr = _
      rw [htext, hrr]
    · rw [keepName_full hstore] at hkeep
      cases hkeep

/-! ## The property -/

/-- The string `kept` is there, and has the characters of `str`. -/
def SameStr (str kept : Option Bytes) : Prop := kept ≠ none ∧ cstring kept = cstring str

/-- The RDATA `d` is that of `rr`; strings are compared up to their ends. -/
def SameMember (ov : Overlay) (rr : Rr) (d : Rdata) : Prop :=
  if rr.type = DNS_TYPE_HINFO then
    SameStr (ov.hinfo rr.rdata).cpuStr (ov.hinfo d).cpuStr ∧
      SameStr (ov.hinfo rr.rdata).osStr (ov.hinfo d).osStr
  else SameRdata ov rr d

/-- The record is read back, from any section of a zeroed message that it is added to, encoded to
any buffer, and decoded into a zeroed message. -/
def ReadBack (ov : Overlay) (src : Rr) : Prop :=
  ∀ (sc : Sc) (m : Msg) (pktMax : Nat) (buf : Mem) (n : Nat),
    dnsAddRr ov (dnsMsgReset Msg.zero) sc src = (0, m) → (dnsMsgEncode pktMax ov m buf).1 = some n →
    ∃ out, ((dnsMsgDecode ⟨(dnsMsgEncode pktMax ov m buf).2.mem, n⟩ ov Msg.zero).2.msg.sect sc).recs =
        [out] ∧ out.type = src.type ∧ SameMember ov src out.rdata

/-- The name goes into the store and on the wire. -/
def Sendable (name : Option Bytes) : Prop := ShortStr (cstring name) ∧ LabelsFit (cstring name)

theorem Sendable.wire {name : Option Bytes} (h : Sendable name) {t : List Suffix} {w : Nat}
    (ht : Apart t (cstring name)) :
    (encodeName t w (some (cstring name))).ok = true ∧
      (encodeName t w (some (cstring name))).wire = wireOf (labelsOf (cstring name)) := by
  have hmax : DNS_NAME_MAXSTR = 253 := rfl
  have hlen : (cstring name).length ≤ DNS_NAME_MAXSTR := h.1
  obtain ⟨hok, hwire⟩ := encodeNameLoop_labels w _ t w _ (Nat.lt_succ_self _) (by omega) ht
  exact ⟨hok.2 h.2, hwire (hok.2 h.2)⟩

theorem Sendable.ok {name : Option Bytes} (h : Sendable name) (t : List Suffix) (w : Nat) :
    (encodeName t w (some (cstring name))).ok = true :=
  encodeNameLoop_ok w _ t w _ h.2 (Nat.lt_succ_self _)

theorem Sole.sendable_owner {ov : Overlay} {mem : Mem} {calls : List (Nat × Bytes)}
    (h : Sole ov m sc rr) (hlaid : MsgLaid mem ov m n calls) : Sendable rr.name := by
  have hsmall := hlaid.small h.stored
  obtain ⟨t, p, c, t', c', hqd, hlays⟩ := hlaid.sole h.recs
  rw [h.questions] at hqd
  obtain ⟨rfl, rfl, -⟩ := lays_nil.1 hqd
  exact ⟨h.short.1, (hlays.labelsFit (h.short.pieces _) (by omega) nofun).1 _ mem_cons_self⟩

theorem Sole.sendable {ov : Overlay} {mem : Mem} {calls : List (Nat × Bytes)} {name : Option Bytes}
    (h : Sole ov m sc rr) (hlaid : MsgLaid mem ov m n calls)
    (hname : Piece.name (cstring name) ∈ rdataPieces ov rr) : Sendable name := by
  have hsmall := hlaid.small h.stored
  obtain ⟨t, p, c, t', c', hqd, hlays⟩ := hlaid.sole h.recs
  rw [h.questions] at hqd
  obtain ⟨rfl, rfl, -⟩ := lays_nil.1 hqd
  have hmem : ∀ rdlen, Piece.name (cstring name) ∈ rrPieces ov rr rdlen := fun rdlen =>
    .tail _ (.tail _ hname)
  refine ⟨h.short.2 _ hname, ?_⟩
  exact (hlays.labelsFit (h.short.pieces _) (by omega) nofun).1 _ (hmem _)

/-- A record that is always read back is read back alone in its message, from a packet of at most
1024 bytes: it is accepted and encoded if its RDATA is. -/
theorem ReadBack.sole {ov : Overlay} {src : Rr} (hback : ReadBack ov src) (howner : Sendable src.name)
    (hadd : ∀ s : Adding, s.names.length ≤ 254 → ∃ s', addRdata ov src.type src.rdata s = .ok () s')
    (hrdata : ∀ m rr, Sole ov m .an rr → rr = Given.slot ov ⟨[], src⟩ → soleRdata rr ≤ 277 →
      ∀ s : Enc, s.pktLen = soleRdata rr →
        s.table = (encodeName [] DNS_HDR_LEN (some (cstring src.name))).table →
        ∃ s', encodeRdata 1024 ov rr (soleRdata rr - 2) s = .ok () s') :
    ∃ m rr n out, rr = Given.slot ov ⟨[], src⟩ ∧ cstring rr.name = cstring src.name ∧
      Sole ov m .an rr ∧ (dnsMsgEncode 1024 ov m fun _ => 0).1 = some n ∧
      ((dnsMsgDecode ⟨(dnsMsgEncode 1024 ov m fun _ => 0).2.mem, n⟩ ov Msg.zero).2.msg.sect .an).recs =
        [out] ∧ SameMember ov src out.rdata := by
  obtain ⟨m, hadd⟩ := dnsAddRr_accepts .an howner.1 hadd
  have hsole := sole_of_added hadd
  have hname : cstring (Given.slot ov ⟨[], src⟩).name = cstring src.name := cstring_some_cstring _
  have hwire := length_encodeName_le (t := []) (w := DNS_HDR_LEN) howner.1
  have hlen : DNS_NAME_MAXLEN = 255 := rfl
  have hhdr : DNS_HDR_LEN = 12 := rfl
  have hstart : soleRdata (Given.slot ov ⟨[], src⟩) ≤ 277 := by
    rw [soleRdata, hname]
    omega
  obtain ⟨n, hn⟩ := hsole.encodes 1024 (fun _ => 0) (by decide) (by rw [hname]; exact howner.ok _ _)
    (by rw [hname]; exact hrdata m _ hsole rfl hstart)
  obtain ⟨out, hout, -, hsame⟩ := hback .an m 1024 _ n hadd hn
  exact ⟨m, _, n, out, rfl, hname, hsole, hn, hout, hsame⟩

/-! ## `DNS_TYPE_MX` -/

section
variable {pktMax : Nat} {ov : Overlay} {rdata : Rdata} {owner : Option Bytes} {cls rdlen : UInt16}
  {ttl : UInt32}

theorem encodeRdata_mx (h : rr.type = DNS_TYPE_MX) (rdlenPtr : Nat) :
    encodeRdata pktMax ov rr rdlenPtr = encodeMx pktMax (ov.mx rr.rdata) := by
  unfold encodeRdata
  rw [h]
  rfl

theorem putName_runs {len : Nat} (bs : Bytes) {name : Option Bytes}
    (hshort : ShortStr (cstring name))
    (hok : (encodeName s.table (s.pktLen + len) (some (cstring name))).ok = true)
    (hroom : s.pktLen + len + DNS_NAME_MAXLEN ≤ pktMax) :
    ∃ s', (do
      let w ← dnsEncMkspace pktMax len
      put pktMax w bs
      dnsEncName pktMax name) s = .ok () s' := by
  obtain ⟨s', hname⟩ := @dnsEncName_runs _
    (after (put pktMax s.pktLen bs { s with pktLen := s.pktLen + len })) name hshort hok hroom
  exact ⟨s', (bind_ok (mkspace_pass ((Nat.le_add_right _ _).trans hroom))).trans
    ((bind_ok rfl).trans hname)⟩

theorem encodeMx_gap {v : Mx} {s' : Enc} (hshort : ShortStr (cstring v.name))
    (h : encodeMx pktMax v s = .ok () s') :
    s'.mem (s.pktLen + 2) = s.mem (s.pktLen + 2) ∧ s.pktLen + 4 ≤ s'.pktLen := by
  obtain ⟨w, s1, hspace, h⟩ := of_bind_ok h
  obtain ⟨_, s2, hput, hname⟩ := of_bind_ok h
  obtain ⟨rfl, rfl⟩ := mkspace_ok hspace
  obtain ⟨hmem, hpkt, -⟩ := put_ok hput
  have hemits := dnsEncName_emits hshort hname
  have hle := hemits.le
  rw [hpkt] at hle
  refine ⟨?_, hle⟩
  rw [hemits.below _ (Nat.zero_le _) (by rw [hpkt]; show _ < s.pktLen + 4; omega), hmem]
  exact writeBytes_of_outside _ _ _ _ (.inr (by rw [length_encU16]))

/-- If the byte behind the preference is zero, the name ends there for the decoder, and the name
that was written is too much. -/
theorem mx_refused (h : Sole ov m sc rr) (htype : rr.type = DNS_TYPE_MX)
    (hname : Labelled (cstring rr.name)) (hn : (dnsMsgEncode pktMax ov m buf).1 = some n)
    (hbuf : buf (soleRdata rr + 2) = 0) (out : Rr) :
    ((dnsMsgDecode ⟨(dnsMsgEncode pktMax ov m buf).2.mem, n⟩ ov Msg.zero).2.msg.sect sc).recs ≠
      [out] := by
  intro hout
  obtain ⟨s, s', hrun⟩ := h.run hn
  obtain ⟨-, text, e, hoffset, hwptr, -, -, -, hdecode⟩ := h.decode
    (by rw [htype]; decide) hname (dnsMsgEncode_laid h.stored.short hn) _
  obtain ⟨rc, e', hrdata, hstop, -⟩ := (hdecode out).1 hout
  generalize (dnsMsgEncode pktMax ov m buf).2.mem = mem at *
  have hshort : ShortStr (cstring (ov.mx rr.rdata).name) := by
    refine h.short.2 _ ?_
    unfold rdataPieces
    rw [htype]
    exact .tail _ (.tail _ mem_cons_self)
  have hencode := hrun.rdata
  rw [encodeRdata_mx htype] at hencode
  obtain ⟨hgap, hle⟩ := encodeMx_gap hshort hencode
  rw [hrun.start] at hgap hle
  rw [hrun.stop] at hle
  -- the byte behind the preference is not written, and read as the root
  have hzero : mem (soleRdata rr + 2) = 0 := by
    rw [hrun.kept _ (Nat.le_add_right _ _), hgap, hrun.above _ (Nat.le_add_right _ _), hbuf]
  have hmx : decodeRdata ⟨mem, n⟩ .load sc ov rr.type text rr.cls rr.ttl (n - soleRdata rr) n
      text.length = decodeMx ⟨mem, n⟩ .load (n - soleRdata rr) := by
    rw [htype]
    rfl
  rw [hmx] at hrdata
  obtain ⟨_, e1, hcheck, hfield⟩ := of_bind_ok hrdata
  obtain ⟨-, rfl⟩ := not_of_stopIf hcheck
  obtain ⟨name, k, -, hend, -⟩ := nameRdata_kept (show nameRdata ⟨mem, n⟩ .load .mx _
    { e1 with past := e1.past || Pkt.beyond ⟨mem, n⟩ e1.offset 2, offset := e1.offset + 2 } = .ok rc e'
    from hfield)
  have hmsg : DNS_MSG_SIZE = 1124 := rfl
  have hpos : 0 < sizeSub DNS_MSG_SIZE e1.wptr := by
    rw [sizeSub_of_le (by omega) (by decide)]
    omega
  have hwire : Wire ⟨mem, n⟩ (soleRdata rr + 2) [] 0 (soleRdata rr + 2 + 1) :=
    .root (show soleRdata rr + 2 < n by omega) hzero
  have hroot := decodeName_wire hwire hpos
  rw [hoffset, hroot] at hend
  dsimp only at hend
  omega

theorem slot_mx (owner : Option Bytes) (cls : UInt16) (ttl : UInt32) (rdlen : UInt16) :
    cstring (ov.mx (Given.slot ov ⟨[], ⟨owner, DNS_TYPE_MX, cls, ttl, rdlen, rdata⟩⟩).rdata).name =
      cstring (ov.mx rdata).name := by
  show cstring (ov.mx (.mx ⟨(ov.mx rdata).pref, some (cstring (ov.mx rdata).name)⟩)).name = _
  rw [ov.mx_mx]
  exact cstring_some_cstring _

theorem mx_lost (howner : Sendable owner) (hlabels : Labelled (cstring owner))
    (h : Sendable (ov.mx rdata).name) :
    ¬ ReadBack ov ⟨owner, DNS_TYPE_MX, cls, ttl, rdlen, rdata⟩ := by
  intro hback
  have hmax : DNS_NAME_MAXSTR = 253 := rfl
  have hpdu : DNS_MAX_PDUSIZE = 2048 := rfl
  have hshort : (cstring (ov.mx rdata).name).length ≤ DNS_NAME_MAXSTR := h.1
  have hstore : ∀ s : Adding, s.names.length ≤ 254 →
      Storable s.names (cstring (ov.mx rdata).name) := fun s hs => ⟨h.1, by omega⟩
  obtain ⟨m, rr, n, out, rfl, hname, hsole, hn, hout, -⟩ := hback.sole howner
    (fun s hs => ⟨_, addNeeded_pass _ (hstore s hs)⟩) (by
      rintro m rr - rfl hstart s hs -
      have hname := @slot_mx ov rdata owner cls ttl rdlen
      have hsend : Sendable (ov.mx (Given.slot ov ⟨[], _⟩).rdata).name := ⟨hname ▸ h.1, hname ▸ h.2⟩
      rw [encodeRdata_mx rfl]
      exact putName_runs _ hsend.1 (hsend.ok _ _) (show s.pktLen + 4 + 255 ≤ 1024 by omega))
  exact mx_refused hsole rfl (hname ▸ hlabels) hn rfl out hout

/-! ## `DNS_TYPE_SRV` -/

theorem length_wireOf {labels : List Bytes} (h : labels ≠ []) :
    (wireOf labels).length = (dotted labels).length + 2 := by
  induction labels with
  | nil => exact absurd rfl h
  | cons l ls ih =>
    cases ls with
    | nil => simp [wireOf, dotted]
    | cons _ _ =>
      have hrest := ih (cons_ne_nil _ _)
      rw [dotted_cons_cons, length_append, length_cons]
      unfold wireOf at hrest ⊢
      rw [flatMap_cons, append_assoc, length_append, length_cons]
      omega

theorem encodeSrv_target {v : Srv} {s' : Enc} (hsend : Sendable v.name)
    (ht : Apart s.table (cstring v.name)) (h : encodeSrv pktMax v s = .ok () s') :
    Holds s'.mem (s.pktLen + 2) (wireOf (labelsOf (cstring v.name))) ∧
      s'.pktLen = s.pktLen + 2 + (wireOf (labelsOf (cstring v.name))).length := by
  obtain ⟨w, s1, hspace, h⟩ := of_bind_ok h
  obtain ⟨_, s2, hput, hname⟩ := of_bind_ok h
  obtain ⟨rfl, rfl⟩ := mkspace_ok hspace
  obtain ⟨-, hpkt, htable, -⟩ := put_ok hput
  obtain ⟨calls, -, hlays⟩ := (dnsEncName_emits hsend.1 hname).lays
  obtain ⟨-, hheld, calls', -, hrest⟩ := lays_name.1 hlays
  obtain ⟨-, hstop, -⟩ := lays_nil.1 hrest
  rw [htable, hpkt, (hsend.wire ht).2] at hheld hstop
  exact ⟨hheld, hstop⟩

/-- If a record of `DNS_TYPE_SRV` is read back with its target, the target ends in a jump for the
decoder: it has four characters too few otherwise. -/
theorem srv_jumps {out : Rr} (h : Sole ov m sc rr) (htype : rr.type = DNS_TYPE_SRV)
    (hname : Labelled (cstring rr.name)) (hsend : Sendable (ov.srv rr.rdata).name)
    (ht : Apart (encodeName [] DNS_HDR_LEN (some (cstring rr.name))).table
      (cstring (ov.srv rr.rdata).name)) (hn : (dnsMsgEncode pktMax ov m buf).1 = some n)
    (hout : ((dnsMsgDecode ⟨(dnsMsgEncode pktMax ov m buf).2.mem, n⟩ ov Msg.zero).2.msg.sect sc).recs =
      [out]) (hkept : NameKept (ov.srv rr.rdata).name (ov.srv out.rdata).name) :
    ∃ mem, n = soleRdata rr + 2 + (wireOf (labelsOf (cstring (ov.srv rr.rdata).name))).length ∧
      Holds mem (soleRdata rr + 2) (wireOf (labelsOf (cstring (ov.srv rr.rdata).name))) ∧
      5 ≤ (wireOf (labelsOf (cstring (ov.srv rr.rdata).name))).length ∧ EndsInJump ⟨mem, n⟩ n := by
  obtain ⟨s, s', hrun⟩ := h.run hn
  obtain ⟨-, text, e, hoffset, -, -, -, -, hdecode⟩ := h.decode
    (by rw [htype]; decide) hname (dnsMsgEncode_laid h.stored.short hn) _
  obtain ⟨rc, e', hrdata, hstop, rfl⟩ := (hdecode out).1 hout
  generalize (dnsMsgEncode pktMax ov m buf).2.mem = mem at *
  have hencode := hrun.rdata
  have hsrv : encodeRdata pktMax ov rr (soleRdata rr - 2) = encodeSrv pktMax (ov.srv rr.rdata) :=
    encodeRdata_srv htype _
  rw [hsrv] at hencode
  rw [← hrun.table] at ht
  obtain ⟨hheld, hlen⟩ := encodeSrv_target hsend ht hencode
  rw [hrun.stop, hrun.start] at hlen
  rw [hrun.start] at hheld
  have hwire : Holds mem (soleRdata rr + 2) (wireOf (labelsOf (cstring (ov.srv rr.rdata).name))) :=
    holds_congr hheld fun i _ _ => hrun.kept i (by omega)
  have hcode : decodeRdata ⟨mem, n⟩ .load sc ov rr.type text rr.cls rr.ttl (n - soleRdata rr) n
      text.length = decodeSrv ⟨mem, n⟩ .load (n - soleRdata rr) := by
    rw [htype]
    rfl
  rw [hcode] at hrdata
  obtain ⟨_, e1, hcheck, hfield⟩ := of_bind_ok hrdata
  obtain ⟨hmin, rfl⟩ := not_of_stopIf hcheck
  obtain ⟨name, k, hres, hend, hrr⟩ := nameRdata_kept hfield
  rw [hrr, ov.srv_srv] at hkept
  dsimp only at hend hres
  obtain ⟨kept, hsome, hsame⟩ := hkept
  obtain rfl := Option.some.inj hsome
  -- the characters of the target, and those that were read
  have hne : cstring (ov.srv rr.rdata).name ≠ [] := by
    intro hnil
    rw [hnil] at hlen
    have hroot : (wireOf (labelsOf [])).length = 1 := rfl
    omega
  have hchars : (readBack (cstring (ov.srv rr.rdata).name)).length + 2 =
      (wireOf (labelsOf (cstring (ov.srv rr.rdata).name))).length := by
    simp [readBack, if_neg hne, canonical, length_wireOf (labelsOf_ne_nil hne)]
  have hread : (readBack (cstring (ov.srv rr.rdata).name)).length ≤ (rooted name).length := by
    rw [← hsame, length_map]
    exact (List.takeWhile_prefix _).length_le
  have hlong : (rooted name).length ≤ max 1 name.length := by
    unfold rooted
    split
    · exact Nat.le_max_left _ _
    · exact Nat.le_max_right _ _
  refine ⟨mem, hlen, hwire, by omega, ?_⟩
  rcases decodeName_extent hres with hshort | hjump
  · omega
  · rw [← hend, hstop] at hjump
    exact hjump

theorem wireOf_low {name : Bytes} (hfit : LabelsFit name) (hlow : ∀ c ∈ name, c.toNat < 192) :
    ∀ c ∈ wireOf (labelsOf name), c.toNat < 192 := by
  intro c hc
  rw [wireOf, mem_append, mem_flatMap, mem_singleton] at hc
  rcases hc with ⟨l, hl, hc⟩ | rfl
  · rcases mem_cons.1 hc with rfl | hc
    · have hlen : l.length ≤ 63 := hfit l hl
      rw [UInt8.toNat_ofNat']
      omega
    · exact hlow c (mem_of_mem_labelsOf _ _ (Nat.lt_succ_self _) l hl hc)
  · decide

/-- The decoder does not take the end of the target for a jump: it shares no end with the owner's
name, which would be compressed, and its bytes are below those of a jump. -/
def Jumpless (ov : Overlay) (src : Rr) : Prop :=
  Apart (encodeName [] DNS_HDR_LEN (some (cstring src.name))).table
      (cstring (ov.srv src.rdata).name) ∧
    ∀ c ∈ cstring (ov.srv src.rdata).name, c.toNat < 192

theorem slot_srv (owner : Option Bytes) (cls : UInt16) (ttl : UInt32) (rdlen : UInt16) :
    cstring (ov.srv (Given.slot ov ⟨[], ⟨owner, DNS_TYPE_SRV, cls, ttl, rdlen, rdata⟩⟩).rdata).name =
      cstring (ov.srv rdata).name := by
  show cstring (ov.srv (.srv { ov.srv rdata with name := some (cstring (ov.srv rdata).name) })).name = _
  rw [ov.srv_srv]
  exact cstring_some_cstring _

theorem srv_lost (howner : Sendable owner) (hlabels : Labelled (cstring owner))
    (hsend : Sendable (ov.srv rdata).name)
    (hplain : Jumpless ov ⟨owner, DNS_TYPE_SRV, cls, ttl, rdlen, rdata⟩) :
    ¬ ReadBack ov ⟨owner, DNS_TYPE_SRV, cls, ttl, rdlen, rdata⟩ := by
  intro hback
  obtain ⟨ht, hlow⟩ := hplain
  have hmax : DNS_NAME_MAXSTR = 253 := rfl
  have hpdu : DNS_MAX_PDUSIZE = 2048 := rfl
  have hlen : DNS_NAME_MAXLEN = 255 := rfl
  have htarget : (cstring (ov.srv rdata).name).length ≤ DNS_NAME_MAXSTR := hsend.1
  have hstore : ∀ s : Adding, s.names.length ≤ 254 →
      Storable s.names (cstring (ov.srv rdata).name) := fun s hs => ⟨hsend.1, by omega⟩
  have hname := @slot_srv ov rdata owner cls ttl rdlen
  have hsend' : Sendable (ov.srv (Given.slot ov ⟨[], _⟩).rdata).name :=
    ⟨hname ▸ hsend.1, hname ▸ hsend.2⟩
  obtain ⟨m, rr, n, out, hrr, hslot, hsole, hn, hout, hsame⟩ := hback.sole howner
    (fun s hs => ⟨_, addNeeded_pass _ (hstore s hs)⟩) (by
      rintro m rr - rfl hstart s hs htable
      rw [encodeRdata_srv rfl]
      refine putName_runs _ hsend'.1 (hsend'.wire ?_).1 (by omega)
      rw [htable, hname]
      exact ht)
  rw [← hrr] at hname hsend'
  have hkept : NameKept (ov.srv rr.rdata).name (ov.srv out.rdata).name := by
    obtain ⟨-, -, -, text, hsome, htext⟩ := hsame
    exact ⟨text, hsome, by rw [hname]; exact htext⟩
  obtain ⟨mem, hstop, hheld, hmin, hjump⟩ := srv_jumps hsole (by rw [hrr]; rfl) (hslot ▸ hlabels) hsend'
    (by rw [hslot, hname]; exact ht) hn hout hkept
  rw [hname] at hstop hheld hmin
  -- the byte in front of the last one is a byte of the target
  have hbytes := wireOf_low hsend.2 hlow
  generalize wireOf (labelsOf (cstring (ov.srv rdata).name)) = W at hstop hheld hmin hbytes
  have hlt : W.length - 2 < W.length := by omega
  have hbyte := hheld.getD hlt 0
  rw [List.getD_eq_getElem?_getD, getElem?_eq_getElem hlt, Option.getD_some] at hbyte
  have hlast := hbytes _ (getElem_mem hlt)
  have hstop' : n - 2 = soleRdata rr + 2 + (W.length - 2) := by omega
  unfold EndsInJump at hjump
  dsimp only at hjump
  rw [hstop', hbyte] at hjump
  omega

/-! ## `DNS_TYPE_HINFO` -/

variable {pkt : Pkt}

/-- The bytes of the two strings: the second with its length, one byte behind the length of the
first. The last byte is one of the buffer, unless the first string is empty. -/
structure HinfoBytes (v : Hinfo) (old mem : Mem) (p : Nat) : Prop where
  cpuLen : mem p = UInt8.ofNat (cstring v.cpuStr).length
  osLen : mem (p + 1) = UInt8.ofNat (cstring v.osStr).length
  os : Holds mem (p + 2) (cstring v.osStr)
  last : cstring v.cpuStr ≠ [] →
    mem (p + 1 + (cstring v.cpuStr).length + (cstring v.osStr).length) =
      old (p + 1 + (cstring v.cpuStr).length + (cstring v.osStr).length)

theorem encodeHinfo_bytes {v : Hinfo} {s' : Enc} (h : encodeHinfo pktMax v s = .ok () s') :
    s'.pktLen = s.pktLen + (2 + (cstring v.cpuStr).length + (cstring v.osStr).length) ∧
      HinfoBytes v s.mem s'.mem s.pktLen := by
  obtain ⟨w, s1, hspace, h⟩ := of_bind_ok h
  obtain ⟨_, s2, hput1, h⟩ := of_bind_ok h
  obtain ⟨_, s3, hput2, h⟩ := of_bind_ok h
  obtain ⟨_, s4, hput3, hput4⟩ := of_bind_ok h
  obtain ⟨rfl, rfl⟩ := mkspace_ok hspace
  obtain ⟨hmem1, hpkt1, -⟩ := put_ok hput1
  obtain ⟨hmem2, hpkt2, -⟩ := put_ok hput2
  obtain ⟨hmem3, hpkt3, -⟩ := put_ok hput3
  obtain ⟨hmem4, hpkt4, -⟩ := put_ok hput4
  refine ⟨by rw [hpkt4, hpkt3, hpkt2, hpkt1], ?_, ?_, ?_, fun hcpu => ?_⟩
  · rw [hmem4, hmem3, writeBytes_of_outside _ _ _ _ (.inl (by omega)), hmem2,
      writeBytes_of_outside _ _ _ _ (.inl (by omega)), hmem1]
    exact (holds_cons.1 (holds_writeBytes _ _ _)).1
  · rw [hmem4, hmem3]
    exact (holds_cons.1 (holds_writeBytes _ _ _)).1
  · rw [hmem4]
    exact holds_writeBytes _ _ _
  · have hpos := length_pos_iff.2 hcpu
    rw [hmem4, writeBytes_of_outside _ _ _ _ (.inr (by omega)), hmem3,
      writeBytes_of_outside _ _ _ _ (.inr (by rw [length_singleton]; omega)), hmem2,
      writeBytes_of_outside _ _ _ _ (.inr (by omega)), hmem1,
      writeBytes_of_outside _ _ _ _ (.inr (by rw [length_singleton]; omega))]

theorem encodeRdata_hinfo (h : rr.type = DNS_TYPE_HINFO) (rdlenPtr : Nat) :
    encodeRdata pktMax ov rr rdlenPtr = encodeHinfo pktMax (ov.hinfo rr.rdata) := by
  unfold encodeRdata
  rw [h]
  rfl

theorem keepHinfo_ok {bs : Bytes} {s : Entering} (h : keepHinfo set bs s = .ok () s') :
    s'.rr = set (some bs) s.rr ∧ s'.offset = s.offset := by
  by_cases hstore : Storable s.names bs
  · have hrun := (bind_ok (storeStr_ok hstore)).symm.trans h
    cases hrun
    exact ⟨rfl, rfl⟩
  · have hrun := (bind_ok (storeStr_full hstore)).symm.trans h
    cases hrun

theorem charString_kept {field : Location} {rdEnd : Nat} {s : Entering}
    (h : charString pkt .load field rdEnd n (keepHinfo set) s = .ok () s') :
    s'.offset = s.offset + 1 + (pkt.buf s.offset).toNat ∧
      s'.rr = set (some (readBytes pkt.buf (s.offset + 1) (pkt.buf s.offset).toNat)) s.rr := by
  obtain ⟨past, t, hkeep, rfl⟩ := charString_inv h
  obtain ⟨hrr, hoffset⟩ := keepHinfo_ok hkeep
  exact ⟨congrArg (· + _) hoffset, hrr⟩

theorem length_cstr_concat (bs : Bytes) : (cstr (bs ++ [0])).length ≤ bs.length := by
  unfold cstr
  rw [takeWhile_append]
  split
  · simp
  · exact (List.takeWhile_prefix _).length_le

theorem decodeRdata_hinfo {type : UInt16} (h : type = DNS_TYPE_HINFO) (mode : Mode) (sc : Sc)
    (name : Bytes) (cls : UInt16) (ttl : UInt32) (rdlen rdEnd rc : Nat) :
    decodeRdata pkt mode sc ov type name cls ttl rdlen rdEnd rc =
      (do decodeHinfo pkt mode ov rdlen rdEnd; pure rc) := by
  rw [h]
  rfl

theorem decodeHinfo_kept {rdlen rdEnd : Nat} {e e' : Entering}
    (h : decodeHinfo pkt .load ov rdlen rdEnd e = .ok () e') :
    e'.offset = e.offset + 1 + (pkt.buf e.offset).toNat + 1 +
        (pkt.buf (e.offset + 1 + (pkt.buf e.offset).toNat)).toNat ∧
      ov.hinfo e'.rr.rdata = ⟨some (readBytes pkt.buf (e.offset + 1) (pkt.buf e.offset).toNat),
          some (readBytes pkt.buf (e.offset + 1 + (pkt.buf e.offset).toNat + 1)
            (pkt.buf (e.offset + 1 + (pkt.buf e.offset).toNat)).toNat)⟩ := by
  obtain ⟨_, e1, hmin, hrest⟩ := of_bind_ok h
  obtain ⟨-, rfl⟩ := not_of_stopIf hmin
  obtain ⟨_, e2, hcpu, hrest⟩ := of_bind_ok hrest
  obtain ⟨_, _, hget, hrest⟩ := of_bind_ok hrest
  cases hget
  obtain ⟨_, e3, hmore, hos⟩ := of_bind_ok hrest
  obtain ⟨-, rfl⟩ := not_of_stopIf hmore
  obtain ⟨hoffset, hrr⟩ := charString_kept hcpu
  obtain ⟨hoffset', hrr'⟩ := charString_kept hos
  rw [hoffset] at hoffset' hrr'
  refine ⟨hoffset', ?_⟩
  rw [hrr', hrr]
  simp

theorem Sole.hinfo_short (h : Sole ov m sc rr) (htype : rr.type = DNS_TYPE_HINFO) :
    (cstring (ov.hinfo rr.rdata).cpuStr).length ≤ 253 ∧
      (cstring (ov.hinfo rr.rdata).osStr).length ≤ 253 := by
  have hmem : rr ∈ m.allRecs := by rw [h.allRecs]; exact mem_singleton_self _
  have hshort := (h.stored.allRecs hmem).2
  unfold Rr.strings rdataStrings at hshort
  rw [htype] at hshort
  exact ⟨hshort _ (.tail _ mem_cons_self), hshort _ (.tail _ (.tail _ mem_cons_self))⟩

/-- With a first string, a zeroed buffer and a second string, the last character of the second
string is lost; with no second string, the first character of the first one. -/
theorem hinfo_changed {out : Rr} (h : Sole ov m sc rr) (htype : rr.type = DNS_TYPE_HINFO)
    (hname : Labelled (cstring rr.name)) (hcpu : cstring (ov.hinfo rr.rdata).cpuStr ≠ [])
    (hn : (dnsMsgEncode pktMax ov m buf).1 = some n) (hbuf : ∀ i, buf i = 0)
    (hout : ((dnsMsgDecode ⟨(dnsMsgEncode pktMax ov m buf).2.mem, n⟩ ov Msg.zero).2.msg.sect sc).recs =
      [out]) :
    ¬ (cstring (ov.hinfo out.rdata).cpuStr = cstring (ov.hinfo rr.rdata).cpuStr ∧
      (cstring (ov.hinfo rr.rdata).osStr).length ≤ (cstring (ov.hinfo out.rdata).osStr).length) := by
  rintro ⟨hsame, hsame'⟩
  obtain ⟨s, s', hrun⟩ := h.run hn
  obtain ⟨-, text, e, hoffset, -, -, -, -, hdecode⟩ := h.decode
    (by rw [htype]; decide) hname (dnsMsgEncode_laid h.stored.short hn) _
  obtain ⟨rc, e', hrdata, hstop, rfl⟩ := (hdecode out).1 hout
  generalize (dnsMsgEncode pktMax ov m buf).2.mem = mem at *
  have hencode := hrun.rdata
  rw [encodeRdata_hinfo htype] at hencode
  obtain ⟨hlen, hbytes⟩ := encodeHinfo_bytes hencode
  rw [hrun.start] at hlen hbytes
  rw [hrun.stop] at hlen
  have hcpuLen := hrun.kept _ le_rfl ▸ hbytes.cpuLen
  have hosLen := hrun.kept _ (Nat.le_add_right _ 1) ▸ hbytes.osLen
  have hlast := hbytes.last hcpu
  rw [hrun.above _ (by omega), hbuf, ← hrun.kept _ (by omega)] at hlast
  rw [decodeRdata_hinfo htype] at hrdata
  obtain ⟨_, e1, hrdata, hpure⟩ := of_bind_ok hrdata
  cases hpure
  obtain ⟨hend, hread⟩ := decodeHinfo_kept hrdata
  rw [hread] at hsame hsame'
  dsimp only at hsame hsame' hend
  rw [hoffset] at hsame hsame' hend
  have hshort := (h.hinfo_short htype).1
  have hfirst : (mem (soleRdata rr)).toNat = (cstring (ov.hinfo rr.rdata).cpuStr).length := by
    rw [hcpuLen]
    exact UInt8.toNat_ofNat_of_lt' (show _ < 256 by omega)
  rw [hfirst] at hsame hsame' hend
  generalize cstring (ov.hinfo rr.rdata).cpuStr = cpu at *
  generalize cstring (ov.hinfo rr.rdata).osStr = os at *
  have hpos := length_pos_iff.2 hcpu
  have hsecond : (mem (soleRdata rr + 1 + cpu.length)).toNat = os.length := by omega
  rw [hsecond] at hsame'
  cases os with
  | nil =>
    -- the length of the second string, zero, is the first character
    obtain ⟨k, hk⟩ : ∃ k, cpu.length = k + 1 := ⟨cpu.length - 1, by omega⟩
    have hzero : mem (soleRdata rr + 1) = 0 := hosLen
    rw [hk, readBytes, hzero] at hsame
    exact hcpu hsame.symm
  | cons b bs =>
    -- the last character of the second string is a zero byte
    have hsplit : readBytes mem (soleRdata rr + 1 + cpu.length + 1) (b :: bs).length =
        readBytes mem (soleRdata rr + 1 + cpu.length + 1) bs.length ++ [0] := by
      rw [length_cons, readBytes_append]
      have hpos : soleRdata rr + 1 + cpu.length + 1 + bs.length =
          soleRdata rr + 1 + cpu.length + (b :: bs).length := by
        rw [length_cons]
        omega
      rw [hpos, readBytes, hlast]
      rfl
    rw [hsplit] at hsame'
    have hle : (cstring
      (some (readBytes mem (soleRdata rr + 1 + cpu.length + 1) bs.length ++ [0]))).length ≤
        bs.length := by
      have hconcat := length_cstr_concat (readBytes mem (soleRdata rr + 1 + cpu.length + 1) bs.length)
      rw [length_readBytes] at hconcat
      exact hconcat
    simp at hsame'
    omega

theorem charString_pass {str : Option Bytes} {rdEnd : Nat} {e : Entering} (n : Nat)
    (set : Option Bytes → Rr → Rr) (hheld : Holds pkt.buf e.offset (strBytes str))
    (hend : e.offset + (strBytes str).length ≤ rdEnd) (hstore : Storable e.names (cstring str)) :
    ∃ past, charString pkt .load .hinfo rdEnd n (keepHinfo set) e =
      .ok () { e with
        offset := e.offset + 1 + (cstring str).length, past := past,
        names := e.names ++ cstring str ++ [0], rr := set (some (cstring str)) e.rr } := by
  obtain ⟨past, hrun⟩ := charString_held _ n _ hheld hstore.1 hend
  have hkeep : keepHinfo set (cstring str) { e with offset := e.offset + 1, past := past } =
      .ok () { e with
        offset := e.offset + 1, past := past, names := e.names ++ cstring str ++ [0],
        rr := set (some (cstring str)) e.rr } :=
    (bind_ok (@storeStr_ok { e with offset := e.offset + 1, past := past } _ hstore)).trans
      ((bind_ok rfl).trans (stopIf_pass nofun _ _))
  exact ⟨past, hrun.trans (bind_ok hkeep)⟩

/-- Without a first string there is nothing for the length of the second one to go over. -/
theorem hinfo_taken (h : Sole ov m sc rr) (htype : rr.type = DNS_TYPE_HINFO)
    (hname : Labelled (cstring rr.name)) (hcpu : cstring (ov.hinfo rr.rdata).cpuStr = [])
    (hn : (dnsMsgEncode pktMax ov m buf).1 = some n) :
    ∃ out, ((dnsMsgDecode ⟨(dnsMsgEncode pktMax ov m buf).2.mem, n⟩ ov Msg.zero).2.msg.sect sc).recs =
        [out] ∧ out.type = DNS_TYPE_HINFO ∧
      ov.hinfo out.rdata = ⟨some [], some (cstring (ov.hinfo rr.rdata).osStr)⟩ := by
  obtain ⟨s, s', hrun⟩ := h.run hn
  obtain ⟨-, text, e, hoffset, -, hnames, hkind, -, hdecode⟩ := h.decode
    (by rw [htype]; decide) hname (dnsMsgEncode_laid h.stored.short hn) Msg.zero
  generalize (dnsMsgEncode pktMax ov m buf).2.mem = mem at *
  have hencode := hrun.rdata
  rw [encodeRdata_hinfo htype] at hencode
  obtain ⟨hlen, hbytes⟩ := encodeHinfo_bytes hencode
  rw [hrun.start] at hlen hbytes
  rw [hrun.stop, hcpu, length_nil] at hlen
  have hmax : DNS_NAME_MAXSTR = 253 := rfl
  have hpdu : DNS_MAX_PDUSIZE = 2048 := rfl
  have hshort := (h.hinfo_short htype).2
  -- the two strings in the packet
  have hfirst : Holds mem e.offset (strBytes none) := by
    refine holds_cons.2 ⟨?_, rfl⟩
    rw [hoffset, hrun.kept _ le_rfl, hbytes.cpuLen, hcpu]
    rfl
  have hsecond : Holds mem (e.offset + 1) (strBytes (ov.hinfo rr.rdata).osStr) := by
    rw [hoffset]
    refine holds_cons.2 ⟨?_, ?_⟩
    · rw [hrun.kept _ (by omega), hbytes.osLen]
    · exact holds_congr hbytes.os fun i _ _ => hrun.kept i (by omega)
  obtain ⟨past, hrun1⟩ := @charString_pass ⟨mem, n⟩ none n e 5 (fun str rr =>
    { rr with rdata := .hinfo { ov.hinfo rr.rdata with cpuStr := str } }) hfirst
    (by show e.offset + 1 ≤ n; omega) ⟨Nat.zero_le _, by show e.names.length + 0 + 1 ≤ _; omega⟩
  obtain ⟨past', hrun2⟩ := @charString_pass ⟨mem, n⟩ (ov.hinfo _).osStr n
    { e with
      offset := e.offset + 1 + 0, past := past, names := e.names ++ [] ++ [0],
      rr := { e.rr with rdata := .hinfo { ov.hinfo e.rr.rdata with cpuStr := some [] } } } 8
    (fun str rr => { rr with rdata := .hinfo { ov.hinfo rr.rdata with osStr := str } }) hsecond
    (by rw [length_strBytes]; show e.offset + 1 + 0 + _ ≤ n; omega)
    ⟨hshort, by simp only [append_nil, length_append, length_singleton]; omega⟩
  let e' : Entering :=
    { e with
      offset := e.offset + 1 + 0 + 1 + (cstring (ov.hinfo rr.rdata).osStr).length, past := past',
      names := e.names ++ [] ++ [0] ++ cstring (ov.hinfo rr.rdata).osStr ++ [0],
      rr := { e.rr with
        rdata := .hinfo
          { ov.hinfo (.hinfo { ov.hinfo e.rr.rdata with cpuStr := some [] }) with
            osStr := some (cstring (ov.hinfo rr.rdata).osStr) } } }
  have hall : decodeHinfo ⟨mem, n⟩ .load ov (n - soleRdata rr) n e = .ok () e' :=
    (bind_ok (stopIf_pass (by omega) _ e)).trans ((bind_ok hrun1).trans ((bind_ok rfl).trans
        ((bind_ok (stopIf_pass (show ¬ e.offset + 1 + 0 ≥ n by omega) _ _)).trans hrun2)))
  refine ⟨e'.rr, (hdecode _).2 ⟨text.length, e', ?_, ?_, rfl⟩, hkind.trans htype, ?_⟩
  · rw [decodeRdata_hinfo htype]
    exact bind_ok hall
  · show e.offset + 1 + 0 + 1 + (cstring (ov.hinfo rr.rdata).osStr).length = n
    omega
  · simp [e']

theorem encodeHinfo_runs {v : Hinfo}
    (hroom : s.pktLen + (2 + (cstring v.cpuStr).length + (cstring v.osStr).length) ≤ pktMax) :
    ∃ s', encodeHinfo pktMax v s = .ok () s' :=
  ⟨_, (bind_ok (mkspace_pass hroom)).trans ((bind_ok rfl).trans
    ((bind_ok rfl).trans (bind_ok rfl)))⟩

theorem keptStr_cases (names : Bytes) (str : Option Bytes) :
    cstring (keptStr names (cstring str)) = cstring str ∨
      ¬ Storable names (cstring str) ∧ cstring (keptStr names (cstring str)) = [] := by
  by_cases h : Storable names (cstring str)
  · exact .inl (cstring_keptStr (.inr h))
  · refine .inr ⟨h, ?_⟩
    rw [keptStr, if_neg h]
    rfl

theorem length_storeAfter_le (names str : Bytes) :
    (storeAfter names str).length ≤ names.length + 254 := by
  have hmax : DNS_NAME_MAXSTR = 253 := rfl
  unfold storeAfter
  split
  · rename_i hstore
    have hshort := hstore.1
    simp
    omega
  · exact Nat.le_add_right _ _

theorem storable_os {owner cpu os : Bytes} (h : ShortStr os) :
    Storable (storeAfter (storeAfter [] owner) cpu) os := by
  have hmax : DNS_NAME_MAXSTR = 253 := rfl
  have hpdu : DNS_MAX_PDUSIZE = 2048 := rfl
  have h1 := length_storeAfter_le [] owner
  have h2 := length_storeAfter_le (storeAfter [] owner) cpu
  rw [length_nil] at h1
  unfold ShortStr at h
  exact ⟨h, by omega⟩

/-- The strings in the slot. -/
theorem slot_hinfo (owner : Option Bytes) (cls : UInt16) (ttl : UInt32) (rdlen : UInt16) :
    ov.hinfo (Given.slot ov ⟨[], ⟨owner, DNS_TYPE_HINFO, cls, ttl, rdlen, rdata⟩⟩).rdata =
      ⟨keptStr (storeAfter [] (cstring owner)) (cstring (ov.hinfo rdata).cpuStr),
        keptStr (storeAfter (storeAfter [] (cstring owner)) (cstring (ov.hinfo rdata).cpuStr))
          (cstring (ov.hinfo rdata).osStr)⟩ := ov.hinfo_hinfo _

theorem hinfo_kept (howner : Sendable owner) (hlabels : Labelled (cstring owner))
    (hback : ReadBack ov ⟨owner, DNS_TYPE_HINFO, cls, ttl, rdlen, rdata⟩) :
    cstring (ov.hinfo rdata).cpuStr = [] ∧ ShortStr (cstring (ov.hinfo rdata).osStr) := by
  have hstrs := @slot_hinfo ov rdata owner cls ttl rdlen
  obtain ⟨m, rr, n, out, hrr, hown, hsole, hn, hout, hsame⟩ := hback.sole howner
    (fun s _ => ⟨_, (bind_ok (addName_eq _ _ s)).trans (bind_ok (addName_eq _ _ _))⟩) (by
      rintro m rr hsole rfl hstart s hs -
      obtain ⟨hcpu, hos⟩ := hsole.hinfo_short rfl
      rw [encodeRdata_hinfo rfl]
      exact encodeHinfo_runs (by omega))
  rw [← hrr] at hstrs
  rw [show cstring owner = cstring rr.name from hown.symm] at hlabels
  have htype : rr.type = DNS_TYPE_HINFO := by rw [hrr]; rfl
  have hos := (hsole.hinfo_short htype).2
  obtain ⟨⟨-, hsameCpu⟩, -, hsameOs⟩ := hsame
  have hkeptCpu := keptStr_cases (storeAfter [] (cstring owner)) (ov.hinfo rdata).cpuStr
  have hkeptOs := keptStr_cases (storeAfter (storeAfter [] (cstring owner))
    (cstring (ov.hinfo rdata).cpuStr)) (ov.hinfo rdata).osStr
  by_cases hne : cstring (ov.hinfo rr.rdata).cpuStr = []
  · -- the decoder reads what was kept
    obtain ⟨out', hout', -, hread⟩ := hinfo_taken hsole htype hlabels hne hn
    obtain rfl := singleton_inj.1 (hout.symm.trans hout')
    rw [hread] at hsameCpu hsameOs
    refine ⟨hsameCpu.symm, ?_⟩
    rw [cstring_some_cstring] at hsameOs
    rw [← hsameOs]
    exact hos
  · refine absurd ⟨?_, ?_⟩ (hinfo_changed hsole htype hlabels hne hn (fun _ => rfl) hout)
    · rw [hsameCpu, hstrs]
      rcases hkeptCpu with hkept | ⟨-, hdropped⟩
      · exact hkept.symm
      · rw [hstrs] at hne
        exact absurd hdropped hne
    · rw [hsameOs, hstrs]
      rcases hkeptOs with hkept | ⟨-, hdropped⟩
      · exact (congrArg List.length hkept).le
      · rw [hdropped]
        exact Nat.zero_le _

theorem hinfo_readBack (hlabels : Labelled (cstring owner))
    (hcpu : cstring (ov.hinfo rdata).cpuStr = []) (hos : ShortStr (cstring (ov.hinfo rdata).osStr)) :
    ReadBack ov ⟨owner, DNS_TYPE_HINFO, cls, ttl, rdlen, rdata⟩ := by
  intro sc m pktMax buf n hadd hn
  have hsole := sole_of_added hadd
  have hstrs := @slot_hinfo ov rdata owner cls ttl rdlen
  have hkeptCpu : cstring (ov.hinfo
      (Given.slot ov ⟨[], ⟨owner, DNS_TYPE_HINFO, cls, ttl, rdlen, rdata⟩⟩).rdata).cpuStr = [] := by
    rw [hstrs, ← hcpu]
    exact cstring_keptStr (.inl hcpu)
  have hkeptOs : cstring (ov.hinfo
      (Given.slot ov ⟨[], ⟨owner, DNS_TYPE_HINFO, cls, ttl, rdlen, rdata⟩⟩).rdata).osStr =
      cstring (ov.hinfo rdata).osStr := by
    rw [hstrs]
    exact cstring_keptStr (.inr (storable_os hos))
  obtain ⟨out, hout, htype, hread⟩ := hinfo_taken hsole rfl
    (show Labelled (cstring (some (cstring owner))) by rw [cstring_some_cstring]; exact hlabels)
    hkeptCpu hn
  refine ⟨out, hout, htype, ?_⟩
  show SameStr (ov.hinfo rdata).cpuStr (ov.hinfo out.rdata).cpuStr ∧
    SameStr (ov.hinfo rdata).osStr (ov.hinfo out.rdata).osStr
  rw [hread, hkeptOs]
  exact ⟨⟨Option.some_ne_none _, hcpu.symm⟩, Option.some_ne_none _, cstring_some_cstring _⟩

end

/-! ## The three types -/

/-- The RDATA is one that is not lost: no first string and a second one that the store takes, in a
record whose name has no empty label, or a name that is never encoded. -/
def Safe (ov : Overlay) (src : Rr) : Prop :=
  if src.type = DNS_TYPE_HINFO then
    Labelled (cstring src.name) ∧ cstring (ov.hinfo src.rdata).cpuStr = [] ∧
      ShortStr (cstring (ov.hinfo src.rdata).osStr)
  else if src.type = DNS_TYPE_MX then ¬ Sendable (ov.mx src.rdata).name
  else ¬ Sendable (ov.srv src.rdata).name

/-- For every record of one of the three types: it is read back if its name is never encoded or its
RDATA is safe. This is exact where the name has no empty label and, for the third type, the decoder
does not take the end of the target for a jump: behind a jump it can be read back by accident. -/
theorem lost_rdata_iff (ov : Overlay) (src : Rr)
    (htype : src.type ∈ [DNS_TYPE_HINFO, DNS_TYPE_MX, DNS_TYPE_SRV]) :
    (¬ Sendable src.name ∨ Safe ov src → ReadBack ov src) ∧
      (Labelled (cstring src.name) → (src.type = DNS_TYPE_SRV → Jumpless ov src) →
        (ReadBack ov src ↔ ¬ Sendable src.name ∨ Safe ov src)) := by
  have hback : ¬ Sendable src.name ∨ Safe ov src → ReadBack ov src := by
    rintro (hnot | hsafe) sc m pktMax buf n hadd hn
    · have hsole := sole_of_added hadd
      have howner := hsole.sendable_owner (dnsMsgEncode_laid hsole.stored.short hn)
      unfold Sendable at howner
      rw [show (Given.slot ov ⟨[], src⟩).name = some (cstring src.name) from rfl,
        cstring_some_cstring] at howner
      exact absurd howner hnot
    · obtain ⟨owner, type, cls, ttl, rdlen, rdata⟩ := src
      simp only [mem_cons, not_mem_nil, or_false] at htype
      rcases htype with rfl | rfl | rfl
      · exact hinfo_readBack hsafe.1 hsafe.2.1 hsafe.2.2 sc m pktMax buf n hadd hn
      · have hsole := sole_of_added hadd
        refine absurd (hsole.sendable (dnsMsgEncode_laid hsole.stored.short hn) ?_) hsafe
        show _ ∈ [Piece.bytes _, .gap 2, .name (cstring (ov.mx (.mx ⟨_, some (cstring _)⟩)).name)]
        rw [ov.mx_mx, cstring_some_cstring]
        exact .tail _ (.tail _ mem_cons_self)
      · have hsole := sole_of_added hadd
        refine absurd (hsole.sendable (dnsMsgEncode_laid hsole.stored.short hn) ?_) hsafe
        show _ ∈ [Piece.gap 2, .name (cstring (ov.srv (.srv { ov.srv rdata with
          name := some (cstring _) })).name)]
        rw [ov.srv_srv, cstring_some_cstring]
        exact .tail _ mem_cons_self
  refine ⟨hback, fun hlabels hplain => ⟨fun hread => ?_, hback⟩⟩
  obtain ⟨owner, type, cls, ttl, rdlen, rdata⟩ := src
  refine or_iff_not_imp_left.2 fun howner => ?_
  simp only [mem_cons, not_mem_nil, or_false] at htype
  rcases htype with rfl | rfl | rfl
  · exact ⟨hlabels, hinfo_kept (not_not.1 howner) hlabels hread⟩
  · exact fun hsend => mx_lost (not_not.1 howner) hlabels hsend hread
  · exact fun hsend => srv_lost (not_not.1 howner) hlabels hsend (hplain rfl) hread

/-- The answers that a record is read back as, alone in its message and from a zeroed buffer; nothing
if it is not accepted or not encoded. -/
def soleAnswers (src : Rr) : Option (List Rr) :=
  let (rc, m) := dnsAddRr Overlay.plain (dnsMsgReset Msg.zero) .an src
  if rc ≠ 0 then none
  else
    match dnsMsgEncode 512 Overlay.plain m fun _ => 0 with
    | (none, _) => none
    | (some n, enc) => some (dnsMsgDecode ⟨enc.mem, n⟩ Overlay.plain Msg.zero).2.msg.an.recs

/-- A mail exchange and a service are not read back at all, and a processor is read back as a string
that starts with a zero byte. -/
theorem sole_rdata_lost :
    (soleAnswers ⟨none, DNS_TYPE_MX, 1, 60, 0, .mx ⟨10, some [109, 120]⟩⟩).map List.length = some 0 ∧
      (soleAnswers ⟨none, DNS_TYPE_SRV, 1, 60, 0, .srv ⟨1, 2, 53, some [104, 111, 115, 116]⟩⟩).map
        List.length = some 0 ∧
      (soleAnswers ⟨none, DNS_TYPE_HINFO, 1, 60, 0, .hinfo ⟨some [120], some []⟩⟩).map (fun recs =>
        recs.map fun rr => (Overlay.plain.hinfo rr.rdata).cpuStr) = some [some [0]] := by
  refine ⟨by decide +kernel, by decide +kernel, by decide +kernel⟩

/-- A system `x` of the host `a`. -/
theorem os_read_back :
    ReadBack Overlay.plain ⟨some [97], DNS_TYPE_HINFO, 1, 60, 0, .hinfo ⟨none, some [120]⟩⟩ :=
  (lost_rdata_iff _ _ (by decide)).1 (.inr ⟨by unfold Labelled; decide, rfl, Nat.le_add_left 1 252⟩)

end CDbK8s.Dns
