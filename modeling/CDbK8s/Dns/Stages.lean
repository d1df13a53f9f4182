import CDbK8s.Dns.Complete
import CDbK8s.Dns.RecordCodec

/-!
# The sections of an encoded message, decoded

The decoder goes through the header, the questions and the three sections of a packet. Where it
stands behind each, for a packet that an encoder laid, is said stage by stage: an entry that is
taken ends its section, with one more error on the stack, and the next section goes on behind it.
-/

namespace CDbK8s.Dns

open Base Lib.ByteMem List

variable {entry : Dec → Int × Dec} {calls : List (Nat × Bytes)}

variable {pkt : Pkt} {ov : Overlay} {d d' : Dec}

/-! ## One section -/

theorem decodeEntries_taken {rc : Int} (loc : Location) (n i : Nat) (h : entry d = (rc, d'))
    (hrc : rc ≠ 0) (hroom : d'.errs.length < DNS_MAX_EMSG) :
    decodeEntries entry loc (n + 1) i d =
      (0, d'.withErrs (d'.errs ++ [⟨.pdu, loc, i + DNS_EC_ISROW⟩])) := by
  rw [decodeEntries, h]
  exact (if_pos hrc).trans (dnsDecErr_room _ _ _ hroom)

theorem decodeEntries_refused (loc : Location) (i : Nat) (h : entry d = (0, d')) :
    decodeEntries entry loc 1 i d = (0, d') := by
  rw [decodeEntries, h]
  exact if_neg (not_not.2 rfl)

theorem runStages_cons {st : Stage} {rest : List Stage}
    (h : decodeEntries st.entry st.loc st.n 0 d = (0, d')) :
    runStages (st :: rest) d = runStages rest d' := by
  rw [runStages, h]
  exact if_neg (not_not.2 rfl)

/-! ## The header -/

theorem hdrAt_of_holds {hdr : Hdr} (h : Holds pkt.buf 0 hdr.bytes) : hdrAt pkt = hdr := by
  obtain ⟨h, har⟩ := holds_append.1 h
  obtain ⟨h, hns⟩ := holds_append.1 h
  obtain ⟨h, han⟩ := holds_append.1 h
  obtain ⟨h, hqd⟩ := holds_append.1 h
  obtain ⟨hid, hflags⟩ := holds_append.1 h
  simp only [length_append, length_encU16] at har hns han hqd hflags
  rw [hdrAt, decU16_of_holds hid, decU16_of_holds hflags, decU16_of_holds hqd, decU16_of_holds han,
    decU16_of_holds hns, decU16_of_holds har]

theorem pastHdr_eq (hlen : DNS_HDR_LEN ≤ pkt.len) (msg : Msg) : Dec.pastHdr pkt msg =
      ⟨DNS_HDR_LEN, false, [], 0, DNS_MAX_UDP, { dnsMsgReset msg with hdr := hdrAt pkt }, []⟩ := by
  unfold Dec.pastHdr decodeHdr
  rw [if_neg (not_lt.2 hlen)]
  rw [Pkt.beyond_eq_false (by omega)]
  rfl

/-! ## The question -/

/-- The question `out` is the question `q`, read back. -/
structure SameQd (q out : Qd) : Prop where
  qname : ∃ text, out.qname = some text ∧ text.map lower = canonical (cstring q.qname)
  qtype : out.qtype = q.qtype
  qclass : out.qclass = q.qclass

theorem dnsQdDecode_found {q : Qd} {text : Bytes} {p : Nat} (room : Nat → Bool)
    (hname : Legible pkt (cstring q.qname) text d.offset p)
    (hheld : Holds pkt.buf p (encU16 q.qtype ++ encU16 q.qclass)) (hfit : p + 4 ≤ pkt.len)
    (hfree : d.msg.qdLen = 0) (hstore : d.msg.names = []) :
    ∃ (rc : Int) (out : Qd) (names : Bytes), rc ≠ 0 ∧ SameQd q out ∧
      names.length = (canonical (cstring q.qname)).length + 1 ∧
      (d.pastQd pkt names out 1).offset = p + 4 ∧
      dnsQdDecode pkt .load room d = (rc, d.pastQd pkt names out 1) := by
  have hclean := hname.clean
  have hshort := hname.short
  obtain ⟨⟨bare, jumps, hwire, hjumps, rfl, hsame⟩, -⟩ := hname
  obtain ⟨htype, hclass⟩ := holds_append.1 hheld
  rw [length_encU16] at hclass
  have hmax : DNS_NAME_MAXSTR = 253 := rfl
  have hmsg : DNS_MSG_SIZE = 1124 := rfl
  have hpdu : DNS_MAX_PDUSIZE = 2048 := rfl
  have hbare : bare.length ≤ 253 ∧ cstr bare = bare := by
    unfold ShortStr rooted at *
    split at hshort
    · rename_i hnil
      rw [hnil]
      exact ⟨zero_le, rfl⟩
    · rename_i hne
      rw [if_neg hne] at hclean
      exact ⟨by omega, hclean⟩
  have hdecode := decodeName_wire hwire (show bare.length < DNS_MSG_SIZE by omega)
  rw [if_pos (show jumps ≤ 17 from hjumps)] at hdecode
  have hpast : (d.pastName pkt).offset = p := by
    show (decodeName pkt d.offset DNS_MSG_SIZE).offset = p
    rw [hdecode]
  have hkept : msgStoreName d.msg.names bare = (some bare, [] ++ bare ++ [0]) := by
    rw [msgStoreName, hbare.2, hstore]
    exact msgStoreStr_ok ⟨by omega, by rw [length_nil]; omega⟩
  refine ⟨(bare.length + 1 : Nat), ⟨some bare, q.qtype, q.qclass⟩, [] ++ bare ++ [0], by omega,
    ⟨⟨bare, rfl, hsame⟩, rfl, rfl⟩, ?_, congrArg (· + 4) hpast, ?_⟩
  · rw [length_append, ← hsame, length_map]
    rfl
  · rw [dnsQdDecode_load pkt _ (by rw [hfree]; decide), hdecode]
    dsimp only
    rw [hpast, if_neg (by omega), hkept]
    rw [decU16_of_holds htype, decU16_of_holds hclass]

/-- What the questions take of the store. -/
def questRoom (quests : List Qd) : Nat :=
  (quests.map fun q => (canonical (cstring q.qname)).length + 1).sum

theorem tail_eq_nil {q : Qd} {rest : List Qd} (h : (q :: rest).length ≤ 1) : rest = [] :=
  eq_nil_of_length_eq_zero (Nat.le_zero.1 (Nat.le_of_succ_le_succ h))

/-- The decoder behind the questions of a packet at `p`: it has read them back to an empty store,
and left the sections. -/
structure PastQd (quests : List Qd) (d d' : Dec) (p : Nat) : Prop where
  offset : d'.offset = p
  errs : d'.errs.length ≤ d.errs.length + 1
  names : d'.msg.names.length = questRoom quests
  quests : List.Forall₂ SameQd quests d'.msg.questions
  hdr : d'.msg.hdr = d.msg.hdr
  sect : ∀ sc, d'.msg.sect sc = d.msg.sect sc

theorem isName_of_labelled {str : Option Bytes} (h : Labelled (cstring str))
    (hfit : LabelsFit (cstring str)) : IsName (cstring str) :=
  ⟨noNul_cstring str, fun l hl => ⟨h l hl, hfit l hl⟩⟩

theorem decodeQd_found {quests : List Qd} {t : List Suffix} {p : Nat}
    (hlays : Lays pkt.buf [] DNS_HDR_LEN (qdPieces quests) t p calls) (hone : quests.length ≤ 1)
    (hshort : ∀ q ∈ quests, ShortStr (cstring q.qname))
    (hnames : ∀ q ∈ quests, Labelled (cstring q.qname)) (hsmall : p ≤ 2 ^ 14) (hfit : p ≤ pkt.len)
    (hoffset : d.offset = DNS_HDR_LEN) (hfree : d.msg.qdLen = 0) (hstore : d.msg.names = [])
    (herrs : d.errs.length < DNS_MAX_EMSG) :
    ∃ d', decodeEntries (dnsQdDecode pkt .load fun _ => true) .qd quests.length 0 d = (0, d') ∧
      PastQd quests d d' p := by
  cases quests with
  | nil =>
    obtain ⟨-, rfl, -⟩ := lays_nil.1 hlays
    refine ⟨d, rfl, hoffset, Nat.le_succ _, by rw [hstore]; rfl, ?_, rfl, fun _ => rfl⟩
    rw [Msg.questions, hfree]
    exact .nil
  | cons q _ =>
    obtain rfl := tail_eq_nil hone
    have hfits := (hlays.labelsFit (questions_short hshort) (by omega) (forall_mem_nil _)).1
      _ mem_cons_self
    obtain ⟨hok, hheld, calls', rfl, hrest⟩ := lays_name.1 hlays
    obtain ⟨hwords, hend⟩ := lays_bytes.1 hrest
    obtain ⟨-, rfl, -⟩ := lays_nil.1 hend
    rw [length_append, length_encU16, length_encU16] at hsmall hfit
    have hroot : Mirrored pkt [] DNS_HDR_LEN [] := ⟨.nil, forall_mem_nil _⟩
    have hstr := hshort q mem_cons_self
    obtain ⟨hwritten, -⟩ := hroot.written le_rfl hok hheld (by omega) (by omega) hstr
    have hfew : Pool.jumps [] (cstring q.qname) ≤ DNS_MAX_JMP + 1 :=
      (@Pool.jumps_le [] 0 (forall_mem_nil _) _).trans (by decide)
    obtain ⟨text, hlegible⟩ := hwritten.legible
      (isName_of_labelled (hnames q mem_cons_self) hfits) hstr hfew
    rw [← hoffset] at hlegible hwords hfit hsmall
    obtain ⟨rc, out, names, hrc, hsame, hlen, hpast, hrun⟩ :=
      dnsQdDecode_found (fun _ => true) hlegible hwords (by omega) hfree hstore
    refine ⟨_, decodeEntries_taken .qd 0 0 hrun hrc herrs, ?_, ?_, ?_, ?_, rfl, fun sc => ?_⟩
    · rw [← hoffset]
      exact hpast
    · exact (length_append ..).le
    · exact hlen
    · show List.Forall₂ SameQd [q] ((range (d.msg.qdLen + 1)).map
        (Function.update d.msg.qd d.msg.qdLen out))
      rw [hfree]
      exact .cons (by simpa using hsame) .nil
    · cases sc <;> rfl

/-! ## A record -/

theorem Lays.rrHead {rr : Rr} {rdlen : UInt16} {t t' : List Suffix} {pool : Pool} {p p' k : Nat}
    {calls : List (Nat × Bytes)} (h : Lays pkt.buf t p (rrPieces ov rr rdlen) t' p' calls)
    (hpool : Mirrored pkt t p pool) (hfew : ∀ e ∈ pool, e.2 ≤ k) (hk : k ≤ DNS_MAX_JMP)
    (hmin : 12 ≤ p) (hsmall : p' ≤ 2 ^ 14) (hfit : p' ≤ pkt.len) (hshort : rr.Short ov)
    (hname : Labelled (cstring rr.name)) (ht : ∀ s ∈ t, LabelsFit s.name) :
    ∃ q t1 calls', q = p + (encodeName t p (some (cstring rr.name))).wire.length ∧
      (∃ text, Legible pkt (cstring rr.name) text p q) ∧
      Holds pkt.buf q (fieldHead ov rr ++ encU16 rdlen) ∧
      Lays pkt.buf t1 (q + 10) (rdataPieces ov rr) t' p' calls' := by
  have hlabels := (h.labelsFit (hshort.pieces _) (by omega) ht).1 _ mem_cons_self
  obtain ⟨hok, hheld, calls', rfl, hrest⟩ := lays_name.1 h
  obtain ⟨hhead, hrdata⟩ := lays_bytes.1 hrest
  have hten : (fieldHead ov rr ++ encU16 rdlen).length = 10 := by
    simp [length_fieldHead]
  have hle := hrdata.le
  rw [hten] at hle hrdata
  obtain ⟨hwritten, -⟩ := hpool.written hmin hok hheld (by omega) (by omega) hshort.1
  refine ⟨_, _, _, rfl, ?_, hhead, hrdata⟩
  exact hwritten.legible (isName_of_labelled hname hlabels) hshort.1
    ((Pool.jumps_le hfew _).trans (Nat.succ_le_succ hk))

/-- The decoder behind a section whose first record was taken, where the code of the record left
`s`. -/
structure PastRr (sc : Sc) (s : Entering) (d d' : Dec) : Prop where
  offset : d'.offset = s.offset
  errs : d'.errs.length = d.errs.length + 1
  names : d'.msg.names = s.names
  recs : (d'.msg.sect sc).recs = (d.msg.sect sc).recs ++ [s.rr]
  sect : ∀ sc', sc' ≠ sc → d'.msg.sect sc' = d.msg.sect sc'
  hdr : d'.msg.hdr = d.msg.hdr
  quests : d'.msg.questions = d.msg.questions

theorem sectDecode_taken {sc : Sc} {rc : Nat} {s : Entering} (n : Nat)
    (hcount : (d.msg.sect sc).count < DNS_MAX_RR)
    (hrun : rrBody pkt .load sc ov (d.enter sc) = .ok rc s)
    (herrs : d.errs.length < DNS_MAX_EMSG) :
    ∃ d', decodeEntries (dnsRrDecode pkt .load ov (fun _ => true) sc) sc.loc (n + 1) 0 d = (0, d') ∧
      PastRr sc s d d' := by
  have hpos : 0 < rc := (rrBody_pos sc).value _ _ _ hrun
  have hentry := dnsRrDecode_ok (fun _ => true) hcount hrun
  refine ⟨_, decodeEntries_taken _ n 0 hentry (by omega) herrs, ?_⟩
  refine ⟨rfl, length_append .., ?_, ?_, fun sc' hne => ?_, ?_, ?_⟩
  · cases sc <;> rfl
  · exact leave_recs d sc (.ok rc s) s
  · show (Msg.setSect _ sc _).sect sc' = _
    rw [sect_setSect, if_neg hne]
    cases sc' <;> rfl
  · cases sc <;> rfl
  · cases sc <;> rfl

theorem MsgLaid.sole {mem : Mem} {m : Msg} {sc : Sc} {rr : Rr} {stop : Nat}
    (h : MsgLaid mem ov m stop calls)
    (hrecs : ∀ sc', (m.sect sc').recs = if sc' = sc then [rr] else []) :
    ∃ t p c t' c', Lays mem [] DNS_HDR_LEN (qdPieces m.questions) t p c ∧
      Lays mem t p (rrPieces ov rr (UInt16.ofNat
        (stop - (p + (encodeName t p (some (cstring rr.name))).wire.length + 10)))) t' stop c' := by
  obtain ⟨t1, p1, c1, t2, p2, c2, t3, p3, c3, t4, c4, hqd, han, hns, har, -⟩ := h.body
  have hran : m.an.recs = _ := hrecs .an
  have hrns : m.ns.recs = _ := hrecs .ns
  have hrar : m.ar.recs = _ := hrecs .ar
  rw [hran] at han
  rw [hrns] at hns
  rw [hrar] at har
  cases sc with
  | an =>
    cases hns
    cases har
    cases han with
    | cons hrdlen hrr hrest =>
      cases hrest
      exact ⟨_, _, _, _, _, hqd, hrdlen ▸ hrr⟩
  | ns =>
    cases han
    cases har
    cases hns with
    | cons hrdlen hrr hrest =>
      cases hrest
      exact ⟨_, _, _, _, _, hqd, hrdlen ▸ hrr⟩
  | ar =>
    cases han
    cases hns
    cases har with
    | cons hrdlen hrr hrest =>
      cases hrest
      exact ⟨_, _, _, _, _, hqd, hrdlen ▸ hrr⟩

/-- What the code of a record leaves for the section: the record, if it came to its end. -/
def taken : EStateM.Result Exit Entering Nat → List Rr
  | .ok _ s => [s.rr]
  | .error _ _ => []

theorem leave_recs_zero (d : Dec) (sc : Sc) (r : EStateM.Result Exit Entering Nat) (s : Entering) :
    ((d.leave sc r s 0).msg.sect sc).recs = (d.msg.sect sc).recs := by
  have hslots : ((d.leave sc r s 0).msg.sect sc) =
      ⟨Function.update (d.msg.sect sc).slots (d.msg.sect sc).count s.rr, (d.msg.sect sc).count⟩ := by
    cases sc <;> rfl
  rw [hslots]
  exact recs_left _ _

theorem sectDecode_one (sc : Sc) (hcount : (d.msg.sect sc).count < DNS_MAX_RR)
    (herrs : d.errs.length + 1 < DNS_MAX_EMSG) :
    ∃ d', decodeEntries (dnsRrDecode pkt .load ov (fun _ => true) sc) sc.loc 1 0 d = (0, d') ∧
      (d'.msg.sect sc).recs =
        (d.msg.sect sc).recs ++ taken (rrBody pkt .load sc ov (d.enter sc)) := by
  cases hrun : rrBody pkt .load sc ov _ with
  | ok _ s =>
    obtain ⟨d', hd', hpast⟩ := sectDecode_taken 0 hcount hrun (by omega)
    exact ⟨d', hd', hpast.recs⟩
  | error e s =>
    have hroom : ∀ r, (d.leave sc r s 0).errs.length < DNS_MAX_EMSG := by
      intro r
      show d.errs.length < _
      omega
    have hfree : ¬ (Mode.load = .load ∧ (d.msg.sect sc).count ≥ DNS_MAX_RR) :=
      fun hfull => absurd hfull.2 (not_le.2 hcount)
    cases e with
    | fail =>
      have hentry : dnsRrDecode pkt .load ov (fun _ => true) sc d =
          (-1, d.leave sc (.error .fail s) s 0) := by
        unfold dnsRrDecode
        rw [if_neg hfree, hrun]
      refine ⟨_, decodeEntries_taken _ 0 0 hentry minus_one (hroom _), ?_⟩
      rw [taken, append_nil]
      exact leave_recs_zero d sc (.error .fail s) s
    | refuse group field ec =>
      have hentry : dnsRrDecode pkt .load ov (fun _ => true) sc d =
          dnsDecErr group field ec (d.leave sc (.error (.refuse group field ec) s) s 0) := by
        unfold dnsRrDecode
        rw [if_neg hfree, hrun]
      have hzero := hentry.trans (dnsDecErr_room _ _ ec (hroom _))
      refine ⟨_, decodeEntries_refused _ 0 hzero, ?_⟩
      rw [taken, append_nil]
      exact leave_recs_zero d sc (.error (.refuse group field ec) s) s

theorem length_questions (m : Msg) : m.questions.length = m.qdLen := by
  simp [Msg.questions]

/-- The decoder of a packet with at most one question and one record: what it starts the record
from, and what it has of the section at the end. -/
theorem dnsMsgDecode_sole {m : Msg} {rr : Rr} {t : List Suffix} {p : Nat}
    {calls : List (Nat × Bytes)} {sc : Sc} (hhdr : Holds pkt.buf 0 (syncHdr m).bytes)
    (hone : m.qdLen ≤ 1) (hrecs : ∀ sc', (m.sect sc').recs = if sc' = sc then [rr] else [])
    (hlays : Lays pkt.buf [] DNS_HDR_LEN (qdPieces m.questions) t p calls)
    (hshort : ∀ q ∈ m.questions, ShortStr (cstring q.qname))
    (hnames : ∀ q ∈ m.questions, Labelled (cstring q.qname)) (hsmall : p ≤ 2 ^ 14)
    (hfit : p ≤ pkt.len) (msg : Msg) :
    ∃ s : Entering, s.offset = p ∧ s.wptr = 0 ∧ s.names.length = questRoom m.questions ∧
      s.rr = (msg.sect sc).slots 0 ∧
      ((dnsMsgDecode pkt ov msg).2.msg.sect sc).recs = taken (rrBody pkt .load sc ov s) := by
  have hle := hlays.le
  have hheader : hdrAt pkt = syncHdr m := hdrAt_of_holds hhdr
  have hqd : (hdrAt pkt).qdCount.toNat = m.questions.length := by
    rw [hheader, length_questions]
    exact UInt16.toNat_ofNat_of_lt' (show m.qdLen < 2 ^ 16 by omega)
  have hcount : ∀ sc', ((hdrAt pkt).count sc').toNat = if sc' = sc then 1 else 0 := by
    intro sc'
    have hnat : (hdrAt pkt).count sc' = UInt16.ofNat (m.sect sc').count := by
      rw [hheader]
      cases sc' <;> rfl
    rw [hnat, ← length_recs, hrecs]
    split <;> rfl
  have hstart := @pastHdr_eq pkt (hle.trans hfit) msg
  obtain ⟨d, hrun, hpast⟩ := decodeQd_found (d := Dec.pastHdr pkt msg) hlays
    (by rw [length_questions]; exact hone) hshort hnames hsmall hfit (by rw [hstart])
    (by rw [hstart]; rfl) (by rw [hstart]; rfl) (by rw [hstart]; exact Nat.zero_lt_succ 9)
  have herrs : d.errs.length ≤ 1 := by
    have hmore := hpast.errs
    rw [hstart] at hmore
    exact hmore
  have hsect : d.msg.sect sc = ⟨(msg.sect sc).slots, 0⟩ := by
    rw [hpast.sect, hstart]
    cases sc <;> rfl
  have hfree : (d.msg.sect sc).count < DNS_MAX_RR := by
    rw [hsect]
    exact Nat.zero_lt_succ 31
  have hmany : DNS_MAX_EMSG = 10 := rfl
  obtain ⟨d', hrun', htaken⟩ := @sectDecode_one pkt ov d sc hfree (by omega)
  refine ⟨d.enter sc, hpast.offset, rfl, hpast.names, ?_, ?_⟩
  · show (d.msg.sect sc).slots (d.msg.sect sc).count = _
    rw [hsect]
  · have hnil : (d.msg.sect sc).recs = [] := by
      rw [hsect]
      rfl
    rw [hnil, nil_append] at htaken
    have hfirst : decodeEntries (qdStage pkt).entry (qdStage pkt).loc (qdStage pkt).n 0
        (Dec.pastHdr pkt msg) = (0, d) := by
      show decodeEntries _ _ (hdrAt pkt).qdCount.toNat 0 _ = _
      rw [hqd]
      exact hrun
    have hskip : ∀ sc', sc' ≠ sc → ∀ d : Dec, decodeEntries (rrStage pkt ov sc').entry
        (rrStage pkt ov sc').loc (rrStage pkt ov sc').n 0 d = (0, d) := by
      intro sc' hne d
      show decodeEntries _ _ ((hdrAt pkt).count sc').toNat 0 d = _
      rw [hcount, if_neg hne]
      rfl
    have hthis : decodeEntries (rrStage pkt ov sc).entry (rrStage pkt ov sc).loc
        (rrStage pkt ov sc).n 0 d = (0, d') := by
      show decodeEntries _ _ ((hdrAt pkt).count sc).toNat 0 d = _
      rw [hcount, if_pos rfl]
      exact hrun'
    rw [← htaken, dnsMsgDecode_stages (hle.trans hfit), stages, runStages_cons hfirst]
    cases sc with
    | an =>
      rw [runStages_cons hthis, runStages_cons (hskip .ns (by decide) d'),
        runStages_cons (hskip .ar (by decide) d')]
      rfl
    | ns =>
      rw [runStages_cons (hskip .an (by decide) d), runStages_cons hthis,
        runStages_cons (hskip .ar (by decide) d')]
      rfl
    | ar =>
      rw [runStages_cons (hskip .an (by decide) d), runStages_cons (hskip .ns (by decide) d),
        runStages_cons hthis]
      rfl

end CDbK8s.Dns
