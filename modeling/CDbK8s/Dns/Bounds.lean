import CDbK8s.Dns.Build

/-!
# The bounds of the encoder's buffer

Every field of a message reserves its room before it is written, and writes no more than that, with
one exception: `DNS_TYPE_SRV` reserves two bytes for its three numbers and writes six.
-/

namespace CDbK8s.Dns

open Base Lib.ByteMem Lib.Exits List

variable {rdlenPtr : Nat} {name : Option Bytes} {rr : Rr}

/-! ## Messages that calls make -/

section
variable {ov : Overlay} {m : Msg}

/-- A message that any calls make from an emptied one, whether they succeed or not. -/
inductive Made (ov : Overlay) : Msg → Prop where
  | reset (m : Msg) : Made ov (dnsMsgReset m)
  | init {m : Msg} (id flags : UInt16) (h : Made ov m) : Made ov (dnsMsgInit m id flags)
  | addQd {m : Msg} (qname : Option Bytes) (qtype qclass : UInt16) (h : Made ov m) :
      Made ov (dnsAddQd m qname qtype qclass).2
  | addRr {m : Msg} (sc : Sc) (src : Rr) (h : Made ov m) : Made ov (dnsAddRr ov m sc src).2

theorem addRr_short {src : Rr} {s s' : Adding} (h : addRr ov src s = .ok () s') :
    s'.rr.Short ov := by
  by_cases htxt : src.type = DNS_TYPE_TXT
  · -- the strings of `DNS_TYPE_TXT` are no names: only the owner's name has to be short
    obtain ⟨_, s1, hname, h⟩ := of_bind_ok h
    obtain ⟨_, s2, hset, hrdata⟩ := of_bind_ok h
    obtain ⟨hrr, hadds⟩ := addNeeded_ok hname
    cases hset
    have haddTxt : addRdata ov src.type src.rdata = addTxt ov (ov.txt src.rdata).strs := by
      rw [htxt]
      rfl
    rw [haddTxt] at hrdata
    obtain ⟨⟨hname', htype'⟩, -⟩ := addTxt_ok hrdata
    dsimp only at hname' htype'
    refine ⟨?_, ?_⟩
    · rw [hname', hrr]
      exact hadds.short _ (mem_singleton_self _)
    · intro str hmem
      have hpieces : rdataPieces ov s'.rr =
          (ov.txt s'.rr.rdata).strs.map fun str => .bytes (strBytes str) := by
        rw [rdataPieces, htype', htxt]
        rfl
      rw [hpieces] at hmem
      simp at hmem
  · obtain ⟨hadds, -⟩ := addRr_ok (fun h => absurd h htxt) h
    refine ⟨hadds.short _ mem_cons_self, fun str hmem => ?_⟩
    obtain ⟨o, ho, rfl⟩ := (holding_rdata ov _).names str hmem
    exact hadds.short o (.tail _ ho)

theorem recs_left (t : Sect) (rr : Rr) :
    (⟨Function.update t.slots t.count rr, t.count + 0⟩ : Sect).recs = t.recs :=
  map_range_update _ _ _

theorem Msg.Short.addRr (h : m.Short ov) (sc : Sc) (src : Rr) :
    (dnsAddRr ov m sc src).2.Short ov := by
  have hset : ∀ names t, (∀ rr ∈ Sect.recs t, rr.Short ov) →
      ({ m with names := names }.setSect sc t).Short ov := by
    intro names t ht
    refine ⟨?_, fun sc' => ?_⟩
    · have hquests : ({ m with names := names }.setSect sc t).questions = m.questions := by
        cases sc <;> rfl
      rw [hquests]
      exact h.quests
    · rw [sect_setSect]
      split
      · exact ht
      · exact h.recs sc'
  unfold dnsAddRr
  dsimp only
  split
  · exact h
  · cases hrun : Dns.addRr ov src ⟨m.names, (m.sect sc).slots (m.sect sc).count⟩ with
    | error e s =>
      refine hset _ _ ?_
      rw [recs_left]
      exact h.recs sc
    | ok a s =>
      refine hset _ _ ?_
      rw [recs_add]
      intro rr hrr
      rcases mem_append.1 hrr with hold | hnew
      · exact h.recs sc rr hold
      · rw [mem_singleton.1 hnew]
        exact addRr_short hrun

theorem Msg.Short.addQd (h : m.Short ov) (qname : Option Bytes) (qtype qclass : UInt16) :
    (dnsAddQd m qname qtype qclass).2.Short ov := by
  have hsame : ∀ (names : Bytes) (qd : Nat → Qd) (n : Nat) (sc : Sc),
      ({ m with names := names, qd := qd, qdLen := n } : Msg).sect sc = m.sect sc := by
    intro names qd n sc
    cases sc <;> rfl
  unfold dnsAddQd dnsAddQdn
  split
  · exact h
  · by_cases hstore : Storable m.names (cstring qname)
    · rw [msgStoreStr_ok hstore]
      refine ⟨fun q hq => ?_, fun sc => by rw [hsame]; exact h.recs sc⟩
      dsimp only [Msg.questions] at hq
      rw [map_range_succ_update] at hq
      rcases mem_append.1 hq with hmem | hnew
      · exact h.quests q hmem
      · rw [mem_singleton.1 hnew]
        show (cstr (cstring qname)).length ≤ _
        rw [cstring, cstr_cstr]
        exact hstore.1
    · rw [msgStoreStr_full hstore]
      refine ⟨fun q hq => ?_, fun sc => by rw [hsame]; exact h.recs sc⟩
      dsimp only [Msg.questions] at hq
      rw [map_range_update] at hq
      exact h.quests q hq

theorem Made.short (h : Made ov m) : m.Short ov := by
  induction h with
  | reset m => exact (stored_reset ov m).short
  | @init m id flags _ ih =>
    have hsame : ∀ sc, (dnsMsgInit m id flags).sect sc = m.sect sc := fun sc => by cases sc <;> rfl
    exact ⟨ih.quests, fun sc => hsame sc ▸ ih.recs sc⟩
  | addQd qname qtype qclass _ ih => exact ih.addQd _ _ _
  | addRr sc src _ ih => exact ih.addRr sc src

end

/-! ## Writing within the buffer -/

/-- The length stays within the buffer, and so does what is written. -/
def Within (pktMax : Nat) (s s' : Enc) : Prop :=
  s.pktLen ≤ pktMax → s'.pktLen ≤ pktMax ∧ s'.past = s.past

instance (pktMax : Nat) : Std.Refl (Within pktMax) := ⟨fun _ h => ⟨h, rfl⟩⟩

instance (pktMax : Nat) : IsTrans Enc (Within pktMax) :=
  ⟨fun _ _ _ h h' hle => ⟨(h' (h hle).1).1, (h' (h hle).1).2.trans (h hle).2⟩⟩

section
variable {pktMax : Nat} {ov : Overlay} {s s' : Enc}

theorem put_within {pos : Nat} {bs : Bytes} (h : pos + bs.length ≤ pktMax) :
    Along (Within pktMax) (put pktMax pos bs) s := by
  intro hle
  refine ⟨hle, ?_⟩
  show (s.past || (decide (bs ≠ []) && decide (pktMax < pos + bs.length))) = s.past
  simp [decide_eq_false (not_lt.2 h)]

theorem mkspace_within (len : Nat) : Along (Within pktMax) (dnsEncMkspace pktMax len) s := by
  intro hle
  unfold dnsEncMkspace
  split
  · exact ⟨hle, rfl⟩
  · next hroom => exact ⟨not_lt.1 hroom, rfl⟩

theorem mkspace_room {len w : Nat} (h : dnsEncMkspace pktMax len s = .ok w s') :
    w + len ≤ pktMax := by
  unfold dnsEncMkspace at h
  split at h
  · cases h
  · next hroom =>
      cases h
      exact not_lt.1 hroom

theorem retspace_within (len : Nat) : Along (Within pktMax) (dnsEncRetspace len) s := by
  intro hle
  unfold dnsEncRetspace
  split
  · exact ⟨hle, rfl⟩
  · exact ⟨(Nat.sub_le _ _).trans hle, rfl⟩

section
variable (hshort : ShortStr (cstring name))
include hshort

theorem putName_within {w : Nat} (h : w + DNS_NAME_MAXLEN ≤ pktMax) :
    Along (Within pktMax) (putName pktMax w name) s := by
  intro hle
  have hlen : w + (encodeName s.table w (some (cstring name))).wire.length ≤ pktMax :=
    (Nat.add_le_add_left (length_encodeName_le hshort) w).trans h
  have hpast : (s.past || (decide ((encodeName s.table w (some (cstring name))).wire ≠ []) &&
      decide (pktMax < w + (encodeName s.table w (some (cstring name))).wire.length))) = s.past := by
    simp [decide_eq_false (not_lt.2 hlen)]
  unfold putName
  dsimp only
  split
  · exact ⟨hle, hpast⟩
  · exact ⟨hle, hpast⟩

theorem putName_stop {w wptr : Nat} (h : putName pktMax w name s = .ok wptr s') :
    wptr ≤ w + DNS_NAME_MAXLEN := by
  rw [(putName_ok h).2.1]
  exact Nat.add_le_add_left (length_encodeName_le hshort) w

omit hshort in
theorem dnsEncQuest_within {quest : Qd} (hshort : ShortStr (cstring quest.qname)) :
    Along (Within pktMax) (dnsEncQuest pktMax quest) s := by
  refine (mkspace_within _).bind fun w _ hspace => ?_
  have hroom := mkspace_room hspace
  refine (putName_within hshort (by omega)).bind fun _ _ hname => ?_
  have hstop := putName_stop hshort hname
  refine (put_within ?_).bind fun _ _ _ => retspace_within _
  simp
  omega

theorem dnsEncName_within : Along (Within pktMax) (dnsEncName pktMax name) s := by
  refine (mkspace_within _).bind fun w _ hspace => ?_
  exact (putName_within hshort (mkspace_room hspace)).bind fun _ _ _ => retspace_within _

end

theorem dnsEncMem_within (bs : Bytes) : Along (Within pktMax) (dnsEncMem pktMax bs) s :=
  (mkspace_within _).bind fun _ _ hspace => put_within (mkspace_room hspace)

theorem encodeTxt_within (strs : List (Option Bytes)) :
    Along (Within pktMax) (encodeTxt pktMax strs) s := by
  induction strs generalizing s with
  | nil => exact along_pure ()
  | cons _ strs ih =>
    refine Along.bind ?_ fun _ _ _ => ih
    exact (mkspace_within _).bind fun _ _ hspace => put_within (mkspace_room hspace)

theorem encodeSoa_within {v : Soa} (hm : ShortStr (cstring v.mname))
    (hr : ShortStr (cstring v.rname)) : Along (Within pktMax) (encodeSoa pktMax v) s := by
  refine (dnsEncName_within hm).bind fun _ _ _ => ?_
  refine (dnsEncName_within hr).bind fun _ _ _ => ?_
  refine (mkspace_within _).bind fun w _ hspace => put_within ?_
  have hroom := mkspace_room hspace
  simpa using hroom

theorem encodeHinfo_within (v : Hinfo) : Along (Within pktMax) (encodeHinfo pktMax v) s := by
  refine (mkspace_within _).bind fun w _ hspace => ?_
  have hroom := mkspace_room hspace
  refine (put_within ?_).bind fun _ _ _ => ?_
  · rw [length_singleton]
    omega
  refine (put_within (by omega)).bind fun _ _ _ => ?_
  refine (put_within ?_).bind fun _ _ _ => put_within (by omega)
  rw [length_singleton]
  omega

theorem encodeMx_within {v : Mx} (hshort : ShortStr (cstring v.name)) :
    Along (Within pktMax) (encodeMx pktMax v) s := by
  refine (mkspace_within _).bind fun w _ hspace => ?_
  have hroom := mkspace_room hspace
  refine (put_within ?_).bind fun _ _ _ => dnsEncName_within hshort
  rw [length_encU16]
  omega

theorem encodeOpt_within (v : Opt) (hfirst : 6 ≤ rdlenPtr) (hroom : rdlenPtr ≤ pktMax) :
    Along (Within pktMax) (encodeOpt pktMax v rdlenPtr) s := by
  refine put_within ?_
  simp
  omega

theorem encodeRrHdr_within (hshort : ShortStr (cstring rr.name)) :
    Along (Within pktMax) (encodeRrHdr pktMax rr) s ∧
      ∀ rdlenPtr s', encodeRrHdr pktMax rr s = .ok rdlenPtr s' →
        8 ≤ rdlenPtr ∧ rdlenPtr + 2 ≤ pktMax := by
  constructor
  · refine (mkspace_within _).bind fun w s1 hspace => ?_
    have hroom := mkspace_room hspace
    refine (putName_within hshort (by omega)).bind fun wptr s2 hname => ?_
    have hstop := putName_stop hshort hname
    refine (put_within ?_).bind fun _ s3 _ => (retspace_within _).bind fun _ s4 _ => along_pure _
    simp
    omega
  · intro _ _ h
    obtain ⟨w, s1, hspace, h⟩ := of_bind_ok h
    obtain ⟨wptr, s2, hname, h⟩ := of_bind_ok h
    obtain ⟨_, s3, _, h⟩ := of_bind_ok h
    obtain ⟨_, s4, _, h⟩ := of_bind_ok h
    cases h
    have hroom := mkspace_room hspace
    have hstop := putName_stop hshort hname
    omega

theorem encodeRdata_within (htype : rr.type ≠ DNS_TYPE_SRV) (hshort : Short (rdataPieces ov rr))
    (hfirst : 8 ≤ rdlenPtr) (hroom : rdlenPtr + 2 ≤ pktMax) :
    Along (Within pktMax) (encodeRdata pktMax ov rr rdlenPtr) s := by
  have hname : ∀ name : Option Bytes, Short [.name (cstring name)] →
      Along (Within pktMax) (dnsEncName pktMax name) s :=
    fun name hs => dnsEncName_within (hs _ (mem_singleton_self _))
  unfold rdataPieces at hshort
  refine along_ite (fun _ => dnsEncMem_within _) fun hc => ?_
  rw [if_neg hc] at hshort
  refine along_ite (fun hc => hname _ (by rwa [if_pos hc] at hshort)) fun hc => ?_
  rw [if_neg hc] at hshort
  refine along_ite (fun hc => hname _ (by rwa [if_pos hc] at hshort)) fun hc => ?_
  rw [if_neg hc] at hshort
  refine along_ite (fun hc => ?_) fun hc => ?_
  · rw [if_pos hc] at hshort
    exact encodeSoa_within (hshort _ mem_cons_self) (hshort _ (.tail _ mem_cons_self))
  rw [if_neg hc] at hshort
  refine along_ite (fun hc => hname _ (by rwa [if_pos hc] at hshort)) fun hc => ?_
  rw [if_neg hc] at hshort
  refine along_ite (fun _ => encodeHinfo_within _) fun hc => ?_
  rw [if_neg hc] at hshort
  refine along_ite (fun hc => ?_) fun hc => ?_
  · rw [if_pos hc] at hshort
    exact encodeMx_within (hshort _ (.tail _ (.tail _ mem_cons_self)))
  refine along_ite (fun _ => encodeTxt_within _) fun _ => ?_
  refine along_ite (fun _ => dnsEncMem_within _) fun _ => ?_
  refine along_ite (fun hc => absurd hc htype) fun _ => ?_
  exact along_ite (fun _ => encodeOpt_within _ (by omega) (by omega)) fun _ => along_pure ()

theorem encodeSrv_over {v : Srv} (hshort : ShortStr (cstring v.name)) (hle : s.pktLen ≤ pktMax) :
    (after (encodeSrv pktMax v s)).pktLen ≤ pktMax ∧ (after (encodeSrv pktMax v s)).past =
        (s.past || decide (s.pktLen + 2 ≤ pktMax ∧ pktMax < s.pktLen + 6)) := by
  by_cases hroom : s.pktLen + 2 ≤ pktMax
  · have hspace : dnsEncMkspace pktMax 2 s = .ok s.pktLen { s with pktLen := s.pktLen + 2 } :=
      if_neg (not_lt.2 hroom)
    have hsix : (encU16 v.prior ++ encU16 v.weight ++ encU16 v.port).length = 6 := by simp
    have hne : encU16 v.prior ++ encU16 v.weight ++ encU16 v.port ≠ [] := fun h => by
      rw [h] at hsix
      cases hsix
    -- the name behind the numbers stays within its room
    have hlast : Along (Within pktMax) (dnsEncName pktMax v.name)
        { s with
          pktLen := s.pktLen + 2,
          mem := writeBytes s.mem s.pktLen (encU16 v.prior ++ encU16 v.weight ++ encU16 v.port),
          past := s.past || decide (pktMax < s.pktLen + 6) } := dnsEncName_within hshort
    rw [encodeSrv, bind_ok hspace]
    refine ⟨(hlast hroom).1, (hlast hroom).2.trans ?_⟩
    simp [hroom]
  · have hspace : dnsEncMkspace pktMax 2 s = .error () s := if_pos (not_le.1 hroom)
    rw [encodeSrv, bind_exit hspace]
    simp [Lib.Exits.after, hle, hroom]

end

/-! ## Messages -/

section
variable (pktMax : Nat) (ov : Overlay)

/-- The RDATA of the record, which is of `DNS_TYPE_SRV`, comes to stand two to five bytes in front
of the end of the buffer. -/
def srvOver (rr : Rr) (s : Enc) : Bool :=
  match encodeRrHdr pktMax rr s with
  | .ok _ s1 => rr.type = DNS_TYPE_SRV ∧ s1.pktLen + 2 ≤ pktMax ∧ pktMax < s1.pktLen + 6
  | .error _ _ => false

/-- Some record meets `srvOver` in the state in which it is encoded. -/
def srvOvers : List Rr → Enc → Bool
  | [], _ => false
  | rr :: recs, s =>
    srvOver pktMax rr s ||
      match dnsRrEncode pktMax ov rr s with
      | .ok _ s' => srvOvers recs s'
      | .error _ _ => false

variable {pktMax ov} {s : Enc}

theorem encodeRdata_srv (h : rr.type = DNS_TYPE_SRV) (rdlenPtr : Nat) :
    encodeRdata pktMax ov rr rdlenPtr = encodeSrv pktMax (ov.srv rr.rdata) := by
  rw [encodeRdata, h]
  rfl

theorem encodeRdata_over (hshort : Short (rdataPieces ov rr)) (hfirst : 8 ≤ rdlenPtr)
    (hroom : rdlenPtr + 2 ≤ pktMax) (hle : s.pktLen ≤ pktMax) :
    (after (encodeRdata pktMax ov rr rdlenPtr s)).pktLen ≤ pktMax ∧
      (after (encodeRdata pktMax ov rr rdlenPtr s)).past =
        (s.past || decide (rr.type = DNS_TYPE_SRV ∧ s.pktLen + 2 ≤ pktMax ∧
          pktMax < s.pktLen + 6)) := by
  by_cases htype : rr.type = DNS_TYPE_SRV
  · have hname : ShortStr (cstring (ov.srv rr.rdata).name) := by
      refine hshort _ ?_
      rw [rdataPieces, htype]
      exact .tail _ mem_cons_self
    rw [encodeRdata_srv htype]
    simpa [htype] using encodeSrv_over hname hle
  · obtain ⟨hlen, hpast⟩ := encodeRdata_within htype hshort hfirst hroom hle
    exact ⟨hlen, by simpa [htype] using hpast⟩

theorem dnsRrEncode_over (hshort : rr.Short ov) (hle : s.pktLen ≤ pktMax) :
    (after (dnsRrEncode pktMax ov rr s)).pktLen ≤ pktMax ∧
      (after (dnsRrEncode pktMax ov rr s)).past = (s.past || srvOver pktMax rr s) := by
  obtain ⟨hhdr, hplace⟩ := encodeRrHdr_within hshort.1
  have hhead := hhdr hle
  unfold srvOver
  cases hrun : encodeRrHdr pktMax rr s with
  | error e s1 =>
    have hexit : dnsRrEncode pktMax ov rr s = .error e s1 := bind_exit hrun
    rw [hrun] at hhead
    rw [hexit]
    exact ⟨hhead.1, hhead.2.trans (Bool.or_false _).symm⟩
  | ok rdlenPtr s1 =>
    rw [hrun] at hhead
    obtain ⟨hlen, hpast⟩ : s1.pktLen ≤ pktMax ∧ s1.past = s.past := hhead
    obtain ⟨hfirst, hroom⟩ := hplace rdlenPtr s1 hrun
    have hrdata := encodeRdata_over hshort.2 hfirst hroom hlen
    have hrest : dnsRrEncode pktMax ov rr s =
        (encodeRdata pktMax ov rr rdlenPtr >>= fun _ => get >>= fun s2 =>
          put pktMax rdlenPtr
            (encU16 (UInt16.ofNat (s2.pktLen - s1.pktLen % 2 ^ 16)))) s1 := bind_ok hrun
    rw [hrest, ← hpast]
    cases hrd : encodeRdata pktMax ov rr rdlenPtr s1 with
    | error e s2 =>
      rw [hrd] at hrdata
      rw [bind_exit hrd]
      exact hrdata
    | ok _ s2 =>
      rw [hrd] at hrdata
      rw [bind_ok hrd]
      -- only the length is written behind the RDATA
      have hput : Along (Within pktMax) (put pktMax rdlenPtr
          (encU16 (UInt16.ofNat (s2.pktLen - s1.pktLen % 2 ^ 16)))) s2 :=
        put_within (by rw [length_encU16]; exact hroom)
      exact ⟨(hput hrdata.1).1, (hput hrdata.1).2.trans hrdata.2⟩

theorem dnsSectEnc_over {recs : List Rr} (hshort : ∀ rr ∈ recs, rr.Short ov)
    (hle : s.pktLen ≤ pktMax) :
    (after (dnsSectEnc pktMax ov recs s)).pktLen ≤ pktMax ∧
      (after (dnsSectEnc pktMax ov recs s)).past = (s.past || srvOvers pktMax ov recs s) := by
  induction recs generalizing s with
  | nil => exact ⟨hle, (Bool.or_false _).symm⟩
  | cons rr recs ih =>
    obtain ⟨hlen, hpast⟩ := dnsRrEncode_over (hshort rr mem_cons_self) hle
    rw [dnsSectEnc, srvOvers]
    cases hrun : dnsRrEncode pktMax ov rr s with
    | error e s1 =>
      rw [hrun] at hlen hpast
      rw [bind_exit hrun]
      exact ⟨hlen, hpast.trans (by rw [Bool.or_false])⟩
    | ok _ s1 =>
      rw [hrun] at hlen hpast
      obtain ⟨hlen', hpast'⟩ := ih (fun rr' hrr' => hshort rr' (.tail _ hrr')) hlen
      rw [bind_ok hrun]
      refine ⟨hlen', hpast'.trans ?_⟩
      rw [← Bool.or_assoc]
      exact congrArg (· || srvOvers pktMax ov recs s1) hpast

theorem dnsSectEnc_append (recs recs' : List Rr) : dnsSectEnc pktMax ov (recs ++ recs') =
      (dnsSectEnc pktMax ov recs >>= fun _ => dnsSectEnc pktMax ov recs') := by
  induction recs with
  | nil => rfl
  | cons _ recs ih => rw [cons_append, dnsSectEnc, dnsSectEnc, ih, bind_assoc]

theorem encodeQd_within {quests : List Qd} (hshort : ∀ q ∈ quests, ShortStr (cstring q.qname)) :
    Along (Within pktMax) (encodeQd pktMax quests) s := by
  induction quests generalizing s with
  | nil => exact along_pure ()
  | cons q quests ih =>
    exact (dnsEncQuest_within (hshort q mem_cons_self)).bind fun _ _ _ =>
      ih fun q' hq' => hshort q' (.tail _ hq')

theorem encodeHdr_within (hdr : Hdr) : Along (Within pktMax) (encodeHdr pktMax hdr) s := by
  refine (mkspace_within _).bind fun w _ hspace => put_within ?_
  exact mkspace_room hspace

end

/-- The part of `dns_msg_encode` in front of the records. -/
def encodeHead (pktMax : Nat) (m : Msg) : EncM Unit := do
  encodeHdr pktMax (syncHdr m)
  encodeQd pktMax m.questions

def Msg.allRecs (m : Msg) : List Rr := m.an.recs ++ m.ns.recs ++ m.ar.recs

/-- No record of `DNS_TYPE_SRV` that the encoder comes to has its RDATA two to five bytes in front
of the end of the buffer. -/
def SrvFits (pktMax : Nat) (ov : Overlay) (m : Msg) (buf : Mem) : Prop :=
  ∀ s, encodeHead pktMax m (Enc.start buf) = .ok () s → srvOvers pktMax ov m.allRecs s = false

theorem encodeMsg_eq (pktMax : Nat) (ov : Overlay) (m : Msg) : encodeMsg pktMax ov m =
      (encodeHead pktMax m >>= fun _ => dnsSectEnc pktMax ov m.allRecs) := by
  unfold encodeMsg encodeHead Msg.allRecs
  rw [dnsSectEnc_append, dnsSectEnc_append]
  simp

/-- For every message that calls make and every length of the buffer: the encoder writes within
the buffer, and the length that it returns is within it, exactly when no record of `DNS_TYPE_SRV`
comes to stand two to five bytes in front of the end of the buffer. -/
theorem encoder_within_iff (ov : Overlay) (m : Msg) (hm : Made ov m) (len : Nat) (buf : Mem) :
    ((dnsMsgEncode len ov m buf).2.past = false ∧
        ∀ n, (dnsMsgEncode len ov m buf).1 = some n → n ≤ len) ↔ SrvFits len ov m buf := by
  have hshort := hm.short
  have hrecs : ∀ rr ∈ m.allRecs, rr.Short ov := by
    intro rr hrr
    rcases mem_append.1 hrr with hrr | har
    · rcases mem_append.1 hrr with han | hns
      · exact hshort.recs .an rr han
      · exact hshort.recs .ns rr hns
    · exact hshort.recs .ar rr har
  have hstate : (dnsMsgEncode len ov m buf).2 = after (encodeMsg len ov m (Enc.start buf)) := by
    unfold dnsMsgEncode
    cases encodeMsg len ov m _ <;> rfl
  have hlen : ∀ n, (dnsMsgEncode len ov m buf).1 = some n →
      n = (after (encodeMsg len ov m (Enc.start buf))).pktLen := by
    intro n hn
    unfold dnsMsgEncode at hn
    cases hrun : encodeMsg len ov m _ with
    | error e s =>
      rw [hrun] at hn
      cases hn
    | ok _ s =>
      rw [hrun] at hn
      exact (Option.some.inj hn).symm
  have hhead : Along (Within len) (encodeHead len m) (Enc.start buf) :=
    (encodeHdr_within _).bind fun _ _ _ => encodeQd_within hshort.quests
  obtain ⟨hle, hpast⟩ := hhead zero_le
  rw [hstate, SrvFits]
  rw [encodeMsg_eq] at hlen ⊢
  cases hrun : encodeHead len m _ with
  | error e s =>
    rw [hrun] at hle hpast
    rw [bind_exit hrun] at hlen ⊢
    refine ⟨fun _ _ hs => (nomatch hs), fun _ => ⟨hpast, fun n hn => ?_⟩⟩
    rw [hlen n hn]
    exact hle
  | ok _ s =>
    rw [hrun] at hle hpast
    rw [bind_ok hrun] at hlen ⊢
    have hfresh : s.past = false := hpast
    obtain ⟨hle', hpast'⟩ := dnsSectEnc_over (s := s) hrecs hle
    rw [hpast', hfresh]
    constructor
    · rintro ⟨hover, -⟩ s' hs'
      cases hs'
      simpa using hover
    · intro hover
      refine ⟨by rw [hover s rfl]; rfl, fun n hn => ?_⟩
      rw [hlen n hn]
      exact hle'

/-- A message with one record of `DNS_TYPE_SRV`. -/
def srvMsg (owner : Bytes) : Msg :=
  (dnsAddRr Overlay.plain (dnsMsgReset Msg.zero) .an
    ⟨some owner, DNS_TYPE_SRV, 1, 60, 0, .srv ⟨1, 2, 3, some [97]⟩⟩).2

/-- A name of 253 characters. -/
def longOwner : Bytes :=
  dotted [replicate 63 97, replicate 63 97, replicate 63 97, replicate 61 97]

/-- Behind a name of 255 bytes, with two bytes left, weight and port are written behind the end. -/
theorem srv_written_past :
    (dnsMsgEncode 279 Overlay.plain (srvMsg longOwner) fun _ => 0).2.past = true ∧
      (dnsMsgEncode 279 Overlay.plain (srvMsg longOwner) fun _ => 0).2.mem 280 = 2 ∧
      (dnsMsgEncode 279 Overlay.plain (srvMsg longOwner) fun _ => 0).2.mem 282 = 3 := by
  decide +kernel

/-- In a buffer of 512 bytes a record with a short name stays within. -/
theorem srv_written_within :
    (dnsMsgEncode 512 Overlay.plain (srvMsg [97]) fun _ => 0).2.past = false ∧
      ∀ n, (dnsMsgEncode 512 Overlay.plain (srvMsg [97]) fun _ => 0).1 = some n → n ≤ 512 := by
  refine (encoder_within_iff Overlay.plain (srvMsg [97]) (.addRr _ _ (.reset _)) 512 _).2 ?_
  intro s hs
  have hstate : s = after (encodeHead 512 (srvMsg [97]) (Enc.start fun _ => 0)) := by
    rw [hs]
    rfl
  rw [hstate]
  decide +kernel

end CDbK8s.Dns
