import Mathlib.Data.List.TakeWhile
import CDbK8s.Dns.Stored

/-!
# Messages that calls build

`dns_add_qd` and `dns_add_rr`, when they succeed, put the strings of the new entry in the store
of the message and nothing else: a message that is built from an empty one by such calls has its
strings in its store (`Built.stored`). The slot that a record goes to must have no strings of
`DNS_TYPE_TXT` left in it, as a slot of zero bytes has not: the new strings go behind them.
-/

namespace CDbK8s.Dns

open Base Lib.Exits List Function

/-! ## One record -/

/-- The store goes from `names` to `names'` by the strings `strs`. -/
structure Adds (names names' : Bytes) (strs : List (Option Bytes)) : Prop where
  size : names'.length = names.length + (strs.map storedSize).sum
  short : ∀ str ∈ strs, ShortStr (cstring str)
  store : names.length ≤ DNS_MAX_PDUSIZE → names'.length ≤ DNS_MAX_PDUSIZE

section
variable {ov : Overlay} {s s' : Adding}

theorem Adds.refl (names : Bytes) : Adds names names [] := ⟨rfl, nofun, id⟩

theorem Adds.trans {names names' names'' : Bytes} {strs strs' : List (Option Bytes)}
    (h : Adds names names' strs) (h' : Adds names' names'' strs') :
    Adds names names'' (strs ++ strs') := by
  refine ⟨?_, fun str hstr => ?_, fun hstore => h'.store (h.store hstore)⟩
  · simp [h'.size, h.size, add_assoc]
  · rcases mem_append.1 hstr with hstr | hstr
    · exact h.short str hstr
    · exact h'.short str hstr

theorem cstr_cstr (bs : Bytes) : cstr (cstr bs) = cstr bs := takeWhile_idem

theorem addName_run (name : Option Bytes) (set : Option Bytes → Rr → Rr) (s : Adding) :
    ∃ str s', addName name set s = .ok str s' ∧ s'.rr = set str s.rr ∧ Adds s.names s'.names [str] ∧
      (str = none ∨ str = some (cstring name)) := by
  refine ⟨_, _, rfl, rfl, ?_, ?_⟩
  · by_cases h : Storable s.names (cstr (name.getD []))
    · have hrun := msgStoreStr_ok h
      obtain ⟨hshort, hroom⟩ := h
      unfold msgStoreName
      rw [hrun]
      refine ⟨?_, fun str hstr => ?_, fun _ => ?_⟩
      · simp [storedSize, cstr_cstr]
      · rw [mem_singleton.1 hstr]
        show (cstr (cstr (name.getD []))).length ≤ _
        rw [cstr_cstr]
        exact hshort
      · simpa [add_assoc] using hroom
    · have hrun := msgStoreStr_full h
      unfold msgStoreName
      rw [hrun]
      refine ⟨rfl, fun str hstr => ?_, id⟩
      rw [mem_singleton.1 hstr]
      exact zero_le
  · unfold msgStoreName msgStoreStr
    split
    · exact .inl rfl
    · split
      · exact .inl rfl
      · exact .inr rfl

theorem addRequire_ok {str : Option Bytes} (h : addRequire str s = .ok () s') :
    str ≠ none ∧ s' = s := by
  unfold addRequire addStopIf at h
  split at h
  · cases h
  · rename_i hstr
    cases h
    exact ⟨hstr, rfl⟩

theorem addNeeded_ok {name : Option Bytes} {set : Option Bytes → Rr → Rr}
    (h : addNeeded name set s = .ok () s') :
    s'.rr = set (some (cstring name)) s.rr ∧ Adds s.names s'.names [some (cstring name)] := by
  obtain ⟨str, s1, hname, h⟩ := of_bind_ok h
  obtain ⟨str', s2, hrun, hrr, hadds, hstr⟩ := addName_run _ set s
  cases hname.symm.trans hrun
  obtain ⟨hne, rfl⟩ := addRequire_ok h
  obtain rfl := hstr.resolve_left hne
  exact ⟨hrr, hadds⟩

/-- The code `x` leaves name and type of the slot, and puts the strings in the store that `strs`
gives for the RDATA it leaves. -/
def Fills (s : Adding) (x : AddM Unit) (strs : Rdata → List (Option Bytes)) : Prop :=
  ∀ s', x s = .ok () s' → (s'.rr.name = s.rr.name ∧ s'.rr.type = s.rr.type) ∧
    Adds s.names s'.names (strs s'.rr.rdata) ∧ (strs s'.rr.rdata).length ≤ DNS_MAX_TXT

theorem fills_ite {c : Prop} [Decidable c] {x y : AddM Unit} {u v : Rdata → List (Option Bytes)}
    (hx : c → Fills s x u) (hy : Fills s y v) :
    Fills s (if c then x else y) fun d => if c then u d else v d := by
  by_cases hc : c
  · simp only [if_pos hc]
    exact hx hc
  · simp only [if_neg hc]
    exact hy

theorem fills_set (d : Rdata → Rdata) :
    Fills s (addSet fun rr => { rr with rdata := d rr.rdata }) fun _ => [] := by
  rintro s' h
  cases h
  exact ⟨⟨rfl, rfl⟩, ⟨rfl, nofun, id⟩, zero_le⟩

theorem fills_name (name : Option Bytes) (member : Option Bytes → Rdata)
    (read : Rdata → Option Bytes) (hread : ∀ str, read (member str) = str) :
    Fills s (addNeeded name fun str rr => { rr with rdata := member str }) fun d => [read d] := by
  intro _ h
  obtain ⟨hrr, hadds⟩ := addNeeded_ok h
  rw [hrr]
  dsimp only
  rw [hread]
  exact ⟨⟨rfl, rfl⟩, hadds, show 1 ≤ 32 by decide⟩

theorem fills_hinfo (ov : Overlay) (v : Hinfo) :
    Fills s (do
      let _ ← addName v.cpuStr fun str rr =>
        { rr with rdata := .hinfo { ov.hinfo rr.rdata with cpuStr := str } }
      let _ ← addName v.osStr fun str rr =>
        { rr with rdata := .hinfo { ov.hinfo rr.rdata with osStr := str } })
      fun d => [(ov.hinfo d).cpuStr, (ov.hinfo d).osStr] := by
  intro _ h
  obtain ⟨cpu, s1, hcpu, h⟩ := of_bind_ok h
  obtain ⟨os, s2, hos, h⟩ := of_bind_ok h
  cases h
  obtain ⟨_, _, hrun1, hrr1, hadds1, -⟩ := addName_run _ (fun str rr =>
    { rr with rdata := .hinfo { ov.hinfo rr.rdata with cpuStr := str } }) s
  cases hcpu.symm.trans hrun1
  obtain ⟨_, _, hrun2, hrr2, hadds2, -⟩ := addName_run _ (fun str rr =>
    { rr with rdata := .hinfo { ov.hinfo rr.rdata with osStr := str } }) s1
  cases hos.symm.trans hrun2
  rw [hrr2, hrr1]
  simp only [Overlay.hinfo_hinfo]
  exact ⟨⟨trivial, trivial⟩, hadds1.trans hadds2, show 2 ≤ 32 by decide⟩

theorem fills_soa (ov : Overlay) (v : Soa) :
    Fills s (addSoa ov v) fun d => [(ov.soa d).mname, (ov.soa d).rname] := by
  intro _ h
  obtain ⟨_, s1, hm, h⟩ := of_bind_ok h
  obtain ⟨rname, s2, hr, h⟩ := of_bind_ok h
  obtain ⟨_, _, hget, h⟩ := of_bind_ok h
  cases hget
  obtain ⟨_, s3, hreq, h⟩ := of_bind_ok h
  cases h
  obtain ⟨hrr1, hadds1⟩ := addNeeded_ok hm
  obtain ⟨_, _, hrun2, hrr2, hadds2, -⟩ := addName_run _ (fun str rr =>
    { rr with rdata := .soa { ov.soa rr.rdata with rname := str } }) s1
  cases hr.symm.trans hrun2
  obtain ⟨-, rfl⟩ := addRequire_ok hreq
  simp only [hrr2, hrr1, Overlay.soa_soa]
  exact ⟨⟨trivial, trivial⟩, hadds1.trans hadds2, show 2 ≤ 32 by decide⟩

theorem addTxt_ok {ov : Overlay} {strs : List (Option Bytes)} (h : addTxt ov strs s = .ok () s') :
    (s'.rr.name = s.rr.name ∧ s'.rr.type = s.rr.type) ∧
      ∃ new, (ov.txt s'.rr.rdata).strs = (ov.txt s.rr.rdata).strs ++ new ∧
        Adds s.names s'.names new ∧
        ((ov.txt s.rr.rdata).strs.length ≤ DNS_MAX_TXT →
          (ov.txt s'.rr.rdata).strs.length ≤ DNS_MAX_TXT) := by
  induction strs generalizing s with
  | nil =>
    cases h
    exact ⟨⟨rfl, rfl⟩, [], (append_nil _).symm, Adds.refl _, id⟩
  | cons str strs ih =>
    obtain ⟨_, _, hget, h⟩ := of_bind_ok h
    cases hget
    obtain ⟨_, s1, hroom, h⟩ := of_bind_ok h
    have hlt : s1 = s ∧ ¬ (ov.txt s.rr.rdata).strs.length ≥ DNS_MAX_TXT := by
      unfold addStopIf at hroom
      split at hroom
      · cases hroom
      · rename_i hfree
        cases hroom
        exact ⟨rfl, hfree⟩
    obtain ⟨rfl, hfree⟩ := hlt
    obtain ⟨stored, s2, hname, h⟩ := of_bind_ok h
    obtain ⟨_, s3, hreq, h⟩ := of_bind_ok h
    obtain ⟨_, s4, hset, hrest⟩ := of_bind_ok h
    obtain ⟨_, _, hrun, hrr, hadds, -⟩ := addName_run str (fun _ rr => rr) _
    cases hname.symm.trans hrun
    obtain ⟨-, rfl⟩ := addRequire_ok hreq
    cases hset
    obtain ⟨⟨hname', htype'⟩, new, hstrs, hadds', hlen⟩ := ih hrest
    simp only [Overlay.txt_txt, length_append, length_singleton] at hstrs hlen
    have hkept : s3.rr.name = s1.rr.name ∧ s3.rr.type = s1.rr.type := by
      rw [hrr]
      exact ⟨rfl, rfl⟩
    refine ⟨⟨hname'.trans hkept.1, htype'.trans hkept.2⟩,
      stored :: new, ?_, ?_, fun _ => hlen (by omega)⟩
    · simp [hstrs]
    · exact hadds.trans hadds'

theorem addRdata_fills {type : UInt16} {src : Rdata}
    (hfresh : type = DNS_TYPE_TXT → (ov.txt s.rr.rdata).strs = [])
    (htype : s.rr.type = type) (h : addRdata ov type src s = .ok () s') :
    (s'.rr.name = s.rr.name ∧ s'.rr.type = s.rr.type) ∧ Adds s.names s'.names (rdataStrings ov s'.rr) ∧
      (rdataStrings ov s'.rr).length ≤ DNS_MAX_TXT := by
  have htxt : type = DNS_TYPE_TXT →
      Fills s (addTxt ov (ov.txt src).strs) fun d => (ov.txt d).strs := by
    intro hfree s' h
    obtain ⟨hkept, new, hstrs, hadds, hlen⟩ := addTxt_ok h
    rw [hfresh hfree] at hlen
    rw [hfresh hfree, nil_append] at hstrs
    rw [← hstrs] at hadds
    exact ⟨hkept, hadds, hlen zero_le⟩
  have hnone : Fills s (pure ()) fun _ => [] := by
    intro s' h
    cases h
    exact ⟨⟨rfl, rfl⟩, Adds.refl _, zero_le⟩
  have hopt : Fills s (if type = DNS_TYPE_OPT then addSet fun rr =>
      { rr with
        rdata := .opt
          { ov.opt rr.rdata with
            udpSize := (ov.opt src).udpSize, extRcode := (ov.opt src).extRcode,
            ednsVer := (ov.opt src).ednsVer, doBit := (ov.opt src).doBit } } else pure ())
      fun _ => [] := by
    have h := fills_ite (c := type = DNS_TYPE_OPT) (fun _ => fills_set fun d => .opt
      { ov.opt d with
        udpSize := (ov.opt src).udpSize, extRcode := (ov.opt src).extRcode,
        ednsVer := (ov.opt src).ednsVer, doBit := (ov.opt src).doBit }) hnone
    simpa only [ite_self] using h
  have hfills : Fills s (addRdata ov type src) fun d =>
      rdataStrings ov { s.rr with type := type, rdata := d } :=
    fills_ite (fun _ => fills_set fun _ => .a _) <|
    fills_ite (fun _ => fills_name _ _ _ ov.ns_ns) <|
    fills_ite (fun _ => fills_name _ _ _ ov.cname_cname) <| fills_ite (fun _ => fills_soa ov _) <|
    fills_ite (fun _ => fills_name _ _ _ ov.ptr_ptr) <| fills_ite (fun _ => fills_hinfo ov _) <|
    fills_ite (fun _ => fills_name _ _ (fun d => (ov.mx d).name) (by simp)) <| fills_ite htxt <|
    fills_ite (fun _ => fills_set fun _ => .aaaa _) <|
    fills_ite (fun _ => fills_name _ _ (fun d => (ov.srv d).name) (by simp)) hopt
  obtain ⟨hkept, hadds⟩ := hfills s' h
  have hsame : rdataStrings ov { s.rr with type := type, rdata := s'.rr.rdata } =
      rdataStrings ov s'.rr := by
    rw [← htype, ← hkept.2]
    rfl
  rw [← hsame]
  exact ⟨hkept, hadds⟩

theorem addRr_ok {src : Rr} (hfresh : src.type = DNS_TYPE_TXT → (ov.txt s.rr.rdata).strs = [])
    (h : addRr ov src s = .ok () s') :
    Adds s.names s'.names (s'.rr.strings ov) ∧ (rdataStrings ov s'.rr).length ≤ DNS_MAX_TXT := by
  obtain ⟨_, s1, hname, h⟩ := of_bind_ok h
  obtain ⟨_, s2, hset, hrdata⟩ := of_bind_ok h
  obtain ⟨hrr, hadds⟩ := addNeeded_ok hname
  cases hset
  have htxt : src.type = DNS_TYPE_TXT → (ov.txt s1.rr.rdata).strs = [] := by
    rw [hrr]
    exact hfresh
  obtain ⟨hkept, hadds', hlen⟩ := addRdata_fills
    (s := ⟨s1.names, { s1.rr with type := src.type, cls := src.cls, ttl := src.ttl }⟩) htxt rfl hrdata
  refine ⟨?_, hlen⟩
  have howner : s'.rr.name = some (cstring src.name) := by
    rw [hkept.1, hrr]
  rw [Rr.strings, howner]
  exact hadds.trans hadds'

end

/-! ## Whole messages -/

variable {ov : Overlay} {m m' : Msg}

/-- The free slots have no strings of `DNS_TYPE_TXT`. -/
def Msg.Fresh (ov : Overlay) (m : Msg) : Prop :=
  ∀ sc i, (m.sect sc).count ≤ i → (ov.txt ((m.sect sc).slots i).rdata).strs = []

/-- A message that calls which succeed build from an empty one with fresh slots. -/
inductive Built (ov : Overlay) : Msg → Prop where
  | reset {m : Msg} (hfresh : (dnsMsgReset m).Fresh ov) : Built ov (dnsMsgReset m)
  | init {m : Msg} (id flags : UInt16) (h : Built ov m) : Built ov (dnsMsgInit m id flags)
  | addQd {m m' : Msg} {qname : Option Bytes} {qtype qclass : UInt16} (h : Built ov m)
      (hadd : dnsAddQd m qname qtype qclass = (0, m')) : Built ov m'
  | addRr {m m' : Msg} {sc : Sc} {src : Rr} (h : Built ov m)
      (hadd : dnsAddRr ov m sc src = (0, m')) : Built ov m'

theorem recs_add (t : Sect) (rr : Rr) :
    (⟨update t.slots t.count rr, t.count + 1⟩ : Sect).recs = t.recs ++ [rr] :=
  map_range_succ_update _ _ _

theorem sect_setSect (m : Msg) (sc sc' : Sc) (t : Sect) :
    (m.setSect sc t).sect sc' = if sc' = sc then t else m.sect sc' := by
  cases sc <;> cases sc' <;> rfl

theorem storedSize_setSect (ov : Overlay) (m : Msg) (names : Bytes) (sc : Sc) (t : Sect) :
    ({ m with names := names }.setSect sc t).storedSize ov + recsSize ov (m.sect sc).recs =
      m.storedSize ov + recsSize ov t.recs := by
  cases sc with
  | an =>
    simp only [Msg.storedSize, Msg.setSect, Msg.sect, Msg.questions]
    omega
  | ns =>
    simp only [Msg.storedSize, Msg.setSect, Msg.sect, Msg.questions]
    omega
  | ar =>
    simp only [Msg.storedSize, Msg.setSect, Msg.sect, Msg.questions]
    omega

theorem recsSize_append (recs recs' : List Rr) :
    recsSize ov (recs ++ recs') = recsSize ov recs + recsSize ov recs' := by
  unfold recsSize
  simp

theorem Msg.Stored.more {sc : Sc} {rr : Rr} {names : Bytes} (h : m.Stored ov)
    (hroom : ¬ (m.sect sc).count ≥ DNS_MAX_RR) (hadds : Adds m.names names (rr.strings ov))
    (hlen : (rdataStrings ov rr).length ≤ DNS_MAX_TXT) :
    ({ m with names := names }.setSect sc
      ⟨update (m.sect sc).slots (m.sect sc).count rr, (m.sect sc).count + 1⟩).Stored ov := by
  have hrecs := recs_add (m.sect sc) rr
  have hsize := storedSize_setSect ov m names sc
    ⟨update (m.sect sc).slots (m.sect sc).count rr, (m.sect sc).count + 1⟩
  have hone : recsSize ov [rr] = ((rr.strings ov).map Dns.storedSize).sum := add_zero _
  rw [hrecs, recsSize_append] at hsize
  have hnew := hadds.size
  have hnames := h.names
  have hfields : ∀ t, ({ m with names := names }.setSect sc t).qdLen = m.qdLen ∧
      ({ m with names := names }.setSect sc t).questions = m.questions ∧
      ({ m with names := names }.setSect sc t).names = names := by
    intro t
    cases sc <;> exact ⟨rfl, rfl, rfl⟩
  obtain ⟨hqdLen, hquests, hstore⟩ := hfields
    ⟨update (m.sect sc).slots (m.sect sc).count rr, (m.sect sc).count + 1⟩
  refine ⟨by rw [hqdLen]; exact h.qdLen, fun sc' => ?_, by rw [hquests]; exact h.quests,
    fun sc' rr' hrr' => ?_, by rw [hstore]; omega, by rw [hstore]; exact hadds.store h.store⟩
  · rw [sect_setSect]
    split
    · dsimp only
      omega
    · exact h.count sc'
  · rw [sect_setSect] at hrr'
    split at hrr'
    · rw [hrecs] at hrr'
      rcases mem_append.1 hrr' with hold | hnew
      · exact h.recs sc rr' hold
      · rw [mem_singleton.1 hnew]
        exact ⟨hlen, hadds.short⟩
    · exact h.recs sc' rr' hrr'

theorem Msg.Stored.addRr {sc : Sc} {src : Rr} (h : m.Stored ov) (hfresh : m.Fresh ov)
    (hadd : dnsAddRr ov m sc src = (0, m')) : m'.Stored ov ∧ m'.Fresh ov := by
  unfold dnsAddRr at hadd
  dsimp only at hadd
  split at hadd
  · cases hadd
  · rename_i hroom
    cases hrun : Dns.addRr ov src ⟨m.names, (m.sect sc).slots (m.sect sc).count⟩ with
    | error e s =>
      rw [hrun] at hadd
      cases hadd
    | ok a s =>
      rw [hrun] at hadd
      obtain ⟨hadds, hlen⟩ := addRr_ok (fun _ => hfresh sc _ le_rfl) hrun
      cases hadd
      refine ⟨h.more hroom hadds hlen, fun sc' i hi => ?_⟩
      rw [sect_setSect] at hi ⊢
      split at hi
      · rename_i hsc
        rw [if_pos hsc]
        dsimp only at hi ⊢
        rw [update_of_ne (by omega)]
        exact hfresh sc i (by omega)
      · rename_i hsc
        rw [if_neg hsc]
        exact hfresh sc' i hi

theorem Msg.Stored.addQd {qname : Option Bytes} {qtype qclass : UInt16} (h : m.Stored ov)
    (hadd : dnsAddQd m qname qtype qclass = (0, m')) :
    m'.Stored ov ∧ ∀ sc, m'.sect sc = m.sect sc := by
  unfold dnsAddQd dnsAddQdn at hadd
  split at hadd
  · cases hadd
  · rename_i hroom
    have hone : DNS_MAX_QD = 1 := rfl
    have hnone : m.qdLen = 0 := by omega
    by_cases hstore : Storable m.names (cstring qname)
    · rw [msgStoreStr_ok hstore] at hadd
      obtain ⟨hshort, hfit⟩ := hstore
      have hnames := h.names
      have hold : m.questions = [] := by
        rw [Msg.questions, hnone]
        rfl
      have hsame : ∀ sc, m'.sect sc = m.sect sc := by
        cases hadd
        intro sc
        cases sc <;> rfl
      have hquests : m'.questions = [⟨some (cstring qname), qtype, qclass⟩] := by
        cases hadd
        simp [Msg.questions, hnone]
      have hlen : m'.names.length = m.names.length + (cstring qname).length + 1 ∧ m'.qdLen = 1 := by
        cases hadd
        simp [hnone, add_assoc]
      have hstr : cstring (some (cstring qname)) = cstring qname := cstr_cstr _
      have hsize : m'.storedSize ov = m.storedSize ov + ((cstring qname).length + 1) := by
        have han : m'.an = m.an := hsame .an
        have hns : m'.ns = m.ns := hsame .ns
        have har : m'.ar = m.ar := hsame .ar
        have hqs : Dns.storedSize (some (cstring qname)) = (cstring qname).length + 1 :=
          congrArg (fun bs : Bytes => bs.length + 1) hstr
        simp [Msg.storedSize, hquests, hold, han, hns, har]
        omega
      refine ⟨⟨by omega, fun sc => ?_, fun q hq => ?_, fun sc => ?_, by omega, by omega⟩, hsame⟩
      · rw [hsame]
        exact h.count sc
      · rw [hquests] at hq
        rw [mem_singleton.1 hq, hstr]
        exact hshort
      · rw [hsame]
        exact h.recs sc
    · rw [msgStoreStr_full hstore] at hadd
      cases hadd

theorem stored_reset (ov : Overlay) (m : Msg) : (dnsMsgReset m).Stored ov := by
  refine ⟨zero_le, fun sc => ?_, fun q hq => ?_, fun sc _ hrr => ?_, ?_, zero_le⟩
  · cases sc <;> exact zero_le
  · simp [Msg.questions, dnsMsgReset] at hq
  · cases sc <;> simp [Msg.sect, Sect.recs, dnsMsgReset] at hrr
  · simp [Msg.storedSize, Msg.questions, recsSize, Sect.recs, dnsMsgReset]

theorem Built.stored (h : Built ov m) : m.Stored ov ∧ m.Fresh ov := by
  induction h with
  | reset hfresh => exact ⟨stored_reset ov _, hfresh⟩
  | @init m id flags _ ih =>
    -- only the header changes
    have hsame : ∀ sc, (dnsMsgInit m id flags).sect sc = m.sect sc := fun sc => by cases sc <;> rfl
    obtain ⟨hstored, hfresh⟩ := ih
    exact ⟨⟨hstored.qdLen, fun sc => hsame sc ▸ hstored.count sc, hstored.quests,
      fun sc => hsame sc ▸ hstored.recs sc, hstored.names, hstored.store⟩,
      fun sc => hsame sc ▸ hfresh sc⟩
  | addQd _ hadd ih =>
    obtain ⟨hstored, hsame⟩ := ih.1.addQd hadd
    exact ⟨hstored, fun sc => by rw [hsame]; exact ih.2 sc⟩
  | addRr _ hadd ih => exact ih.1.addRr ih.2 hadd

end CDbK8s.Dns
