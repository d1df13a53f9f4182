import CDbK8s.Dns.Bounds
import CDbK8s.Dns.Given
import CDbK8s.Dns.Loading

/-!
# A record there and back

A record of one of the plain types that `dns_add_rr` accepted is read back as it was given, but for
one of `DNS_TYPE_SOA` whose second name did not go into the store: `dns_add_rr` looks at the first
name twice, accepts the record, and the second name is read back as the root.
-/

namespace CDbK8s.Dns

open Base Lib.ByteMem Lib.Exits List Function

variable {calls : List (Nat × Bytes)} {ov : Overlay}

/-! ## Messages and what was given for them -/

/-- A record that was given to `dns_add_rr`, and the store of the message at that time. -/
structure Given where
  names : Bytes
  src : Rr

/-- A message built from a zeroed one by calls that succeed, and the records that were given for
its sections. -/
inductive Assembled (ov : Overlay) : (Sc → List Given) → Msg → Prop where
  | reset : Assembled ov (fun _ => []) (dnsMsgReset Msg.zero)
  | init {given : Sc → List Given} {m : Msg} (id flags : UInt16) (h : Assembled ov given m) :
      Assembled ov given (dnsMsgInit m id flags)
  | addQd {given : Sc → List Given} {m m' : Msg} {qname : Option Bytes} {qtype qclass : UInt16}
      (h : Assembled ov given m) (hadd : dnsAddQd m qname qtype qclass = (0, m')) :
      Assembled ov given m'
  | addRr {given : Sc → List Given} {m m' : Msg} {sc : Sc} {src : Rr} (h : Assembled ov given m)
      (hadd : dnsAddRr ov m sc src = (0, m')) :
      Assembled ov (update given sc (given sc ++ [⟨m.names, src⟩])) m'

/-- The given records of all sections, in their order. -/
def allGiven (given : Sc → List Given) : List Given := given .an ++ given .ns ++ given .ar

/-- The slot of a record that was given for a zeroed message. -/
def Given.slot (ov : Overlay) (g : Given) : Rr :=
  ⟨some (cstring g.src.name), g.src.type, g.src.cls, g.src.ttl, 0,
    addedRdata ov (storeAfter g.names (cstring g.src.name)) .zero g.src⟩

section
variable {ov : Overlay} {given : Sc → List Given} {m m' : Msg}

theorem dnsAddRr_ok {sc : Sc} {src : Rr} (h : dnsAddRr ov m sc src = (0, m')) :
    ∃ s, addRr ov src ⟨m.names, (m.sect sc).slots (m.sect sc).count⟩ = .ok () s ∧
      m' = { m with names := s.names }.setSect sc
        ⟨update (m.sect sc).slots (m.sect sc).count s.rr, (m.sect sc).count + 1⟩ := by
  unfold dnsAddRr at h
  dsimp only at h
  split at h
  · cases h
  · cases hrun : addRr ov src ⟨m.names, (m.sect sc).slots (m.sect sc).count⟩ with
    | error e s =>
      rw [hrun] at h
      cases h
    | ok _ s =>
      rw [hrun] at h
      exact ⟨s, rfl, (congrArg Prod.snd h).symm⟩

variable (h : Assembled ov given m)
include h

theorem Assembled.built : Built ov m := by
  induction h with
  | reset => exact .reset fun sc i _ => by cases sc <;> exact congrArg _ ov.txt_zero
  | init id flags _ ih => exact .init id flags ih
  | addQd _ hadd ih => exact .addQd ih hadd
  | addRr _ hadd ih => exact .addRr ih hadd

/-- The slots that are in use are those of what was given, and the others have zero bytes. -/
theorem Assembled.slots :
    (∀ sc, (m.sect sc).recs = (given sc).map (Given.slot ov)) ∧
      ∀ sc i, (m.sect sc).count ≤ i → (m.sect sc).slots i = Rr.zero := by
  induction h with
  | reset => exact ⟨fun sc => by cases sc <;> rfl, fun sc i _ => by cases sc <;> rfl⟩
  | @init _ m id flags _ ih =>
    have hsame : ∀ sc, (dnsMsgInit m id flags).sect sc = m.sect sc := fun sc => by cases sc <;> rfl
    exact ⟨fun sc => hsame sc ▸ ih.1 sc, fun sc => hsame sc ▸ ih.2 sc⟩
  | addQd h hadd ih =>
    have hsame := (h.built.stored.1.addQd hadd).2
    exact ⟨fun sc => hsame sc ▸ ih.1 sc, fun sc => hsame sc ▸ ih.2 sc⟩
  | @addRr _ m _ sc src _ hadd ih =>
    obtain ⟨hrecs, hzero⟩ := ih
    obtain ⟨s, hrun, rfl⟩ := dnsAddRr_ok hadd
    rw [hzero sc _ le_rfl] at hrun
    obtain ⟨hstore, hslot⟩ := addRr_slot hrun
    have hrr : s.rr = Given.slot ov ⟨m.names, src⟩ := by
      rw [hslot, Given.slot, storeAfter, if_pos hstore]
      rfl
    refine ⟨fun sc' => ?_, fun sc' i hi => ?_⟩
    · rw [sect_setSect]
      by_cases hsc : sc' = sc
      · rw [if_pos hsc, recs_add, hsc, update_self, map_append, hrecs sc, hrr]
        rfl
      · rw [if_neg hsc, update_of_ne hsc]
        exact hrecs sc'
    · rw [sect_setSect] at hi ⊢
      by_cases hsc : sc' = sc
      · rw [if_pos hsc] at hi ⊢
        dsimp only at hi ⊢
        rw [update_of_ne (by omega)]
        exact hzero sc i (by omega)
      · rw [if_neg hsc] at hi ⊢
        exact hzero sc' i hi

theorem Assembled.allRecs : m.allRecs = (allGiven given).map (Given.slot ov) := by
  have hrecs := h.slots.1
  unfold allGiven
  rw [map_append, map_append, ← hrecs .an, ← hrecs .ns, ← hrecs .ar]
  rfl

end

/-! ## What was given, and its slot -/

/-- No label of the name is empty. -/
def Labelled (name : Bytes) : Prop := ∀ l ∈ labelsOf name, l ≠ []

/-- The second name of a record of `DNS_TYPE_SOA` is empty, or there was room for it in the store
behind the owner's name and the first. -/
def Given.RnameKept (ov : Overlay) (g : Given) : Prop :=
  g.src.type = DNS_TYPE_SOA → cstring (ov.soa g.src.rdata).rname = [] ∨
      Storable (storeAfter (storeAfter g.names (cstring g.src.name))
        (cstring (ov.soa g.src.rdata).mname)) (cstring (ov.soa g.src.rdata).rname)

theorem cstring_some_cstring (name : Option Bytes) : cstring (some (cstring name)) = cstring name :=
  cstr_cstr _

theorem nameKept_slot (name kept : Option Bytes) :
    NameKept (some (cstring name)) kept ↔ NameKept name kept := by
  unfold NameKept
  rw [cstring_some_cstring]

theorem cstring_keptStr {names : Bytes} {name : Option Bytes}
    (h : cstring name = [] ∨ Storable names (cstring name)) :
    cstring (keptStr names (cstring name)) = cstring name := by
  unfold keptStr
  split
  · exact cstring_some_cstring _
  · rename_i hfull
    exact (h.resolve_right hfull).symm

theorem Labelled.readBack_ne_dot {name : Bytes} (h : Labelled name) (hne : name ≠ []) :
    readBack name ≠ [dot] := by
  have hfirst : name.take (name.idxOf dot) ≠ [] := by
    have hlabels := h
    unfold Labelled at hlabels
    rw [labelsOf_step hne] at hlabels
    exact hlabels _ mem_cons_self
  rw [readBack, if_neg hne, canonical_step hne]
  intro hdot
  cases hlabel : name.take _ with
  | nil => exact hfirst hlabel
  | cons b l =>
    rw [hlabel] at hdot
    have hb : lower b = dot := (List.cons.inj hdot).1
    rw [lower_eq_dot] at hb
    -- there is no dot in front of the first dot
    have hmem : dot ∈ name.take (name.idxOf dot) := by
      rw [hlabel, hb]
      exact mem_cons_self
    exact lt_irrefl _ ((mem_take_iff_idxOf_lt (mem_of_mem_take hmem)).1 hmem)

/-- The slot is read back as what was given, but for a second name that was not kept. -/
theorem Given.sameRdata_iff {g : Given} {d : Rdata} (htype : g.src.type ∈ plainTypes)
    (hnames : ∀ name ∈ g.src.names ov, Labelled name) (h : SameRdata ov (g.slot ov) d) :
    SameRdata ov g.src d ↔ g.RnameKept ov := by
  obtain ⟨names, ⟨owner, type, cls, ttl, rdlen, rdata⟩⟩ := g
  simp only [plainTypes, mem_cons, not_mem_nil, or_false] at htype
  unfold Given.RnameKept
  dsimp only
  rcases htype with rfl | rfl | rfl | rfl | rfl | rfl | rfl
  · have hsame : ov.a d = ov.a (.a (ov.a rdata)) := h
    rw [ov.a_a] at hsame
    exact iff_of_true hsame fun hsoa => absurd hsoa (by decide)
  · have hsame : ov.aaaa d = ov.aaaa (.aaaa (ov.aaaa rdata)) := h
    rw [ov.aaaa_aaaa] at hsame
    exact iff_of_true hsame fun hsoa => absurd hsoa (by decide)
  · have hsame : NameKept (ov.ns (.ns (some (cstring (ov.ns rdata))))) (ov.ns d) := h
    rw [ov.ns_ns, nameKept_slot] at hsame
    exact iff_of_true hsame fun hsoa => absurd hsoa (by decide)
  · have hsame : NameKept (ov.cname (.cname (some (cstring (ov.cname rdata))))) (ov.cname d) := h
    rw [ov.cname_cname, nameKept_slot] at hsame
    exact iff_of_true hsame fun hsoa => absurd hsoa (by decide)
  · have hsame : NameKept (ov.ptr (.ptr (some (cstring (ov.ptr rdata))))) (ov.ptr d) := h
    rw [ov.ptr_ptr, nameKept_slot] at hsame
    exact iff_of_true hsame fun hsoa => absurd hsoa (by decide)
  · have hsame : SameSoa (ov.soa (.soa { ov.soa rdata with
        mname := some (cstring (ov.soa rdata).mname)
        rname := keptStr (storeAfter (storeAfter names (cstring owner))
          (cstring (ov.soa rdata).mname)) (cstring (ov.soa rdata).rname) })) (ov.soa d) := h
    rw [ov.soa_soa] at hsame
    have hmname := (nameKept_slot _ _).1 hsame.mname
    obtain ⟨text, hkept, htext⟩ := hsame.rname
    constructor
    · intro hsrc _
      by_contra hdropped
      obtain ⟨hne, hfull⟩ := not_or.1 hdropped
      obtain ⟨text', hkept', htext'⟩ := hsrc.rname
      obtain rfl := Option.some.inj (hkept.symm.trans hkept')
      rw [keptStr, if_neg hfull] at htext
      have hmem : cstring (ov.soa rdata).rname ∈
          Rr.names ov ⟨owner, DNS_TYPE_SOA, cls, ttl, rdlen, rdata⟩ :=
        .tail _ (.tail _ mem_cons_self)
      exact (hnames _ hmem).readBack_ne_dot hne (htext'.symm.trans htext)
    · intro hroom
      rw [cstring_keptStr (hroom rfl)] at htext
      exact ⟨hmname, ⟨text, hkept, htext⟩, hsame.serial, hsame.refresh, hsame.retry, hsame.expire,
        hsame.minTtl⟩
  · have hstrs : (ov.txt (if (ov.txt rdata).strs = [] then Rdata.zero
        else .txt ⟨(ov.txt .zero).strs ++
          (ov.txt rdata).strs.map fun str => some (cstring str)⟩)).strs =
        (ov.txt rdata).strs.map fun str => some (cstring str) := by
      split
      · rename_i hnil
        rw [hnil, ov.txt_zero]
        rfl
      · rw [ov.txt_txt, ov.txt_zero]
        rfl
    have hsame : (ov.txt d).strs = (ov.txt (if (ov.txt rdata).strs = [] then Rdata.zero
        else .txt ⟨(ov.txt .zero).strs ++
          (ov.txt rdata).strs.map fun str => some (cstring str)⟩)).strs.map
        fun str => some (cstring str) := h
    rw [hstrs, map_map] at hsame
    refine iff_of_true (hsame.trans (map_congr_left fun str _ => ?_))
      fun hsoa => absurd hsoa (by decide)
    exact congrArg some (cstring_some_cstring str)

/-! ## The encoder at a record -/

/-- The encoder behind the header, the questions and the records `pre` of a message. -/
def encodeUpTo (pktMax : Nat) (ov : Overlay) (m : Msg) (pre : List Rr) : EncM Unit := do
  encodeHead pktMax m
  dnsSectEnc pktMax ov pre

section
variable {pktMax : Nat} {ov : Overlay} {m : Msg} {pre post : List Rr} {rr : Rr} {buf : Mem}
  {s s' : Enc} {pkt : Pkt}

theorem Msg.Stored.allRecs (h : m.Stored ov) {rr : Rr} (hrr : rr ∈ m.allRecs) :
    (rdataStrings ov rr).length ≤ DNS_MAX_TXT ∧ ∀ str ∈ rr.strings ov, ShortStr (cstring str) := by
  rcases mem_append.1 hrr with hrr | har
  · rcases mem_append.1 hrr with han | hns
    · exact h.recs .an rr han
    · exact h.recs .ns rr hns
  · exact h.recs .ar rr har

theorem Msg.Stored.allShort (h : m.Stored ov) {rr : Rr} (hrr : rr ∈ m.allRecs) : rr.Short ov := by
  have hstrs := (h.allRecs hrr).2
  refine ⟨hstrs _ mem_cons_self, fun str hmem => ?_⟩
  obtain ⟨o, ho, rfl⟩ := (holding_rdata ov rr).names str hmem
  exact hstrs o (.tail _ ho)

theorem LaysRrs.labelsFit {mem : Mem} {t t' : List Suffix} {p p' : Nat} {recs : List Rr}
    (h : LaysRrs mem ov t p recs t' p' calls) (hshort : ∀ rr ∈ recs, rr.Short ov)
    (hsmall : p' ≤ 2 ^ 16) (ht : ∀ s ∈ t, LabelsFit s.name) : ∀ s ∈ t', LabelsFit s.name := by
  induction h with
  | nil => exact ht
  | @cons t _ _ p _ _ rr _ rdlen _ _ _ hrr hrest ih =>
    have hle := hrest.le
    exact ih (fun rr' hrr' => hshort rr' (.tail _ hrr')) hsmall
      (hrr.labelsFit ((hshort rr mem_cons_self).pieces _) (by omega) ht).2

theorem LaysRrs.small {mem : Mem} {t t' t0 : List Suffix} {p p' : Nat} {recs rest : List Rr}
    {calls0 : List (Nat × Bytes)} (h : LaysRrs mem ov t p recs t' p' calls)
    (hqd : Lays mem [] DNS_HDR_LEN (qdPieces m.questions) t0 p calls0) (hm : m.Stored ov)
    (hrecs : m.allRecs = recs ++ rest) : p' ≤ 2 ^ 14 := by
  have h1 := hqd.size.trans (Nat.add_le_add_left (qdSize_le _) _)
  have h2 := h.size fun _ hrr => (hm.allRecs (hrecs ▸ mem_append_left _ hrr)).1
  have hquests : m.questions.length = m.qdLen := by
    simp [Msg.questions]
  have hsize : recsSize ov recs ≤ recsSize ov m.an.recs + recsSize ov m.ns.recs +
      recsSize ov m.ar.recs := by
    have hall : recsSize ov m.allRecs = recsSize ov recs + recsSize ov rest := by
      rw [hrecs, recsSize_append]
    simp [Msg.allRecs, recsSize_append] at hall
    omega
  have hcount : recs.length ≤ m.an.count + m.ns.count + m.ar.count := by
    have hall : m.allRecs.length = recs.length + rest.length := by
      simp [hrecs]
    simp [Msg.allRecs, length_recs] at hall
    omega
  have hqdLen := hm.qdLen
  have hcan := hm.count .an
  have hcns := hm.count .ns
  have hcar := hm.count .ar
  have hnames := hm.names.trans hm.store
  unfold Msg.storedSize at hnames
  simp only [Msg.sect, DNS_MAX_QD, DNS_MAX_RR, DNS_MAX_PDUSIZE, DNS_HDR_LEN] at *
  omega

/-- What `dns_rr_encode` has laid into the packet. -/
structure Placing (pkt : Pkt) (ov : Overlay) (rr : Rr) (s s' : Enc) : Prop where
  mirrored : ∃ pool, Mirrored pkt s.table s.pktLen pool
  fits : ∀ t ∈ s.table, LabelsFit t.name
  min : 12 ≤ s.pktLen
  small : s'.pktLen ≤ 2 ^ 14
  lays : ∃ calls, s'.calls = s.calls ++ calls ∧ Lays pkt.buf s.table s.pktLen
    (rrPieces ov rr (UInt16.ofNat (s'.pktLen -
      (s.pktLen + (encodeName s.table s.pktLen (some (cstring rr.name))).wire.length + 10))))
    s'.table s'.pktLen calls

theorem encodeUpTo_placing (hm : m.Stored ov) (hrecs : m.allRecs = pre ++ rr :: post)
    (hs : encodeUpTo pktMax ov m pre (Enc.start buf) = .ok () s)
    (hs' : dnsRrEncode pktMax ov rr s = .ok () s') (hpkt : AgreeOn s'.mem pkt.buf 0 s'.pktLen)
    (hlen : s'.pktLen ≤ pkt.len) : Placing pkt ov rr s s' := by
  obtain ⟨_, s0, hhead, hpre⟩ := of_bind_ok hs
  obtain ⟨_, s1, hhdr, hqd⟩ := of_bind_ok hhead
  obtain ⟨htable, hstart, -⟩ := encodeHdr_ok hhdr
  have hshort : ∀ rr' ∈ pre ++ [rr], rr'.Short ov := by
    intro rr' hmem
    refine hm.allShort (hrecs ▸ ?_)
    rcases mem_append.1 hmem with hmem | hmem
    · exact mem_append_left _ hmem
    · rw [mem_singleton.1 hmem]
      exact mem_append_right _ mem_cons_self
  have hrr : rr.Short ov := hshort rr (mem_append_right _ (mem_singleton_self _))
  have hfirst : ∀ rr' ∈ pre, rr'.Short ov := fun rr' hmem => hshort rr' (mem_append_left _ hmem)
  obtain ⟨⟨c1, -, hlays1⟩, -⟩ := encodeQd_emits hm.quests hqd
  obtain ⟨c2, -, hlays2, hbelow2⟩ := dnsSectEnc_lays hfirst hpre
  obtain ⟨rdlen, ⟨⟨c3, hc3, hlays3⟩, hbelow3⟩, hrdlen⟩ := dnsRrEncode_emits hrr.1 hrr.2 hs'
  have hmore : dnsSectEnc pktMax ov (pre ++ [rr]) s0 = .ok () s' := by
    rw [dnsSectEnc_append]
    exact (bind_ok hpre).trans ((bind_ok hs').trans rfl)
  obtain ⟨c4, -, hlays4, -⟩ := dnsSectEnc_lays hshort hmore
  rw [htable, hstart] at hlays1
  have hle1 := hlays1.le
  have hle2 := hlays2.le
  have hle3 := hlays3.le
  have hhdrLen : DNS_HDR_LEN = 12 := rfl
  -- what was laid is still there in the packet
  have h2 : AgreeOn s.mem pkt.buf 0 s.pktLen := hbelow3.trans (hpkt.mono le_rfl hle3)
  have h1 : AgreeOn s0.mem pkt.buf 0 s0.pktLen := hbelow2.trans (h2.mono le_rfl hle2)
  have hqdLaid := hlays1.congr (h1.mono zero_le le_rfl)
  have hpreLaid := hlays2.congr (h2.mono zero_le le_rfl)
  have hsmall : s'.pktLen ≤ 2 ^ 14 := by
    have hmem : AgreeOn s0.mem s'.mem 0 s0.pktLen := hbelow2.trans (hbelow3.mono le_rfl hle2)
    have hall : m.allRecs = pre ++ [rr] ++ post := by
      rw [hrecs, append_assoc]
      rfl
    exact hlays4.small (hlays1.congr (hmem.mono zero_le le_rfl)) hm hall
  have hroot : Mirrored pkt [] DNS_HDR_LEN [] := ⟨.nil, nofun⟩
  obtain ⟨hpool1, -⟩ := hqdLaid.jumps hroot (by omega) (by omega) (by omega)
    (questions_short hm.quests)
  obtain ⟨-, hpool2, -⟩ := hpreLaid.jumps hpool1 (by omega) (by omega) (by omega) hfirst
  have hfits1 := (hqdLaid.labelsFit (questions_short hm.quests) (by omega) nofun).2
  refine ⟨⟨_, hpool2⟩, hpreLaid.labelsFit hfirst (by omega) hfits1, by omega, hsmall, c3, hc3, ?_⟩
  exact hrdlen ▸ hlays3.congr (hpkt.mono zero_le le_rfl)

theorem noNul_cstring (str : Option Bytes) : 0 ∉ cstring str := by
  intro hmem
  have hne := mem_takeWhile_imp hmem
  exact of_decide_eq_true hne rfl

theorem Placing.found (h : Placing pkt ov rr s s') (hfit : s'.pktLen ≤ pkt.len)
    (hshort : rr.Short ov) (hnames : ∀ name ∈ rr.names ov, Labelled name)
    (hjumps : ∀ c ∈ s'.calls.drop s.calls.length, ∀ j, Chain pkt c.1 j → j ≤ DNS_MAX_JMP + 1) :
    RrFound pkt ov rr s.pktLen
      (s.pktLen + (encodeName s.table s.pktLen (some (cstring rr.name))).wire.length) s'.pktLen := by
  obtain ⟨⟨pool, hpool⟩, hfits, hmin, hsmall, calls, hcalls, hlays⟩ := h
  rw [hcalls, drop_left] at hjumps
  have hlabels := (hlays.labelsFit (hshort.pieces _) (by omega) hfits).1
  refine hlays.rrFound rfl hpool hmin hsmall hfit hshort (fun name hmem => ⟨?_, fun l hl => ?_⟩)
    hjumps
  · rcases mem_cons.1 hmem with rfl | hmem
    · exact noNul_cstring _
    · obtain ⟨o, -, rfl⟩ := (holding_rdata ov rr).names _ (mem_pieceNames.1 hmem)
      exact noNul_cstring o
  · refine ⟨hnames name hmem l hl, hlabels name ?_ l hl⟩
    rcases mem_cons.1 hmem with rfl | hmem
    · exact mem_cons_self
    · exact .tail _ (.tail _ (mem_pieceNames.1 hmem))

end

/-! ## There and back -/

theorem labelled_nil : Labelled [] := nofun

theorem Given.slot_names {g : Given} (htype : g.src.type ∈ plainTypes)
    (hnames : ∀ name ∈ g.src.names ov, Labelled name) :
    ∀ name ∈ (g.slot ov).names ov, Labelled name := by
  obtain ⟨names, ⟨owner, type, cls, ttl, rdlen, rdata⟩⟩ := g
  simp only [plainTypes, mem_cons, not_mem_nil, or_false] at htype
  have howner : Labelled (cstring owner) := hnames _ mem_cons_self
  intro name hmem
  rcases mem_cons.1 hmem with rfl | hmem
  · show Labelled (cstring (some (cstring owner)))
    rw [cstring_some_cstring]
    exact howner
  · have hfirst : ∀ name', pieceNames (rdataPieces ov ⟨owner, type, cls, ttl, rdlen, rdata⟩) =
        [name'] → Labelled name' := fun name' hone =>
      hnames _ (.tail _ (hone ▸ mem_singleton_self _))
    rcases htype with rfl | rfl | rfl | rfl | rfl | rfl | rfl
    · cases hmem
    · cases hmem
    · have hname : name = cstring (ov.ns (.ns (some (cstring (ov.ns rdata))))) :=
        mem_singleton.1 hmem
      rw [hname, ov.ns_ns, cstring_some_cstring]
      exact hfirst _ rfl
    · have hname : name = cstring (ov.cname (.cname (some (cstring (ov.cname rdata))))) :=
        mem_singleton.1 hmem
      rw [hname, ov.cname_cname, cstring_some_cstring]
      exact hfirst _ rfl
    · have hname : name = cstring (ov.ptr (.ptr (some (cstring (ov.ptr rdata))))) :=
        mem_singleton.1 hmem
      rw [hname, ov.ptr_ptr, cstring_some_cstring]
      exact hfirst _ rfl
    · have hboth : ∀ name' ∈ [cstring (ov.soa rdata).mname, cstring (ov.soa rdata).rname],
          Labelled name' := fun name' hmem => hnames _ (.tail _ hmem)
      have hsoa : ov.soa (Given.slot ov ⟨names, ⟨owner, DNS_TYPE_SOA, cls, ttl, rdlen, rdata⟩⟩).rdata =
          { ov.soa rdata with
            mname := some (cstring (ov.soa rdata).mname)
            rname := keptStr (storeAfter (storeAfter names (cstring owner))
              (cstring (ov.soa rdata).mname)) (cstring (ov.soa rdata).rname) } := ov.soa_soa _
      rcases mem_cons.1 hmem with hname | hmem
      · rw [hsoa] at hname
        rw [hname, cstring_some_cstring]
        exact hboth _ mem_cons_self
      · have hname := mem_singleton.1 hmem
        rw [hsoa] at hname
        dsimp only [keptStr] at hname
        split at hname
        · rw [hname, cstring_some_cstring]
          exact hboth _ (.tail _ (mem_singleton_self _))
        · rw [hname]
          exact labelled_nil
    · obtain ⟨str, -, hstr⟩ := mem_map.1 (mem_pieceNames.1 hmem)
      cases hstr

/-- The bytes of RDATA that `dns_rr_encode` of `rr` wrote, between `s` and `s'`. -/
def rdataWritten (rr : Rr) (s s' : Enc) : Nat :=
  s'.pktLen - (s.pktLen + (encodeName s.table s.pktLen (some (cstring rr.name))).wire.length + 10)

/-- A decoder in front of a record at `pos`, with a zeroed slot for it in section `sc` and room for
`n` bytes in the store. -/
structure Dec.Ready (d : Dec) (sc : Sc) (pos n : Nat) : Prop where
  offset : d.offset = pos
  count : (d.msg.sect sc).count < DNS_MAX_RR
  slot : (d.msg.sect sc).slots (d.msg.sect sc).count = Rr.zero
  room : d.msg.names.length + n ≤ DNS_MAX_PDUSIZE

theorem dnsRrDecode_ok {pkt : Pkt} {sc : Sc} {d : Dec} {rc : Nat} {s : Entering} (room : Nat → Bool)
    (hcount : (d.msg.sect sc).count < DNS_MAX_RR)
    (h : rrBody pkt .load sc ov (d.enter sc) = .ok rc s) :
    dnsRrDecode pkt .load ov room sc d = (↑rc, d.leave sc (.ok rc s) s 1) := by
  unfold dnsRrDecode
  rw [if_neg (fun hfull => absurd hfull.2 (not_le.2 hcount)), h]

theorem leave_recs (d : Dec) (sc : Sc) (r : EStateM.Result Exit Entering Nat) (s : Entering) :
    ((d.leave sc r s 1).msg.sect sc).recs = (d.msg.sect sc).recs ++ [s.rr] := by
  unfold Dec.leave
  rw [sect_setSect, if_pos rfl]
  exact recs_add _ _

/-- For every message that is assembled from records of the plain types whose names have no empty
label, and every one of its records: if the encoder takes it, at its place, then the decoder at
that place, with room for the record and few enough jumps, stores one record, which is the one that
was given, with the length of its RDATA, and stops behind it, exactly if the second name of a
record of `DNS_TYPE_SOA` was kept. -/
theorem record_codec_iff (ov : Overlay) (given : Sc → List Given) (m : Msg)
    (hm : Assembled ov given m)
    (hgood : ∀ g ∈ allGiven given, g.src.type ∈ plainTypes ∧ ∀ name ∈ g.src.names ov, Labelled name)
    (pre post : List Given) (g : Given) (hg : allGiven given = pre ++ g :: post)
    (pktMax : Nat) (buf : Mem) (s s' : Enc)
    (hs : encodeUpTo pktMax ov m (pre.map (Given.slot ov)) (Enc.start buf) = .ok () s)
    (hs' : dnsRrEncode pktMax ov (g.slot ov) s = .ok () s')
    (pkt : Pkt) (hpkt : AgreeOn s'.mem pkt.buf 0 s'.pktLen) (hlen : s'.pktLen ≤ pkt.len)
    (hmax : pkt.len < 2 ^ 16)
    (hjumps : ∀ c ∈ s'.calls.drop s.calls.length, ∀ j, Chain pkt c.1 j → j ≤ DNS_MAX_JMP + 1)
    (room : Nat → Bool) (sc : Sc) (d : Dec) (hd : d.Ready sc s.pktLen ((g.slot ov).room ov)) :
    (∃ out,
      ((dnsRrDecode pkt .load ov room sc d).2.msg.sect sc).recs = (d.msg.sect sc).recs ++ [out] ∧
        SameRr ov g.src out ∧ out.rdlen.toNat = rdataWritten (g.slot ov) s s' ∧
        (dnsRrDecode pkt .load ov room sc d).2.offset = s'.pktLen) ↔ g.RnameKept ov := by
  obtain ⟨htype, hnames⟩ := hgood g (hg ▸ mem_append_right _ mem_cons_self)
  have hstored := hm.built.stored.1
  have hrecs : m.allRecs = pre.map (Given.slot ov) ++ g.slot ov :: post.map (Given.slot ov) := by
    simp [hm.allRecs, hg]
  have hmem : g.slot ov ∈ m.allRecs := hrecs ▸ mem_append_right _ mem_cons_self
  obtain ⟨htxt, hstrs⟩ := hstored.allRecs hmem
  have hplacing := encodeUpTo_placing hstored hrecs hs hs' hpkt hlen
  have hfound := hplacing.found hlen (hstored.allShort hmem) (g.slot_names htype hnames) hjumps
  obtain ⟨hoffset, hcount, hslot, hroom⟩ := hd
  have henter : (d.enter sc).offset = s.pktLen := hoffset
  rw [← henter] at hfound
  have hfresh : (ov.txt (d.enter sc).rr.rdata).strs = [] := by
    show (ov.txt ((d.msg.sect sc).slots (d.msg.sect sc).count).rdata).strs = []
    rw [hslot]
    exact congrArg Txt.strs ov.txt_zero
  have htype' : (g.slot ov).type ∈ plainTypes := htype
  obtain ⟨rc, t, hrun, hstop, -, hsame, hrdlen, -⟩ := rrBody_found sc htype' hfound
    (fun str hstr => hstrs str (.tail _ hstr)) htxt rfl hfresh hroom hlen hmax
  rw [dnsRrDecode_ok _ hcount hrun, leave_recs]
  have hiff := Given.sameRdata_iff htype hnames hsame.rdata
  constructor
  · rintro ⟨out, hout, hsrc, -⟩
    obtain rfl : t.rr = out := singleton_inj.1 (append_cancel_left hout)
    exact hiff.1 hsrc.rdata
  · intro hkept
    refine ⟨t.rr, rfl, ⟨?_, hsame.type, hsame.cls, hsame.ttl, hiff.2 hkept⟩, ?_, hstop⟩
    · exact (nameKept_slot _ _).1 hsame.name
    · rw [hrdlen, rdataWritten, henter]

/-- A record of `DNS_TYPE_SOA` for `a`, with a second name. -/
def soaRecord (rname : Bytes) : Rr :=
  ⟨some [97], DNS_TYPE_SOA, 1, 60, 0, .soa ⟨some [97], some rname, 1, 2, 3, 4, 5⟩⟩

/-- A second name of 254 characters, with the dot at its end, is accepted and read back as the
root. -/
theorem soa_rname_lost :
    let rname : Bytes := (replicate 127 [97, dot]).flatten
    let r := dnsMsgEncode 512 Overlay.plain (answers [soaRecord rname]) fun _ => 0
    let d := (dnsMsgDecode ⟨r.2.mem, 48⟩ Overlay.plain Msg.zero).2
    rname.length = 254 ∧ (answers [soaRecord rname]).an.count = 1 ∧ r.1 = some 48 ∧
      d.msg.an.count = 1 ∧ (Overlay.plain.soa (d.msg.an.slots 0).rdata).rname = some [dot] ∧
      ¬ SameRr Overlay.plain (soaRecord rname) (d.msg.an.slots 0) := by
  intro rname r d
  have hroot : (Overlay.plain.soa (d.msg.an.slots 0).rdata).rname = some [dot] := by decide +kernel
  refine ⟨by decide +kernel, by decide +kernel, by decide +kernel, by decide +kernel, hroot, ?_⟩
  intro hsame
  obtain ⟨text, hkept, htext⟩ := hsame.rdata.rname
  obtain rfl := Option.some.inj (hroot.symm.trans hkept)
  revert htext
  decide +kernel

def oneGiven (src : Rr) : Sc → List Given := update (fun _ => []) .an [⟨[], src⟩]

/-- The second name is one label and a jump to the owner. -/
def soaAnswer : Rr := soaRecord [98, 46, 97]

/-- The encoder behind the header of the message with the answer. -/
def headEncoded : Enc :=
  after (encodeUpTo 512 Overlay.plain (answers [soaAnswer]) [] (Enc.start fun _ => 0))

/-- The encoder behind the answer. -/
def answerEncoded : Enc :=
  after (dnsRrEncode 512 Overlay.plain (Given.slot Overlay.plain ⟨[], soaAnswer⟩) headEncoded)

/-- The packet with the answer. -/
def answerPkt : Pkt := ⟨answerEncoded.mem, answerEncoded.pktLen⟩

theorem answer_jumps : ∀ c ∈ answerEncoded.calls.drop headEncoded.calls.length,
    ∀ j, Chain answerPkt c.1 j → j ≤ DNS_MAX_JMP + 1 := by
  have hcalls : (answerEncoded.calls.drop headEncoded.calls.length).map Prod.fst = [12, 25, 27] := by
    decide +kernel
  have howner : Wire answerPkt 12 ([97] ++ answerPkt.joint 14 []) 0 15 :=
    .label (by decide) (by decide) (by decide +kernel) (by decide +kernel) (by decide +kernel)
      (.root (by decide +kernel) (by decide +kernel))
  have hjump : ∀ pos, pos = 25 ∨ pos = 29 →
      Wire answerPkt pos ([97] ++ answerPkt.joint 14 []) 1 (pos + 2) := by
    rintro pos (rfl | rfl)
    · exact .jump (by decide +kernel) (by decide +kernel) (by decide +kernel) (by decide) howner
    · exact .jump (by decide +kernel) (by decide +kernel) (by decide +kernel) (by decide) howner
  have hlabel : Wire answerPkt 27 _ 1 31 :=
    .label (l := [98]) (by decide) (by decide) (by decide +kernel) (by decide +kernel)
      (by decide +kernel) (hjump 29 (.inr rfl))
  intro c hc j hchain
  obtain ⟨text, stop, hw⟩ := hchain
  have hpos : c.1 ∈ [12, 25, 27] := hcalls ▸ mem_map_of_mem hc
  simp only [mem_cons, not_mem_nil, or_false] at hpos
  rcases hpos with hpos | hpos | hpos
  · obtain ⟨-, rfl, -⟩ := howner.unique (hpos ▸ hw)
    decide
  · obtain ⟨-, rfl, -⟩ := (hjump 25 (.inl rfl)).unique (hpos ▸ hw)
    decide
  · obtain ⟨-, rfl, -⟩ := hlabel.unique (hpos ▸ hw)
    decide

theorem one_answer_codec :
    let g : Given := ⟨[], soaAnswer⟩
    let s := headEncoded
    let s' := answerEncoded
    let d := { Dec.start Msg.zero with offset := 12 }
    let r := dnsRrDecode answerPkt .load Overlay.plain (fun _ => true) .an d
    s.pktLen = 12 ∧ s'.pktLen = 51 ∧ rdataWritten (g.slot Overlay.plain) s s' = 26 ∧
      ∃ out, (r.2.msg.sect .an).recs = (d.msg.sect .an).recs ++ [out] ∧
        SameRr Overlay.plain g.src out ∧
        out.rdlen.toNat = rdataWritten (g.slot Overlay.plain) s s' ∧ r.2.offset = s'.pktLen := by
  intro g s s' d r
  have hm : Assembled Overlay.plain (oneGiven g.src) (answers [g.src]) :=
    @Assembled.addRr _ _ _ _ .an g.src .reset rfl
  have hgood : ∀ g' ∈ allGiven (oneGiven g.src), g'.src.type ∈ plainTypes ∧
      ∀ name ∈ g'.src.names Overlay.plain, Labelled name := by
    intro g' hg'
    obtain rfl : g' = g := mem_singleton.1 hg'
    exact ⟨by decide, (by decide : ∀ name ∈ [[97], [97], [98, 46, 97]], ∀ l ∈ labelsOf name, l ≠ [])⟩
  have hs : encodeUpTo 512 Overlay.plain (answers [g.src]) [] (Enc.start fun _ => 0) = .ok () s := rfl
  have hs' : dnsRrEncode 512 Overlay.plain (g.slot Overlay.plain) s = .ok () s' :=
    eq_ok_of_ended (by decide +kernel)
  have hd : d.Ready .an s.pktLen ((g.slot Overlay.plain).room Overlay.plain) :=
    ⟨by decide +kernel, by decide, rfl, by decide +kernel⟩
  have hkept : g.RnameKept Overlay.plain := fun _ => .inr ⟨by decide +kernel, by decide +kernel⟩
  refine ⟨by decide +kernel, by decide +kernel, by decide +kernel, ?_⟩
  exact (record_codec_iff _ _ _ hm hgood [] [] g rfl 512 (fun _ => 0) s s'
    hs hs' answerPkt (AgreeOn.refl _ _ _) le_rfl (by decide +kernel) answer_jumps (fun _ => true) .an d
    hd).2 hkept

end CDbK8s.Dns
