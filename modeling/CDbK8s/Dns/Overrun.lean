import CDbK8s.Dns.Reading
import CDbK8s.Dns.Record

/-!
# Reading and moving beyond the packet
-/

namespace CDbK8s.Dns

open Base Lib.Exits List

/-! ## What a run of the decoder keeps -/

/-- How many slots a call of `dns_rr_decode` fills. -/
def usedBy (mode : Mode) (r : EStateM.Result Exit Entering Nat) : Nat :=
  match mode, r with
  | .load, .ok _ _ => 1
  | _, _ => 0

/-- Every part of the decoder keeps `I`. -/
structure Kept (pkt : Pkt) (mode : Mode) (ov : Overlay) (room : Nat → Bool) (I : Dec → Prop) :
    Prop where
  decErr : ∀ group field ec d, I d → I (dnsDecErr group field ec d).2
  wmsg : ∀ d, I d → I (dnsWmsg room d).2
  hdr : ∀ d, I d → I (decodeHdr pkt mode room d).2
  qd : ∀ d, I d → I (dnsQdDecode pkt mode room d).2
  leave : ∀ sc d, I d → I (d.leave sc (rrBody pkt mode sc ov (d.enter sc))
    (after (rrBody pkt mode sc ov (d.enter sc))) (usedBy mode (rrBody pkt mode sc ov (d.enter sc))))

section
variable {pkt : Pkt} {mode : Mode} {ov : Overlay} {room : Nat → Bool} {I : Dec → Prop} {d : Dec}
variable (h : Kept pkt mode ov room I)
include h

theorem Kept.rr (sc : Sc) (hd : I d) : I (dnsRrDecode pkt mode ov room sc d).2 := by
  have hleave := h.leave sc d hd
  unfold dnsRrDecode
  split
  · exact hd
  · cases hr : rrBody pkt mode sc ov _ with
    | error e s =>
      rw [hr] at hleave
      cases e with
      | fail => cases mode <;> exact hleave
      | refuse _ _ _ => cases mode <;> exact h.decErr _ _ _ _ hleave
    | ok _ s =>
      rw [hr] at hleave
      cases mode with
      | load => exact hleave
      | validate => exact h.wmsg _ hleave

theorem Kept.entries {entry : Dec → Int × Dec} (hentry : ∀ d, I d → I (entry d).2)
    (loc : Location) :
    ∀ (n i : Nat) (d : Dec), I d → I (decodeEntries entry loc n i d).2 := by
  intro n
  induction n with
  | zero =>
    intro i d hd
    exact hd
  | succ n ih =>
    intro i d hd
    rw [decodeEntries]
    split
    · exact h.decErr _ _ _ _ (hentry d hd)
    · exact ih _ _ (hentry d hd)

omit h in
theorem onOk_keeps {next : Dec → Int × Dec} {r : Int × Dec} (h : I r.2)
    (hnext : ∀ d, I d → I (next d).2) : I (onOk next r).2 := by
  unfold onOk
  split
  · exact h
  · exact hnext r.2 h

theorem Kept.decodeMsg {msg : Msg} (hstart : I (Dec.start msg)) :
    I (decodeMsg pkt mode ov room msg).2 := by
  apply onOk_keeps
  · refine onOk_keeps (onOk_keeps (onOk_keeps (onOk_keeps (h.hdr _ hstart) ?_) ?_) ?_) ?_
    · exact fun d => h.entries h.qd _ _ 0 d
    · exact fun d => h.entries (fun d hd => h.rr .an hd) _ _ 0 d
    · exact fun d => h.entries (fun d hd => h.rr .ns hd) _ _ 0 d
    · exact fun d => h.entries (fun d hd => h.rr .ar hd) _ _ 0 d
  · intro d hd
    split
    · exact h.wmsg d hd
    · exact hd

end

/-! ## One record -/

variable {name : NameText} {f : RrFields}

/-- The RDATA at position `pos` is read behind the packet, or its end is missed. The end is
known in 16 bits only: a type that reads on the word of RDLENGTH reads too far, and
`DNS_TYPE_OPT` moves the offset back. `names` is the store when its name is kept again. -/
def RdataOverruns (pkt : Pkt) (mode : Mode) (sc : Sc) (pos : Nat) (f : RrFields) (text names : Bytes) :
    Prop :=
  (pos + f.rdlen.toNat) % 2 ^ 16 ≤ pkt.len ∧ if f.type = DNS_TYPE_OPT then
      sc = .ar ∧ 2 ^ 16 ≤ pos + f.rdlen.toNat ∧ (mode = .load → Storable names (cstr text))
    else pkt.len < pos + fixedReads mode f.type f.rdlen.toNat (text.length + 1)

/-- The record at the offset of `s` is one that the decoder comes to the RDATA of and
overruns. -/
def Overruns (pkt : Pkt) (mode : Mode) (sc : Sc) (s : Entering) : Prop :=
  ∃ text, Named pkt mode s text ∧ nameEnd pkt s.offset + 10 ≤ pkt.len ∧
    RdataOverruns pkt mode sc (nameEnd pkt s.offset + 10) (rrFieldsAt pkt (nameEnd pkt s.offset)) text
      (s.names ++ cstr text ++ [0])

/-- The end of the record at `offset`: its name, ten bytes, and RDLENGTH bytes. -/
def recordEnd (pkt : Pkt) (offset : Nat) : Nat :=
  nameEnd pkt offset + 10 + (rrFieldsAt pkt (nameEnd pkt offset)).rdlen.toNat

/-- Code that comes to the result `r` read inside the packet and did not move back from
`start`, and if it accepted a record the offset is at `stop`, inside the packet. -/
structure StaysInside (pkt : Pkt) (start stop : Nat) (r : EStateM.Result Exit Entering Nat) :
    Prop where
  inside : (after r).past = false
  forward : start ≤ (after r).offset
  exact : ∀ rc s', r = .ok rc s' → s'.offset = stop ∧ s'.offset ≤ pkt.len

section
variable {pkt : Pkt} {mode : Mode} {sc : Sc} {ov : Overlay} {s : Entering} {start : Nat}

theorem StaysInside.of_exit {stop : Nat} {e : Exit} {s' : Entering} (hpast : s.past = false)
    (hstart : start ≤ s.offset) (h : Inside s s') : StaysInside pkt start stop (.error e s') :=
  ⟨h.1.trans hpast, hstart.trans h.2, fun _ t ht => by cases ht⟩

theorem decodeOpt_ok {name : Bytes} (cls : UInt16) (ttl : UInt32) (rdEnd : Nat)
    (h : mode = .load → Storable s.names (cstr name)) :
    ∃ s', decodeOpt mode .ar name cls ttl rdEnd s = .ok (optText (optFields cls ttl)) s' ∧
      s'.past = s.past ∧ s'.offset = rdEnd := by
  refine ⟨_, bind_ok (keepName_ok h), ?_⟩
  cases mode with
  | load => exact ⟨rfl, rfl⟩
  | validate => exact ⟨rfl, rfl⟩

theorem decodeOpt_exit {name : Bytes} (cls : UInt16) (ttl : UInt32) (rdEnd : Nat)
    (h : sc ≠ .ar ∨ ¬ (mode = .load → Storable s.names (cstr name))) :
    ∃ e s', decodeOpt mode sc name cls ttl rdEnd s = .error e s' ∧ Inside s s' := by
  by_cases hsc : sc = .ar
  · obtain ⟨hmode, hfull⟩ := Classical.not_imp.1 (h.resolve_left (fun hne => hne hsc))
    subst hsc hmode
    exact ⟨_, _, bind_exit (x := keepName _ _ _) (keepName_full hfull), rfl, le_rfl⟩
  · exact ⟨_, s, bind_exit (stopIf_stop hsc _ s), rfl, le_rfl⟩

theorem rrRdata_tail_inside (rdEnd rc : Nat) :
    Along Inside (do
      stopIf ((← get).offset ≠ rdEnd) (.refuse .rr .rdata DnsError.erdatalen.code)
      pure rc : EntryM Nat) s := by
  apply along_get
  apply (stopIf_inside _ _).bind
  intro _ _ _
  exact along_pure rc

theorem rrRdata_short (h : pkt.len < (s.offset + f.rdlen.toNat) % 2 ^ 16) :
    rrRdata pkt mode sc ov name f s = .error (.refuse .rr .rdata DnsError.etrunc.code) s :=
  (bind_ok rfl).trans (bind_exit (stopIf_stop h _ s))

theorem rrRdata_eq {name : NameText} {f : RrFields}
    (h : (s.offset + f.rdlen.toNat) % 2 ^ 16 ≤ pkt.len) :
    rrRdata pkt mode sc ov name f s =
      (decodeRdata pkt mode sc ov f.type name.text f.cls f.ttl f.rdlen.toNat
          ((s.offset + f.rdlen.toNat) % 2 ^ 16) name.rc >>= fun rc => do
        stopIf ((← get).offset ≠ (s.offset + f.rdlen.toNat) % 2 ^ 16)
          (.refuse .rr .rdata DnsError.erdatalen.code)
        pure rc) s :=
  (bind_ok rfl).trans (bind_ok (stopIf_pass (not_lt.2 h) _ s))

theorem offset_of_accepted {rc : Nat} {s' : Entering}
    (h : rrRdata pkt mode sc ov name f s = .ok rc s') :
    s'.offset = (s.offset + f.rdlen.toNat) % 2 ^ 16 := by
  by_cases hend : (s.offset + f.rdlen.toNat) % 2 ^ 16 ≤ pkt.len
  · rw [rrRdata_eq hend] at h
    obtain ⟨rc', t, -, htail⟩ := of_bind_ok h
    obtain ⟨_, t', hcheck, hpure⟩ := of_bind_ok (x := stopIf _ _) htail
    obtain ⟨hoffset, rfl⟩ := not_of_stopIf hcheck
    cases hpure
    exact not_not.1 hoffset
  · rw [rrRdata_short (by omega)] at h
    cases h

theorem rrRdata_reads (mode : Mode) (sc : Sc) (ov : Overlay) (name : NameText)
    (hs : s.offset ≤ pkt.len) (htype : f.type ≠ DNS_TYPE_OPT)
    (hend : (s.offset + f.rdlen.toNat) % 2 ^ 16 ≤ pkt.len) :
    Reads pkt (fixedReads mode f.type f.rdlen.toNat s.wptr) (rrRdata pkt mode sc ov name f) s := by
  unfold Reads
  rw [rrRdata_eq hend]
  exact (decodeRdata_reads sc _ _ _ _ name.rc hs hend htype).bind
    fun rc _ _ => rrRdata_tail_inside _ rc

theorem decodeRdata_opt {type : UInt16} (h : type = DNS_TYPE_OPT) (name : Bytes) (cls : UInt16)
    (ttl : UInt32) (rdlen rdEnd rc : Nat) :
    decodeRdata pkt mode sc ov type name cls ttl rdlen rdEnd rc =
      decodeOpt mode sc name cls ttl rdEnd := by
  subst h
  rfl

theorem rrRdata_opt_iff (hpast : s.past = false) (hstart : start ≤ s.offset)
    (htype : f.type = DNS_TYPE_OPT) (hend : (s.offset + f.rdlen.toNat) % 2 ^ 16 ≤ pkt.len) :
    StaysInside pkt start (s.offset + f.rdlen.toNat) (rrRdata pkt mode sc ov name f s) ↔
      ¬ (sc = .ar ∧ 2 ^ 16 ≤ s.offset + f.rdlen.toNat ∧
        (mode = .load → Storable s.names (cstr name.text))) := by
  rw [rrRdata_eq hend, decodeRdata_opt htype]
  by_cases hgo : sc = .ar ∧ (mode = .load → Storable s.names (cstr name.text))
  · obtain ⟨rfl, hkeep⟩ := hgo
    obtain ⟨t, hopt, htpast, htoffset⟩ := decodeOpt_ok _ _ _ hkeep
    have hcheck : ¬ t.offset ≠ (s.offset + f.rdlen.toNat) % 2 ^ 16 := not_not.2 htoffset
    have hrun : ((do
        stopIf ((← get).offset ≠ (s.offset + f.rdlen.toNat) % 2 ^ 16)
          (.refuse .rr .rdata DnsError.erdatalen.code)
        pure (optText (optFields f.cls f.ttl)) : EntryM Nat)) t =
          .ok (optText (optFields f.cls f.ttl)) t :=
      (bind_ok rfl).trans (bind_ok (stopIf_pass hcheck _ t))
    rw [bind_ok hopt, hrun]
    constructor
    · rintro h ⟨-, hwrap, -⟩
      have hexact := (h.exact _ t rfl).1
      omega
    · intro h
      have hsum : (s.offset + f.rdlen.toNat) % 2 ^ 16 = s.offset + f.rdlen.toNat :=
        Nat.mod_eq_of_lt (by by_contra hwrap; exact h ⟨rfl, by omega, hkeep⟩)
      refine ⟨htpast.trans hpast, ?_, ?_⟩
      · show start ≤ t.offset
        omega
      · intro _ _ heq
        cases heq
        omega
  · obtain ⟨e, t, hopt, hinside⟩ := decodeOpt_exit _ _ _ (Decidable.not_and_iff_not_or_not.1 hgo)
    rw [bind_exit hopt]
    exact iff_of_true (StaysInside.of_exit hpast hstart hinside) fun h => hgo ⟨h.1, h.2.2⟩

theorem rrRdata_iff (name : NameText) (f : RrFields) (hs : s.offset ≤ pkt.len)
    (hlen : pkt.len < 2 ^ 16) (hpast : s.past = false) (hstart : start ≤ s.offset)
    (hwptr : s.wptr = name.text.length + 1) :
    StaysInside pkt start (s.offset + f.rdlen.toNat) (rrRdata pkt mode sc ov name f s) ↔
      ¬ RdataOverruns pkt mode sc s.offset f name.text s.names := by
  have hrdlen : f.rdlen.toNat < 2 ^ 16 := f.rdlen.toNat_lt
  unfold RdataOverruns
  rw [← hwptr]
  by_cases hend : (s.offset + f.rdlen.toNat) % 2 ^ 16 ≤ pkt.len
  · by_cases htype : f.type = DNS_TYPE_OPT
    · rw [if_pos htype, rrRdata_opt_iff hpast hstart htype hend]
      simp only [hend, true_and]
    · obtain ⟨hread, hforward⟩ := rrRdata_reads _ sc ov _ hs htype hend
      rw [hpast] at hread
      rw [if_neg htype]
      constructor
      · rintro h ⟨-, hpkt⟩
        have hbeyond := hread.symm.trans h.inside
        exact of_decide_eq_false hbeyond hpkt
      · intro h
        refine ⟨?_, hstart.trans hforward, ?_⟩
        · rw [hread]
          exact Pkt.beyond_eq_false (by by_contra hpkt; exact h ⟨hend, by omega⟩)
        · intro _ s' hr
          have hoffset := offset_of_accepted hr
          rw [hr] at hforward
          have hle : s.offset ≤ s'.offset := hforward
          omega
  · rw [rrRdata_short (by omega)]
    exact iff_of_true (StaysInside.of_exit hpast hstart ⟨rfl, le_rfl⟩) fun h => hend h.1

theorem rrName_inside : Along Inside (rrName pkt mode) s := by
  apply (nameField_inside _).bind
  intro _ _ _
  apply (advance_inside _).bind
  intro _ _ _
  apply (keepName_inside _ _).bind
  intro _ _ _
  exact along_pure _

theorem rrBody_exit (sc : Sc) (ov : Overlay) (hwptr : s.wptr = 0)
    (h : ¬ ∃ text, Named pkt mode s text ∧ nameEnd pkt s.offset + 10 ≤ pkt.len) :
    ∃ e s', rrBody pkt mode sc ov s = .error e s' ∧ Inside s s' := by
  have hname : Along Inside (rrName pkt mode) s := rrName_inside
  unfold Along at hname
  by_cases hnamed : ∃ text, Named pkt mode s text
  · obtain ⟨text, htext⟩ := hnamed
    have hshort := rrFields_short mode (s := s.named pkt mode text)
      (by rw [named_offset]; exact not_le.1 fun hfit => h ⟨text, htext, hfit⟩)
    rw [rrName_ok hwptr htext] at hname
    exact ⟨_, _, (bind_ok (rrName_ok hwptr htext)).trans (bind_exit hshort), hname⟩
  · obtain ⟨e, s', hexit⟩ := rrName_exit hwptr (not_exists.1 hnamed)
    rw [hexit] at hname
    exact ⟨e, s', bind_exit hexit, hname⟩

theorem rrBody_iff (hlen : pkt.len < 2 ^ 16) (hwptr : s.wptr = 0) (hpast : s.past = false) :
    StaysInside pkt s.offset (recordEnd pkt s.offset) (rrBody pkt mode sc ov s) ↔
      ¬ Overruns pkt mode sc s := by
  by_cases hreach : ∃ text, Named pkt mode s text ∧ nameEnd pkt s.offset + 10 ≤ pkt.len
  · obtain ⟨text, htext, hfit⟩ := hreach
    have hle := le_decodeName_offset pkt s.offset DNS_MSG_SIZE
    have hiff := @rrRdata_iff pkt mode sc ov (s.atRdata pkt mode _) s.offset
      ⟨text, text.length⟩ (rrFieldsAt pkt (nameEnd pkt s.offset))
      (by rw [atRdata_offset]; exact hfit) hlen (by rw [atRdata_past]; exact hpast)
      (by rw [atRdata_offset]; unfold nameEnd; omega) (atRdata_wptr _)
    rw [atRdata_offset] at hiff
    rw [rrBody_of_named hwptr htext hfit]
    refine hiff.trans (not_congr ?_)
    -- the store matters in load mode only, where the name was put in it
    have hnames : RdataOverruns pkt mode sc (nameEnd pkt s.offset + 10)
          (rrFieldsAt pkt (nameEnd pkt s.offset)) text (s.atRdata pkt mode text).names ↔
        RdataOverruns pkt mode sc (nameEnd pkt s.offset + 10)
          (rrFieldsAt pkt (nameEnd pkt s.offset)) text (s.names ++ cstr text ++ [0]) := by
      cases mode with
      | load => exact Iff.rfl
      | validate => simp [RdataOverruns]
    refine hnames.trans ⟨fun h => ⟨text, htext, hfit, h⟩, ?_⟩
    rintro ⟨text', htext', -, h⟩
    obtain rfl : text = text' := Option.some.inj (htext.1.symm.trans htext'.1)
    exact h
  · obtain ⟨e, s', hexit, hinside⟩ := rrBody_exit sc ov hwptr hreach
    rw [hexit]
    refine iff_of_true (StaysInside.of_exit hpast le_rfl hinside) ?_
    rintro ⟨text, htext, hfit, -⟩
    exact hreach ⟨text, htext, hfit⟩

theorem rrRdata_past (hs : s.offset ≤ pkt.len) (h : s.past = true) :
    (after (rrRdata pkt mode sc ov name f s)).past = true := by
  by_cases hend : (s.offset + f.rdlen.toNat) % 2 ^ 16 ≤ pkt.len
  · by_cases htype : f.type = DNS_TYPE_OPT
    · rw [rrRdata_eq hend, decodeRdata_opt htype]
      by_cases hgo : sc = .ar ∧ (mode = .load → Storable s.names (cstr name.text))
      · obtain ⟨rfl, hkeep⟩ := hgo
        obtain ⟨t, hopt, htpast, -⟩ := decodeOpt_ok _ _ _ hkeep
        rw [bind_ok hopt]
        exact (rrRdata_tail_inside _ _).1.trans (htpast.trans h)
      · obtain ⟨e, t, hopt, hinside⟩ := decodeOpt_exit _ _
          _ (Decidable.not_and_iff_not_or_not.1 hgo)
        rw [bind_exit hopt]
        exact hinside.1.trans h
    · simp [(rrRdata_reads _ sc ov _ hs htype hend).1, h]
  · rw [rrRdata_short (by omega)]
    exact h

theorem rrBody_past (sc : Sc) (ov : Overlay) (hwptr : s.wptr = 0) (h : s.past = true) :
    (after (rrBody pkt mode sc ov s)).past = true := by
  by_cases hreach : ∃ text, Named pkt mode s text ∧ nameEnd pkt s.offset + 10 ≤ pkt.len
  · obtain ⟨text, htext, hfit⟩ := hreach
    rw [rrBody_of_named hwptr htext hfit]
    exact rrRdata_past (by rw [atRdata_offset]; exact hfit) (by rw [atRdata_past]; exact h)
  · obtain ⟨e, s', hexit, hinside⟩ := rrBody_exit sc ov hwptr hreach
    rw [hexit]
    exact hinside.1.trans h

end

/-! ## Whole packets -/

/-- The decoder has read inside the packet only; its cursor never moved back over a record; and
every record that it accepted ends where its own length says, inside the packet. -/
structure Dec.StaysInside (pkt : Pkt) (d : Dec) : Prop where
  inside : d.past = false
  records : ∀ c ∈ d.calls, Dns.StaysInside pkt c.start.offset (recordEnd pkt c.start.offset) c.result
  apart : d.calls.Pairwise fun c c' => (after c.result).offset ≤ c'.start.offset

section
variable {pkt : Pkt} {mode : Mode} {ov : Overlay} {room : Nat → Bool} {d d' : Dec}

/-- What every run of the decoder keeps: its calls are calls of `rrBody`, and if none of them
overruns, it stays inside and its cursor is behind all of them. -/
structure Traced (pkt : Pkt) (mode : Mode) (ov : Overlay) (d : Dec) : Prop where
  result : ∀ c ∈ d.calls, c.result = rrBody pkt mode c.sc ov c.start ∧ c.start.wptr = 0
  sound : (∀ c ∈ d.calls, ¬ Overruns pkt mode c.sc c.start) →
    d.StaysInside pkt ∧ ∀ c ∈ d.calls, (after c.result).offset ≤ d.offset

/-- What happens between two calls of `dns_rr_decode`. -/
structure Between (d d' : Dec) : Prop where
  calls : d'.calls = d.calls
  past : d'.past = d.past
  offset : d.offset ≤ d'.offset

theorem Traced.between (h : Traced pkt mode ov d) (hb : Between d d') : Traced pkt mode ov d' := by
  refine ⟨?_, ?_⟩
  · rw [hb.calls]
    exact h.result
  · rw [hb.calls]
    intro hnone
    obtain ⟨⟨hinside, hrecords, hapart⟩, hbehind⟩ := h.sound hnone
    refine ⟨⟨hb.past.trans hinside, ?_, ?_⟩, fun c hc => (hbehind c hc).trans hb.offset⟩
    · rw [hb.calls]
      exact hrecords
    · rw [hb.calls]
      exact hapart

theorem dnsDecErr_between (group field : Location) (ec : Int) (d : Dec) :
    Between d (dnsDecErr group field ec d).2 := by
  unfold dnsDecErr
  split
  · exact ⟨rfl, rfl, le_rfl⟩
  · exact ⟨rfl, rfl, le_rfl⟩

theorem dnsWmsg_between (room : Nat → Bool) (d : Dec) : Between d (dnsWmsg room d).2 :=
  ⟨rfl, rfl, le_rfl⟩

theorem Between.trans {d'' : Dec} (h : Between d d') (h' : Between d' d'') : Between d d'' :=
  ⟨h'.calls.trans h.calls, h'.past.trans h.past, h.offset.trans h'.offset⟩

theorem dnsQdDecode_between (d : Dec) : Between d (dnsQdDecode pkt mode room d).2 := by
  have hname : Between d { d with
      offset := (decodeName pkt d.offset DNS_MSG_SIZE).offset
      past := d.past || (decodeName pkt d.offset DNS_MSG_SIZE).overread } := by
    refine ⟨rfl, ?_, le_decodeName_offset _ _ _⟩
    simp [decodeName_overread]
  unfold dnsQdDecode
  dsimp only
  split
  · exact ⟨rfl, rfl, le_rfl⟩
  · split
    · exact hname.trans (dnsDecErr_between _ _ _ _)
    · split
      · exact hname.trans (dnsDecErr_between _ _ _ _)
      · rename_i hfit
        refine hname.trans ?_
        have hread : pkt.beyond (decodeName pkt d.offset DNS_MSG_SIZE).offset 4 = false :=
          Pkt.beyond_eq_false (by omega)
        rw [hread, Bool.or_false]
        cases mode with
        | validate => exact ⟨rfl, rfl, Nat.le_add_right _ _⟩
        | load =>
          dsimp only
          split
          · exact ⟨rfl, rfl, Nat.le_add_right _ _⟩
          · exact ⟨rfl, rfl, Nat.le_add_right _ _⟩

theorem decodeHdr_between (d : Dec) : Between d (decodeHdr pkt mode room d).2 := by
  unfold decodeHdr
  split
  · exact dnsDecErr_between _ _ _ _
  · rename_i hfit
    have hread : pkt.beyond 0 DNS_HDR_LEN = false := Pkt.beyond_eq_false (by omega)
    have hhdr : Between d { d with
        past := d.past || pkt.beyond 0 DNS_HDR_LEN, offset := d.offset + DNS_HDR_LEN
        msg := { d.msg with hdr := hdrAt pkt } } := by
      refine ⟨rfl, ?_, Nat.le_add_right _ _⟩
      simp [hread]
    cases mode with
    | load => exact hhdr
    | validate =>
      dsimp only
      split
      · exact hhdr.trans ((dnsDecErr_between _ _ _ _).trans (dnsWmsg_between _ _))
      · exact hhdr.trans (dnsWmsg_between _ _)

section
variable (hlen : pkt.len < 2 ^ 16)
include hlen

theorem Traced.leave (h : Traced pkt mode ov d) (sc : Sc) (used : Nat) :
    Traced pkt mode ov (d.leave sc (rrBody pkt mode sc ov (d.enter sc))
      (after (rrBody pkt mode sc ov (d.enter sc))) used) := by
  refine ⟨?_, ?_⟩
  · intro c hc
    rcases mem_append.1 hc with hc | hc
    · exact h.result c hc
    · rw [mem_singleton.1 hc]
      exact ⟨rfl, rfl⟩
  · intro hnone
    obtain ⟨⟨hinside, hrecords, hapart⟩, hbehind⟩ :=
      h.sound fun c hc => hnone c (mem_append_left _ hc)
    have hnew : Dns.StaysInside pkt d.offset (recordEnd pkt d.offset)
        (rrBody pkt mode sc ov (d.enter sc)) :=
      (rrBody_iff hlen rfl hinside).2
        (hnone ⟨sc, d.enter sc, _⟩ (mem_append_right _ (mem_singleton_self _)))
    refine ⟨⟨hnew.inside, ?_, ?_⟩, ?_⟩
    · intro c hc
      rcases mem_append.1 hc with hc | hc
      · exact hrecords c hc
      · rw [mem_singleton.1 hc]
        exact hnew
    · refine pairwise_append.2 ⟨hapart, pairwise_singleton _ _, ?_⟩
      intro c hc _ hc'
      rw [mem_singleton.1 hc']
      exact hbehind c hc
    · intro c hc
      rcases mem_append.1 hc with hc | hc
      · exact (hbehind c hc).trans hnew.forward
      · rw [mem_singleton.1 hc]
        exact le_rfl

theorem traced_kept : Kept pkt mode ov room (Traced pkt mode ov) where
  decErr _ _ _ d h := h.between (dnsDecErr_between _ _ _ d)
  wmsg d h := h.between (dnsWmsg_between _ d)
  hdr d h := h.between (decodeHdr_between d)
  qd d h := h.between (dnsQdDecode_between d)
  leave sc _ h := h.leave hlen sc _

theorem decodeMsg_traced (msg : Msg) : Traced pkt mode ov (decodeMsg pkt mode ov room msg).2 := by
  have hnone : ∀ c, c ∉ (Dec.start msg).calls := fun c => not_mem_nil
  apply (traced_kept hlen).decodeMsg
  exact ⟨fun c hc => absurd hc (hnone c), fun _ => ⟨⟨rfl, fun c hc => absurd hc (hnone c),
    List.Pairwise.nil⟩, fun c hc => absurd hc (hnone c)⟩⟩

end

/-- In both modes, and whatever the message had before: the decoder reads inside a packet and
leaves every accepted record at its end, so that records are apart, exactly if no record it
comes to is one that overruns. -/
theorem decode_stays_inside_iff (pkt : Pkt) (hlen : pkt.len ≤ 65535) (mode : Mode) (ov : Overlay)
    (room : Nat → Bool) (msg : Msg) :
    (decodeMsg pkt mode ov room msg).2.StaysInside pkt ↔
      ∀ c ∈ (decodeMsg pkt mode ov room msg).2.calls, ¬ Overruns pkt mode c.sc c.start := by
  have hlen' : pkt.len < 2 ^ 16 := by omega
  have htraced := @decodeMsg_traced pkt mode ov room hlen' msg
  constructor
  · intro h c hc
    obtain ⟨hresult, hwptr⟩ := htraced.result c hc
    have hc' := h.records c hc
    rw [hresult] at hc'
    refine (rrBody_iff hlen' hwptr ?_).1 hc'
    by_contra hpast
    have hstill := @rrBody_past pkt mode _ c.sc ov hwptr (Bool.not_eq_false _ ▸ hpast)
    rw [hc'.inside] at hstill
    cases hstill
  · intro h
    exact (htraced.sound h).1

end

/-- A response with one address in its answer section. -/
def addrPacket : Bytes :=
  [0, 0, 128, 0, 0, 0, 0, 1, 0, 0, 0, 0, 0, 0, 1, 0, 1, 0, 0, 0, 0, 0, 4, 10, 0, 0, 1]

theorem addr_stays_inside :
    (dnsMsgDecode (Pkt.ofBytes addrPacket) Overlay.plain Msg.zero).2.StaysInside
      (Pkt.ofBytes addrPacket) := by
  refine (decode_stays_inside_iff _ (by decide) _ _ _ _).2 ?_
  intro c hc
  rw [mem_singleton.1 hc]
  rintro ⟨text, -, -, -, hread⟩
  have hlt : 27 < 23 + 4 := hread
  omega

/-- A response of 23 bytes with one record of `DNS_TYPE_OPT`, whose RDLENGTH is 65535. -/
def optPacket : Bytes :=
  [0, 0, 128, 0, 0, 0, 0, 0, 0, 0, 0, 1, 0, 0, 41, 4, 208, 0, 0, 0, 0, 255, 255]

/-- The record is accepted, and the cursor is moved from the end of the packet to byte 22. -/
theorem opt_moves_back :
    let d := (dnsMsgDecode (Pkt.ofBytes optPacket) Overlay.plain Msg.zero).2
    d.msg.ar.count = 1 ∧ d.offset = 22 ∧ ¬ d.StaysInside (Pkt.ofBytes optPacket) := by
  refine ⟨rfl, rfl, ?_⟩
  intro h
  have hexact := ((h.records _ (mem_singleton_self _)).exact _ _ rfl).1
  exact absurd hexact (by decide +kernel)

end CDbK8s.Dns
