import CDbK8s.Dns.Record

/-!
# The sections of a packet, entry by entry

`dns_msg_decode` as a run of four stages: the questions, and the records of the three sections. An
accepted entry returns more than 0, which ends its section.
-/

namespace CDbK8s.Dns

open Base Lib.Exits List

variable {α : Type}

/-! ## An accepted entry returns more than 0 -/

section
variable {pkt : Pkt} {mode : Mode} {ov : Overlay}

theorem nameField_pos (field : Location) :
    Returns (fun n : NameText => 0 < n.rc) (nameField pkt field) := by
  refine ⟨?_⟩
  intro s _ _ h
  unfold nameField at h
  dsimp only at h
  cases hres : (decodeName pkt s.offset _).res with
  | error _ =>
    rw [hres] at h
    cases h
  | ok r =>
    obtain ⟨text, rc⟩ := r
    obtain ⟨rfl, -⟩ := decodeName_count hres
    rw [hres] at h
    dsimp only at h
    split_ifs at h with hlong hroom
    · cases h
      show 0 < text.length + 1 - 1
      omega
    · cases h
      exact Nat.one_pos

theorem nameRdata_pos (field : Location) (set : Option Bytes → Rr → Rr) :
    Returns (0 < ·) (nameRdata pkt mode field set) := by
  apply (nameField_pos _).bind
  intro _ hname
  exact returns_bind fun _ => returns_bind fun _ => returns_pure hname

theorem decodeSoa_pos (rdEnd : Nat) : Returns (0 < ·) (decodeSoa pkt mode ov rdEnd) := by
  refine returns_bind fun _ => returns_bind fun _ => returns_bind fun _ => returns_bind fun _ =>
    returns_bind fun _ => ?_
  apply (nameField_pos _).bind
  intro _ hname
  exact returns_bind fun _ => returns_bind fun _ => returns_bind fun _ => returns_pure hname

theorem optText_pos (v : Opt) : 0 < optText v := by
  unfold optText
  omega

theorem decodeMx_pos (rdlen : Nat) : Returns (0 < ·) (decodeMx pkt mode rdlen) :=
  returns_bind fun _ => returns_bind fun _ => returns_bind fun _ => returns_bind fun _ =>
    returns_bind fun _ => nameRdata_pos _ _

theorem decodeSrv_pos (rdlen : Nat) : Returns (0 < ·) (decodeSrv pkt mode rdlen) :=
  returns_bind fun _ => returns_bind fun _ => returns_bind fun _ => returns_bind fun _ =>
    returns_bind fun _ => nameRdata_pos _ _

theorem decodeOpt_pos (sc : Sc) (name : Bytes) (cls : UInt16) (ttl : UInt32) (rdEnd : Nat) :
    Returns (0 < ·) (decodeOpt mode sc name cls ttl rdEnd) :=
  returns_bind fun _ => returns_bind fun _ => returns_bind fun _ => returns_bind fun _ =>
    returns_pure (optText_pos _)

theorem decodeRdata_pos (sc : Sc) (type : UInt16) (name : Bytes) (cls : UInt16) (ttl : UInt32)
    (rdlen rdEnd : Nat) {rc : Nat} (hrc : 0 < rc) :
    Returns (0 < ·) (decodeRdata pkt mode sc ov type name cls ttl rdlen rdEnd rc) := by
  have hown : ∀ x : EntryM Unit, Returns (0 < ·) (do x; pure rc) :=
    fun x => returns_bind fun _ => returns_pure hrc
  exact returns_ite (hown _) <| returns_ite (nameRdata_pos _ _) <| returns_ite (nameRdata_pos _ _) <|
    returns_ite (decodeSoa_pos _) <| returns_ite (nameRdata_pos _ _) <| returns_ite (hown _) <|
    returns_ite (decodeMx_pos _) <| returns_ite (hown _) <| returns_ite (hown _) <|
    returns_ite (decodeSrv_pos _) <| returns_ite (decodeOpt_pos _ _ _ _ _) (hown _)

theorem rrBody_pos (sc : Sc) : Returns (0 < ·) (rrBody pkt mode sc ov) := by
  have hname : Returns (fun n : NameText => 0 < n.rc) (rrName pkt mode) := by
    apply (nameField_pos _).bind
    intro name hname
    exact returns_bind fun _ => returns_bind fun _ => returns_pure hname
  apply hname.bind
  intro name hrc
  refine returns_bind fun f => returns_bind fun _ => returns_bind fun _ => ?_
  apply (decodeRdata_pos sc _ _ _ _ _ _ hrc).bind
  intro rc hpos
  exact returns_bind fun _ => returns_bind fun _ => returns_pure hpos

end

/-! ## Entries and the error stack -/

def Dec.withErrs (d : Dec) (errs : List DnsErr) : Dec := { d with errs }

theorem minus_one : ¬(-1 : Int) = 0 := by decide

theorem dnsDecErr_room {d : Dec} (group field : Location) (ec : Int) (h : d.errs.length < DNS_MAX_EMSG) :
    dnsDecErr group field ec d = (0, d.withErrs (d.errs ++ [⟨group, field, ec⟩])) := by
  unfold dnsDecErr
  rw [if_neg (by omega)]
  rfl

theorem dnsDecErr_msg (group field : Location) (ec : Int) (d : Dec) :
    (dnsDecErr group field ec d).2.msg = d.msg := by
  unfold dnsDecErr
  split <;> rfl

/-! ## The sections of a packet -/

/-- A section of the packet: its entries, and how many the header counts. -/
structure Stage where
  entry : Dec → Int × Dec
  loc : Location
  n : Nat

/-- An entry keeps a part of the message. -/
def Keeps (entry : Dec → Int × Dec) (f : Msg → α) : Prop := ∀ d, f (entry d).2.msg = f d.msg

/-- The stages one after the other, up to the first that fails. -/
def runStages : List Stage → Dec → Int × Dec
  | [], d => (0, d)
  | st :: rest, d => decodeEntries st.entry st.loc st.n 0 d |> onOk (runStages rest)

section
variable {f : Msg → α}

theorem decodeEntries_keeps {entry : Dec → Int × Dec} (hkeep : Keeps entry f) (loc : Location) :
    ∀ (n i : Nat) (d : Dec), f (decodeEntries entry loc n i d).2.msg = f d.msg := by
  intro n
  induction n with
  | zero => exact fun _ _ => rfl
  | succ n ih =>
    intro i d
    rw [decodeEntries]
    split
    · rw [dnsDecErr_msg, hkeep]
    · exact (ih _ _).trans (hkeep d)

end

/-! ## Questions and records -/

section
variable {pkt : Pkt} {ov : Overlay} {room : Nat → Bool}

theorem leave_counts (d : Dec) (sc : Sc) (r : EStateM.Result Exit Entering Nat) (s : Entering)
    (used : Nat) :
    (d.leave sc r s used).msg.hdr = d.msg.hdr ∧ (d.leave sc r s used).msg.qdLen = d.msg.qdLen ∧
      ∀ sc', ((d.leave sc r s used).msg.sect sc').count =
        (d.msg.sect sc').count + if sc' = sc then used else 0 := by
  cases sc with
  | an => exact ⟨rfl, rfl, fun sc' => by cases sc' <;> rfl⟩
  | ns => exact ⟨rfl, rfl, fun sc' => by cases sc' <;> rfl⟩
  | ar => exact ⟨rfl, rfl, fun sc' => by cases sc' <;> rfl⟩

/-- The decoder behind a name. -/
def Dec.pastName (d : Dec) (pkt : Pkt) : Dec :=
  { d with
    offset := (decodeName pkt d.offset DNS_MSG_SIZE).offset
    past := d.past || (decodeName pkt d.offset DNS_MSG_SIZE).overread }

/-- The decoder behind a question: `str` is what was stored of its name, and `used` whether the
slot is in use. -/
def Dec.pastQd (d : Dec) (pkt : Pkt) (names : Bytes) (q : Qd) (used : Nat) : Dec :=
  { d with
    offset := (d.pastName pkt).offset + 4
    past := (d.pastName pkt).past || pkt.beyond (d.pastName pkt).offset 4
    msg := { d.msg with
      names, qd := Function.update d.msg.qd d.msg.qdLen q, qdLen := d.msg.qdLen + used } }

theorem dnsQdDecode_load (pkt : Pkt) (room : Nat → Bool) {d : Dec}
    (hfree : ¬ d.msg.qdLen ≥ DNS_MAX_QD) :
    dnsQdDecode pkt .load room d =
      match (decodeName pkt d.offset DNS_MSG_SIZE).res with
      | .error ec => dnsDecErr .qd .name (-ec.code) (d.pastName pkt)
      | .ok (name, rc) =>
        if (d.pastName pkt).offset + 4 > pkt.len then
          dnsDecErr .qd .hdr DnsError.etrunc.code (d.pastName pkt)
        else
          match msgStoreName d.msg.names name with
          | (none, names) =>
            (-1, d.pastQd pkt names { d.msg.qd d.msg.qdLen with qname := none } 0)
          | (some str, names) =>
            (rc, d.pastQd pkt names ⟨some str, decU16 pkt.buf (d.pastName pkt).offset,
                decU16 pkt.buf ((d.pastName pkt).offset + 2)⟩ 1) := by
  unfold dnsQdDecode
  rw [if_neg fun h => hfree h.2]
  dsimp only
  cases (decodeName pkt d.offset DNS_MSG_SIZE).res with
  | error _ => rfl
  | ok r =>
    dsimp only
    rcases msgStoreName d.msg.names r.1 with ⟨_ | -, names⟩
    · rfl
    · rfl

end

/-! ## The whole packet -/

section
variable (pkt : Pkt) (ov : Overlay)

/-- The questions. -/
def qdStage : Stage :=
  ⟨dnsQdDecode pkt .load fun _ => true, .qd, (hdrAt pkt).qdCount.toNat⟩

/-- The number of records that a header counts in a section. -/
def Hdr.count (hdr : Hdr) : Sc → UInt16
  | .an => hdr.anCount
  | .ns => hdr.nsCount
  | .ar => hdr.arCount

/-- The records that the header counts in section `sc`. -/
def rrStage (sc : Sc) : Stage :=
  ⟨dnsRrDecode pkt .load ov (fun _ => true) sc, sc.loc, ((hdrAt pkt).count sc).toNat⟩

/-- What `dns_msg_decode` reads behind the header. -/
def stages : List Stage := [qdStage pkt, rrStage pkt ov .an, rrStage pkt ov .ns, rrStage pkt ov .ar]

/-- The decoder behind the header. -/
def Dec.pastHdr (msg : Msg) : Dec := (decodeHdr pkt .load (fun _ => true) (Dec.start msg)).2

variable {pkt : Pkt} {ov : Overlay}

theorem qdStage_hdr : Keeps (qdStage pkt).entry Msg.hdr := by
  intro d
  show (dnsQdDecode pkt .load (fun _ => true) d).2.msg.hdr = d.msg.hdr
  by_cases hfull : d.msg.qdLen ≥ DNS_MAX_QD
  · rw [show dnsQdDecode pkt .load _ d = (-1, d) from if_pos ⟨rfl, hfull⟩]
  · rw [dnsQdDecode_load pkt _ hfull]
    split
    · rw [dnsDecErr_msg]
      rfl
    · split
      · rw [dnsDecErr_msg]
        rfl
      · split <;> rfl

/-- A record changes its section and the store of names only. -/
theorem rrStage_keeps {f : Msg → α} {sc : Sc}
    (hleave : ∀ (d : Dec) r s used, f (d.leave sc r s used).msg = f d.msg) :
    Keeps (rrStage pkt ov sc).entry f := by
  intro d
  show f (dnsRrDecode pkt .load ov (fun _ => true) sc d).2.msg = f d.msg
  unfold dnsRrDecode
  split
  · rfl
  · split
    · exact hleave d _ _ 0
    · rw [dnsDecErr_msg]
      exact hleave d _ _ 0
    · exact hleave d _ _ 1

theorem onOk_assoc (f g : Dec → Int × Dec) (r : Int × Dec) :
    onOk g (onOk f r) = onOk (fun d => onOk g (f d)) r := by
  by_cases h : r.1 = 0
  · simp [onOk, h]
  · simp [onOk, h]

theorem onOk_done (r : Int × Dec) : onOk (fun d => (0, d)) r = r := by
  unfold onOk
  split
  · rfl
  · rename_i h
    exact Prod.ext (not_not.1 h).symm rfl

theorem onOk_congr {f g : Dec → Int × Dec} {r : Int × Dec} (h : f r.2 = g r.2) :
    onOk f r = onOk g r := by
  rw [onOk, onOk, h]

theorem stages_hdr : ∀ st ∈ stages pkt ov, Keeps st.entry Msg.hdr := by
  have hrr : ∀ sc, Keeps (rrStage pkt ov sc).entry Msg.hdr := fun sc =>
    rrStage_keeps fun d r s used => (leave_counts d sc r s used).1
  simp only [stages, forall_mem_cons]
  exact ⟨qdStage_hdr, hrr .an, hrr .ns, hrr .ar, nofun⟩

theorem decodeSections_stages (hlen : DNS_HDR_LEN ≤ pkt.len) (msg : Msg) :
    decodeSections pkt .load ov (fun _ => true) (Dec.start msg) =
      runStages (stages pkt ov) (Dec.pastHdr pkt msg) := by
  have hhdr : decodeHdr pkt .load (fun _ => true) (Dec.start msg) = (0, Dec.pastHdr pkt msg) := by
    unfold Dec.pastHdr decodeHdr
    rw [if_neg (not_lt.2 hlen)]
  -- a stage goes on from a decoder that has the header of the packet, and leaves it there
  have hstage : ∀ st ∈ stages pkt ov, ∀ {r : Int × Dec}, r.2.msg.hdr = hdrAt pkt →
      (onOk (fun d => decodeEntries st.entry st.loc st.n 0 d) r).2.msg.hdr = hdrAt pkt := by
    intro st hst r hr
    unfold onOk
    split
    · exact hr
    · exact (decodeEntries_keeps (stages_hdr st hst) _ _ _ _).trans hr
  have hsect : ∀ (sc : Sc) {r : Int × Dec}, r.2.msg.hdr = hdrAt pkt →
      onOk (fun d => dnsSectDecode pkt .load ov (fun _ => true) sc (d.msg.hdr.count sc).toNat d) r =
        onOk (fun d => decodeEntries (rrStage pkt ov sc).entry (rrStage pkt ov sc).loc
          (rrStage pkt ov sc).n 0 d) r := by
    intro sc r hr
    apply onOk_congr
    rw [hr]
    rfl
  have hmem : qdStage pkt ∈ stages pkt ov ∧ ∀ sc, rrStage pkt ov sc ∈ stages pkt ov := by
    refine ⟨mem_cons_self .., fun sc => ?_⟩
    cases sc <;> simp [stages]
  have hcons : ∀ (st : Stage) (rest : List Stage) (r : Int × Dec), onOk (runStages (st :: rest)) r =
        onOk (runStages rest) (onOk (fun d => decodeEntries st.entry st.loc st.n 0 d) r) :=
    fun _ _ _ => (onOk_assoc _ _ _).symm
  have hnil : ∀ r : Int × Dec, onOk (runStages []) r = r := onOk_done
  have hstart : (Dec.pastHdr pkt msg).msg.hdr = hdrAt pkt := by
    unfold Dec.pastHdr decodeHdr
    rw [if_neg (not_lt.2 hlen)]
  have hqd := hstage _ hmem.1 (r := (0, Dec.pastHdr pkt msg)) hstart
  have han := hstage _ (hmem.2 .an) hqd
  have hns := hstage _ (hmem.2 .ns) han
  have hfirst : onOk (fun d => decodeQd pkt .load (fun _ => true) d.msg.hdr.qdCount.toNat d)
      (0, Dec.pastHdr pkt msg) =
        onOk (fun d => decodeEntries (qdStage pkt).entry (qdStage pkt).loc (qdStage pkt).n 0 d)
          (0, Dec.pastHdr pkt msg) := by
    apply onOk_congr
    rw [hstart]
    rfl
  show _ = onOk (runStages (stages pkt ov)) (0, Dec.pastHdr pkt msg)
  rw [stages, hcons, hcons, hcons, hcons, hnil, decodeSections, hhdr, hfirst]
  exact (congrArg (fun r => onOk _ _) (hsect .an hqd)).trans
    ((congrArg _ (hsect .ns han)).trans (hsect .ar hns))

theorem dnsMsgDecode_stages (hlen : DNS_HDR_LEN ≤ pkt.len) (msg : Msg) :
    dnsMsgDecode pkt ov msg = runStages (stages pkt ov) (Dec.pastHdr pkt msg) := by
  rw [← decodeSections_stages hlen]
  exact onOk_done _

end

end CDbK8s.Dns
