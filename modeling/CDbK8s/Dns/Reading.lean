import CDbK8s.Dns.Decode
import CDbK8s.Dns.NameDecode

/-!
# What the decoder reads

Most of the code of a record checks a length before it reads (`Inside`): no byte behind the
packet, and the offset moves forward. Five types read a fixed number of bytes at the start of
their RDATA on the word of RDLENGTH (`fixedReads`), and `DNS_TYPE_OPT` sets the offset. The
end of the RDATA is computed in 16 bits, so RDLENGTH says nothing if the sum wraps.
-/

namespace CDbK8s.Dns

open Base Lib.ByteMem Lib.Exits

variable {field : Location}
variable {keep : Bytes → EntryM Unit} {n rdEnd : Nat}

/-! ## Code that stays inside the packet -/

/-- A step that goes forward and does not read past the packet. -/
def Inside (s s' : Entering) : Prop := s'.past = s.past ∧ s.offset ≤ s'.offset

instance : Std.Refl Inside := ⟨fun _ => ⟨rfl, le_rfl⟩⟩

instance : IsTrans Entering Inside := ⟨fun _ _ _ h h' => ⟨h'.1.trans h.1, h.2.trans h'.2⟩⟩

section
variable {pkt : Pkt} {mode : Mode} {ov : Overlay} {s : Entering}

theorem touch_inside {idx : Nat} (h : idx + n ≤ pkt.len) : Along Inside (touch pkt idx n) s := by
  refine ⟨?_, le_rfl⟩
  show (s.past || pkt.beyond idx n) = s.past
  simp [Pkt.beyond_eq_false h]

theorem skip_inside (n : Nat) : Along Inside (skip n) s := ⟨rfl, Nat.le_add_right _ _⟩

theorem advance_inside (n : Nat) : Along Inside (advance n) s := ⟨rfl, le_rfl⟩

theorem setRr_inside (f : Rr → Rr) : Along Inside (setRr f) s := ⟨rfl, le_rfl⟩

theorem storeStr_inside (str : Bytes) : Along Inside (storeStr str) s := ⟨rfl, le_rfl⟩

theorem stopIf_inside (c : Prop) [Decidable c] (x : Exit) : Along Inside (stopIf c x) s := by
  unfold stopIf
  split
  · exact along_throw x
  · exact along_pure ()

theorem whenLoad_inside {x : EntryM Unit} (h : Along Inside x s) :
    Along Inside (whenLoad mode x) s := by
  unfold whenLoad
  split
  · exact h
  · exact along_pure ()

theorem describe_inside (n : Nat) : Along Inside (describe mode n) s := by
  unfold describe
  split
  · exact advance_inside n
  · exact along_pure ()

theorem not_of_stopIf {c : Prop} [Decidable c] {x : Exit} {a : Unit} {s' : Entering}
    (h : stopIf c x s = .ok a s') : ¬ c ∧ s' = s := by
  unfold stopIf at h
  split at h
  · cases h
  · rename_i hc
    cases h
    exact ⟨hc, rfl⟩

theorem nameField_inside (field : Location) : Along Inside (nameField pkt field) s := by
  have hread := decodeName_overread pkt s.offset (sizeSub DNS_MSG_SIZE s.wptr)
  have hle := le_decodeName_offset pkt s.offset (sizeSub DNS_MSG_SIZE s.wptr)
  have hmoved : Inside s { s with
      offset := (decodeName pkt s.offset (sizeSub DNS_MSG_SIZE s.wptr)).offset
      past := s.past || (decodeName pkt s.offset (sizeSub DNS_MSG_SIZE s.wptr)).overread } := by
    refine ⟨?_, hle⟩
    simp [hread]
  unfold Along nameField
  dsimp only
  split
  · exact hmoved
  · split_ifs
    · exact hmoved
    · exact hmoved
    · exact hmoved

theorem keepName_inside (text : Bytes) (set : Option Bytes → Rr → Rr) :
    Along Inside (keepName mode text set) s := by
  apply whenLoad_inside
  apply (storeStr_inside _).bind
  intro _ _ _
  apply (setRr_inside _).bind
  intro _ _ _
  exact stopIf_inside _ _

theorem nameRdata_inside (field : Location) (set : Option Bytes → Rr → Rr) :
    Along Inside (nameRdata pkt mode field set) s := by
  apply (nameField_inside _).bind
  intro _ _ _
  apply (keepName_inside _ _).bind
  intro _ _ _
  apply (advance_inside _).bind
  intro _ _ _
  exact along_pure _

theorem decodeSoaVals_inside (hend : rdEnd ≤ pkt.len) :
    Along Inside (decodeSoaVals pkt mode ov rdEnd) s := by
  apply along_get
  apply (stopIf_inside _ _).bind
  intro _ _ hcheck
  have hfit := (not_of_stopIf hcheck).1
  apply (touch_inside (by omega)).bind
  intro _ _ _
  apply (skip_inside 20).bind
  intro _ _ _
  apply (describe_inside _).bind
  intro _ _ _
  exact whenLoad_inside (setRr_inside _)

theorem decodeSoa_inside (hend : rdEnd ≤ pkt.len) :
    Along Inside (decodeSoa pkt mode ov rdEnd) s := by
  apply (describe_inside 6).bind
  intro _ _ _
  apply (nameField_inside _).bind
  intro _ _ _
  apply (keepName_inside _ _).bind
  intro _ _ _
  apply (advance_inside _).bind
  intro _ _ _
  apply (describe_inside 7).bind
  intro _ _ _
  apply (nameField_inside _).bind
  intro _ _ _
  refine Along.bind (whenLoad_inside ?_) ?_
  · apply (storeStr_inside _).bind
    intro _ _ _
    apply (setRr_inside _).bind
    intro _ _ _
    exact along_get (stopIf_inside _ _)
  · intro _ _ _
    apply (advance_inside _).bind
    intro _ _ _
    apply (decodeSoaVals_inside hend).bind
    intro _ _ _
    exact along_pure _

theorem keepHinfo_inside (set : Option Bytes → Rr → Rr) (bs : Bytes) :
    Along Inside (keepHinfo set bs) s := by
  apply (storeStr_inside _).bind
  intro _ _ _
  apply (setRr_inside _).bind
  intro _ _ _
  exact stopIf_inside _ _

theorem keepTxt_inside (bs : Bytes) : Along Inside (keepTxt ov bs) s := by
  apply along_get
  apply (stopIf_inside _ _).bind
  intro _ _ _
  apply (storeStr_inside _).bind
  intro _ _ _
  apply (stopIf_inside _ _).bind
  intro _ _ _
  exact setRr_inside _

variable (hend : rdEnd ≤ pkt.len)
include hend

theorem charString_tail {idx len : Nat} (hkeep : ∀ bs s, Along Inside (keep bs) s) :
    Along Inside (do
      skip 1
      stopIf (idx + 1 + len > rdEnd) (.refuse .rr field DnsError.erdatalen.code)
      touch pkt (idx + 1) len
      describe mode (n + (cstr (readBytes pkt.buf (idx + 1) len)).length)
      whenLoad mode (keep (readBytes pkt.buf (idx + 1) len))
      skip len) s := by
  apply (skip_inside 1).bind
  intro _ _ _
  apply (stopIf_inside _ _).bind
  intro _ _ hcheck
  have hfit := (not_of_stopIf hcheck).1
  apply (touch_inside (by omega)).bind
  intro _ _ _
  apply (describe_inside _).bind
  intro _ _ _
  apply (whenLoad_inside (hkeep _ _)).bind
  intro _ _ _
  exact skip_inside _

theorem charString_inside (hkeep : ∀ bs s, Along Inside (keep bs) s) (hfirst : s.offset < pkt.len) :
    Along Inside (charString pkt mode field rdEnd n keep) s := by
  apply along_get
  apply (touch_inside hfirst).bind
  intro _ _ _
  exact charString_tail hend hkeep

theorem decodeTxtLoop_inside :
    ∀ (fuel : Nat) (s : Entering), Along Inside (decodeTxtLoop pkt mode ov rdEnd fuel) s := by
  intro fuel
  induction fuel with
  | zero =>
    intro s
    exact along_pure ()
  | succ fuel ih =>
    intro s
    apply along_get
    split
    · apply (charString_inside hend (fun bs s => keepTxt_inside bs) (by omega)).bind
      intro _ s' _
      exact ih s'
    · exact along_pure ()

end

/-! ## Reads on the word of RDLENGTH -/

/-- The `n` bytes at the offset are read without a look at the length of the packet, and
otherwise the code stays inside. -/
def Reads (pkt : Pkt) (n : Nat) {α : Type} (x : EntryM α) (s : Entering) : Prop :=
  (after (x s)).past = (s.past || pkt.beyond s.offset n) ∧ s.offset ≤ (after (x s)).offset

variable {pkt : Pkt} {mode : Mode} {ov : Overlay} {s : Entering} {α : Type}

theorem Reads.of_inside {x : EntryM α} (hs : s.offset ≤ pkt.len) (h : Along Inside x s) :
    Reads pkt 0 x s := by
  refine ⟨?_, h.2⟩
  rw [Pkt.beyond_eq_false hs, Bool.or_false]
  exact h.1

theorem reads_touch {f : Unit → EntryM α} (h : ∀ s', Along Inside (f ()) s') :
    Reads pkt n (touch pkt s.offset n >>= f) s := by
  have hf := h { s with past := s.past || pkt.beyond s.offset n }
  exact ⟨hf.1, hf.2⟩

theorem reads_get {f : Entering → EntryM α} (h : Reads pkt n (f s) s) :
    Reads pkt n (get >>= f) s := h

theorem reads_stopIf {c : Prop} [Decidable c] {e : Exit} {f : Unit → EntryM α}
    (hs : s.offset ≤ pkt.len) (h : Reads pkt n (f ()) s) :
    Reads pkt (if c then 0 else n) (stopIf c e >>= f) s := by
  by_cases hc : c
  · rw [if_pos hc]
    unfold Reads
    rw [bind_exit (stopIf_stop hc e s), Pkt.beyond_eq_false hs, Bool.or_false]
    exact ⟨rfl, le_rfl⟩
  · rw [if_neg hc]
    unfold Reads
    rw [bind_ok (stopIf_pass hc e s)]
    exact h

def roomForIp4 (wptr : Nat) : Prop := ¬ sizeSub DNS_MSG_SIZE wptr < IP4_ADDR_STRLEN

instance (wptr : Nat) : Decidable (roomForIp4 wptr) := inferInstanceAs (Decidable (¬ _))

/-- The bytes of an address that are read: all of them to be stored, or four of them to be
described if there is room. -/
def addrReads (mode : Mode) (size wptr : Nat) : Nat :=
  match mode with
  | .load => size
  | .validate => if roomForIp4 wptr then 4 else 0

theorem Reads.bind {β : Type} {x : EntryM α} {f : α → EntryM β} (hx : Reads pkt n x s)
    (hf : ∀ a s', x s = .ok a s' → Along Inside (f a) s') : Reads pkt n (x >>= f) s := by
  unfold Reads at *
  cases hr : x s with
  | ok a s' =>
    rw [hr] at hx
    rw [bind_ok hr]
    have h := hf a s' hr
    exact ⟨h.1.trans hx.1, hx.2.trans h.2⟩
  | error e s' =>
    rw [hr] at hx
    rw [bind_exit hr]
    exact hx

theorem reads_ite {c : Prop} [Decidable c] {x y : EntryM α} (hx : c → Reads pkt n x s)
    (hy : ¬ c → Reads pkt n y s) : Reads pkt n (if c then x else y) s := by
  by_cases hc : c
  · rw [if_pos hc]
    exact hx hc
  · rw [if_neg hc]
    exact hy hc

theorem describeIp4_reads (n : Nat) (hs : s.offset ≤ pkt.len) :
    let r := after (describeIp4 pkt .validate s.offset { s with offset := s.offset + n })
    r.past = (s.past || pkt.beyond s.offset (addrReads .validate 0 s.wptr)) ∧
      s.offset ≤ r.offset := by
  have hzero : pkt.beyond s.offset 0 = false := Pkt.beyond_eq_false hs
  unfold describeIp4 addrReads roomForIp4
  by_cases hroom : sizeSub DNS_MSG_SIZE s.wptr < IP4_ADDR_STRLEN
  · simp only [hroom, not_true, if_false, hzero, Bool.or_false]
    exact ⟨rfl, Nat.le_add_right _ _⟩
  · simp only [hroom]
    exact ⟨rfl, Nat.le_add_right _ _⟩

section
variable (hs : s.offset ≤ pkt.len)
include hs

theorem decodeA_reads (rdlen : Nat) :
    Reads pkt (if rdlen ≠ 4 then 0 else addrReads mode 4 s.wptr) (decodeA pkt mode rdlen) s := by
  apply reads_stopIf hs
  cases mode with
  | load => exact ⟨rfl, Nat.le_add_right _ _⟩
  | validate => exact describeIp4_reads 4 hs

theorem decodeAaaa_reads (rdlen : Nat) :
    Reads pkt (if rdlen ≠ 16 then 0 else addrReads mode 16 s.wptr) (decodeAaaa pkt mode rdlen) s := by
  apply reads_stopIf hs
  cases mode with
  | load => exact ⟨rfl, Nat.le_add_right _ _⟩
  | validate => exact describeIp4_reads 16 hs

omit hs in
theorem charString_reads (hend : rdEnd ≤ pkt.len) (hkeep : ∀ bs s, Along Inside (keep bs) s) :
    Reads pkt 1 (charString pkt mode field rdEnd n keep) s := by
  apply reads_get
  apply reads_touch
  intro _
  exact charString_tail hend hkeep

theorem decodeHinfo_reads (hend : rdEnd ≤ pkt.len) (rdlen : Nat) :
    Reads pkt (if rdlen < 2 then 0 else 1) (decodeHinfo pkt mode ov rdlen rdEnd) s := by
  apply reads_stopIf hs
  apply (charString_reads hend fun bs s => keepHinfo_inside _ bs).bind
  intro _ _ _
  apply along_get
  apply (stopIf_inside _ _).bind
  intro _ _ hcheck
  obtain ⟨hmore, rfl⟩ := not_of_stopIf hcheck
  exact charString_inside hend (fun bs s => keepHinfo_inside _ bs) (by omega)

theorem decodeMx_reads (rdlen : Nat) :
    Reads pkt (if rdlen < 3 then 0 else 2) (decodeMx pkt mode rdlen) s := by
  apply reads_stopIf hs
  apply reads_get
  apply reads_touch
  intro _
  apply (skip_inside 2).bind
  intro _ _ _
  apply (describe_inside _).bind
  intro _ _ _
  exact nameRdata_inside _ _

theorem decodeSrv_reads (rdlen : Nat) :
    Reads pkt (if rdlen < 7 then 0 else 6) (decodeSrv pkt mode rdlen) s := by
  apply reads_stopIf hs
  apply reads_get
  apply reads_touch
  intro _
  apply (skip_inside 6).bind
  intro _ _ _
  apply (describe_inside _).bind
  intro _ _ _
  exact nameRdata_inside _ _

end

/-- The number of bytes that the code for a type reads at the start of the RDATA when
RDLENGTH has the value it asks for. -/
def fixedReads (mode : Mode) (type : UInt16) (rdlen wptr : Nat) : Nat :=
  if type = DNS_TYPE_A then if rdlen ≠ 4 then 0 else addrReads mode 4 wptr
  else if type = DNS_TYPE_HINFO then if rdlen < 2 then 0 else 1
  else if type = DNS_TYPE_MX then if rdlen < 3 then 0 else 2
  else if type = DNS_TYPE_AAAA then if rdlen ≠ 16 then 0 else addrReads mode 16 wptr
  else if type = DNS_TYPE_SRV then if rdlen < 7 then 0 else 6
  else 0

theorem decodeRdata_reads (sc : Sc) {type : UInt16} (name : Bytes) (cls : UInt16) (ttl : UInt32)
    (rdlen : Nat) (rc : Nat) (hs : s.offset ≤ pkt.len) (hend : rdEnd ≤ pkt.len)
    (hopt : type ≠ DNS_TYPE_OPT) :
    Reads pkt (fixedReads mode type rdlen s.wptr)
      (decodeRdata pkt mode sc ov type name cls ttl rdlen rdEnd rc) s := by
  have hname : ∀ (field : Location) (member : Option Bytes → Rdata),
      Reads pkt 0 (decodeOneName pkt mode field member) s :=
    fun field member => Reads.of_inside hs (nameRdata_inside _ _)
  refine reads_ite (fun hA => ?_) fun hA => reads_ite (fun hNS => ?_) fun _ =>
    reads_ite (fun hCNAME => ?_) fun _ => reads_ite (fun hSOA => ?_) fun _ =>
    reads_ite (fun hPTR => ?_) fun _ => reads_ite (fun hHINFO => ?_) fun hHINFO =>
    reads_ite (fun hMX => ?_) fun hMX => reads_ite (fun hTXT => ?_) fun _ =>
    reads_ite (fun hAAAA => ?_) fun hAAAA => reads_ite (fun hSRV => ?_) fun hSRV =>
    reads_ite (fun hOPT => absurd hOPT hopt) fun _ => ?_
  · rw [fixedReads, if_pos hA]
    exact (decodeA_reads hs rdlen).bind fun _ _ _ => along_pure rc
  · subst hNS
    exact hname _ _
  · subst hCNAME
    exact hname _ _
  · subst hSOA
    exact Reads.of_inside hs (decodeSoa_inside hend)
  · subst hPTR
    exact hname _ _
  · subst hHINFO
    exact (decodeHinfo_reads hs hend rdlen).bind fun _ _ _ => along_pure rc
  · subst hMX
    exact decodeMx_reads hs rdlen
  · subst hTXT
    exact Reads.of_inside hs ((decodeTxtLoop_inside hend rdEnd s).bind fun _ _ _ => along_pure rc)
  · subst hAAAA
    exact (decodeAaaa_reads hs rdlen).bind fun _ _ _ => along_pure rc
  · subst hSRV
    exact decodeSrv_reads hs rdlen
  · rw [fixedReads, if_neg hA, if_neg hHINFO, if_neg hMX, if_neg hAAAA, if_neg hSRV]
    exact Reads.of_inside hs ((skip_inside rdlen).bind fun _ _ _ => along_pure rc)

end CDbK8s.Dns
