import CDbK8s.Dns.Stages

/-!
# What a decoded message has of the one before

`dns_msg_reset` leaves the tables of a message as they are, and a record is decoded into the slot
behind the last one. Two runs of the decoder on one packet, into two messages, are compared piece by
piece (`Tracks`): what was in the slots matters for the strings of `DNS_TYPE_TXT` only, which go
behind those that the slot has.
-/

namespace CDbK8s.Dns

open Base Lib.ByteMem Lib.Exits List

variable {s t : Entering}
variable {r r' : EStateM.Result Exit Entering Nat} {set : Option Bytes → Rr → Rr} {sc : Sc}

/-! ## What is seen of a record -/

/-- The member of the union that the type selects. -/
def shownRdata (ov : Overlay) (type : UInt16) (d : Rdata) : Rdata :=
  if type = DNS_TYPE_A then .a (ov.a d)
  else if type = DNS_TYPE_NS then .ns (ov.ns d)
  else if type = DNS_TYPE_CNAME then .cname (ov.cname d)
  else if type = DNS_TYPE_SOA then .soa (ov.soa d)
  else if type = DNS_TYPE_PTR then .ptr (ov.ptr d)
  else if type = DNS_TYPE_HINFO then .hinfo (ov.hinfo d)
  else if type = DNS_TYPE_MX then .mx (ov.mx d)
  else if type = DNS_TYPE_TXT then .txt (ov.txt d)
  else if type = DNS_TYPE_AAAA then .aaaa (ov.aaaa d)
  else if type = DNS_TYPE_SRV then .srv (ov.srv d)
  else if type = DNS_TYPE_OPT then .opt (ov.opt d)
  else .zero

/-- The record as a reader sees it. -/
def shown (ov : Overlay) (rr : Rr) : Rr := { rr with rdata := shownRdata ov rr.type rr.rdata }

/-! ## Two runs of the code of a record -/

/-- Two states of the code of a record that differ in the slot at most; the slots are related by
`V`. -/
structure Like (V : Rr → Rr → Prop) (s t : Entering) : Prop where
  offset : t.offset = s.offset
  past : t.past = s.past
  wptr : t.wptr = s.wptr
  names : t.names = s.names
  udpSize : t.udpSize = s.udpSize
  rr : V s.rr t.rr

def AnyRr (_ _ : Rr) : Prop := True

/-- In two runs the code ends in the same way, and takes slots related by `V` to slots related by
`V'`. -/
def Tracks {α : Type} (V V' : Rr → Rr → Prop) (x : EntryM α) : Prop :=
  Leads (Like V) (Like V') (Like AnyRr) x x

section
variable {α β : Type} {V V' V'' : Rr → Rr → Prop} {pkt : Pkt}

theorem Like.any (h : Like V s t) : Like AnyRr s t :=
  ⟨h.offset, h.past, h.wptr, h.names, h.udpSize, trivial⟩

theorem Tracks.bind {x : EntryM α} {f : α → EntryM β} (hx : Tracks V V' x)
    (hf : ∀ a, Tracks V' V'' (f a)) : Tracks V V'' (x >>= f) :=
  Leads.bind hx hf

theorem Tracks.mono {x : EntryM α} (h : Tracks V V' x) (hV : ∀ r r', V' r r' → V'' r r') :
    Tracks V V'' x :=
  Leads.mono h fun _ _ hlike => ⟨hlike.offset, hlike.past, hlike.wptr, hlike.names, hlike.udpSize,
    hV _ _ hlike.rr⟩

section
variable (hset : ∀ str r r', V r r' → V' (set str r) (set str r'))
include hset

end

end

/-! ## RDATA in two runs -/

section
variable {pkt : Pkt} {ov : Overlay} {ty : UInt16} {W W' : Rdata → Rdata → Prop} {r r' : Rr}

end

/-! ## One record in two runs -/

/-- The record at `offset` says that it is one of text. -/
def TxtAt (pkt : Pkt) (offset : Nat) : Prop :=
  (rrFieldsAt pkt (nameEnd pkt offset)).type = DNS_TYPE_TXT

section
variable {pkt : Pkt} {ov : Overlay} {sc : Sc} {s t : Entering}

end

/-! ## Whole packets in two runs -/

/-- Two decoders that cannot be told apart by what they have decoded. -/
structure Twin (ov : Overlay) (d d' : Dec) : Prop where
  offset : d'.offset = d.offset
  past : d'.past = d.past
  errs : d'.errs = d.errs
  udpSize : d'.udpSize = d.udpSize
  hdr : d'.msg.hdr = d.msg.hdr
  names : d'.msg.names = d.msg.names
  qdLen : d'.msg.qdLen = d.msg.qdLen
  quests : d'.msg.questions = d.msg.questions
  count : ∀ sc, (d'.msg.sect sc).count = (d.msg.sect sc).count
  recs : ∀ sc, (d'.msg.sect sc).recs.map (shown ov) = (d.msg.sect sc).recs.map (shown ov)

/-- No record of text found strings in its slot. -/
def AllBlank (pkt : Pkt) (ov : Overlay) (calls : List RrCall) : Prop :=
  ∀ c ∈ calls, TxtAt pkt c.start.offset → (ov.txt c.start.rr.rdata).strs = []

/-- A part of the decoder that, without strings in the slots, does the same in two runs. -/
structure Matched (pkt : Pkt) (ov : Overlay) (f : Dec → Int × Dec) : Prop where
  grows : ∀ d, d.calls <+: (f d).2.calls
  twin : ∀ d d', Twin ov d d' → AllBlank pkt ov (f d).2.calls → AllBlank pkt ov (f d').2.calls →
    (f d').1 = (f d).1 ∧ Twin ov (f d).2 (f d').2

section
variable {pkt : Pkt} {ov : Overlay} {d d' : Dec} {f g : Dec → Int × Dec}

theorem AllBlank.of_isPrefix {calls calls' : List RrCall} (h : AllBlank pkt ov calls')
    (hle : calls <+: calls') : AllBlank pkt ov calls := fun c hc => h c (hle.subset hc)

theorem dnsDecErr_calls (group field : Location) (ec : Int) (d : Dec) :
    (dnsDecErr group field ec d).2.calls = d.calls := (dnsDecErr_between _ _ ec d).calls

theorem Twin.decErr (h : Twin ov d d') (group field : Location) (ec : Int) :
    (dnsDecErr group field ec d').1 = (dnsDecErr group field ec d).1 ∧
      Twin ov (dnsDecErr group field ec d).2 (dnsDecErr group field ec d').2 := by
  unfold dnsDecErr
  rw [h.errs]
  split
  · exact ⟨rfl, h⟩
  · exact ⟨rfl, h.offset, h.past, rfl, h.udpSize, h.hdr, h.names, h.qdLen, h.quests, h.count, h.recs⟩

theorem Matched.onOk (hf : Matched pkt ov f) (hg : Matched pkt ov g) :
    Matched pkt ov fun d => Dns.onOk g (f d) := by
  have hgrows : ∀ d, (f d).2.calls <+: (Dns.onOk g (f d)).2.calls := by
    intro d
    unfold Dns.onOk
    split
    · exact prefix_refl _
    · exact hg.grows _
  refine ⟨fun d => (hf.grows d).trans (hgrows d), fun d d' h hblank hblank' => ?_⟩
  obtain ⟨hrc, htwin⟩ := hf.twin d d' h (hblank.of_isPrefix (hgrows d))
    (hblank'.of_isPrefix (hgrows d'))
  unfold Dns.onOk at hblank hblank' ⊢
  rw [hrc] at hblank' ⊢
  split
  · exact ⟨hrc, htwin⟩
  · rename_i hzero
    rw [if_neg hzero] at hblank hblank'
    exact hg.twin _ _ htwin hblank hblank'

theorem Matched.entries (hf : Matched pkt ov f) (loc : Location) :
    ∀ n i, Matched pkt ov (decodeEntries f loc n i) := by
  intro n
  induction n with
  | zero =>
    intro i
    exact ⟨fun d => prefix_refl _, fun d d' h _ _ => ⟨rfl, h⟩⟩
  | succ n ih =>
    intro i
    have hgrows : ∀ d, (f d).2.calls <+: (decodeEntries f loc (n + 1) i d).2.calls := by
      intro d
      rw [decodeEntries]
      split
      · rw [dnsDecErr_calls]
      · exact (ih _).grows _
    refine ⟨fun d => (hf.grows d).trans (hgrows d), fun d d' h hblank hblank' => ?_⟩
    obtain ⟨hrc, htwin⟩ := hf.twin d d' h (hblank.of_isPrefix (hgrows d))
      (hblank'.of_isPrefix (hgrows d'))
    rw [decodeEntries] at hblank hblank' ⊢
    rw [decodeEntries]
    rw [hrc] at hblank' ⊢
    split
    · exact htwin.decErr _ _ _
    · rename_i hzero
      rw [if_neg hzero] at hblank hblank'
      exact (ih _).twin _ _ htwin hblank hblank'

theorem Twin.enter (h : Twin ov d d') (sc : Sc) : Like AnyRr (d.enter sc) (d'.enter sc) :=
  ⟨h.offset, h.past, rfl, h.names, h.udpSize, trivial⟩

theorem leave_other (d : Dec) {sc' : Sc} (h : sc' ≠ sc) (r : EStateM.Result Exit Entering Nat)
    (s : Entering) (used : Nat) : (d.leave sc r s used).msg.sect sc' = d.msg.sect sc' := by
  show (Msg.setSect _ sc _).sect sc' = _
  rw [sect_setSect, if_neg h]
  cases sc' <;> rfl

theorem leave_rest (d : Dec) (sc : Sc) (r : EStateM.Result Exit Entering Nat) (s : Entering)
    (used : Nat) : (d.leave sc r s used).msg.names = s.names ∧
      (d.leave sc r s used).msg.questions = d.msg.questions := by
  cases sc <;> exact ⟨rfl, rfl⟩

theorem Twin.leave (h : Twin ov d d') {used : Nat} (hst : Like AnyRr s t)
    (hrecs : ((d'.leave sc r' t used).msg.sect sc).recs.map (shown ov) =
      ((d.leave sc r s used).msg.sect sc).recs.map (shown ov)) :
    Twin ov (d.leave sc r s used) (d'.leave sc r' t used) := by
  obtain ⟨hhdr, hqd, hcount⟩ := leave_counts d sc r s _
  obtain ⟨hhdr', hqd', hcount'⟩ := leave_counts d' sc r' t _
  obtain ⟨hnames, hquests⟩ := leave_rest d sc r s _
  obtain ⟨hnames', hquests'⟩ := leave_rest d' sc r' t _
  refine ⟨hst.offset, hst.past, h.errs, hst.udpSize, ?_, ?_, ?_, ?_, fun sc' => ?_, fun sc' => ?_⟩
  · rw [hhdr, hhdr', h.hdr]
  · rw [hnames, hnames', hst.names]
  · rw [hqd, hqd', h.qdLen]
  · rw [hquests, hquests', h.quests]
  · rw [hcount, hcount', h.count]
  · by_cases hsc : sc' = sc
    · rw [hsc]
      exact hrecs
    · rw [leave_other d hsc, leave_other d' hsc]
      exact h.recs sc'

end

/-! ## The strings of text -/

section
variable {pkt : Pkt} {ov : Overlay} {s s' : Entering}

end

/-! ## The records of a run -/

/-- The calls are those of the code of a record, and each section has what they left for it. -/
structure Filed (pkt : Pkt) (ov : Overlay) (d : Dec) : Prop where
  result : ∀ c ∈ d.calls, c.result = rrBody pkt .load c.sc ov c.start ∧ c.start.wptr = 0
  recs : ∀ sc, (d.msg.sect sc).recs = (d.calls.filter (·.sc = sc)).flatMap fun c => taken c.result

section
variable {pkt : Pkt} {ov : Overlay} {d d' : Dec}

theorem leave_taken (d : Dec) (sc : Sc) (r : EStateM.Result Exit Entering Nat) :
    ((d.leave sc r (after r) (usedBy .load r)).msg.sect sc).recs =
      (d.msg.sect sc).recs ++ taken r := by
  cases r with
  | ok _ s => exact leave_recs d sc _ s
  | error e s =>
    rw [taken, append_nil]
    exact leave_recs_zero d sc _ s

theorem Filed.leave (h : Filed pkt ov d) (sc : Sc) :
    Filed pkt ov (d.leave sc (rrBody pkt .load sc ov (d.enter sc))
      (after (rrBody pkt .load sc ov (d.enter sc)))
      (usedBy .load (rrBody pkt .load sc ov (d.enter sc)))) := by
  refine ⟨fun c hc => ?_, fun sc' => ?_⟩
  · rcases mem_append.1 hc with hc | hc
    · exact h.result c hc
    · rw [mem_singleton.1 hc]
      exact ⟨rfl, rfl⟩
  · show _ = ((d.calls ++ [_]).filter _).flatMap _
    rw [filter_append, flatMap_append, ← h.recs sc']
    by_cases hsc : sc' = sc
    · subst hsc
      rw [leave_taken]
      simp
    · rw [leave_other d hsc]
      simp [Ne.symm hsc]

end

/-! ## Old contents -/

/-- The string at position `pos` of the store. -/
def Msg.strAt (m : Msg) (pos : Nat) : Bytes := cstr (m.names.drop pos)

end CDbK8s.Dns
