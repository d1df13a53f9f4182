import CDbK8s.Dns.Depth

/-!
# What the encoder laid, as the decoder finds it

The pieces of a packet (`Lays`) from the other side: numbers read back as they were written, and
a name of non-empty labels reads back as itself, up to the case of letters and a dot at its end,
with a dot for the empty name (`Legible`).
-/

namespace CDbK8s.Dns

open Base Lib.ByteMem List

variable {name : Bytes}

/-! ## Numbers -/

theorem decU16_of_holds {m : Mem} {idx : Nat} {v : UInt16} (h : Holds m idx (encU16 v)) :
    decU16 m idx = v := by
  have hread : readBytes m idx 2 = encU16 v := by
    exact h
  simp [decU16, hread, encU16, ofBe_beBytes]

theorem decU32_of_holds {m : Mem} {idx : Nat} {v : UInt32} (h : Holds m idx (encU32 v)) :
    decU32 m idx = v := by
  have hread : readBytes m idx 4 = encU32 v := by
    exact h
  simp [decU32, hread, encU32, ofBe_beBytes]

theorem octetsAt_of_holds {m : Mem} {idx n : Nat} {v : Octets n} (h : Holds m idx v.1) :
    octetsAt m idx n = v := by
  have hlen := v.2
  refine Subtype.ext ?_
  rw [Holds, hlen] at h
  exact h

/-! ## Names -/

/-- A name as it is read back, in lower case: without a dot at its end, and a dot for the empty
name. -/
def readBack (name : Bytes) : Bytes := if name = [] then [dot] else canonical name

/-- The root is written as a dot. -/
def rooted (text : Bytes) : Bytes := if text = [] then [dot] else text

/-- The name that stands from `pos` to `stop`, as the decoder finds it: with not too many jumps
behind it, and with a text that is the name. -/
structure Legible (pkt : Pkt) (name text : Bytes) (pos stop : Nat) : Prop where
  wire : ∃ bare jumps, Wire pkt pos bare jumps stop ∧ jumps ≤ DNS_MAX_JMP + 1 ∧ text = rooted bare ∧
    bare.map lower = canonical name
  same : text.map lower = readBack name
  short : ShortStr text
  clean : cstr text = text

theorem Legible.length {pkt : Pkt} {text : Bytes} {pos stop : Nat}
    (h : Legible pkt name text pos stop) : text.length = (readBack name).length := by
  simp [← h.same]

theorem mem_dotted {b : UInt8} {labels : List Bytes} (h : b ∈ dotted labels) :
    b = dot ∨ ∃ l ∈ labels, b ∈ l := by
  induction labels with
  | nil => cases h
  | cons l ls ih =>
    cases ls with
    | nil => exact .inr ⟨l, mem_cons_self, h⟩
    | cons _ ls =>
      rcases mem_append.1 h with hl | hrest
      · exact .inr ⟨l, mem_cons_self, hl⟩
      · rcases mem_cons.1 hrest with hdot | hls
        · exact .inl hdot
        · rcases ih hls with hdot | ⟨k, hk, hb⟩
          · exact .inl hdot
          · exact .inr ⟨k, .tail _ hk, hb⟩

theorem mem_of_mem_labelsOf {b : UInt8} :
    ∀ (n : Nat) (name : Bytes), name.length < n → ∀ l ∈ labelsOf name, b ∈ l → b ∈ name := by
  intro n
  induction n with
  | zero => exact fun _ hlt => absurd hlt (Nat.not_lt_zero _)
  | succ n ih =>
    intro name hlt l hl hb
    by_cases hne : name = []
    · rw [hne] at hl
      cases hl
    · have hrest := length_drop_label hne
      rw [labelsOf_step hne] at hl
      rcases mem_cons.1 hl with rfl | hl
      · exact mem_of_mem_take hb
      · exact mem_of_mem_drop (ih _ (by omega) l hl hb)

theorem length_canonical_le :
    ∀ (n : Nat) (name : Bytes), name.length < n → (canonical name).length ≤ name.length := by
  intro n
  induction n with
  | zero => exact fun _ hlt => absurd hlt (Nat.not_lt_zero _)
  | succ n ih =>
    intro name hlt
    by_cases hne : name = []
    · rw [hne]
      exact Nat.le_refl 0
    · have hidx : name.idxOf dot ≤ name.length := idxOf_le_length
      have hlabel : (name.take (name.idxOf dot)).length = name.idxOf dot := by
        simp [Nat.min_eq_left hidx]
      have hdrop : (name.drop (name.idxOf dot + 1)).length = name.length - (name.idxOf dot + 1) :=
        length_drop ..
      rw [canonical_step hne, length_append, length_map, hlabel]
      split
      · exact hidx
      · rename_i hrest
        have hpos := length_pos_iff.2 hrest
        have hle := ih (name.drop (name.idxOf dot + 1)) (by omega)
        rw [length_cons]
        omega

theorem length_readBack_le (name : Bytes) : (readBack name).length ≤ max 1 name.length := by
  unfold readBack
  split
  · exact Nat.le_max_left _ _
  · exact (length_canonical_le _ _ (Nat.lt_succ_self _)).trans (Nat.le_max_right _ _)

theorem IsName.readBack_noNul (h : IsName name) : 0 ∉ readBack name := by
  unfold readBack
  split
  · decide
  · intro hmem
    obtain ⟨b, hb, hlower⟩ := mem_map.1 hmem
    obtain rfl : b = 0 := (lower_eq_iff (by decide) b).1 hlower
    rcases mem_dotted hb with hdot | ⟨l, hl, hb⟩
    · exact absurd hdot (by decide)
    · exact h.noNul (mem_of_mem_labelsOf _ _ (Nat.lt_succ_self _) l hl hb)

theorem cstr_eq_self {bs : Bytes} (h : 0 ∉ bs) : cstr bs = bs := by
  refine takeWhile_eq_self_iff.2 fun b hb => ?_
  refine decide_eq_true ?_
  rintro rfl
  exact h hb

/-- A name that was written can be read, if not too many jumps are behind it. -/
theorem Written.legible {pkt : Pkt} {jumps pos len : Nat} (h : Written pkt jumps name pos len)
    (hname : IsName name) (hshort : ShortStr name) (hjumps : jumps ≤ DNS_MAX_JMP + 1) :
    ∃ text, Legible pkt name text pos (pos + len) := by
  obtain ⟨bare, stop, hwire, hreads, hstop⟩ := h
  obtain rfl := hstop hname
  have hle := hreads.short
  have hsame : (rooted bare).map lower = readBack name := by
    have hbare := hreads.same hname
    unfold rooted readBack
    by_cases hnil : name = []
    · rw [hnil] at hle
      rw [if_pos hnil, if_pos (length_eq_zero_iff.1 (Nat.le_zero.1 hle))]
      rfl
    · have hne : bare ≠ [] := by
        rintro rfl
        exact hname.canonical_ne_nil hnil hbare.symm
      rw [if_neg hnil, if_neg hne, hbare]
  have hnul : 0 ∉ rooted bare := by
    intro hmem
    refine hname.readBack_noNul ?_
    rw [← hsame]
    exact mem_map.2 ⟨0, hmem, rfl⟩
  refine ⟨rooted bare, ⟨bare, jumps, hwire, hjumps, rfl, hreads.same hname⟩, hsame, ?_,
    cstr_eq_self hnul⟩
  unfold rooted ShortStr at *
  split
  · decide
  · omega

theorem sizeSub_of_le {a b : Nat} (hle : b ≤ a) (hlt : a < 2 ^ 64) : sizeSub a b = a - b := by
  unfold sizeSub
  omega

theorem nameField_legible {pkt : Pkt} {s : Entering} {text : Bytes} {stop : Nat} (field : Location)
    (h : Legible pkt name text s.offset stop) (hroom : s.wptr + 256 ≤ DNS_MSG_SIZE) :
    nameField pkt field s = .ok ⟨text, text.length⟩ { s with offset := stop } := by
  have hmax : DNS_NAME_MAXSTR = 253 := rfl
  obtain ⟨⟨bare, jumps, hwire, hjumps, rfl, -⟩, -, hshort, -⟩ := h
  have hlen : bare.length < 254 := by
    unfold ShortStr rooted at hshort
    split at hshort
    · rename_i hnil
      rw [hnil]
      decide
    · omega
  have hnlen : sizeSub DNS_MSG_SIZE s.wptr = DNS_MSG_SIZE - s.wptr :=
    sizeSub_of_le (by omega) (by decide)
  have hname : decodeName pkt s.offset (DNS_MSG_SIZE - s.wptr) = _ := decodeName_wire hwire (by omega)
  unfold nameField
  dsimp only
  rw [hnlen, hname, if_pos (show jumps ≤ 17 from hjumps), Bool.or_false]
  dsimp only
  by_cases hnil : bare = []
  · subst hnil
    rw [if_neg (by decide), if_neg (by omega)]
    rfl
  · have hpos := length_pos_iff.2 hnil
    rw [if_pos (by omega), rooted, if_neg hnil]
    rfl

/-! ## Few names -/

theorem Pool.jumps_le {pool : Pool} {k : Nat} (h : ∀ e ∈ pool, e.2 ≤ k) (name : Bytes) :
    pool.jumps name ≤ k + 1 := by
  have hloop : ∀ (fuel : Nat) (name : Bytes), pool.jumpsLoop fuel name ≤ k + 1 := by
    intro fuel
    induction fuel with
    | zero => exact fun _ => zero_le
    | succ fuel ih =>
      intro name
      rw [Pool.jumpsLoop]
      split
      · exact zero_le
      · cases hfind : pool.find name with
        | some e =>
          have hmem : e ∈ pool := List.mem_of_find?_eq_some hfind
          exact Nat.succ_le_succ (h e hmem)
        | none =>
          dsimp only
          split
          · exact zero_le
          · exact ih _
  exact hloop _ _

/-- The pieces of a packet as the decoder finds them, with the texts of the names. -/
inductive Found (pkt : Pkt) : Nat → List Piece → Nat → Prop where
  | nil {p : Nat} : Found pkt p [] p
  | name {p q p' : Nat} {str text : Bytes} {ps : List Piece} (h : Legible pkt str text p q)
      (hrest : Found pkt q ps p') : Found pkt p (.name str :: ps) p'
  | bytes {p p' : Nat} {bs : Bytes} {ps : List Piece} (hheld : Holds pkt.buf p bs)
      (hrest : Found pkt (p + bs.length) ps p') : Found pkt p (.bytes bs :: ps) p'
  | gap {p p' n : Nat} {ps : List Piece} (hrest : Found pkt (p + n) ps p') :
      Found pkt p (.gap n :: ps) p'

/-- No label is longer than 63 bytes. -/
def LabelsFit (name : Bytes) : Prop := ∀ l ∈ labelsOf name, l.length ≤ DNS_LABEL_MAXSTR

theorem LabelsFit.congr {a b : Bytes} (hab : a.map lower = b.map lower) (h : LabelsFit a) :
    LabelsFit b := by
  have hlabels : lowers (labelsOf a) = lowers (labelsOf b) := by
    simp [← labelsOf_lower, hab]
  intro l hl
  have hmem : l.map lower ∈ lowers (labelsOf a) := hlabels ▸ mem_map_of_mem hl
  obtain ⟨l', hl', hsame⟩ := mem_map.1 hmem
  have hlen : l'.length = l.length := by simpa using congrArg List.length hsame
  exact hlen ▸ h l' hl'

/-- The encoder takes no name with a label that is too long, also where it ends in a pointer: the
suffix that is pointed to was taken before. -/
theorem encodeNameLoop_labelsFit (start : Nat) :
    ∀ (fuel : Nat) (table : List Suffix) (wptr : Nat) (name : Bytes), name.length < fuel →
      name.length < 256 → start ≤ wptr → (∀ s ∈ table, s.offset < start → LabelsFit s.name) →
      (encodeNameLoop start fuel table wptr name).ok = true →
      wptr + (encodeNameLoop start fuel table wptr name).wire.length ≤ 2 ^ 16 →
      LabelsFit name ∧ ∀ s ∈ (encodeNameLoop start fuel table wptr name).table,
        s ∈ table ∨ LabelsFit s.name := by
  intro fuel
  induction fuel with
  | zero => exact fun _ _ _ hfuel => absurd hfuel (Nat.not_lt_zero _)
  | succ fuel ih =>
    intro table wptr name hfuel hlen hstart htable hok hmax
    rcases encodeNameLoop_cases hlen hok hmax with
      ⟨rfl, hr⟩ | ⟨hne, s, hfind, hr⟩ | ⟨hne, -, hfirst, hlabel, q, hrec, hr, hwlen⟩
    · exact ⟨fun l hl => absurd hl not_mem_nil, fun s hs => .inl hs⟩
    · obtain ⟨hmem, hlt, hsame⟩ := findEntry_some hfind
      rw [hr]
      exact ⟨(htable s hmem hlt).congr hsame, fun s hs => .inl hs⟩
    · have hdrop := length_drop_label hne
      have hgrown : ∀ s ∈ table ++ remembered table.length name wptr,
          s ∈ table ∨ s = ⟨name, wptr⟩ := fun s hs =>
        (mem_append.1 hs).imp_right mem_remembered
      generalize table ++ remembered table.length name wptr = grown at hrec hgrown
      -- the name itself stands at `start` or behind it, and is not looked up
      have hold : ∀ s ∈ grown, s.offset < start → LabelsFit s.name := by
        intro s hs hlt
        rcases hgrown s hs with hs | rfl
        · exact htable s hs hlt
        · exact absurd hlt (not_lt.2 hstart)
      obtain ⟨hrest, hnew⟩ := ih grown (wptr + 1 + name.idxOf dot)
        (name.drop (name.idxOf dot + 1)) (by omega) (by omega) (by omega) hold
        (by rw [hrec]; exact (congrArg NameEnc.ok hr).symm.trans hok) (by rw [hrec, hwlen]; exact hmax)
      have hname : LabelsFit name := by
        unfold LabelsFit
        rw [labelsOf_step hne, forall_mem_cons, hlabel]
        exact ⟨hfirst, hrest⟩
      refine ⟨hname, fun s hs => ?_⟩
      rw [hr] at hs
      rw [hrec] at hnew
      rcases hnew s hs with hs | hfit
      · rcases hgrown s hs with hs | rfl
        · exact .inl hs
        · exact .inr hname
      · exact .inr hfit

variable {pkt : Pkt} {t t' : List Suffix} {pool : Pool} {p p' : Nat} {ps : List Piece}
  {calls : List (Nat × Bytes)}

theorem Lays.labelsFit {mem : Mem} (h : Lays mem t p ps t' p' calls) (hshort : Short ps)
    (hsmall : p' ≤ 2 ^ 16) (ht : ∀ s ∈ t, LabelsFit s.name) :
    (∀ str, Piece.name str ∈ ps → LabelsFit str) ∧ ∀ s ∈ t', LabelsFit s.name := by
  have hmax : DNS_NAME_MAXSTR = 253 := rfl
  induction h with
  | nil => exact ⟨fun _ hmem => (nomatch hmem), ht⟩
  | @name t _ p _ str _ _ hok _ hrest ih =>
    have hle := hrest.le
    have hstr := hshort str mem_cons_self
    unfold ShortStr at hstr
    obtain ⟨hfit, hnew⟩ := encodeNameLoop_labelsFit p _ t p str
      (Nat.lt_succ_self _) (by omega) le_rfl (fun s hs _ => ht s hs) hok (by
        show p + (encodeName t p (some str)).wire.length ≤ _
        omega)
    obtain ⟨hnames, htable⟩ := ih (fun str' hmem => hshort str' (.tail _ hmem))
      hsmall fun s hs => (hnew s hs).elim (ht s) id
    refine ⟨fun str' hmem => ?_, htable⟩
    rcases mem_cons.1 hmem with heq | hmem
    · cases heq
      exact hfit
    · exact hnames str' hmem
  | bytes _ _ ih =>
    obtain ⟨hnames, htable⟩ := ih (fun str' hmem => hshort str' (.tail _ hmem)) hsmall ht
    exact ⟨fun str hmem => hnames str (by simpa using hmem), htable⟩
  | gap _ ih =>
    obtain ⟨hnames, htable⟩ := ih (fun str' hmem => hshort str' (.tail _ hmem)) hsmall ht
    exact ⟨fun str hmem => hnames str (by simpa using hmem), htable⟩

theorem mem_pieceNames {str : Bytes} : str ∈ pieceNames ps ↔ Piece.name str ∈ ps := by
  induction ps with
  | nil => exact iff_of_false not_mem_nil not_mem_nil
  | cons piece ps ih =>
    cases piece with
    | name _ => rw [pieceNames, mem_cons, mem_cons, ih, Piece.name.injEq]
    | bytes _ => exact ih.trans (by rw [mem_cons, or_iff_right nofun])
    | gap n => exact ih.trans (by rw [mem_cons, or_iff_right nofun])

theorem Written.chain {jumps pos len : Nat} (h : Written pkt jumps name pos len) :
    Chain pkt pos jumps := by
  obtain ⟨text, stop, hwire, -⟩ := h
  exact ⟨text, stop, hwire⟩

theorem Mirrored.written {str : Bytes} (hpool : Mirrored pkt t p pool) (hmin : 12 ≤ p)
    (hok : (encodeName t p (some str)).ok = true)
    (hheld : Holds pkt.buf p (encodeName t p (some str)).wire)
    (hsmall : p + (encodeName t p (some str)).wire.length ≤ 2 ^ 14)
    (hfit : p + (encodeName t p (some str)).wire.length ≤ pkt.len) (hshort : ShortStr str) :
    Written pkt (pool.jumps str) str p (encodeName t p (some str)).wire.length ∧
      Mirrored pkt (encodeName t p (some str)).table
        (p + (encodeName t p (some str)).wire.length) (pool.grow str) := by
  have hwire := length_encodeName_pos hok
  obtain ⟨hwritten, hmirrors, hfront⟩ :=
    hpool.mirrors.name hpool.front hmin (by omega) hshort hok hfit hheld
  exact ⟨hwritten, hmirrors, hfront⟩

theorem Lays.found (h : Lays pkt.buf t p ps t' p' calls) (hpool : Mirrored pkt t p pool)
    (hmin : 12 ≤ p) (hsmall : p' ≤ 2 ^ 14) (hfit : p' ≤ pkt.len) (hshort : Short ps)
    (hnames : ∀ str, Piece.name str ∈ ps → IsName str)
    (hjumps : ∀ c ∈ calls, ∀ j, Chain pkt c.1 j → j ≤ DNS_MAX_JMP + 1) : Found pkt p ps p' := by
  induction h generalizing pool with
  | nil => exact .nil
  | @name t _ p _ str _ _ hok hheld hrest ih =>
    have hle := hrest.le
    have hstr := hshort str mem_cons_self
    obtain ⟨hwritten, hnext⟩ := hpool.written hmin hok hheld (by omega) (by omega) hstr
    obtain ⟨text, hlegible⟩ := hwritten.legible (hnames str mem_cons_self) hstr
      (hjumps _ mem_cons_self _ hwritten.chain)
    exact .name hlegible (ih hnext (by omega) hsmall hfit
      (fun str' hmem => hshort str' (.tail _ hmem))
      (fun str' hmem => hnames str' (.tail _ hmem))
      fun c hc => hjumps c (.tail _ hc))
  | bytes hheld _ ih =>
    exact .bytes hheld (ih (hpool.mono (Nat.le_add_right _ _)) (by omega) hsmall hfit
      (fun str hmem => hshort str (.tail _ hmem))
      (fun str hmem => hnames str (.tail _ hmem)) hjumps)
  | gap _ ih =>
    exact .gap (ih (hpool.mono (Nat.le_add_right _ _)) (by omega) hsmall hfit
      (fun str hmem => hshort str (.tail _ hmem))
      (fun str hmem => hnames str (.tail _ hmem)) hjumps)

/-- A record in a packet as the decoder finds it, with its fields at `q`. -/
structure RrFound (pkt : Pkt) (ov : Overlay) (rr : Rr) (p q p' : Nat) : Prop where
  owner : ∃ text, Legible pkt (cstring rr.name) text p q
  head : Holds pkt.buf q (fieldHead ov rr ++ encU16 (UInt16.ofNat (p' - (q + 10))))
  rdata : Found pkt (q + 10) (rdataPieces ov rr) p'

theorem Lays.rrFound {ov : Overlay} {rr : Rr} {rdlen : UInt16}
    (h : Lays pkt.buf t p (rrPieces ov rr rdlen) t' p' calls)
    (hrdlen : rdlen = UInt16.ofNat
      (p' - (p + (encodeName t p (some (cstring rr.name))).wire.length + 10)))
    (hpool : Mirrored pkt t p pool) (hmin : 12 ≤ p) (hsmall : p' ≤ 2 ^ 14) (hfit : p' ≤ pkt.len)
    (hshort : rr.Short ov) (hnames : ∀ str ∈ rr.names ov, IsName str)
    (hjumps : ∀ c ∈ calls, ∀ j, Chain pkt c.1 j → j ≤ DNS_MAX_JMP + 1) :
    RrFound pkt ov rr p (p + (encodeName t p (some (cstring rr.name))).wire.length) p' := by
  obtain ⟨hok, hheld, calls', rfl, hrest⟩ := lays_name.1 h
  obtain ⟨hhead, hrdata⟩ := lays_bytes.1 hrest
  have hle := hrdata.le
  have hten : (fieldHead ov rr ++ encU16 rdlen).length = 10 := by
    simp [length_fieldHead]
  rw [hten] at hle hrdata
  obtain ⟨hwritten, hnext⟩ := hpool.written hmin hok hheld (by omega) (by omega) hshort.1
  have howner := hwritten.legible (hnames _ mem_cons_self) hshort.1
    (hjumps _ mem_cons_self _ hwritten.chain)
  refine ⟨howner, hrdlen ▸ hhead, ?_⟩
  refine hrdata.found (hnext.mono (Nat.le_add_right _ _)) (by omega) hsmall hfit hshort.2
    (fun str hmem => hnames str (.tail _ ?_))
    fun c hc => hjumps c (.tail _ hc)
  exact mem_pieceNames.2 hmem

theorem Found.le (h : Found pkt p ps p') : p ≤ p' := by
  induction h with
  | nil => exact le_rfl
  | name h _ ih =>
    obtain ⟨bare, jumps, hwire, -⟩ := h.wire
    exact hwire.lt_stop.le.trans ih
  | bytes _ _ ih => omega
  | gap _ ih => omega

end CDbK8s.Dns
