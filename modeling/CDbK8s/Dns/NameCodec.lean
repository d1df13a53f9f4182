import CDbK8s.Dns.NameDecode

/-!
# Reading back the names that were written

What the encoder writes for a string reads as the string (`encodeName_wire`), provided the entries
of its table do. For a string of non-empty labels the text is the string up to the case of letters
and a last dot, and the name ends where the encoder stopped. An empty label is where the decoder
stops.
-/

namespace CDbK8s.Dns

open Base Lib.ByteMem Lib.Pieces List

variable {jumps : Nat} {s : Suffix}
variable {name : Bytes} {table : List Suffix} {start wptr : Nat}

/-! ## Labels -/

theorem lower_eq_iff {c : UInt8} (hc : c.toNat < 65) (b : UInt8) : lower b = c ↔ b = c := by
  unfold lower
  split
  · rename_i hletter
    have hlo := UInt8.le_iff_toNat_le.1 hletter.1
    have hhi := UInt8.le_iff_toNat_le.1 hletter.2
    have h65 : (65 : UInt8).toNat = 65 := rfl
    have h90 : (90 : UInt8).toNat = 90 := rfl
    refine iff_of_false ?_ ?_
    · intro h
      have hnat := congrArg UInt8.toNat h
      simp at hnat
      omega
    · rintro rfl
      omega
  · exact Iff.rfl

theorem lower_eq_dot (b : UInt8) : lower b = dot ↔ b = dot := lower_eq_iff (by decide) b

def lowers (labels : List Bytes) : List Bytes := labels.map (List.map lower)

theorem labelsOf_lower (name : Bytes) : labelsOf (name.map lower) = lowers (labelsOf name) := by
  unfold labelsOf lowers
  rw [pieces_map lower_eq_dot]
  by_cases hnil : (pieces dot name).2 = []
  · simp [hnil]
  · simp [hnil]

theorem labelsOf_cons {l : Bytes} (hl : dot ∉ l) (r : Bytes) :
    labelsOf (l ++ dot :: r) = l :: labelsOf r := by
  unfold labelsOf
  simp [pieces_sep hl]

theorem labelsOf_free (hfree : dot ∉ name) (hne : name ≠ []) : labelsOf name = [name] := by
  unfold labelsOf
  simp [pieces_free hfree, if_neg hne]

theorem labelsOf_step (hne : name ≠ []) :
    labelsOf name = name.take (name.idxOf dot) :: labelsOf (name.drop (name.idxOf dot + 1)) := by
  rcases free_or_sep dot name with hfree | ⟨l, r, hl, rfl⟩
  · have hidx : name.idxOf dot = name.length := idxOf_eq_length hfree
    rw [labelsOf_free hfree hne, hidx, take_length, drop_eq_nil_of_le (Nat.le_succ _)]
    rfl
  · have hidx : (l ++ dot :: r).idxOf dot = l.length := by
      simp [idxOf_append_of_notMem hl]
    rw [labelsOf_cons hl, hidx, take_left, drop_length_add_append]
    rfl

theorem labelsOf_ne_nil (hne : name ≠ []) : labelsOf name ≠ [] := by
  rw [labelsOf_step hne]
  exact cons_ne_nil _ _

theorem IsName.step (h : IsName name) (hne : name ≠ []) :
    name.idxOf dot ≤ DNS_LABEL_MAXSTR ∧ name.take (name.idxOf dot) ≠ [] ∧
      (name.take (name.idxOf dot)).length = name.idxOf dot ∧
      IsName (name.drop (name.idxOf dot + 1)) := by
  have hlabels := h.labels
  rw [labelsOf_step hne] at hlabels
  obtain ⟨hfirst, hshort⟩ := hlabels _ mem_cons_self
  have hlen : (name.take (name.idxOf dot)).length = name.idxOf dot := by
    simp [Nat.min_eq_left idxOf_le_length]
  refine ⟨by omega, hfirst, hlen, ?_, fun l hl => hlabels l (.tail _ hl)⟩
  exact fun hmem => h.noNul (mem_of_mem_drop hmem)

theorem dotted_cons_cons (l l' : Bytes) (ls : List Bytes) :
    dotted (l :: l' :: ls) = l ++ dot :: dotted (l' :: ls) := rfl

theorem dotted_lowers (labels : List Bytes) : dotted (lowers labels) = (dotted labels).map lower := by
  induction labels with
  | nil => rfl
  | cons l ls ih =>
    cases ls with
    | nil => rfl
    | cons _ ls =>
      rw [dotted_cons_cons, map_append, map_cons, ← ih]
      rfl

theorem IsName.congr {a b : Bytes} (hab : a.map lower = b.map lower) (h : IsName a) : IsName b := by
  have hnul : ∀ x : Bytes, 0 ∈ x ↔ 0 ∈ x.map lower := by
    simp [lower_eq_iff (c := 0) (by decide)]
  have hlabels : lowers (labelsOf a) = lowers (labelsOf b) := by
    simp [← labelsOf_lower, hab]
  refine ⟨?_, ?_⟩
  · rw [hnul, ← hab, ← hnul]
    exact h.noNul
  · intro l hl
    -- a label of `a` that differs in the case of letters only
    have hmem : l.map lower ∈ lowers (labelsOf a) := hlabels ▸ mem_map_of_mem hl
    obtain ⟨l', hl', hsame⟩ := mem_map.1 hmem
    have hlen : l'.length = l.length := by simpa using congrArg List.length hsame
    obtain ⟨hne, hshort⟩ := h.labels l' hl'
    refine ⟨?_, hlen ▸ hshort⟩
    rintro rfl
    exact hne (length_eq_zero_iff.1 hlen)

theorem canonical_congr {a b : Bytes} (hab : a.map lower = b.map lower) :
    canonical a = canonical b := by
  unfold canonical
  simp [← dotted_lowers, ← labelsOf_lower, hab]

theorem canonical_step (hne : name ≠ []) :
    canonical name = (name.take (name.idxOf dot)).map lower ++
      (if name.drop (name.idxOf dot + 1) = [] then []
        else dot :: canonical (name.drop (name.idxOf dot + 1))) := by
  have hdot : lower dot = dot := (lower_eq_dot dot).2 rfl
  unfold canonical
  rw [labelsOf_step hne]
  by_cases hrest : name.drop (name.idxOf dot + 1) = []
  · rw [if_pos hrest, hrest, append_nil]
    rfl
  · rw [if_neg hrest]
    cases hls : labelsOf _ with
    | nil => exact absurd hls (labelsOf_ne_nil hrest)
    | cons l _ => rw [dotted_cons_cons, map_append, map_cons, hdot]

theorem IsName.canonical_ne_nil (h : IsName name) (hne : name ≠ []) : canonical name ≠ [] := by
  obtain ⟨-, hfirst, -⟩ := h.step hne
  rw [canonical_step hne]
  intro hnil
  exact hfirst (map_eq_nil_iff.1 (append_eq_nil_iff.1 hnil).1)

/-! ## What the encoder writes -/

variable {pkt : Pkt}

/-- The entry of a table that a name at `start` can end in. -/
def findEntry (start : Nat) (table : List Suffix) (name : Bytes) : Option Suffix :=
  table.find? fun s => s.offset < start && strcaseEq s.name name

/-- The jumps behind a name: none if the decoder comes to an empty label or to the end of
the name first, and otherwise one more than behind the entry that the name ends in. `depth`
gives the jumps behind a position. -/
def depthLoop (depth : Nat → Nat) (start : Nat) (table : List Suffix) : Nat → Bytes → Nat
  | 0, _ => 0
  | fuel + 1, name =>
    if name = [] then 0
    else
      match findEntry start table name with
      | some s => depth s.offset + 1
      | none =>
        if name.idxOf dot = 0 then 0
        else depthLoop depth start table fuel (name.drop (name.idxOf dot + 1))

/-- `depthLoop` with enough fuel. -/
def depthOf (depth : Nat → Nat) (start : Nat) (table : List Suffix) (name : Bytes) : Nat :=
  depthLoop depth start table (name.length + 1) name

/-- What a name is read back as. -/
structure ReadsAs (name text : Bytes) : Prop where
  short : text.length ≤ name.length
  same : IsName name → text.map lower = canonical name

/-- The position of an entry, behind the header, has a name that reads as the entry, with
`jumps` behind it. -/
structure Entry (pkt : Pkt) (jumps : Nat) (s : Suffix) : Prop where
  min : 12 ≤ s.offset
  wire : ∃ text stop, Wire pkt s.offset text jumps stop ∧ ReadsAs s.name text

theorem length_drop_label (hne : name ≠ []) :
    (name.drop (name.idxOf dot + 1)).length < name.length := by
  have hpos := length_pos_iff.2 hne
  rw [length_drop]
  omega

theorem depthLoop_fuel (depth : Nat → Nat) (start : Nat) (table : List Suffix) :
    ∀ (fuel fuel' : Nat) (name : Bytes), name.length < fuel → name.length < fuel' →
      depthLoop depth start table fuel name = depthLoop depth start table fuel' name := by
  intro fuel
  induction fuel with
  | zero =>
    intro fuel' name h
    exact absurd h (Nat.not_lt_zero _)
  | succ fuel ih =>
    intro fuel' name h h'
    cases fuel' with
    | zero => exact absurd h' (Nat.not_lt_zero _)
    | succ fuel' =>
      unfold depthLoop
      by_cases hne : name = []
      · simp [if_pos hne]
      · have hlt := length_drop_label hne
        rw [if_neg hne, if_neg hne, ih fuel' _ (by omega) (by omega)]

theorem depthOf_step (depth : Nat → Nat) (start : Nat) (table : List Suffix) (hne : name ≠ []) :
    depthOf depth start table name =
      match findEntry start table name with
      | some s => depth s.offset + 1
      | none =>
        if name.idxOf dot = 0 then 0
        else depthOf depth start table (name.drop (name.idxOf dot + 1)) := by
  unfold depthOf
  rw [depthLoop, if_neg hne]
  have hlt := length_drop_label hne
  rw [depthLoop_fuel _ _ _ _ _ _ hlt (Nat.lt_succ_self _)]

theorem findEntry_append (old : List Suffix) {new : List Suffix}
    (hnew : ∀ s ∈ new, start ≤ s.offset) (name : Bytes) :
    findEntry start (old ++ new) name = findEntry start old name := by
  have hnone : findEntry start new name = none := by
    unfold findEntry
    rw [List.find?_eq_none]
    intro s hs
    have hle := hnew s hs
    simp
    omega
  unfold findEntry at *
  simp [hnone]

theorem findEntry_some (h : findEntry start table name = some s) :
    s ∈ table ∧ s.offset < start ∧ s.name.map lower = name.map lower := by
  have hmem := List.mem_of_find?_eq_some h
  have hp := List.find?_some h
  simp only [Bool.and_eq_true, decide_eq_true_eq, strcaseEq, beq_iff_eq] at hp
  exact ⟨hmem, hp.1, hp.2⟩

theorem compPtr_target {offset : Nat} (h : offset < 2 ^ 14) {b1 b2 : UInt8}
    (hptr : compPtr offset = [b1, b2]) :
    192 ≤ b1.toNat ∧ b1.toNat % 64 * 256 + b2.toNat = offset := by
  have hor : 0xc000 ||| offset = 0xc000 + offset := by
    have := (Nat.two_pow_add_eq_or_of_lt h 3).symm
    simpa using this
  unfold compPtr at hptr
  simp only [List.cons.injEq, and_true] at hptr
  simp [← hptr.1, ← hptr.2]
  omega

theorem encodeNameLoop_nil (start fuel : Nat) (table : List Suffix) (wptr : Nat) :
    encodeNameLoop start (fuel + 1) table wptr [] = ⟨[0], true, table⟩ := rfl

theorem encodeNameLoop_found (hne : name ≠ []) (h : findEntry start table name = some s)
    (fuel wptr : Nat) :
    encodeNameLoop start (fuel + 1) table wptr name = ⟨compPtr s.offset, true, table⟩ := by
  unfold findEntry at h
  rw [encodeNameLoop, if_neg hne, h]

theorem encodeNameLoop_label (hne : name ≠ []) (h : findEntry start table name = none)
    (hshort : name.idxOf dot ≤ DNS_LABEL_MAXSTR) (fuel wptr : Nat) :
    encodeNameLoop start (fuel + 1) table wptr name =
      let r := encodeNameLoop start fuel
        (if table.length < DNS_MAX_SUFFIX then table ++ [⟨name, wptr % 2 ^ 16⟩] else table)
        (wptr + 1 + name.idxOf dot) (name.drop (name.idxOf dot + 1))
      ⟨UInt8.ofNat (name.idxOf dot) :: name.take (name.idxOf dot) ++ r.wire, r.ok, r.table⟩ := by
  have hmax : DNS_LABEL_MAXSTR = 63 := rfl
  have hmod : name.idxOf dot % 256 = name.idxOf dot := Nat.mod_eq_of_lt (by omega)
  unfold findEntry at h
  rw [encodeNameLoop, if_neg hne, h]
  rw [hmod, if_neg (by omega)]

theorem short_of_encodeNameLoop {fuel : Nat} (hne : name ≠ [])
    (h : findEntry start table name = none) (hlen : name.length < 256)
    (hok : (encodeNameLoop start (fuel + 1) table wptr name).ok = true) :
    name.idxOf dot ≤ DNS_LABEL_MAXSTR := by
  have hle : name.idxOf dot ≤ name.length := idxOf_le_length
  unfold findEntry at h
  rw [encodeNameLoop, if_neg hne, h] at hok
  by_contra hlong
  rw [if_pos (by omega)] at hok
  cases hok

theorem ReadsAs.label {next : Nat} {name text : Bytes} (hne : name ≠ [])
    (hzero : pkt.buf next = 0 → text = [])
    (hlast : name.drop (name.idxOf dot + 1) = [] → pkt.buf next = 0)
    (h : ReadsAs (name.drop (name.idxOf dot + 1)) text) :
    ReadsAs name (name.take (name.idxOf dot) ++ pkt.joint next text) := by
  have hshort := h.short
  rw [length_drop] at hshort
  unfold Pkt.joint
  by_cases hend : pkt.buf next = 0
  · obtain rfl := hzero hend
    rw [if_pos hend, append_nil]
    refine ⟨by rw [length_take]; omega, fun hname => ?_⟩
    rw [canonical_step hne]
    by_cases hrest : name.drop (name.idxOf dot + 1) = []
    · rw [if_pos hrest, append_nil]
    · obtain ⟨-, -, -, hname'⟩ := hname.step hne
      exact absurd (h.same hname').symm (hname'.canonical_ne_nil hrest)
  · have hmore : name.drop (name.idxOf dot + 1) ≠ [] := fun hrest => hend (hlast hrest)
    have hdot : lower dot = dot := (lower_eq_dot dot).2 rfl
    have hpos := length_pos_iff.2 hmore
    rw [length_drop] at hpos
    rw [if_neg hend]
    refine ⟨?_, fun hname => ?_⟩
    · simp
      omega
    · obtain ⟨-, -, -, hname'⟩ := hname.step hne
      rw [canonical_step hne, if_neg hmore, map_append, map_cons, hdot, h.same hname']

/-- A string that was written at `wptr` with `len` bytes, as the decoder sees it. -/
def Written (pkt : Pkt) (jumps : Nat) (name : Bytes) (wptr len : Nat) : Prop :=
  ∃ text stop, Wire pkt wptr text jumps stop ∧ ReadsAs name text ∧ (IsName name → stop = wptr + len)

theorem Written.entry {len : Nat} (h : Written pkt jumps name wptr len) (hmin : 12 ≤ wptr) :
    Entry pkt jumps ⟨name, wptr⟩ := by
  obtain ⟨text, stop, hwire, hreads, -⟩ := h
  exact ⟨hmin, text, stop, hwire, hreads⟩

theorem written_nil (hpos : wptr < pkt.len) (hzero : pkt.buf wptr = 0) : Written pkt 0 [] wptr 1 :=
  ⟨[], wptr + 1, Wire.root hpos hzero, ⟨le_rfl, fun _ => rfl⟩, fun _ => rfl⟩

theorem written_pointer (hentry : Entry pkt jumps s) (hsmall : s.offset < 2 ^ 14)
    (hsame : s.name.map lower = name.map lower) (hfit : wptr + 2 ≤ pkt.len)
    (hheld : Holds pkt.buf wptr (compPtr s.offset)) : Written pkt (jumps + 1) name wptr 2 := by
  obtain ⟨hmin, text, stop, hwire, hreads⟩ := hentry
  have hbytes : compPtr s.offset = [pkt.buf wptr, pkt.buf (wptr + 1)] := hheld.symm
  obtain ⟨hptr, htarget⟩ := compPtr_target hsmall hbytes
  have hlen : s.name.length = name.length := by simpa using congrArg List.length hsame
  refine ⟨text, wptr + 2, Wire.jump (by omega) hptr htarget.symm hmin hwire,
    ⟨hlen ▸ hreads.short, ?_⟩, fun _ => rfl⟩
  intro hname
  rw [← canonical_congr hsame]
  exact hreads.same (hname.congr hsame.symm)

/-- A label and what follows it. An empty label is the end of the name for the decoder. -/
theorem written_label {len : Nat} (hne : name ≠ []) (hshort : name.idxOf dot ≤ DNS_LABEL_MAXSTR)
    (hfit : wptr + 1 + name.idxOf dot ≤ pkt.len)
    (hbyte : pkt.buf wptr = UInt8.ofNat (name.idxOf dot))
    (hheld : Holds pkt.buf (wptr + 1) (name.take (name.idxOf dot)))
    (hlast : name.drop (name.idxOf dot + 1) = [] → pkt.buf (wptr + 1 + name.idxOf dot) = 0)
    (h : Written pkt jumps (name.drop (name.idxOf dot + 1)) (wptr + 1 + name.idxOf dot) len) :
    Written pkt (if name.idxOf dot = 0 then 0 else jumps) name wptr (1 + name.idxOf dot + len) := by
  have hlen : (name.take (name.idxOf dot)).length = name.idxOf dot := by
    simp [Nat.min_eq_left idxOf_le_length]
  by_cases hempty : name.idxOf dot = 0
  · rw [hempty] at hbyte hfit
    rw [if_pos hempty]
    have hnot : ¬ IsName name := by
      intro hname
      obtain ⟨-, hfirst, -⟩ := hname.step hne
      rw [hempty] at hfirst
      exact hfirst rfl
    exact ⟨[], wptr + 1, Wire.root (by omega) hbyte, ⟨zero_le, fun hname => absurd hname hnot⟩,
      fun hname => absurd hname hnot⟩
  · obtain ⟨text, stop, hwire, hreads, hstop⟩ := h
    rw [if_neg hempty]
    refine ⟨_, stop, ?_, hreads.label hne hwire.first.2 hlast, ?_⟩
    · have hlabel := @Wire.label pkt wptr jumps stop (name.take (name.idxOf dot)) text
      rw [hlen] at hlabel
      refine hlabel (fun hnil => hempty ?_) hshort hfit hbyte ?_ hwire
      · rw [hnil] at hlen
        exact hlen.symm
      · unfold Holds at hheld
        rw [hlen] at hheld
        exact hheld
    · intro hname
      obtain ⟨-, -, -, hname'⟩ := hname.step hne
      rw [hstop hname']
      omega

/-- A name takes at most two bytes more than its text, and the root one byte. -/
theorem length_encodeNameLoop (start : Nat) :
    ∀ (fuel : Nat) (table : List Suffix) (wptr : Nat) (name : Bytes),
      (encodeNameLoop start fuel table wptr name).wire.length ≤
        if name = [] then 1 else name.length + 2 := by
  intro fuel
  induction fuel with
  | zero =>
    intro table wptr name
    exact zero_le
  | succ fuel ih =>
    intro table wptr name
    rw [encodeNameLoop]
    by_cases hne : name = []
    · rw [if_pos hne, if_pos hne]
      rfl
    · rw [if_neg hne, if_neg hne]
      split
      · exact Nat.le_add_left _ _
      · dsimp only
        split
        · exact zero_le
        · -- the label, and what the rest takes
          have hrest := ih (if table.length < DNS_MAX_SUFFIX then
            table ++ [⟨name, wptr % 2 ^ 16⟩] else table) (wptr + 1 + name.idxOf dot % 256)
            (name.drop (name.idxOf dot + 1))
          simp only [drop_eq_nil_iff, length_drop] at hrest
          rw [length_append, length_cons, length_take]
          generalize encodeNameLoop start fuel _ _ _ = q at hrest ⊢
          split_ifs at hrest with hlast
          · omega
          · omega

/-- The entry that a suffix gets in a table of `len` entries. -/
def remembered (len : Nat) (name : Bytes) (wptr : Nat) : List Suffix :=
  if len < DNS_MAX_SUFFIX then [⟨name, wptr⟩] else []

theorem mem_remembered {len wptr : Nat} {name : Bytes} {s : Suffix}
    (h : s ∈ remembered len name wptr) : s = ⟨name, wptr⟩ := by
  unfold remembered at h
  split at h
  · exact mem_singleton.1 h
  · cases h

/-- What becomes of a name that is taken: it is the root, or it is found, or its first label is
written and the rest of the name follows. -/
theorem encodeNameLoop_cases {fuel : Nat} (hlong : name.length < 256)
    (hok : (encodeNameLoop start (fuel + 1) table wptr name).ok = true)
    (hmax : wptr + (encodeNameLoop start (fuel + 1) table wptr name).wire.length ≤ 2 ^ 16) :
    name = [] ∧ encodeNameLoop start (fuel + 1) table wptr name = ⟨[0], true, table⟩ ∨
      name ≠ [] ∧ (∃ s, findEntry start table name = some s ∧
        encodeNameLoop start (fuel + 1) table wptr name = ⟨compPtr s.offset, true, table⟩) ∨
      name ≠ [] ∧ findEntry start table name = none ∧ name.idxOf dot ≤ DNS_LABEL_MAXSTR ∧
        (name.take (name.idxOf dot)).length = name.idxOf dot ∧
        ∃ q, encodeNameLoop start fuel (table ++ remembered table.length name wptr)
            (wptr + 1 + name.idxOf dot) (name.drop (name.idxOf dot + 1)) = q ∧
          encodeNameLoop start (fuel + 1) table wptr name =
            ⟨UInt8.ofNat (name.idxOf dot) :: name.take (name.idxOf dot) ++ q.wire, q.ok, q.table⟩ ∧
          wptr + 1 + name.idxOf dot + q.wire.length =
            wptr + (encodeNameLoop start (fuel + 1) table wptr name).wire.length := by
  by_cases hne : name = []
  · exact .inl ⟨hne, by rw [hne, encodeNameLoop_nil]⟩
  · refine .inr ?_
    cases hfind : findEntry start table name with
    | some s => exact .inl ⟨hne, s, rfl, encodeNameLoop_found hne hfind _ _⟩
    | none =>
      have hshort := short_of_encodeNameLoop hne hfind hlong hok
      have hlen : (name.take (name.idxOf dot)).length = name.idxOf dot := by
        simp [Nat.min_eq_left idxOf_le_length]
      have hr := encodeNameLoop_label hne hfind hshort fuel wptr
      have hlt : wptr < 2 ^ 16 := by
        rw [hr] at hmax
        simp at hmax
        omega
      have hgrown : (if table.length < DNS_MAX_SUFFIX then
          table ++ [⟨name, wptr % 2 ^ 16⟩] else table) =
          table ++ remembered table.length name wptr := by
        unfold remembered
        rw [Nat.mod_eq_of_lt hlt]
        split
        · rfl
        · exact (append_nil _).symm
      rw [hgrown] at hr
      refine .inr ⟨hne, rfl, hshort, hlen, _, rfl, hr, ?_⟩
      rw [hr, length_append, length_cons]
      omega

/-- The bytes of a string, in a packet that has them: a name that reads as the string. The
table grows by suffixes of the string that read as themselves. A pointer can hold the
position of every entry in front of `start`. -/
theorem encodeNameLoop_wire {depth : Nat → Nat} {old : List Suffix} (hsmall : start < 2 ^ 14)
    (hold : ∀ s ∈ old, Entry pkt (depth s.offset) s) :
    ∀ (fuel : Nat) (new : List Suffix) (wptr : Nat) (name : Bytes),
      (∀ s ∈ new, start ≤ s.offset) → start ≤ wptr → 12 ≤ wptr → name.length < fuel →
      name.length < 256 →
      let r := encodeNameLoop start fuel (old ++ new) wptr name
      r.ok = true → wptr + r.wire.length ≤ 2 ^ 16 → wptr + r.wire.length ≤ pkt.len →
      Holds pkt.buf wptr r.wire →
      Written pkt (depthOf depth start old name) name wptr r.wire.length ∧
        ∃ more, r.table = old ++ new ++ more ∧
          ∀ s ∈ more, start ≤ s.offset ∧ Entry pkt (depthOf depth start old s.name) s := by
  intro fuel
  induction fuel with
  | zero =>
    intro new wptr name _ _ _ hfuel
    exact absurd hfuel (Nat.not_lt_zero _)
  | succ fuel ih =>
    intro new wptr name hnew hstart hmin hfuel hlong r hok hmax hpkt hread
    rcases encodeNameLoop_cases hlong hok hmax with
      ⟨rfl, hr⟩ | ⟨hne, s, hfind, hr⟩ | ⟨hne, hfind, hshort, hlen, q, hrec, hr, hwlen⟩
    · exact ⟨written_nil hpkt (holds_cons.1 hread).1, [], (append_nil _).symm,
        fun s hs => by cases hs⟩
    · rw [findEntry_append old hnew] at hfind
      obtain ⟨hmem, hback, hcase⟩ := findEntry_some hfind
      rw [show r = _ from hr] at hpkt hread ⊢
      rw [depthOf_step _ _ old hne, hfind]
      exact ⟨written_pointer (hold s hmem) (hback.trans hsmall) hcase hpkt hread, [],
        (append_nil _).symm, fun s hs => by cases hs⟩
    · have hlt := length_drop_label hne
      change _ = wptr + r.wire.length at hwlen
      have hsingle := fun s => @mem_remembered (old ++ new).length wptr name s
      generalize remembered (old ++ new).length name wptr = added at hrec hsingle
      rw [findEntry_append old hnew] at hfind
      rw [append_assoc] at hrec
      have hwire : r.wire = UInt8.ofNat (name.idxOf dot) :: name.take (name.idxOf dot) ++
        q.wire := congrArg NameEnc.wire hr
      rw [hwire, cons_append, holds_cons, holds_append, hlen] at hread
      obtain ⟨hbyte, hheld, htail⟩ := hread
      -- the rest of the name
      have hstarts : ∀ s ∈ new ++ added, start ≤ s.offset := by
        intro s hs
        rcases mem_append.1 hs with hs | hs
        · exact hnew s hs
        · rw [hsingle s hs]
          exact hstart
      obtain ⟨hrest, more, htable, hmore⟩ :=
        ih _ (wptr + 1 + name.idxOf dot) (name.drop (name.idxOf dot + 1)) hstarts
          (by omega) (by omega) (by omega) (by omega)
          (by rw [hrec]; exact (congrArg NameEnc.ok hr).symm.trans hok)
          (by rw [hrec, hwlen]; exact hmax) (by rw [hrec, hwlen]; exact hpkt)
          (by rw [hrec]; exact htail)
      rw [hrec] at hrest htable
      have hlast : name.drop (name.idxOf dot + 1) = [] →
          pkt.buf (wptr + 1 + name.idxOf dot) = 0 := by
        intro hnil
        cases fuel with
        | zero => exact absurd (length_pos_iff.2 hne) (by omega)
        | succ fuel =>
          rw [hnil] at hrec
          rw [← hrec] at htail
          exact (holds_cons.1 htail).1
      have hstep := depthOf_step depth start old hne
      rw [hfind] at hstep
      have hw := written_label hne hshort (by omega) hbyte hheld hlast hrest
      have hsize : r.wire.length = 1 + name.idxOf dot + q.wire.length := by omega
      rw [hsize, hstep]
      refine ⟨hw, added ++ more, ?_, ?_⟩
      · rw [congrArg NameEnc.table hr, htable]
        simp
      · intro s hs
        rcases mem_append.1 hs with hs | hs
        · rw [hsingle s hs, hstep]
          exact ⟨hstart, hw.entry hmin⟩
        · exact hmore s hs

theorem encodeNameLoop_ok (start : Nat) :
    ∀ (fuel : Nat) (table : List Suffix) (wptr : Nat) (name : Bytes),
      (∀ l ∈ labelsOf name, l.length ≤ DNS_LABEL_MAXSTR) → name.length < fuel →
      (encodeNameLoop start fuel table wptr name).ok = true := by
  intro fuel
  induction fuel with
  | zero =>
    intro table wptr name _ hfuel
    exact absurd hfuel (Nat.not_lt_zero _)
  | succ fuel ih =>
    intro table wptr name hname hfuel
    by_cases hne : name = []
    · rw [hne, encodeNameLoop_nil]
    · cases hfind : findEntry start table name with
      | some s => rw [encodeNameLoop_found hne hfind]
      | none =>
        rw [labelsOf_step hne, forall_mem_cons, length_take, Nat.min_eq_left idxOf_le_length] at hname
        have hlt := length_drop_label hne
        rw [encodeNameLoop_label hne hfind hname.1]
        exact ih _ _ _ hname.2 (by omega)

theorem encodeName_wire {depth : Nat → Nat} (htable : ∀ s ∈ table, Entry pkt (depth s.offset) s)
    (hmin : 12 ≤ wptr) (hsmall : wptr < 2 ^ 14) (hlen : name.length < 256)
    (hok : (encodeName table wptr (some name)).ok = true)
    (hfit : wptr + (encodeName table wptr (some name)).wire.length ≤ pkt.len)
    (hheld : Holds pkt.buf wptr (encodeName table wptr (some name)).wire) :
    Written pkt (depthOf depth wptr table name) name wptr
        (encodeName table wptr (some name)).wire.length ∧
      ∃ more, (encodeName table wptr (some name)).table = table ++ more ∧
        ∀ s ∈ more, wptr ≤ s.offset ∧ Entry pkt (depthOf depth wptr table s.name) s := by
  have hwlen := length_encodeNameLoop wptr (name.length + 1) table wptr name
  have hle : wptr + (encodeNameLoop wptr (name.length + 1) table wptr name).wire.length ≤ 2 ^ 16 := by
    split_ifs at hwlen <;> omega
  have h := encodeNameLoop_wire hsmall htable _ [] _ _
    (fun s hs => by cases hs) le_rfl hmin (Nat.lt_succ_self _) hlen
  rw [append_nil] at h
  exact h hok hle hfit hheld

/-! ## Reading back a list of names -/

/-- The pointer chain behind the name at `pos` has so many jumps. -/
def Chain (pkt : Pkt) (pos jumps : Nat) : Prop := ∃ text stop, Wire pkt pos text jumps stop

/-- A name, the position it was written at, and what `encode_name` did. -/
structure Placed where
  pos : Nat
  name : Bytes
  enc : NameEnc

/-- Encoding names one after another, each at its position, with one table. -/
def encodeNames : List Suffix → List (Nat × Bytes) → List Placed
  | _, [] => []
  | table, (pos, name) :: rest =>
    let e := encodeName table pos (some name)
    ⟨pos, name, e⟩ :: encodeNames e.table rest

theorem exists_depth (h : ∀ s ∈ table, ∃ jumps, Entry pkt jumps s) :
    ∃ depth : Nat → Nat, ∀ s ∈ table, Entry pkt (depth s.offset) s := by
  classical
  refine ⟨fun pos => if hc : ∃ jumps, Chain pkt pos jumps then hc.choose else 0, ?_⟩
  intro s hs
  obtain ⟨jumps, hentry⟩ := h s hs
  obtain ⟨text, stop, hwire, -⟩ := hentry.wire
  have hc : ∃ jumps, Chain pkt s.offset jumps := ⟨jumps, text, stop, hwire⟩
  obtain ⟨text', stop', hwire'⟩ := hc.choose_spec
  dsimp only
  rw [dif_pos hc, ← (hwire.unique hwire').2.1]
  exact hentry

/-- A list of names in a packet that has their bytes: each reads as itself. -/
theorem encodeNames_wire : ∀ (names : List (Nat × Bytes)) (table : List Suffix),
      (∀ s ∈ table, ∃ jumps, Entry pkt jumps s) →
      (∀ p ∈ names, IsName p.2 ∧ p.2.length ≤ DNS_NAME_MAXSTR ∧ 12 ≤ p.1 ∧ p.1 < 2 ^ 14) →
      (∀ e ∈ encodeNames table names,
        e.pos + e.enc.wire.length ≤ pkt.len ∧ Holds pkt.buf e.pos e.enc.wire) →
      ∀ e ∈ encodeNames table names, e.enc.ok = true ∧ IsName e.name ∧
        e.name.length ≤ DNS_NAME_MAXSTR ∧
        ∃ jumps, Written pkt jumps e.name e.pos e.enc.wire.length := by
  have hmax : DNS_NAME_MAXSTR = 253 := rfl
  intro names
  induction names with
  | nil =>
    intro table _ _ _ e he
    cases he
  | cons p _ ih =>
    intro table htable hnames hheld e he
    obtain ⟨pos, name⟩ := p
    obtain ⟨hname, hlen, hmin, hpos⟩ := hnames _ mem_cons_self
    obtain ⟨hfit, hbytes⟩ := hheld _ mem_cons_self
    obtain ⟨depth, hdepth⟩ := exists_depth htable
    have hok : (encodeName table pos (some name)).ok = true :=
      encodeNameLoop_ok pos _ _ pos _ (fun l hl => (hname.labels l hl).2) (Nat.lt_succ_self _)
    dsimp only at hlen
    obtain ⟨hwritten, more, hmore, hentries⟩ :=
      encodeName_wire hdepth hmin hpos (by omega) hok hfit hbytes
    rcases mem_cons.1 he with rfl | he
    · exact ⟨hok, hname, hlen, _, hwritten⟩
    · refine ih _ ?_ (fun p hp => hnames p (.tail _ hp)) (fun e he => hheld e (.tail _ he)) e he
      intro s hs
      rw [hmore] at hs
      rcases mem_append.1 hs with hs | hs
      · exact htable s hs
      · exact ⟨_, (hentries s hs).2⟩

/-- Names that were encoded one after another with one table, at offsets that a pointer can
hold, in a packet that still has their bytes. Whatever else is in the packet, decoding from
the offset of any of them gives that name, in the case of the letters that came first and
without a last dot; the count is one more than its length, the offset is moved behind the
encoding, and no byte behind the packet is read. -/
theorem names_read_back (pkt : Pkt) (names : List (Nat × Bytes))
    (hnames : ∀ p ∈ names, IsName p.2 ∧ p.2.length ≤ DNS_NAME_MAXSTR ∧ 12 ≤ p.1 ∧ p.1 < 2 ^ 14)
    (hheld : ∀ e ∈ encodeNames [] names,
      e.pos + e.enc.wire.length ≤ pkt.len ∧ Holds pkt.buf e.pos e.enc.wire) :
    ∀ e ∈ encodeNames [] names, e.enc.ok = true ∧ ∃ jumps, Chain pkt e.pos jumps ∧
      (jumps ≤ 17 → ∀ nlen, 256 ≤ nlen → ∃ out,
        decodeName pkt e.pos nlen = ⟨.ok (out, out.length + 1), e.pos + e.enc.wire.length, false⟩ ∧
        out.map lower = canonical e.name) := by
  have hmax : DNS_NAME_MAXSTR = 253 := rfl
  intro e he
  obtain ⟨hok, hname, hlen, jumps, text, stop, hwire, hreads, hstop⟩ :=
    encodeNames_wire _ [] (fun s hs => by cases hs) hnames hheld e he
  obtain rfl := hstop hname
  have hshort := hreads.short
  refine ⟨hok, jumps, ⟨text, _, hwire⟩, ?_⟩
  intro hjumps _ _
  refine ⟨text, ?_, hreads.same hname⟩
  rw [decodeName_wire hwire (by omega), if_pos hjumps]

/-- `ab` at 12 and `c.AB` at 17, with a byte between them: the second ends in a pointer. -/
theorem names_read_back_shared :
    let names : List (Nat × Bytes) := [(12, [97, 98]), (17, [99, dot, 65, 66])]
    let pkt := Pkt.ofBytes (replicate 12 0 ++ [2, 97, 98, 0, 7, 1, 99, 192, 12])
    (encodeNames [] names).map (fun e => e.enc.wire) = [[2, 97, 98, 0], [1, 99, 192, 12]] ∧
    ∀ e ∈ encodeNames [] names, e.enc.ok = true ∧ ∃ jumps, Chain pkt e.pos jumps ∧
      (jumps ≤ 17 → ∀ nlen, 256 ≤ nlen → ∃ out,
        decodeName pkt e.pos nlen = ⟨.ok (out, out.length + 1), e.pos + e.enc.wire.length, false⟩ ∧
        out.map lower = canonical e.name) := by
  intro names pkt
  refine ⟨rfl, names_read_back pkt _ ?_ ?_⟩
  · intro p hp
    simp only [names, mem_cons, not_mem_nil, or_false] at hp
    rcases hp with rfl | rfl
    · exact ⟨⟨by decide, by decide⟩, by decide, by decide, by decide⟩
    · exact ⟨⟨by decide, by decide⟩, by decide, by decide, by decide⟩
  · intro e he
    rcases mem_cons.1 he with rfl | he
    · exact ⟨by decide, rfl⟩
    · rw [mem_singleton.1 he]
      exact ⟨by decide, rfl⟩

end CDbK8s.Dns
