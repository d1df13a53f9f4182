import CDbK8s.Dns.NameCodec

/-!
# Names on their own

What `encode_name` writes with an empty table. No suffix of a name has the length of another, so
that a name is never compressed against itself, and the bytes are those of its labels. An empty
label, which a dot at the start or two dots in a row make, gives a zero byte: the name on the wire
ends there, with more bytes behind it.
-/

namespace CDbK8s.Dns

open Base List

/-- A name on the wire without compression. -/
def wireOf (labels : List Bytes) : Bytes :=
  labels.flatMap (fun l => UInt8.ofNat l.length :: l) ++ [0]

/-- The bytes are one name on the wire, with these labels. -/
structure IsWire (bs : Bytes) (labels : List Bytes) : Prop where
  each : ∀ l ∈ labels, l ≠ [] ∧ l.length ≤ DNS_LABEL_MAXSTR
  bytes : bs = wireOf labels

/-- No suffix of the name is in the table. -/
def Apart (table : List Suffix) (name : Bytes) : Prop :=
  ∀ s ∈ table, ∀ k, name.drop k ≠ [] → s.name.map lower ≠ (name.drop k).map lower

theorem apart_nil (name : Bytes) : Apart [] name := fun _ hs => absurd hs not_mem_nil

theorem Apart.findEntry_eq_none {start : Nat} {table : List Suffix} {name : Bytes}
    (h : Apart table name) (hne : name ≠ []) : findEntry start table name = none := by
  cases hfind : findEntry start table name with
  | none => rfl
  | some s =>
    obtain ⟨hmem, -, hsame⟩ := findEntry_some hfind
    exact absurd hsame (h s hmem 0 hne)

theorem Apart.step {table : List Suffix} {name : Bytes} (h : Apart table name) (hne : name ≠ [])
    (wptr : Nat) :
    Apart (if table.length < DNS_MAX_SUFFIX then table ++ [⟨name, wptr % 2 ^ 16⟩] else table)
      (name.drop (name.idxOf dot + 1)) := by
  have hold : Apart table (name.drop (name.idxOf dot + 1)) := by
    intro s hs k hrest
    rw [drop_drop] at hrest ⊢
    exact h s hs _ hrest
  split
  · intro s hs k hrest hsame
    rcases mem_append.1 hs with hmem | hnew
    · exact hold s hmem k hrest hsame
    · rw [mem_singleton.1 hnew] at hsame
      have hlen : name.length = name.length - (name.idxOf dot + 1 + k) := by
        simpa using congrArg List.length hsame
      have hpos := length_pos_iff.2 hne
      omega
  · exact hold

/-- With no end of the name in the table, the encoder refuses a name with a long label, and writes
the labels of any other. -/
theorem encodeNameLoop_labels (start : Nat) :
    ∀ (fuel : Nat) (table : List Suffix) (wptr : Nat) (name : Bytes), name.length < fuel →
      name.length < 256 → Apart table name →
      ((encodeNameLoop start fuel table wptr name).ok = true ↔
          ∀ l ∈ labelsOf name, l.length ≤ DNS_LABEL_MAXSTR) ∧
        ((encodeNameLoop start fuel table wptr name).ok = true →
          (encodeNameLoop start fuel table wptr name).wire = wireOf (labelsOf name)) := by
  intro fuel
  induction fuel with
  | zero => exact fun _ _ _ hfuel => absurd hfuel (Nat.not_lt_zero _)
  | succ fuel ih =>
    intro table wptr name hfuel hlen htable
    by_cases hne : name = []
    · rw [hne]
      exact ⟨⟨fun _ l hl => absurd hl not_mem_nil, fun _ => rfl⟩, fun _ => rfl⟩
    · have hnone : findEntry start table name = none := htable.findEntry_eq_none hne
      have hlabel : (name.take (name.idxOf dot)).length = name.idxOf dot := by
        simp [Nat.min_eq_left idxOf_le_length]
      rw [labelsOf_step hne]
      by_cases hshort : name.idxOf dot ≤ DNS_LABEL_MAXSTR
      · have hrest := length_drop_label hne
        obtain ⟨hok, hwire⟩ := ih _ _ _ (by omega) (by omega) (htable.step hne _)
        rw [encodeNameLoop_label hne hnone hshort, forall_mem_cons, hlabel]
        refine ⟨hok.trans (iff_and_self.2 fun _ => hshort), fun h => ?_⟩
        dsimp only at h ⊢
        rw [hwire h, wireOf, wireOf, flatMap_cons, hlabel]
        simp
      · have hfail : (encodeNameLoop start (fuel + 1) table wptr name).ok ≠ true := fun h =>
          hshort (short_of_encodeNameLoop hne hnone hlen h)
        rw [forall_mem_cons, hlabel]
        exact ⟨iff_of_false hfail fun h => hshort h.1, fun h => absurd h hfail⟩

/-- For every string of at most 253 characters and every position, with an empty table:
`encode_name` fails or writes one name with the labels of the string exactly when no label is
empty, or one is too long. -/
theorem encodeName_wellFormed_iff (wptr : Nat) (name : Bytes)
    (hlen : name.length ≤ DNS_NAME_MAXSTR) :
    ((encodeName [] wptr (some name)).ok = true →
        IsWire (encodeName [] wptr (some name)).wire (labelsOf name)) ↔
      (∀ l ∈ labelsOf name, l ≠ []) ∨ ∃ l ∈ labelsOf name, DNS_LABEL_MAXSTR < l.length := by
  have hmax : DNS_NAME_MAXSTR = 253 := rfl
  obtain ⟨hok, hwire⟩ := encodeNameLoop_labels _ _ [] _ _
    (Nat.lt_succ_self _) (by omega) (apart_nil name)
  constructor
  · intro h
    by_cases hshort : ∀ l ∈ labelsOf name, l.length ≤ DNS_LABEL_MAXSTR
    · exact .inl fun l hl => ((h (hok.2 hshort)).each l hl).1
    · push Not at hshort
      exact .inr hshort
  · rintro (hne | ⟨l, hl, hlong⟩) h
    · exact ⟨fun l hl => ⟨hne l hl, hok.1 h l hl⟩, hwire h⟩
    · exact absurd (hok.1 h l hl) (not_le.2 hlong)

/-- The root as the decoder writes it is a label of no characters for the encoder: one zero byte
too many. -/
theorem encodeName_dot :
    (encodeName [] 12 (some [dot])).ok = true ∧ (encodeName [] 12 (some [dot])).wire = [0, 0] ∧
      ¬ IsWire (encodeName [] 12 (some [dot])).wire (labelsOf [dot]) := by
  refine ⟨by decide, by decide, fun h => ?_⟩
  exact (h.each [] (by decide)).1 rfl

/-- A name with a dot at its end is written as it should be. -/
theorem encodeName_wellFormed_ab :
    IsWire (encodeName [] 12 (some [97, dot, 98, dot])).wire [[97], [98]] :=
  (encodeName_wellFormed_iff 12 [97, dot, 98, dot] (by decide)).2 (.inl (by decide)) (by decide)

end CDbK8s.Dns
