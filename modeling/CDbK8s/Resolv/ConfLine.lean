import CDbK8s.Server.Model

/-!
# The lines of `/etc/hosts` and `/etc/services`

`init_hosts` and `init_services` cut a line in the same way: a comment is chopped off, white space
is trimmed, and the first two words are split off. The words are those between runs of spaces and
tabs; white space of another kind is trimmed at the ends of a line but does not separate words.
-/

namespace CDbK8s.Resolv

open Base Server List

variable {ch : UInt8}

/-! ## Slices -/

/-- `slice_splitset` for any set of delimiters, which `memchr` searches: the word at the start, and
what is behind the delimiters that follow it. -/
def splitset (set src : Bytes) : Bytes × Bytes :=
  (src.takeWhile fun ch => !set.contains ch,
    (src.dropWhile fun ch => !set.contains ch).dropWhile fun ch => set.contains ch)

/-- The set `" \t"`. -/
def isBlank (ch : UInt8) : Bool := [32, 9].contains ch

/-- `slice_splitset(&src, " \t")`. -/
def sliceSplitset (src : Bytes) : Bytes × Bytes := splitset [32, 9] src

/-- The loop `while (src.len)` around `slice_splitset`, for `fuel` rounds at most: the tokens. -/
def splitTokens (set : Bytes) : Nat → Bytes → Option (List Bytes)
  | _, [] => some []
  | 0, _ :: _ => none
  | fuel + 1, ch :: src =>
    let split := splitset set (ch :: src)
    (splitTokens set fuel split.2).map (split.1 :: ·)

/-- `slice_chop`: the part in front of a character. -/
def sliceChop (str : Bytes) (ch : UInt8) : Bytes := str.takeWhile (· != ch)

def isNumeral (ch : UInt8) : Bool := 48 ≤ ch && ch ≤ 57

/-- `slice_tou32`: the number at the start, which wraps in a `uint32_t`. -/
def sliceTou32 (str : Bytes) : UInt32 :=
  (str.takeWhile isNumeral).foldl
    (fun val ch => (val <<< 3) + (val <<< 1) + UInt32.ofNat (ch.toNat - 48)) 0

/-- The first two words of a line without its comment, and the rest. -/
def cutLine (line : Bytes) : Option (Bytes × Bytes × Bytes) :=
  let line := sliceTrim (sliceChop line 35)
  if line = [] then none
  else
    let fst := sliceSplitset line
    let snd := sliceSplitset fst.2
    if fst.1 = [] ∨ snd.1 = [] then none else some (fst.1, snd.1, snd.2)

/-! ## Words -/

/-- The word in front ends here. -/
def Breaks (rest : Bytes) : Prop := ∀ ch ∈ rest.head?, isBlank ch = true

section
variable {word gap rest : Bytes}

theorem sliceSplitset_word (hword : ∀ ch ∈ word, isBlank ch = false) (hrest : Breaks rest) :
    sliceSplitset (word ++ rest) = (word, rest.dropWhile isBlank) := by
  have hnot : ∀ ch ∈ word, (!isBlank ch) = true := fun ch hch => by rw [hword ch hch]; rfl
  have hstop : rest.takeWhile (fun ch => !isBlank ch) = [] ∧
      rest.dropWhile (fun ch => !isBlank ch) = rest := by
    cases rest with
    | nil => exact ⟨rfl, rfl⟩
    | cons ch rest =>
      have hch : isBlank ch = true := hrest ch rfl
      simp [hch]
  show ((word ++ rest).takeWhile fun ch => !isBlank ch,
    ((word ++ rest).dropWhile fun ch => !isBlank ch).dropWhile isBlank) = _
  simp [takeWhile_append_of_pos hnot, dropWhile_append_of_pos hnot, hstop.1, hstop.2]

theorem isBlank_white (h : isBlank ch = true) : isWhite ch = true := by
  unfold isWhite
  simp only [isBlank, contains_cons, contains_nil, Bool.or_false, Bool.or_eq_true] at h ⊢
  rcases h with h | h
  · exact .inl (.inl (.inl (.inl h)))
  · exact .inl (.inl (.inl (.inr h)))

theorem rdropWhile_behind {p : UInt8 → Bool} {pre : Bytes} (h : p ch = false) (rest : Bytes) :
    (pre ++ ch :: rest).rdropWhile p = pre ++ ch :: rest.rdropWhile p := by
  unfold List.rdropWhile
  rw [reverse_append, reverse_cons, append_assoc, dropWhile_append]
  by_cases hall : (rest.reverse.dropWhile p).isEmpty = true
  · simp [h]
  · rw [if_neg hall]
    simp

theorem Breaks.rdropWhile (h : Breaks rest) (p : UInt8 → Bool) : Breaks (rest.rdropWhile p) := by
  intro ch hch
  have hpre : rest.rdropWhile p <+: rest := rdropWhile_prefix p _
  obtain ⟨tail, htail⟩ := hpre
  refine h ch ?_
  rw [← htail]
  cases hlist : rest.rdropWhile p with
  | nil =>
    rw [hlist] at hch
    cases hch
  | cons c _ =>
    rw [hlist] at hch
    exact hch

/-- A word of a line: it is not empty, and has no white space and no `#`. -/
structure IsWord (word : Bytes) : Prop where
  nonempty : word ≠ []
  plain : ∀ ch ∈ word, isWhite ch = false ∧ ch ≠ 35

theorem IsWord.not_blank (h : IsWord word) : ∀ ch ∈ word, isBlank ch = false := by
  intro ch hch
  refine Bool.eq_false_iff.2 fun hblank => ?_
  have hwhite := (h.plain ch hch).1
  rw [isBlank_white hblank] at hwhite
  cases hwhite

/-- The line ends here, or in a blank or a comment. -/
def Trails (rest : Bytes) : Prop := ∀ ch ∈ rest.head?, isBlank ch = true ∨ ch = 35

theorem Trails.chop (h : Trails rest) : Breaks (sliceChop rest 35) := by
  intro _ hch
  cases rest with
  | nil => cases hch
  | cons c _ =>
    unfold sliceChop at hch
    rcases h c rfl with hblank | rfl
    · rw [takeWhile_cons] at hch
      split at hch
      · cases hch
        exact hblank
      · cases hch
    · cases hch

/-- The first two words of a line are cut off, with the blanks around them. -/
theorem cutLine_words {lead fst snd : Bytes} (hlead : ∀ ch ∈ lead, isWhite ch = true)
    (hfst : IsWord fst) (hgap : gap ≠ []) (hblank : ∀ ch ∈ gap, isBlank ch = true)
    (hsnd : IsWord snd) (hrest : Trails rest) :
    cutLine (lead ++ fst ++ gap ++ snd ++ rest) =
      some (fst, snd, ((sliceChop rest 35).rdropWhile isWhite).dropWhile isBlank) := by
  have hnohash : ∀ ch ∈ lead ++ fst ++ gap ++ snd, (ch != 35) = true := by
    have hwhite : ∀ ch : UInt8, isWhite ch = true → (ch != 35) = true := by
      intro ch hch
      refine bne_iff_ne.2 fun heq => ?_
      rw [heq] at hch
      cases hch
    intro ch hch
    simp only [mem_append] at hch
    rcases hch with ((h | h) | h) | h
    · exact hwhite ch (hlead ch h)
    · exact bne_iff_ne.2 (hfst.plain ch h).2
    · exact hwhite ch (isBlank_white (hblank ch h))
    · exact bne_iff_ne.2 (hsnd.plain ch h).2
  have hchop : sliceChop (lead ++ fst ++ gap ++ snd ++ rest) 35 =
      lead ++ fst ++ gap ++ snd ++ sliceChop rest 35 :=
    takeWhile_append_of_pos hnohash
  obtain ⟨init, last, hcut⟩ : ∃ init last, snd = init ++ [last] :=
    ⟨_, _, (dropLast_concat_getLast hsnd.nonempty).symm⟩
  have hlast : isWhite last = false := (hsnd.plain last (by rw [hcut]; simp)).1
  obtain ⟨first, tail, hfirst⟩ := exists_cons_of_ne_nil hfst.nonempty
  have hwhite : isWhite first = false := (hfst.plain first (by rw [hfirst]; simp)).1
  have htrim : sliceTrim (lead ++ fst ++ gap ++ snd ++ sliceChop rest 35) =
      fst ++ (gap ++ (snd ++ (sliceChop rest 35).rdropWhile isWhite)) := by
    have hright : (lead ++ fst ++ gap ++ snd ++ sliceChop rest 35).rdropWhile isWhite =
        lead ++ (fst ++ (gap ++ (snd ++ (sliceChop rest 35).rdropWhile isWhite))) := by
      rw [hcut, ← append_assoc, append_assoc _ [last], singleton_append, rdropWhile_behind hlast]
      simp
    rw [sliceTrim, hright, dropWhile_append_of_pos hlead, hfirst, cons_append,
      dropWhile_cons_of_neg (by rw [hwhite]; decide)]
  have hbreaks : Breaks (gap ++ (snd ++ (sliceChop rest 35).rdropWhile isWhite)) := by
    obtain ⟨g, gs, hg⟩ := exists_cons_of_ne_nil hgap
    intro ch hch
    rw [hg] at hch
    cases hch
    exact hblank g (by rw [hg]; simp)
  have hskip : (gap ++ (snd ++ (sliceChop rest 35).rdropWhile isWhite)).dropWhile isBlank =
      snd ++ (sliceChop rest 35).rdropWhile isWhite := by
    obtain ⟨s, ss, hs⟩ := exists_cons_of_ne_nil hsnd.nonempty
    have hnb : isBlank s = false := hsnd.not_blank s (by rw [hs]; simp)
    rw [dropWhile_append_of_pos hblank, hs, cons_append,
      dropWhile_cons_of_neg (by rw [hnb]; decide)]
  unfold cutLine
  dsimp only
  rw [hchop, htrim, sliceSplitset_word hfst.not_blank hbreaks, hskip,
    sliceSplitset_word hsnd.not_blank (hrest.chop.rdropWhile _),
    if_neg (by simp [hfst.nonempty])]
  exact if_neg fun h => h.elim hfst.nonempty hsnd.nonempty

def Unindented (text : Bytes) : Prop := ∀ ch ∈ text.head?, isBlank ch = false

end

/-! ## Tokens -/

/-- The runs of bytes between those that `p` holds of. -/
def runsOf (p : UInt8 → Bool) (text : Bytes) : List Bytes := (text.splitOnP p).filter (· ≠ [])

/-- The words of a text. -/
def wordsOf (text : Bytes) : List Bytes := runsOf isBlank text

variable {p : UInt8 → Bool} {word rest : Bytes}

theorem head_dropWhile (p : UInt8 → Bool) (text : Bytes) :
    ∀ ch ∈ (text.dropWhile p).head?, p ch = false := by
  intro _ hch
  have hhead := List.head?_dropWhile_not p text
  rw [Option.mem_def.1 hch] at hhead
  exact Bool.eq_false_iff.2 fun h => by simp [h] at hhead

theorem unindented_dropWhile (text : Bytes) : Unindented (text.dropWhile isBlank) :=
  head_dropWhile _ _

theorem runsOf_sep (hch : p ch = true) (text : Bytes) : runsOf p (ch :: text) = runsOf p text := by
  rw [runsOf, splitOnP_cons_eq_if_modifyHead, if_pos hch]
  rfl

theorem runsOf_dropWhile (p : UInt8 → Bool) (text : Bytes) :
    runsOf p (text.dropWhile p) = runsOf p text := by
  induction text with
  | nil => rfl
  | cons ch text ih =>
    cases hch : p ch with
    | true => rw [dropWhile_cons_of_pos hch, ih, runsOf_sep hch]
    | false => rw [dropWhile_cons_of_neg (by rw [hch]; decide)]

theorem runsOf_word (hne : word ≠ []) (hword : ∀ ch ∈ word, p ch = false)
    (hrest : ∀ ch ∈ rest.head?, p ch = true) :
    runsOf p (word ++ rest) = word :: runsOf p (rest.dropWhile p) := by
  rw [runsOf_dropWhile]
  cases rest with
  | nil =>
    rw [append_nil, runsOf, splitOnP_eq_singleton hword, filter_cons_of_pos (by simp [hne])]
    rfl
  | cons ch rest =>
    have hch : p ch = true := hrest ch rfl
    rw [runsOf_sep hch, runsOf, splitOnP_append_cons_of_forall_mem hword ch hch,
      filter_cons_of_pos (by simp [hne])]
    rfl

theorem runsOf_split {text : Bytes} (hne : text ≠ []) (hstart : ∀ ch ∈ text.head?, p ch = false) :
    runsOf p text = text.takeWhile (fun ch => !p ch) ::
        runsOf p ((text.dropWhile fun ch => !p ch).dropWhile p) ∧
      ((text.dropWhile fun ch => !p ch).dropWhile p).length < text.length := by
  obtain ⟨ch, tail, rfl⟩ := exists_cons_of_ne_nil hne
  have hch : p ch = false := hstart ch rfl
  have hcut := takeWhile_append_dropWhile (p := fun ch => !p ch) (l := ch :: tail)
  have hfirst : (ch :: tail).takeWhile (fun ch => !p ch) = ch :: tail.takeWhile fun ch => !p ch :=
    takeWhile_cons_of_pos (by rw [hch]; rfl)
  have hword : ∀ c ∈ (ch :: tail).takeWhile (fun ch => !p ch), p c = false := by
    intro c hc
    have hnot := mem_takeWhile_imp hc
    simpa using hnot
  have hbreaks : ∀ c ∈ ((ch :: tail).dropWhile fun ch => !p ch).head?, p c = true := by
    intro c hc
    simpa using head_dropWhile (fun ch => !p ch) _ c hc
  have hwords := runsOf_word (by rw [hfirst]; simp) hword hbreaks
  rw [hcut] at hwords
  refine ⟨hwords, ?_⟩
  have hle := (dropWhile_sublist p (l := (ch :: tail).dropWhile fun ch => !p ch)).length_le
  have hlen := congrArg List.length hcut
  rw [hfirst, length_append, length_cons] at hlen
  omega

theorem wordsOf_split {text : Bytes} (hne : text ≠ []) (hstart : Unindented text) :
    wordsOf text = (sliceSplitset text).1 :: wordsOf (sliceSplitset text).2 ∧
      (sliceSplitset text).2.length < text.length :=
  runsOf_split hne hstart

theorem flatten_runsOf (p : UInt8 → Bool) (text : Bytes) :
    (runsOf p text).flatten = text.filter fun ch => !p ch := by
  rw [runsOf, flatten_filter_ne_nil]
  induction text with
  | nil => rfl
  | cons ch text ih =>
    rw [splitOnP_cons_eq_if_modifyHead]
    obtain ⟨fst, runs, hruns⟩ := exists_cons_of_ne_nil (splitOnP_ne_nil p _)
    rw [hruns] at ih ⊢
    cases hch : p ch with
    | true => simpa [hch] using ih
    | false => simpa [hch] using ih

theorem splitTokens_eq (set : Bytes) : ∀ (fuel : Nat) (src : Bytes), src.length ≤ fuel →
    splitTokens set fuel src = some ((if src.head?.any set.contains then [[]] else []) ++
      runsOf (fun ch => set.contains ch) src) := by
  intro fuel
  induction fuel with
  | zero =>
    intro src hlen
    rw [length_eq_zero_iff.1 (Nat.le_zero.1 hlen)]
    rfl
  | succ fuel ih =>
    intro src hlen
    cases src with
    | nil => rfl
    | cons ch src =>
      -- the rest of a split starts with a byte of a token, so no empty token is behind the first
      have hnext : ∀ text : Bytes,
          (text.dropWhile fun ch => set.contains ch).head?.any set.contains = false := by
        intro text
        have hhead := head_dropWhile (fun ch => set.contains ch) text
        cases hd : (text.dropWhile fun ch => set.contains ch).head? with
        | none => rfl
        | some c => exact hhead c hd
      rw [splitTokens]
      cases hch : set.contains ch with
      | true =>
        have hshort := (dropWhile_sublist (fun ch => set.contains ch) (l := src)).length_le
        have hsplit : splitset set (ch :: src) = ([], src.dropWhile fun ch => set.contains ch) := by
          rw [splitset, takeWhile_cons_of_neg (by rw [hch]; decide),
            dropWhile_cons_of_neg (by rw [hch]; decide), dropWhile_cons_of_pos hch]
        rw [length_cons] at hlen
        rw [hsplit]
        dsimp only
        rw [ih _ (by omega), hnext, runsOf_dropWhile, runsOf_sep hch, List.head?_cons,
          Option.any_some, hch]
        rfl
      | false =>
        obtain ⟨hruns, hshort⟩ := runsOf_split (p := fun ch => set.contains ch)
          (cons_ne_nil ch src) (fun c hc => by cases hc; exact hch)
        rw [splitset]
        dsimp only
        rw [ih _ (by omega), hnext, hruns, List.head?_cons, Option.any_some, hch]
        rfl

/-- Splitting a string at any set of delimiters ends after as many rounds as it has bytes. The
tokens are the runs of other bytes, behind an empty one if a delimiter is in front, and together
they have every other byte once. -/
theorem tokens_complete (set src : Bytes) :
    splitTokens set src.length src = some ((if src.head?.any set.contains then [[]] else []) ++
        runsOf (fun ch => set.contains ch) src) ∧
      (runsOf (fun ch => set.contains ch) src).flatten = src.filter fun ch => !set.contains ch :=
  ⟨splitTokens_eq set _ _ le_rfl, flatten_runsOf _ src⟩

end CDbK8s.Resolv
