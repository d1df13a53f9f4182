import CDbK8s.Inet.Ip6Groups

/-!
# A text of hex digits and colons

The colons of a text cut it into fields. `loop_fields` says that the loop refines `readFields`,
character by character; `decode_refused`, `decode_whole` and `decode_gapped` say what the decoder
returns.
-/

namespace CDbK8s.Inet

open Base List

variable {f : Bytes}
variable {gs : List Bytes}

/-! ## Fields -/

/-- Fields joined by colons. -/
def joined (fs : List Bytes) : Bytes := [58].intercalate fs

theorem joined_one (f : Bytes) : joined [f] = f := intercalate_singleton

theorem joined_cons_cons (f g : Bytes) (fs : List Bytes) :
    joined (f :: g :: fs) = f ++ 58 :: joined (g :: fs) := by
  rfl

theorem joined_append {fs : List Bytes} (hfs : fs ≠ []) (hgs : gs ≠ []) :
    joined (fs ++ gs) = joined fs ++ 58 :: joined gs := by
  induction fs with
  | nil => exact absurd rfl hfs
  | cons f fs ih =>
    cases fs with
    | nil =>
      cases gs with
      | nil => exact absurd rfl hgs
      | cons g gs => rw [singleton_append, joined_cons_cons, joined_one]
    | cons _ fs =>
      rw [cons_append, cons_append, joined_cons_cons, ← cons_append,
        ih (cons_ne_nil _ _), joined_cons_cons, append_assoc, cons_append]

def HexOnly (f : Bytes) : Prop := ∀ ch ∈ f, isHex ch = true

theorem exists_fields {str : Bytes} (hstr : ∀ ch ∈ str, isHex ch = true ∨ ch = 58) :
    ∃ fs, fs ≠ [] ∧ (∀ f ∈ fs, HexOnly f) ∧ str = joined fs := by
  induction str with
  | nil => exact ⟨[[]], cons_ne_nil _ _, by simp [HexOnly], (joined_one []).symm⟩
  | cons ch _ ih =>
    obtain ⟨fs, hne, hfs, hjoin⟩ := ih fun ch' hch' => hstr ch' (.tail _ hch')
    obtain ⟨f, fs, rfl⟩ := exists_cons_of_ne_nil hne
    rcases hstr ch mem_cons_self with hhex | rfl
    · -- the digit goes in front of the first field
      refine ⟨(ch :: f) :: fs, cons_ne_nil _ _, ?_, ?_⟩
      · intro f' hf'
        rcases mem_cons.1 hf' with rfl | hf'
        · intro ch' hch'
          rcases mem_cons.1 hch' with rfl | hch'
          · exact hhex
          · exact hfs f mem_cons_self ch' hch'
        · exact hfs f' (.tail _ hf')
      · rw [hjoin]
        cases fs with
        | nil => rw [joined_one, joined_one]
        | cons g fs => rw [joined_cons_cons, joined_cons_cons, cons_append]
    · refine ⟨[] :: f :: fs, cons_ne_nil _ _, ?_, ?_⟩
      · intro f' hf'
        rcases mem_cons.1 hf' with rfl | hf'
        · exact forall_mem_nil _
        · exact hfs f' hf'
      · simp [hjoin, joined_cons_cons]

theorem joined_inj {fs : List Bytes} (hfs : ∀ f ∈ fs, HexOnly f) (hgs : ∀ g ∈ gs, HexOnly g)
    (hfsne : fs ≠ []) (hgsne : gs ≠ []) (h : joined fs = joined gs) : fs = gs := by
  have hsplit : ∀ {xs : List Bytes}, (∀ x ∈ xs, HexOnly x) → xs ≠ [] →
      (joined xs).splitOn 58 = xs := by
    intro xs hxs hne
    refine splitOn_intercalate 58 (fun x hx hmem => ?_) hne
    exact (isHex_facts 58 (hxs x hx 58 hmem)).2.2 rfl
  rw [← hsplit hfs hfsne, h, hsplit hgs hgsne]

/-! ## Reading by fields -/

/-- The values read, how many of them are in front of the gap, and `num_seg`. -/
structure Read where
  vals : List Nat
  gap : Option Nat
  numSeg : Nat

/-- The group that a field writes; an empty field writes none. -/
def fieldVals (f : Bytes) : List Nat := if f = [] then [] else [hexValue f]

/-- What `ip6_str_decode` makes of the fields of a text. An empty field that is not the last
is the gap; the two colons around it are read as one. -/
def readFields : List Bytes → Read → Option Read
  | [], r => some r
  | [f], r =>
    if 4 < f.length then none
    else some { r with
      vals := r.vals ++ fieldVals f
      numSeg := if f = [] then r.numSeg else r.numSeg + 1 }
  | f :: g :: rest, r =>
    if 4 < f.length ∨ f ≠ [] ∧ 7 ≤ r.numSeg then none
    else if g = [] ∧ rest ≠ [] then
      if r.gap.isSome then none
      else
        readFields rest {
          vals := r.vals ++ fieldVals f
          gap := some (r.vals ++ fieldVals f).length
          numSeg := r.numSeg + 1 }
    else
      readFields (g :: rest) {r with vals := r.vals ++ fieldVals f, numSeg := r.numSeg + 1 }

theorem encWords_append (xs ys : List Nat) : encWords (xs ++ ys) = encWords xs ++ encWords ys :=
  flatMap_append

theorem length_encWords (vals : List Nat) : (encWords vals).length = 2 * vals.length := by
  induction vals with
  | nil => rfl
  | cons val vals ih =>
    have hcons : encWords (val :: vals) = encU16 val ++ encWords vals := rfl
    rw [hcons, length_append, ih]
    show 2 + 2 * vals.length = 2 * (vals.length + 1)
    omega

/-- The decoder at the start of a field, after what was read. -/
def Starts (dst : Bytes) (s : Ip6State) (pos : Nat) (r : Read) : Prop :=
  Clean dst s pos (encWords r.vals) (r.gap.map (2 * ·)) r.numSeg

/-- The loop behind the last field: the value of one that is not empty is still to be
written. -/
def Ends (dst : Bytes) (s : Ip6State) (pos : Nat) (r : Read) : Prop :=
  Starts dst s pos r ∨ ∃ vals val numSeg, r.vals = vals ++ [val] ∧ r.numSeg = numSeg + 1 ∧
      Pending dst s pos (encWords vals) (r.gap.map (2 * ·)) numSeg val

theorem starts_start (dst : Bytes) : Starts dst ⟨0, 0, dst, 0, none, 0, 0, 0⟩ 0 ⟨[], none, 0⟩ :=
  ⟨rfl, rfl, rfl, rfl, rfl, rfl, rfl⟩

section
variable (str : Bytes) (under : UInt8) {dst : Bytes} {s : Ip6State} {pos : Nat} {r : Read}

section
variable (h : Starts dst s pos r) (hf : HexOnly f)
include h hf

section
variable (hok : ¬ (4 < f.length ∨ f ≠ [] ∧ 7 ≤ r.numSeg))
include hok

theorem loop_field : ∃ s', Starts dst s' (pos + f.length + 1)
        { r with vals := r.vals ++ fieldVals f, numSeg := r.numSeg + 1 } ∧
      ∀ rest, (rest.head? == some 58) = false →
        ip6Loop str under (f ++ 58 :: rest) s = ip6Loop str under rest s' := by
  by_cases hnil : f = []
  · subst hnil
    obtain ⟨s', hclean, hloop⟩ := loop_colon_first str _ h
    refine ⟨s', ?_, hloop⟩
    rw [fieldVals, if_pos rfl, append_nil]
    exact hclean
  · have hseg : r.numSeg < 7 := by
      by_contra hge
      exact hok (.inr ⟨hnil, by omega⟩)
    obtain ⟨s1, hpend, hgroup⟩ := loop_group str _ h hf hnil (by omega)
    obtain ⟨s2, hclean, hcolon⟩ := loop_colon str _ hpend hseg
    refine ⟨s2, ?_, fun rest hpeek => by rw [hgroup, hcolon _ hpeek]⟩
    rw [Starts, fieldVals, if_neg hnil, encWords_append]
    exact hclean

theorem loop_field_gap (hgap : r.gap = none) : ∃ s', Starts dst s' (pos + f.length + 2)
        { vals := r.vals ++ fieldVals f, gap := some (r.vals ++ fieldVals f).length
          numSeg := r.numSeg + 1 } ∧
      ∀ rest, ip6Loop str under (f ++ 58 :: 58 :: rest) s = ip6Loop str under rest s' := by
  rw [Starts, hgap] at h
  by_cases hnil : f = []
  · subst hnil
    obtain ⟨s', hclean, hloop⟩ := loop_gap_first str _ h
    refine ⟨s', ?_, hloop⟩
    rw [length_encWords] at hclean
    rw [fieldVals, if_pos rfl, append_nil]
    exact hclean
  · have hseg : r.numSeg < 7 := by
      by_contra hge
      exact hok (.inr ⟨hnil, by omega⟩)
    obtain ⟨s1, hpend, hgroup⟩ := loop_group str _ h hf hnil (by omega)
    obtain ⟨s2, hclean, hcolons⟩ := loop_gap str _ hpend hseg
    refine ⟨s2, ?_, fun _ => by rw [hgroup, hcolons]⟩
    have hlen : 2 * (r.vals ++ [hexValue f]).length = (encWords r.vals).length + 2 := by
      simp [length_encWords]
      omega
    rw [Starts, fieldVals, if_neg hnil, encWords_append, Option.map_some, hlen]
    exact hclean

omit hok in
theorem loop_field_refused (hbad : 4 < f.length ∨ f ≠ [] ∧ 7 ≤ r.numSeg) (rest : Bytes) :
    ∃ d, ip6Loop str under (f ++ 58 :: rest) s = .inl (0, d) := by
  by_cases hlong : 4 < f.length
  · exact loop_long str _ h hf hlong _
  · obtain ⟨hne, hseg⟩ := hbad.resolve_left hlong
    obtain ⟨s1, hpend, hgroup⟩ := loop_group str _ h hf hne (by omega)
    rw [hgroup]
    exact loop_colon_full str _ hpend hseg _

theorem loop_field_twice (hgap : r.gap.isSome = true) (rest : Bytes) :
    ∃ d, ip6Loop str under (f ++ 58 :: 58 :: rest) s = .inl (0, d) := by
  obtain ⟨z, hz⟩ := Option.isSome_iff_exists.1 hgap
  rw [Starts, hz] at h
  by_cases hnil : f = []
  · subst hnil
    exact loop_gap_twice str _ h.zeroPtr_eq _
  · obtain ⟨s1, hpend, hgroup⟩ := loop_group str _ h hf hnil (by omega)
    rw [hgroup]
    exact loop_gap_twice str _ hpend.zeroPtr_eq _

end

theorem loop_field_last (hok : ¬ 4 < f.length) : ∃ s', ip6Loop str under f s = .inr s' ∧
      Ends dst s' (pos + f.length) { r with
        vals := r.vals ++ fieldVals f
        numSeg := if f = [] then r.numSeg else r.numSeg + 1 } := by
  by_cases hnil : f = []
  · subst hnil
    refine ⟨s, rfl, .inl ?_⟩
    rw [fieldVals, if_pos rfl, append_nil]
    exact h
  · obtain ⟨s1, hpend, hgroup⟩ := loop_group str _ h hf hnil (by omega)
    have hend := hgroup []
    rw [append_nil] at hend
    refine ⟨s1, hend, .inr ⟨r.vals, hexValue f, r.numSeg, ?_, ?_, hpend⟩⟩
    · rw [fieldVals, if_neg hnil]
    · rw [if_neg hnil]

end

theorem peek_joined {g : Bytes} (hg : HexOnly g) (rest : List Bytes) (hgap : ¬ (g = [] ∧ rest ≠ [])) :
    ((joined (g :: rest)).head? == some 58) = false := by
  cases g with
  | nil =>
    have hrest : rest = [] := not_not.1 fun hne => hgap ⟨rfl, hne⟩
    subst hrest
    rfl
  | cons ch g =>
    have hch := (isHex_facts ch (hg ch mem_cons_self)).2.2
    cases rest with
    | nil =>
      rw [joined_one]
      simpa using hch
    | cons f rest =>
      rw [joined_cons_cons]
      simpa using hch

theorem loop_fields (fs : List Bytes) (hfs : ∀ f ∈ fs, HexOnly f) (h : Starts dst s pos r) :
    match readFields fs r with
    | none => ∃ d, ip6Loop str under (joined fs) s = .inl (0, d)
    | some r' => ∃ s', ip6Loop str under (joined fs) s = .inr s' ∧
        Ends dst s' (pos + (joined fs).length) r' := by
  induction fs, r using readFields.induct generalizing s pos with
  | case1 r => exact ⟨s, rfl, .inl h⟩
  | case2 f r hlong =>
    rw [readFields, if_pos hlong, joined_one]
    have hlast := loop_long str under h (hfs f mem_cons_self) hlong []
    rw [append_nil] at hlast
    exact hlast
  | case3 f r hshort =>
    rw [readFields, if_neg hshort, joined_one]
    exact loop_field_last str _ h (hfs f mem_cons_self) hshort
  | case4 f g rest r hbad =>
    rw [readFields, if_pos hbad]
    exact loop_field_refused str _ h (hfs f mem_cons_self) hbad _
  | case5 f g rest r hok hpair hgap =>
    obtain ⟨rfl, hrest⟩ := hpair
    obtain ⟨f', rest, rfl⟩ := exists_cons_of_ne_nil hrest
    rw [readFields, if_neg hok, if_pos hgap]
    exact loop_field_twice str _ h (hfs f mem_cons_self) hok hgap _
  | case6 f g rest r hok hpair hgap ih =>
    obtain ⟨rfl, hrest⟩ := hpair
    obtain ⟨f', rest, rfl⟩ := exists_cons_of_ne_nil hrest
    obtain ⟨s', hstart, hloop⟩ := loop_field_gap str _ h (hfs f mem_cons_self) hok
      (Option.not_isSome_iff_eq_none.1 hgap)
    have hnext := ih (fun x hx => hfs x (.tail _ (.tail _ hx))) hstart
    have hlen : pos + (f ++ 58 :: 58 :: joined (f' :: rest)).length =
        pos + f.length + 2 + (joined (f' :: rest)).length := by
      simp
      omega
    rw [readFields, if_neg hok, if_neg hgap, joined_cons_cons,
      joined_cons_cons, nil_append, hloop, hlen]
    exact hnext
  | case7 f g rest r hok hpair ih =>
    have hmem : ∀ x ∈ g :: rest, HexOnly x := fun x hx => hfs x (.tail _ hx)
    obtain ⟨s', hstart, hloop⟩ := loop_field str _ h (hfs f mem_cons_self) hok
    have hnext := ih hmem hstart
    have hlen : pos + (f ++ 58 :: joined (g :: rest)).length =
        pos + f.length + 1 + (joined (g :: rest)).length := by
      simp
      omega
    rw [readFields, if_neg hok, if_neg hpair, joined_cons_cons,
      hloop _ (peek_joined (hmem g mem_cons_self) _ hpair), hlen]
    exact hnext

end

/-! ## What the decoder returns -/

section
variable {dst : Bytes} {s : Ip6State} {pos : Nat} {r : Read}
variable (h : Ends dst s pos r)
include h

theorem Ends.finish_eq : ∃ s', Starts dst s' pos r ∧ ip6Finish s = ip6Finish s' := by
  rcases h with hstart | ⟨vals, val, numSeg, hvals, hseg, hpend⟩
  · exact ⟨s, hstart, rfl⟩
  · refine ⟨({ s.putSeg with strPtr := pos, zeroPtr := r.gap.map (2 * ·) } : Ip6State).nextSeg,
      ?_, ?_⟩
    · rw [Starts, hvals, hseg, encWords_append]
      exact hpend.write pos _
    · unfold ip6Finish
      rw [if_pos hpend.numHex.ne', ← hpend.zeroPtr_eq, ← hpend.strPtr]
      rfl

theorem Ends.finish_whole (hgap : r.gap = none) :
    ip6Finish s = (if r.numSeg = 8 then pos % 2 ^ 64 else 0,
      encWords r.vals ++ dst.drop (2 * r.vals.length)) := by
  obtain ⟨s', hstart, hfinish⟩ := h.finish_eq
  have hptr : (s'.strPtr % 2 ^ 64).toNat = pos % 2 ^ 64 := by
    rw [hstart.strPtr]
    omega
  have hdst := hstart.dst_eq
  rw [length_encWords] at hdst
  have hzero : s'.zeroPtr = none := by rw [hstart.zeroPtr_eq, hgap, Option.map_none]
  rw [hfinish, ip6Finish]
  rw [if_neg (fun hne => hne hstart.numHex), hzero, hstart.numSeg_eq]
  by_cases height : r.numSeg = 8
  · rw [if_neg (fun hne => hne height), if_pos height, hptr, hdst]
  · simp [if_neg height, hdst]

theorem Ends.finish_gapped {z : Nat} (hgap : r.gap = some z) (hz : z ≤ r.vals.length)
    (hlen : r.vals.length ≤ 8) (hdst : dst.length = 16) (hpos : pos < 2 ^ 64) :
    ip6Finish s = (pos, encWords (r.vals.take z) ++
      replicate (16 - 2 * r.vals.length) 0 ++ encWords (r.vals.drop z)) := by
  obtain ⟨s', hstart, hfinish⟩ := h.finish_eq
  rw [Starts, hgap, Option.map_some] at hstart
  have hwords := length_encWords r.vals
  have hhalf : encWords (r.vals.take z) ++ encWords (r.vals.drop z) = encWords r.vals := by
    simp [← encWords_append]
  have hfront : (encWords (r.vals.take z)).length = 2 * z := by
    simp [length_encWords, Nat.min_eq_left hz]
  rw [hfinish, finish_gap_last hstart (by omega) (by omega) hdst hpos, hwords, ← hhalf, ← hfront,
    take_left, drop_left]

end

section
variable {fs : List Bytes} (hfs : ∀ f ∈ fs, HexOnly f) (under : UInt8) (dst : Bytes)
include hfs

theorem decode_refused (hread : readFields fs ⟨[], none, 0⟩ = none) :
    (ip6StrDecode (joined fs) under dst).1 = 0 := by
  have hloop := loop_fields (joined fs) under fs hfs (starts_start dst)
  rw [hread] at hloop
  obtain ⟨d, hloop⟩ := hloop
  rw [ip6StrDecode, hloop]

theorem decode_whole {r : Read} (hread : readFields fs ⟨[], none, 0⟩ = some r)
    (hgap : r.gap = none) :
    ip6StrDecode (joined fs) under dst = (if r.numSeg = 8 then (joined fs).length % 2 ^ 64 else 0,
        encWords r.vals ++ dst.drop (2 * r.vals.length)) := by
  have hloop := loop_fields (joined fs) under fs hfs (starts_start dst)
  rw [hread, zero_add] at hloop
  obtain ⟨s', hloop, hends⟩ := hloop
  rw [ip6StrDecode, hloop]
  exact hends.finish_whole hgap

theorem decode_gapped {r : Read} (hread : readFields fs ⟨[], none, 0⟩ = some r) {z : Nat}
    (hgap : r.gap = some z) (hz : z ≤ r.vals.length) (hlen : r.vals.length ≤ 8)
    (hdst : dst.length = 16) (hsmall : (joined fs).length < 2 ^ 64) :
    ip6StrDecode (joined fs) under dst = ((joined fs).length, encWords (r.vals.take z) ++
        replicate (16 - 2 * r.vals.length) 0 ++ encWords (r.vals.drop z)) := by
  have hloop := loop_fields (joined fs) under fs hfs (starts_start dst)
  rw [hread, zero_add] at hloop
  obtain ⟨s', hloop, hends⟩ := hloop
  rw [ip6StrDecode, hloop]
  exact hends.finish_gapped hgap hz hlen hdst hsmall

end

/-! ## Groups -/

/-- One to four hexadecimal digits. -/
def IsGroup (g : Bytes) : Prop := HexOnly g ∧ g ≠ [] ∧ g.length ≤ 4

/-- An empty field, where a colon leads or ends. -/
def edge (b : Bool) : List Bytes := if b then [[]] else []

theorem length_joined_le (hgs : ∀ g ∈ gs, IsGroup g) : (joined gs).length ≤ 5 * gs.length := by
  induction gs with
  | nil => exact zero_le
  | cons g gs ih =>
    have hg := (hgs g mem_cons_self).2.2
    have hrest := ih fun g' hg' => hgs g' (.tail _ hg')
    cases gs with
    | nil =>
      simp [joined_one]
      omega
    | cons g' gs =>
      rw [joined_cons_cons, length_append, length_cons, @List.length_cons _ g]
      omega

theorem IsGroup.fieldVals_eq {g : Bytes} (hg : IsGroup g) : fieldVals g = [hexValue g] :=
  if_neg hg.2.1

theorem IsGroup.fits {g : Bytes} (hg : IsGroup g) {numSeg : Nat} (hlt : numSeg < 7) :
    ¬ (4 < g.length ∨ g ≠ [] ∧ 7 ≤ numSeg) := by
  rintro (hlong | ⟨-, hseg⟩)
  · exact not_lt.2 hg.2.2 hlong
  · omega

/-- Groups, the last of them with a colon behind it if `trail`, are read to their values. -/
theorem read_groups (hgs : ∀ g ∈ gs, IsGroup g) (hne : gs ≠ []) (trail : Bool) (r : Read)
    (hfit : 2 ≤ gs.length ∨ trail = true → r.numSeg + gs.length + trail.toNat ≤ 8) :
    readFields (gs ++ edge trail) r = some { r with
      vals := r.vals ++ gs.map hexValue, numSeg := r.numSeg + gs.length } := by
  induction gs generalizing r with
  | nil => exact absurd rfl hne
  | cons g gs ih =>
    have hg := hgs g mem_cons_self
    have hshort : ¬ 4 < g.length := not_lt.2 hg.2.2
    rw [length_cons] at hfit
    cases gs with
    | nil =>
      cases trail with
      | false =>
        rw [edge, if_neg Bool.false_ne_true, append_nil, readFields, if_neg hshort,
          if_neg hg.2.1, hg.fieldVals_eq]
        rfl
      | true =>
        have hone := hfit (.inr rfl)
        rw [Bool.toNat_true] at hone
        have hok := hg.fits (show r.numSeg < 7 by omega)
        rw [edge, if_pos rfl, singleton_append, readFields, if_neg hok,
          if_neg (fun hpair => hpair.2 rfl), readFields,
          hg.fieldVals_eq, fieldVals, if_pos rfl, append_nil]
        rfl
    | cons g' gs =>
      have hone := hfit (.inl (by rw [length_cons]; omega))
      rw [length_cons] at hone
      have hok := hg.fits (show r.numSeg < 7 by omega)
      have hg' := hgs g' (.tail _ mem_cons_self)
      have hnext := ih (fun x hx => hgs x (.tail _ hx)) (cons_ne_nil _ _)
        { r with vals := r.vals ++ fieldVals g, numSeg := r.numSeg + 1 }
        (fun _ => by dsimp only; omega)
      rw [cons_append, cons_append, readFields, if_neg hok,
        if_neg (fun hpair => hg'.2.1 hpair.1), ← cons_append, hnext, hg.fieldVals_eq]
      rw [append_assoc, add_assoc _ 1, add_comm 1]
      rfl

theorem read_to_gap (hgs : ∀ g ∈ gs, IsGroup g) (hne : gs ≠ []) {r : Read} (hgap : r.gap = none)
    (hfit : r.numSeg + gs.length ≤ 7) {rest : List Bytes} (hrest : rest ≠ []) :
    readFields (gs ++ [] :: rest) r = readFields rest {
      vals := r.vals ++ gs.map hexValue, gap := some (r.vals.length + gs.length)
      numSeg := r.numSeg + gs.length } := by
  induction gs generalizing r with
  | nil => exact absurd rfl hne
  | cons g gs ih =>
    have hg := hgs g mem_cons_self
    rw [length_cons] at hfit
    have hok := hg.fits (show r.numSeg < 7 by omega)
    cases gs with
    | nil =>
      rw [singleton_append, readFields, if_neg hok, if_pos ⟨rfl, hrest⟩,
        if_neg (by rw [hgap]; decide), hg.fieldVals_eq, length_append]
      rfl
    | cons g' gs =>
      have hg' := hgs g' (.tail _ mem_cons_self)
      have hnext := @ih (fun x hx => hgs x (.tail _ hx)) (cons_ne_nil _ _)
        { r with vals := r.vals ++ fieldVals g, numSeg := r.numSeg + 1 } hgap
        (by dsimp only; omega)
      rw [cons_append, cons_append, readFields, if_neg hok,
        if_neg (fun hpair => hg'.2.1 hpair.1), ← cons_append, hnext, hg.fieldVals_eq]
      rw [append_assoc, length_append, length_singleton, add_assoc r.numSeg 1,
        add_assoc _ 1, add_comm 1]
      rfl

/-! ## Texts with a gap -/

def colonIf (b : Bool) : Bytes := if b then [58] else []

/-- The texts with two colons in one place that `ip6_str_decode` takes. It also takes a
colon in front of the first group (`lead`), a third colon in the gap (`extra`) and a colon
behind the last group (`trail`). -/
structure Taken (str : Bytes) (lead : Bool) (front : List Bytes) (extra : Bool)
    (back : List Bytes) (trail : Bool) : Prop where
  front_groups : ∀ g ∈ front, IsGroup g
  back_groups : ∀ g ∈ back, IsGroup g
  lead_front : lead = true → front ≠ []
  trail_back : trail = true → back ≠ []
  text : str = colonIf lead ++ joined front ++ 58 :: 58 ::
    (colonIf extra ++ joined back ++ colonIf trail)
  front_fits : lead.toNat + front.length ≤ 7
  back_fits : 2 ≤ back.length ∨ trail = true →
    max 1 (lead.toNat + front.length) + extra.toNat + back.length + trail.toNat ≤ 8

section
variable {str : Bytes} {lead : Bool} {front : List Bytes} {extra : Bool} {back : List Bytes}
variable {trail : Bool}

section
variable (h : Taken str lead front extra back trail)
include h

theorem Taken.before : ∃ before, before ≠ [] ∧ (∀ f ∈ before, HexOnly f) ∧
      joined before = colonIf lead ++ joined front ∧
      ∀ after, after ≠ [] → readFields (before ++ [] :: after) ⟨[], none, 0⟩ = readFields after
          ⟨front.map hexValue, some front.length, max 1 (lead.toNat + front.length)⟩ := by
  have hfits := h.front_fits
  by_cases hnil : front = []
  · have hlead : lead = false := by
      by_contra htrue
      exact h.lead_front (Bool.not_eq_false _ ▸ htrue) hnil
    subst hnil hlead
    refine ⟨[[]], cons_ne_nil _ _, by simp [HexOnly], by rw [joined_one]; rfl, ?_⟩
    intro after hafter
    rw [singleton_append, readFields, if_neg (by decide), if_pos ⟨rfl, hafter⟩]
    rfl
  · have hpos : 0 < front.length := length_pos_iff.2 hnil
    cases lead with
    | false =>
      refine ⟨front, hnil, fun f hf => (h.front_groups f hf).1, rfl, fun after hafter => ?_⟩
      rw [Bool.toNat_false, zero_add] at hfits ⊢
      rw [read_to_gap h.front_groups hnil rfl (by dsimp only; omega) hafter, Nat.max_eq_right hpos]
      simp
    | true =>
      refine ⟨[] :: front, cons_ne_nil _ _, ?_, ?_, fun after hafter => ?_⟩
      · intro f hf
        rcases mem_cons.1 hf with rfl | hf
        · exact forall_mem_nil _
        · exact (h.front_groups f hf).1
      · obtain ⟨g, gs, rfl⟩ := exists_cons_of_ne_nil hnil
        rfl
      · have hgap := read_to_gap h.front_groups hnil (r := ⟨[], none, 1⟩) rfl hfits hafter
        obtain ⟨g, gs, rfl⟩ := exists_cons_of_ne_nil hnil
        have hg := h.front_groups g mem_cons_self
        rw [cons_append, cons_append, readFields, if_neg (by decide),
          if_neg (fun hpair => hg.2.1 hpair.1)]
        dsimp only [length_nil] at hgap ⊢
        rw [zero_add] at hgap
        exact hgap

theorem Taken.after : ∃ after, after ≠ [] ∧ (∀ f ∈ after, HexOnly f) ∧
      joined after = colonIf extra ++ joined back ++ colonIf trail ∧
      ∀ vals gap, ∃ n, readFields after ⟨vals, gap, max 1 (lead.toNat + front.length)⟩ =
        some ⟨vals ++ back.map hexValue, gap, n⟩ := by
  have hfits := h.back_fits
  by_cases hnil : back = []
  · have htrail : trail = false := by
      by_contra htrue
      exact h.trail_back (Bool.not_eq_false _ ▸ htrue) hnil
    subst hnil htrail
    cases extra with
    | false =>
      exact ⟨[[]], cons_ne_nil _ _, by simp [HexOnly], joined_one _, fun vals gap => ⟨_, rfl⟩⟩
    | true =>
      exact ⟨[[], []], cons_ne_nil _ _, by simp [HexOnly], joined_cons_cons _ _ _,
        fun vals gap => ⟨max 1 (lead.toNat + front.length) + 1, by simp [readFields, fieldVals]⟩⟩
  · have hhex : ∀ f ∈ back ++ edge trail, HexOnly f := by
      intro f hf
      rcases mem_append.1 hf with hf | hf
      · exact (h.back_groups f hf).1
      · cases trail with
        | false => exact absurd hf not_mem_nil
        | true => rw [mem_singleton.1 hf]; exact forall_mem_nil _
    have hne : back ++ edge trail ≠ [] := append_ne_nil_of_left_ne_nil hnil _
    have htext : joined (back ++ edge trail) = joined back ++ colonIf trail := by
      cases trail with
      | false => rw [edge, if_neg Bool.false_ne_true, append_nil]; exact (append_nil _).symm
      | true => rw [edge, if_pos rfl, joined_append hnil (cons_ne_nil _ _)]; rfl
    cases extra with
    | false =>
      refine ⟨back ++ edge trail, hne, hhex, htext,
        fun vals gap => ⟨max 1 (lead.toNat + front.length) + back.length, ?_⟩⟩
      exact read_groups h.back_groups hnil _ _ fun hmany => hfits hmany
    | true =>
      refine ⟨[] :: (back ++ edge trail), cons_ne_nil _ _, ?_, ?_,
        fun vals gap => ⟨max 1 (lead.toNat + front.length) + 1 + back.length, ?_⟩⟩
      · intro f hf
        rcases mem_cons.1 hf with rfl | hf
        · exact forall_mem_nil _
        · exact hhex f hf
      · have hcolon := joined_append (cons_ne_nil ([] : Bytes) []) hne
        rw [htext] at hcolon
        exact hcolon
      · have hread := read_groups h.back_groups hnil trail
          ⟨vals, gap, max 1 _ + 1⟩ fun hmany => hfits hmany
        obtain ⟨g, gs, rfl⟩ := exists_cons_of_ne_nil hnil
        have hg := h.back_groups g mem_cons_self
        rw [cons_append, readFields, if_neg (by simp),
          if_neg (fun hpair => hg.2.1 hpair.1), fieldVals, if_pos rfl,
          append_nil]
        exact hread

theorem Taken.read :
    ∃ fs n, fs ≠ [] ∧ (∀ f ∈ fs, HexOnly f) ∧ str = joined fs ∧ readFields fs ⟨[], none, 0⟩ =
        some ⟨front.map hexValue ++ back.map hexValue, some front.length, n⟩ := by
  obtain ⟨before, hbne, hbhex, hbtext, hbread⟩ := h.before
  obtain ⟨after, hane, hahex, hatext, haread⟩ := h.after
  obtain ⟨n, hread⟩ := haread _ _
  refine ⟨before ++ [] :: after, n, append_ne_nil_of_left_ne_nil hbne _, ?_, ?_, ?_⟩
  · intro f hf
    rcases mem_append.1 hf with hf | hf
    · exact hbhex f hf
    · rcases mem_cons.1 hf with rfl | hf
      · exact forall_mem_nil _
      · exact hahex f hf
  · obtain ⟨f, fs, rfl⟩ := exists_cons_of_ne_nil hane
    rw [joined_append hbne (cons_ne_nil _ _), joined_cons_cons, hbtext, hatext, h.text]
    rfl
  · rw [hbread after hane, hread]

theorem Taken.count_le : front.length + back.length ≤ 8 := by
  have hfront := h.front_fits
  by_cases hmany : 2 ≤ back.length
  · have hback := h.back_fits (.inl hmany)
    omega
  · omega

end

theorem length_colonIf_le (b : Bool) : (colonIf b).length ≤ 1 := by
  cases b <;> decide

variable (h : Taken str lead front extra back trail)
include h

theorem Taken.length_le : str.length ≤ 45 := by
  have hcount := h.count_le
  have hfront := length_joined_le h.front_groups
  have hback := length_joined_le h.back_groups
  have hlead := length_colonIf_le lead
  have hextra := length_colonIf_le extra
  have htrail := length_colonIf_le trail
  rw [h.text]
  simp
  omega

theorem Taken.decode (under : UInt8) {dst : Bytes} (hdst : dst.length = 16) :
    ip6StrDecode str under dst = (str.length, encWords (front.map hexValue) ++
      replicate (16 - 2 * (front.length + back.length)) 0 ++ encWords (back.map hexValue)) := by
  have hlen := h.length_le
  have hcount := h.count_le
  obtain ⟨fs, n, -, hhex, hstr, hread⟩ := h.read
  have hvals : (front.map hexValue ++ back.map hexValue).length = front.length + back.length := by
    simp
  rw [hstr] at hlen ⊢
  rw [decode_gapped hhex _ dst hread rfl (by rw [hvals]; omega) (by rw [hvals]; omega) hdst
    (by omega)]
  simp

end

/-! ## The text of an address -/

/-- The hex forms of an address: eight groups with single colons between them, or fewer groups
with two colons in one place, for the zeros that are left out there. -/
def HexForm (str addr : Bytes) : Prop :=
  (∃ gs : List Bytes, (∀ g ∈ gs, IsGroup g) ∧ gs.length = 8 ∧ str = joined gs ∧
    addr = encWords (gs.map hexValue)) ∨
  ∃ front back : List Bytes, (∀ g ∈ front, IsGroup g) ∧ (∀ g ∈ back, IsGroup g) ∧
    front.length + back.length < 8 ∧ str = joined front ++ 58 :: 58 :: joined back ∧
    addr = encWords (front.map hexValue) ++
      replicate (16 - 2 * (front.length + back.length)) 0 ++ encWords (back.map hexValue)

theorem taken_of_hexForm {front back : List Bytes} (hfront : ∀ g ∈ front, IsGroup g)
    (hback : ∀ g ∈ back, IsGroup g) (hlen : front.length + back.length < 8) :
    Taken (joined front ++ 58 :: 58 :: joined back) false front false back false := by
  refine ⟨hfront, hback, fun h => absurd h Bool.false_ne_true,
    fun h => absurd h Bool.false_ne_true, ?_, ?_, fun _ => ?_⟩
  · show _ = joined front ++ 58 :: 58 :: (joined back ++ [])
    rw [append_nil]
  · rw [Bool.toNat_false]
    omega
  · rw [Bool.toNat_false]
    rcases Nat.le_total 1 (0 + front.length) with hone | hone
    · omega
    · omega

theorem read_eight (hgs : ∀ g ∈ gs, IsGroup g) (hlen : gs.length = 8) :
    readFields gs ⟨[], none, 0⟩ = some ⟨gs.map hexValue, none, 8⟩ := by
  have hne : gs ≠ [] := ne_nil_of_length_pos (by omega)
  have hread := read_groups hgs hne false ⟨[], none, 0⟩ fun _ => by
    simp [hlen]
  rw [edge, if_neg Bool.false_ne_true, append_nil, hlen] at hread
  exact hread

theorem HexForm.decode {str addr : Bytes} (h : HexForm str addr) (under : UInt8) {dst : Bytes}
    (hdst : dst.length = 16) : ip6StrDecode str under dst = (str.length, addr) := by
  rcases h with ⟨gs, hgs, hlen, rfl, rfl⟩ | ⟨front, back, hfront, hback, hlen, rfl, rfl⟩
  · have hsmall := length_joined_le hgs
    have hall : dst.drop (2 * (gs.map hexValue).length) = [] :=
      drop_of_length_le (by rw [length_map]; omega)
    rw [decode_whole (fun g hg => (hgs g hg).1) _ dst (read_eight hgs hlen) rfl, if_pos rfl,
      Nat.mod_eq_of_lt (by omega), hall, append_nil]
  · exact (taken_of_hexForm hfront hback hlen).decode _ hdst

end CDbK8s.Inet
