import CDbK8s.Inet.Ip6Fields

/-!
# The texts that are taken for IPv6 addresses

`read_shape` and `read_after` invert `readFields`: what it reads is groups with a gap, with perhaps
a colon in front of them, behind them or in the gap.
-/

namespace CDbK8s.Inet

open Base List

variable {fs : List Bytes}

/-! ## Inverting the reader -/

/-- Groups that are read to the end, the last of them perhaps with a colon behind it. -/
structure ReadOn (fs : List Bytes) (r r' : Read) (back : List Bytes) (trail : Bool) : Prop where
  groups : ∀ g ∈ back, IsGroup g
  trail_back : trail = true → back ≠ []
  text : joined fs = joined back ++ colonIf trail
  fits : 2 ≤ back.length ∨ trail = true → r.numSeg + back.length + trail.toNat ≤ 8
  result : r' = { r with vals := r.vals ++ back.map hexValue, numSeg := r.numSeg + back.length }

/-- Groups that are read up to the gap, with the fields `rest` behind it. -/
structure ReadToGap (fs : List Bytes) (r r' : Read) (front rest : List Bytes) : Prop where
  gap : r.gap = none
  groups : ∀ g ∈ front, IsGroup g
  front_ne : front ≠ []
  rest_ne : rest ≠ []
  rest_hex : ∀ f ∈ rest, HexOnly f
  text : joined fs = joined front ++ 58 :: 58 :: joined rest
  fits : r.numSeg + front.length ≤ 7
  result : readFields rest {
    vals := r.vals ++ front.map hexValue, gap := some (r.vals.length + front.length)
    numSeg := r.numSeg + front.length } = some r'

section
variable {f : Bytes} {fs : List Bytes} {r r' : Read} (hf : IsGroup f)
include hf

theorem ReadOn.cons (hseg : r.numSeg < 7) {back : List Bytes} {trail : Bool} (hne : fs ≠ [])
    (h : ReadOn fs { r with vals := r.vals ++ fieldVals f, numSeg := r.numSeg + 1 } r' back trail) :
    ∃ back' trail', ReadOn (f :: fs) r r' back' trail' := by
  obtain ⟨g, fs, rfl⟩ := exists_cons_of_ne_nil hne
  have htext := h.text
  have hresult := h.result
  have hfits := h.fits
  rw [hf.fieldVals_eq] at hresult
  dsimp only at hresult hfits
  cases back with
  | nil =>
    -- only an empty field follows: the colon is the last character
    have htrail : trail = false := by
      by_contra htrue
      exact h.trail_back (Bool.not_eq_false _ ▸ htrue) rfl
    subst htrail
    refine ⟨[f], true, ?_, fun _ => cons_ne_nil _ _, ?_, fun _ => ?_, ?_⟩
    · intro g' hg'
      rw [mem_singleton.1 hg']
      exact hf
    · rw [joined_cons_cons, htext, joined_one]
      rfl
    · simp
      omega
    · rw [hresult, map_nil, append_nil]
      rfl
  | cons b back =>
    refine ⟨f :: b :: back, trail, ?_, fun _ => cons_ne_nil _ _, ?_, fun _ => ?_, ?_⟩
    · intro g' hg'
      rcases mem_cons.1 hg' with rfl | hg'
      · exact hf
      · exact h.groups g' hg'
    · rw [joined_cons_cons, htext, joined_cons_cons, append_assoc]
      rfl
    · rw [length_cons]
      by_cases hmany : 2 ≤ (b :: back).length ∨ trail = true
      · have := hfits hmany
        omega
      · rw [not_or, Bool.not_eq_true] at hmany
        rw [hmany.2, Bool.toNat_false]
        omega
    · rw [hresult, append_assoc, add_assoc _ 1, add_comm 1]
      rfl

theorem ReadToGap.cons {front rest : List Bytes} (hne : fs ≠ [])
    (h : ReadToGap fs { r with vals := r.vals ++ fieldVals f, numSeg := r.numSeg + 1 } r'
      front rest) :
    ReadToGap (f :: fs) r r' (f :: front) rest := by
  obtain ⟨g, fs, rfl⟩ := exists_cons_of_ne_nil hne
  obtain ⟨b, front, rfl⟩ := exists_cons_of_ne_nil h.front_ne
  have hresult := h.result
  have hfits := h.fits
  rw [hf.fieldVals_eq] at hresult
  dsimp only at hresult hfits
  refine ⟨h.gap, ?_, cons_ne_nil _ _, h.rest_ne, h.rest_hex, ?_, ?_, ?_⟩
  · intro g' hg'
    rcases mem_cons.1 hg' with rfl | hg'
    · exact hf
    · exact h.groups g' hg'
  · rw [joined_cons_cons, h.text, joined_cons_cons, append_assoc]
    rfl
  · rw [length_cons]
    omega
  · rw [append_assoc, length_append, length_singleton, add_assoc _ 1,
      add_assoc _ 1, add_comm 1] at hresult
    exact hresult

end

theorem head_only {g : Bytes} {rest : List Bytes} (hpair : ¬ (g = [] ∧ rest ≠ []))
    (hhead : (g :: rest).head? = some []) : g :: rest = [[]] := by
  have hg : g = [] := Option.some.inj hhead
  rw [hg, not_not.1 fun hrest => hpair ⟨hg, hrest⟩]

section
variable (hfs : ∀ f ∈ fs, HexOnly f)
include hfs

theorem read_shape (hne : fs ≠ []) (hhead : fs.head? = some [] → fs = [[]]) {r r' : Read}
    (h : readFields fs r = some r') :
    (∃ back trail, ReadOn fs r r' back trail) ∨ ∃ front rest, ReadToGap fs r r' front rest := by
  induction fs, r using readFields.induct with
  | case1 r => exact absurd rfl hne
  | case2 f r hlong =>
    rw [readFields, if_pos hlong] at h
    cases h
  | case3 f r hshort =>
    rw [readFields, if_neg hshort] at h
    refine .inl ?_
    by_cases hnil : f = []
    · subst hnil
      refine ⟨[], false, forall_mem_nil _, fun htrue => absurd htrue Bool.false_ne_true,
        joined_one _, fun hmany => ?_, ?_⟩
      · rcases hmany with hmany | hmany
        · exact absurd hmany (by decide)
        · exact absurd hmany Bool.false_ne_true
      · exact (Option.some.inj h).symm
    · have hf : IsGroup f := ⟨hfs f mem_cons_self, hnil, not_lt.1 hshort⟩
      refine ⟨[f], false, ?_, fun htrue => absurd htrue Bool.false_ne_true, ?_, fun hmany => ?_, ?_⟩
      · intro g hg
        rw [mem_singleton.1 hg]
        exact hf
      · exact (append_nil _).symm
      · rcases hmany with hmany | hmany
        · rw [length_singleton] at hmany
          omega
        · exact absurd hmany Bool.false_ne_true
      · rw [if_neg hnil, hf.fieldVals_eq] at h
        exact (Option.some.inj h).symm
  | case4 f g rest r hbad =>
    rw [readFields, if_pos hbad] at h
    cases h
  | case5 f g rest r hok hpair hgap =>
    rw [readFields, if_neg hok, if_pos hpair, if_pos hgap] at h
    cases h
  | case6 f g rest r hok hpair hgap ih =>
    rw [readFields, if_neg hok, if_neg hgap] at h
    have hnil : f ≠ [] := fun hnil => by
      have hone := hhead (by rw [hnil]; rfl)
      cases hone
    have hf : IsGroup f := ⟨hfs f mem_cons_self, hnil, by omega⟩
    obtain ⟨rfl, hrest⟩ := hpair
    obtain ⟨x, xs, rfl⟩ := exists_cons_of_ne_nil hrest
    refine .inr ⟨[f], x :: xs, Option.not_isSome_iff_eq_none.1 hgap, ?_, cons_ne_nil _ _,
      hrest, fun y hy => hfs y (.tail _ (.tail _ hy)), ?_, ?_, ?_⟩
    · intro g hg
      rw [mem_singleton.1 hg]
      exact hf
    · rw [joined_one]
      rfl
    · rw [length_singleton]
      by_contra hge
      exact hok (.inr ⟨hnil, by omega⟩)
    · rw [hf.fieldVals_eq, length_append] at h
      exact h
  | case7 f g rest r hok hpair ih =>
    rw [readFields, if_neg hok, if_neg hpair] at h
    have hnil : f ≠ [] := fun hnil => by
      have hone := hhead (by rw [hnil]; rfl)
      cases hone
    have hf : IsGroup f := ⟨hfs f mem_cons_self, hnil, by omega⟩
    have hseg : r.numSeg < 7 := by
      by_contra hge
      exact hok (.inr ⟨hnil, by omega⟩)
    rcases ih (fun x hx => hfs x (.tail _ hx)) (cons_ne_nil _ _)
      (head_only hpair) h with ⟨back, trail, hon⟩ | ⟨front, rest', hgap⟩
    · exact .inl (hon.cons hf hseg (cons_ne_nil _ _))
    · exact .inr ⟨f :: front, rest', hgap.cons hf (cons_ne_nil _ _)⟩

theorem read_after (hne : fs ≠ []) {r r' : Read} (hgap : r.gap ≠ none)
    (h : readFields fs r = some r') :
    ∃ extra back trail, (∀ g ∈ back, IsGroup g) ∧ (trail = true → back ≠ []) ∧
      joined fs = colonIf extra ++ joined back ++ colonIf trail ∧
      (2 ≤ back.length ∨ trail = true →
        r.numSeg + extra.toNat + back.length + trail.toNat ≤ 8) := by
  by_cases hhead : fs.head? = some [] → fs = [[]]
  · rcases read_shape hfs hne hhead h with ⟨back, trail, hon⟩ | ⟨front, rest, hto⟩
    · exact ⟨false, back, trail, hon.groups, hon.trail_back, hon.text, hon.fits⟩
    · exact absurd hto.gap hgap
  · -- the field behind the gap is empty, and is not the last
    rw [Classical.not_imp] at hhead
    obtain ⟨hfirst, hmore⟩ := hhead
    obtain ⟨f, fs, rfl⟩ := exists_cons_of_ne_nil hne
    have hf : f = [] := Option.some.inj hfirst
    subst hf
    cases fs with
    | nil => exact absurd rfl hmore
    | cons g rest =>
      by_cases hpair : g = [] ∧ rest ≠ []
      · rw [readFields, if_pos hpair, if_pos (Option.isSome_iff_ne_none.2 hgap)] at h
        cases h
      · rw [readFields, if_neg hpair] at h
        rcases read_shape (fun x hx => hfs x (.tail _ hx)) (cons_ne_nil _ _)
          (head_only hpair) h with ⟨back, trail, hon⟩ | ⟨front, rest, hto⟩
        · refine ⟨true, back, trail, hon.groups, hon.trail_back, ?_, hon.fits⟩
          rw [joined_cons_cons, hon.text]
          rfl
        · exact absurd hto.gap hgap

/-! ## The texts that are taken -/

/-- A colon and then seven groups. -/
def LeadSeven (str : Bytes) : Prop :=
  ∃ gs : List Bytes, (∀ g ∈ gs, IsGroup g) ∧ gs.length = 7 ∧ str = 58 :: joined gs

omit hfs in
theorem taken_of_read {lead : Bool} {front rest : List Bytes} (hfront : ∀ g ∈ front, IsGroup g)
    (hlead : lead = true → front ≠ []) (hfits : lead.toNat + front.length ≤ 7)
    (hrest : ∀ f ∈ rest, HexOnly f) (hne : rest ≠ []) {vals : List Nat} {z : Nat} {r : Read}
    (h : readFields rest ⟨vals, some z, max 1 (lead.toNat + front.length)⟩ = some r) {str : Bytes}
    (hstr : str = colonIf lead ++ joined front ++ 58 :: 58 :: joined rest) :
    ∃ extra back trail, Taken str lead front extra back trail := by
  obtain ⟨extra, back, trail, hback, htrail, htext, hlimit⟩ :=
    read_after hrest hne (Option.some_ne_none z) h
  refine ⟨extra, back, trail, hfront, hback, hlead, htrail, ?_, hfits, hlimit⟩
  rw [hstr, htext]

/-- A text that the reader takes is the text of eight groups, seven with a colon in front of
them, or a text with a gap. -/
theorem read_cases (hne : fs ≠ []) {r : Read} (h : readFields fs ⟨[], none, 0⟩ = some r) :
    (r.gap = none ∧ (r.numSeg = 8 → (∃ addr, HexForm (joined fs) addr) ∨ LeadSeven (joined fs))) ∨
      ∃ lead front extra back trail, Taken (joined fs) lead front extra back trail := by
  by_cases hhead : fs.head? = some [] → fs = [[]]
  · rcases read_shape hfs hne hhead h with ⟨back, trail, hon⟩ | ⟨front, rest, hto⟩
    · refine .inl ⟨by rw [hon.result], fun height => .inl ?_⟩
      rw [hon.result] at height
      dsimp only at height
      have hfits := hon.fits (.inl (by omega))
      have htrail : trail = false := Bool.toNat_eq_zero.1 (by omega)
      refine ⟨_, .inl ⟨back, hon.groups, by omega, ?_, rfl⟩⟩
      rw [hon.text, htrail]
      exact append_nil _
    · have hpos : 0 < front.length := length_pos_iff.2 hto.front_ne
      have hresult := hto.result
      have hfits := hto.fits
      have hmax : 0 + front.length = max 1 (false.toNat + front.length) := by
        rw [Bool.toNat_false, Nat.max_eq_right (by omega)]
      rw [hmax] at hresult
      obtain ⟨extra, back, trail, htaken⟩ := taken_of_read hto.groups
        (fun htrue => absurd htrue Bool.false_ne_true) hfits hto.rest_hex hto.rest_ne hresult hto.text
      exact .inr ⟨false, front, extra, back, trail, htaken⟩
  · rw [Classical.not_imp] at hhead
    obtain ⟨hfirst, hmore⟩ := hhead
    obtain ⟨f, fs, rfl⟩ := exists_cons_of_ne_nil hne
    have hf : f = [] := Option.some.inj hfirst
    subst hf
    cases fs with
    | nil => exact absurd rfl hmore
    | cons g rest =>
      by_cases hpair : g = [] ∧ rest ≠ []
      · -- the text starts with the gap
        obtain ⟨rfl, hrest⟩ := hpair
        obtain ⟨x, xs, rfl⟩ := exists_cons_of_ne_nil hrest
        obtain ⟨extra, back, trail, htaken⟩ := @taken_of_read false [] _
          (forall_mem_nil _) (fun htrue => absurd htrue Bool.false_ne_true) (by decide)
          (fun y hy => hfs y (.tail _ (.tail _ hy))) hrest _ _ _ h _
          rfl
        refine .inr ⟨false, [], extra, back, trail, ?_⟩
        exact htaken
      · rw [readFields, if_neg hpair] at h
        have htext : joined ([] :: g :: rest) = 58 :: joined (g :: rest) := by
          simp [joined_cons_cons]
        rcases read_shape (fun x hx => hfs x (.tail _ hx)) (cons_ne_nil _ _)
          (head_only hpair) h with ⟨back, trail, hon⟩ | ⟨front, rest', hto⟩
        · refine .inl ⟨by rw [hon.result], fun height => .inr ?_⟩
          rw [hon.result] at height
          dsimp only at height
          have hfits := hon.fits (.inl (by omega))
          dsimp only at hfits
          have htrail : trail = false := Bool.toNat_eq_zero.1 (by omega)
          refine ⟨back, hon.groups, by omega, ?_⟩
          rw [htext, hon.text, htrail]
          exact congrArg _ (append_nil _)
        · have hresult := hto.result
          have hfits := hto.fits
          have hmax : 0 + 1 + front.length = max 1 (true.toNat + front.length) := by
            simp
          rw [hmax] at hresult
          obtain ⟨extra, back, trail, htaken⟩ := @taken_of_read true front _ hto.groups
            (fun _ => hto.front_ne) (by rw [Bool.toNat_true]; omega) hto.rest_hex hto.rest_ne _ _ _
            hresult (joined _) (by rw [htext, hto.text]; rfl)
          exact .inr ⟨true, front, extra, back, trail, htaken⟩

end

/-- The texts that are taken and are not the text of an address: a colon too many in front
of the groups, behind them or in the gap, or eight groups beside the gap. -/
def Lax (str : Bytes) : Prop :=
  LeadSeven str ∨ ∃ lead front extra back trail, Taken str lead front extra back trail ∧
      (lead = true ∨ extra = true ∨ trail = true ∨ 8 ≤ front.length + back.length)

section
variable {str : Bytes} {lead : Bool} {front : List Bytes} {extra : Bool} {back : List Bytes}
variable {trail : Bool}

theorem count_joined {gs : List Bytes} (hgs : ∀ g ∈ gs, IsGroup g) :
    (joined gs).count 58 = gs.length - 1 := by
  have hnone : ∀ g, IsGroup g → g.count 58 = 0 := fun g hg =>
    count_eq_zero.2 fun hmem => (isHex_facts 58 (hg.1 58 hmem)).2.2 rfl
  induction gs with
  | nil => rfl
  | cons g gs ih =>
    have hg := hnone g (hgs g mem_cons_self)
    have hrest := ih fun g' hg' => hgs g' (.tail _ hg')
    cases gs with
    | nil => rw [joined_one, hg]; rfl
    | cons g' gs =>
      rw [joined_cons_cons, count_append, count_cons_self, hrest]
      simp
      omega

theorem count_colonIf (b : Bool) : (colonIf b).count 58 = b.toNat := by
  cases b <;> rfl

section
variable (h : Taken str lead front extra back trail)
include h

theorem Taken.count :
    str.count 58 = (front.length - 1) + (back.length - 1) + 2 +
      (lead.toNat + extra.toNat + trail.toNat) := by
  rw [h.text]
  simp [count_joined h.front_groups, count_joined h.back_groups, count_colonIf]
  omega

theorem Taken.lengths {lead' extra' trail' : Bool} {front' back' : List Bytes}
    (h' : Taken str lead' front' extra' back' trail') :
    front.length = front'.length ∧ back.length = back'.length := by
  obtain ⟨fs, n, hne, hhex, hstr, hread⟩ := h.read
  obtain ⟨fs', n', hne', hhex', hstr', hread'⟩ := h'.read
  have hfs : fs = fs' := joined_inj hhex hhex' hne hne' (hstr.symm.trans hstr')
  rw [hfs, hread'] at hread
  have hsame := Option.some.inj hread
  have hvals := congrArg (fun r : Read => r.vals.length) hsame
  have hgap := Option.some.inj (congrArg Read.gap hsame)
  simp only [length_append, length_map] at hvals
  exact ⟨hgap.symm, by omega⟩

theorem Taken.not_whole (hfs : ∀ f ∈ fs, HexOnly f) (hne : fs ≠ []) {vals : List Nat} {n : Nat}
    (hread : readFields fs ⟨[], none, 0⟩ = some ⟨vals, none, n⟩) : str ≠ joined fs := by
  obtain ⟨fs', n', hne', hhex', hstr', hread'⟩ := h.read
  intro hstr
  have hsame : fs = fs' := joined_inj hfs hhex' hne hne' (hstr.symm.trans hstr')
  rw [hsame, hread'] at hread
  cases congrArg Read.gap (Option.some.inj hread)

theorem Taken.not_hexForm
    (hlax : lead = true ∨ extra = true ∨ trail = true ∨ 8 ≤ front.length + back.length)
    (addr : Bytes) : ¬ HexForm str addr := by
  rintro (⟨gs, hgs, hlen, hstr, -⟩ | ⟨front', back', hfront, hback, hlen, hstr, -⟩)
  · exact h.not_whole (fun g hg => (hgs g hg).1) (ne_nil_of_length_pos (by omega))
      (read_eight hgs hlen) hstr
  · have hplain := taken_of_hexForm hfront hback hlen
    rw [← hstr] at hplain
    obtain ⟨hfl, hbl⟩ := h.lengths hplain
    have hcount := h.count.symm.trans hplain.count
    have hzero : lead.toNat + extra.toNat + trail.toNat = 0 := by
      simp at hcount
      omega
    rcases hlax with rfl | rfl | rfl | hmany
    · rw [Bool.toNat_true] at hzero
      omega
    · rw [Bool.toNat_true] at hzero
      omega
    · rw [Bool.toNat_true] at hzero
      omega
    · omega

end

theorem read_leadSeven {gs : List Bytes} (hgs : ∀ g ∈ gs, IsGroup g) (hlen : gs.length = 7) :
    58 :: joined gs = joined ([] :: gs) ∧ (∀ f ∈ [] :: gs, HexOnly f) ∧
      readFields ([] :: gs) ⟨[], none, 0⟩ = some ⟨gs.map hexValue, none, 8⟩ := by
  have hne : gs ≠ [] := ne_nil_of_length_pos (by omega)
  have hread := read_groups hgs hne false ⟨[], none, 1⟩ fun _ => by
    simp [hlen]
  rw [edge, if_neg Bool.false_ne_true, append_nil, hlen] at hread
  obtain ⟨g, gs, rfl⟩ := exists_cons_of_ne_nil hne
  have hg := hgs g mem_cons_self
  refine ⟨by rw [joined_cons_cons, nil_append], ?_, ?_⟩
  · intro f hf
    rcases mem_cons.1 hf with rfl | hf
    · exact forall_mem_nil _
    · exact (hgs f hf).1
  · rw [readFields, if_neg (by decide), if_neg (fun hpair => hg.2.1 hpair.1)]
    exact hread

theorem LeadSeven.not_hexForm (h : LeadSeven str) (addr : Bytes) : ¬ HexForm str addr := by
  obtain ⟨gs, hgs, hlen, rfl⟩ := h
  obtain ⟨htext, hhex, hread⟩ := read_leadSeven hgs hlen
  rintro (⟨gs', hgs', hlen', hstr, -⟩ | ⟨front, back, hfront, hback, hlen', hstr, -⟩)
  · have hsame := joined_inj hhex (fun g hg => (hgs' g hg).1) (cons_ne_nil _ _)
      (ne_nil_of_length_pos (by omega)) (htext.symm.trans hstr)
    exact (hgs' [] (by rw [← hsame]; exact mem_cons_self)).2.1 rfl
  · have hplain := taken_of_hexForm hfront hback hlen'
    exact hplain.not_whole hhex (cons_ne_nil _ _) hread (hstr.symm.trans htext)

theorem Lax.decode (h : Lax str) (under : UInt8) {dst : Bytes} (hdst : dst.length = 16) :
    (ip6StrDecode str under dst).1 = str.length := by
  rcases h with ⟨gs, hgs, hlen, rfl⟩ | ⟨lead, front, extra, back, trail, htaken, -⟩
  · obtain ⟨htext, hhex, hread⟩ := read_leadSeven hgs hlen
    have hsmall : (58 :: joined gs).length < 2 ^ 64 := by
      have hle := length_joined_le hgs
      rw [length_cons]
      omega
    rw [htext] at hsmall ⊢
    rw [decode_whole hhex _ dst hread rfl, if_pos rfl, Nat.mod_eq_of_lt hsmall]
  · rw [htaken.decode under hdst]

theorem Lax.ne_nil (h : Lax str) : str ≠ [] := by
  rcases h with ⟨-, -, -, rfl⟩ | ⟨lead, front, extra, back, trail, htaken, -⟩
  · exact cons_ne_nil _ _
  · rw [htaken.text]
    exact append_ne_nil_of_right_ne_nil _ (cons_ne_nil _ _)

theorem Lax.not_hexForm (h : Lax str) (addr : Bytes) : ¬ HexForm str addr := by
  rcases h with hseven | ⟨lead, front, extra, back, trail, htaken, hlax⟩
  · exact hseven.not_hexForm _
  · exact htaken.not_hexForm hlax _

theorem decode_of_not_lax (hstr : ∀ ch ∈ str, isHex ch = true ∨ ch = 58) (hlax : ¬ Lax str)
    (hform : ¬ ∃ addr, HexForm str addr) (under : UInt8) (dst : Bytes) :
    (ip6StrDecode str under dst).1 = 0 := by
  obtain ⟨fs, hne, hhex, rfl⟩ := exists_fields hstr
  cases hread : readFields fs ⟨[], none, 0⟩ with
  | none => exact decode_refused hhex _ dst hread
  | some r =>
    rcases read_cases hhex hne hread with ⟨hgap, height⟩ | ⟨lead, front, extra, back, trail, htaken⟩
    · have hseg : r.numSeg ≠ 8 := fun heq => (height heq).elim hform fun hseven =>
        hlax (.inl hseven)
      rw [decode_whole hhex _ dst hread hgap, if_neg hseg]
    · -- without a colon or a group too many it would be the text of an address
      by_cases hextra : lead = true ∨ extra = true ∨ trail = true ∨ 8 ≤ front.length + back.length
      · exact absurd (.inr ⟨lead, front, extra, back, trail, htaken, hextra⟩) hlax
      · simp only [not_or, Bool.not_eq_true] at hextra
        obtain ⟨rfl, rfl, rfl, hfew⟩ := hextra
        refine absurd ⟨_, .inr ⟨front, back, htaken.front_groups, htaken.back_groups,
          not_le.1 hfew, ?_, rfl⟩⟩ hform
        have htext := htaken.text
        rw [show colonIf false = [] from rfl, append_nil] at htext
        exact htext

end

/-- For every text of hex digits and colons: `ip6_str_decode` takes it as a whole, with the
address it denotes, if it is the text of an address, and returns 0 otherwise, exactly if
the text is not a lax one. -/
theorem ip6_grammar_iff {str : Bytes} (hstr : ∀ ch ∈ str, isHex ch = true ∨ ch = 58)
    (under : UInt8) {dst : Bytes} (hdst : dst.length = 16) :
    ((∀ addr, HexForm str addr → ip6StrDecode str under dst = (str.length, addr)) ∧
      ((¬ ∃ addr, HexForm str addr) → (ip6StrDecode str under dst).1 = 0)) ↔ ¬ Lax str := by
  refine ⟨fun hkept hlax => ?_, fun hlax => ⟨fun addr hform => hform.decode _ hdst,
    fun hform => decode_of_not_lax hstr hlax hform _ dst⟩⟩
  have hzero := hkept.2 fun ⟨addr, hform⟩ => hlax.not_hexForm _ hform
  rw [hlax.decode under hdst] at hzero
  exact hlax.ne_nil (eq_nil_of_length_eq_zero hzero)

/-- `"1::2:"` is taken for an address. -/
theorem trailing_colon_taken :
    (¬ ∃ addr, HexForm [49, 58, 58, 50, 58] addr) ∧
      ip6StrDecode [49, 58, 58, 50, 58] 0 (replicate 16 0) =
        (5, [0, 1, 0, 0, 0, 0, 0, 0, 0, 0, 0, 0, 0, 0, 0, 2]) := by
  have hgroup : ∀ d, isHex d = true → IsGroup [d] := fun d hd =>
    ⟨forall_mem_singleton.2 hd, by simp, by simp⟩
  have htaken : Taken [49, 58, 58, 50, 58] false [[49]] false [[50]] true := by
    refine ⟨?_, ?_, fun _ => cons_ne_nil _ _, fun _ => cons_ne_nil _ _, rfl, by decide,
      fun _ => by decide⟩
    · intro g hg
      rw [mem_singleton.1 hg]
      exact hgroup 49 (by decide)
    · intro g hg
      rw [mem_singleton.1 hg]
      exact hgroup 50 (by decide)
  refine ⟨fun ⟨addr, hform⟩ => ?_, by decide +kernel⟩
  exact htaken.not_hexForm (.inr (.inr (.inl rfl))) _ hform

/-- `"::1"` is the text of an address, and is decoded to it. -/
theorem loopback_text_not_lax :
    ¬ Lax [58, 58, 49] ∧ ip6StrDecode [58, 58, 49] 0 (replicate 16 0) =
        (3, [0, 0, 0, 0, 0, 0, 0, 0, 0, 0, 0, 0, 0, 0, 0, 1]) := by
  have hgroup : ∀ g ∈ [[(49 : UInt8)]], IsGroup g :=
    forall_mem_singleton.2 ⟨forall_mem_singleton.2 (by decide), by simp, by simp⟩
  have hform : HexForm [58, 58, 49] [0, 0, 0, 0, 0, 0, 0, 0, 0, 0, 0, 0, 0, 0, 0, 1] :=
    .inr ⟨[], [[49]], forall_mem_nil _, hgroup, by decide, rfl, by decide +kernel⟩
  have hdst : (replicate 16 (0 : UInt8)).length = 16 := length_replicate
  refine ⟨(ip6_grammar_iff (forall_mem_of_all (by decide)) 0 hdst).1 ⟨fun _ h => h.decode 0 hdst,
    fun hnone => absurd ⟨_, hform⟩ hnone⟩, ?_⟩
  exact hform.decode 0 hdst

end CDbK8s.Inet
