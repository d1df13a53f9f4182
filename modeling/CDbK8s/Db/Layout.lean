import CDbK8s.Db.Model

/-!
# Records and bucket chains in memory
-/

namespace CDbK8s.Db

open Lib.ByteMem Lib.LinkedCells List Function

variable {m' : Mem} {v : Nat} {R : Nat → Prop}
variable {m : Mem} {a : Nat}

/-- The address just past the record at `a`. -/
def recEnd (m : Mem) (a : Nat) : Nat := a + sizeofRec + recKeyLen m a + recValLen m a

theorem le_recEnd (m : Mem) (a : Nat) : a + 32 ≤ recEnd m a := by
  rw [recEnd, sizeofRec]
  omega

/-! ## The part of a record behind its link -/

/-- Everything in the record at `a` but its link is the same in `m'` as in `m`. -/
structure SameBody (m m' : Mem) (a : Nat) : Prop where
  flags : recFlags m' a = recFlags m a
  keyLen : recKeyLen m' a = recKeyLen m a
  valLen : recValLen m' a = recValLen m a
  key : recKey m' a = recKey m a
  val : recVal m' a = recVal m a

theorem SameBody.recEnd_eq (h : SameBody m m' a) : recEnd m' a = recEnd m a := by
  rw [recEnd, recEnd, h.keyLen, h.valLen]

theorem SameBody.trans {m'' : Mem} (h : SameBody m m' a) (h' : SameBody m' m'' a) :
    SameBody m m'' a :=
  ⟨h'.flags.trans h.flags, h'.keyLen.trans h.keyLen, h'.valLen.trans h.valLen,
    h'.key.trans h.key, h'.val.trans h.val⟩

theorem sameBody_of_agreeOn (h : AgreeOn m m' (a + 8) (recEnd m a)) : SameBody m m' a := by
  have hend : recEnd m a = a + 32 + recKeyLen m a + recValLen m a := rfl
  have hk : recKeyLen m' a = recKeyLen m a := readWord_congr (h.mono (by omega) (by omega))
  have hv : recValLen m' a = recValLen m a := readWord_congr (h.mono (by omega) (by omega))
  refine ⟨readWord_congr (h.mono (by omega) (by omega)), hk, hv, ?_, ?_⟩
  · rw [recKey, recKey, hk]
    exact readBytes_congr (h.mono (by rw [sizeofRec]; omega) (by rw [sizeofRec]; omega))
  · rw [recVal, hk, hv]
    exact readBytes_congr (h.mono (by rw [sizeofRec]; omega) (by rw [sizeofRec]; omega))

theorem recNext_of_agreeOn {hi : Nat} (h : AgreeOn m m' a hi) (hhi : a + 8 ≤ hi) :
    recNext m' a = recNext m a :=
  readWord_congr (h.mono (by omega) hhi)

/-! ## Records apart from each other and from the table -/

/-- The records `R` overlap neither the table at `tbl` nor each other. -/
structure Arena (m : Mem) (tbl : Nat) (R : Nat → Prop) : Prop where
  offTable : ∀ a, R a → recEnd m a ≤ tbl ∨ tbl + tableSize ≤ a
  apart : ∀ a, R a → ∀ b, R b → a ≠ b → recEnd m a ≤ b ∨ recEnd m b ≤ a

/-- An address that holds a link: a bucket of the table or a record of `R`. -/
def IsLink (tbl : Nat) (R : Nat → Prop) (x : Nat) : Prop :=
  (∃ i < dbNumBuckets, x = tbl + 8 * i) ∨ R x

theorem Arena.mono {tbl : Nat} {R' : Nat → Prop} (h : Arena m tbl R) (hsub : ∀ a, R' a → R a) :
    Arena m tbl R' :=
  ⟨fun a ha => h.offTable a (hsub a ha), fun a ha b hb => h.apart a (hsub a ha) b (hsub b hb)⟩

theorem Arena.congr {tbl : Nat} (h : Arena m tbl R) (hbody : ∀ a, R a → SameBody m m' a) :
    Arena m' tbl R := by
  refine ⟨fun a ha => ?_, fun a ha b hb hab => ?_⟩
  · rw [(hbody a ha).recEnd_eq]
    exact h.offTable a ha
  · rw [(hbody a ha).recEnd_eq, (hbody b hb).recEnd_eq]
    exact h.apart a ha b hb hab

theorem Arena.slot_ne {tbl : Nat} (h : Arena m tbl R) {i : Nat} (hi : i < dbNumBuckets) (ha : R a) :
    tbl + 8 * i ≠ a := by
  have hend := le_recEnd m a
  have htab : tableSize = dbNumBuckets * 8 := rfl
  rcases h.offTable a ha with hoff | hoff <;> omega

section
variable {m : Mem} {tbl : Nat} {R : Nat → Prop}

theorem Arena.sameBody_storeLink (h : Arena m tbl R) {pp : Nat} (hpp : IsLink tbl R pp) (ha : R a) :
    SameBody m (applyWrite m (wordWrite 8 pp v)) a := by
  refine sameBody_of_agreeOn (agreeOn_applyWrite ?_)
  have htab : tableSize = dbNumBuckets * 8 := rfl
  simp only [Write.Avoids, Write.stop, wordWrite, length_leBytes]
  rcases hpp with ⟨i, hi, rfl⟩ | hR
  · rcases h.offTable a ha with hoff | hoff <;> omega
  · by_cases hpa : pp = a
    · omega
    · have := le_recEnd m pp
      rcases h.apart pp hR a ha hpa with hap | hap <;> omega

theorem Arena.recNext_storeLink (h : Arena m tbl R) {pp : Nat} (hpp : IsLink tbl R pp) {x : Nat}
    (hx : IsLink tbl R x) (hne : x ≠ pp) :
    recNext (applyWrite m (wordWrite 8 pp v)) x = recNext m x := by
  refine readWord_congr (agreeOn_applyWrite ?_)
  have htab : tableSize = dbNumBuckets * 8 := rfl
  simp only [Write.Avoids, Write.stop, wordWrite, length_leBytes]
  rcases hpp with ⟨i, hi, rfl⟩ | hR
  · rcases hx with ⟨j, hj, rfl⟩ | hRx
    · omega
    · have := le_recEnd m x
      rcases h.offTable x hRx with hoff | hoff <;> omega
  · have hend := le_recEnd m pp
    rcases hx with ⟨j, hj, rfl⟩ | hRx
    · rcases h.offTable pp hR with hoff | hoff <;> omega
    · have := le_recEnd m x
      rcases h.apart pp hR x hRx (Ne.symm hne) with hap | hap <;> omega

theorem recNext_storeLink_self {pp : Nat} (hv : v < 2 ^ 64) :
    recNext (applyWrite m (wordWrite 8 pp v)) pp = v := by
  rw [recNext, readWord_wordWrite]
  exact Nat.mod_eq_of_lt (by simpa using hv)

end

/-! ## Chains -/

/-- The table at `tbl` and the records `R` spell the chains `chains`. -/
structure Chains (m : Mem) (tbl : Nat) (R : Nat → Prop) (chains : Nat → List Nat) : Prop where
  path : ∀ i < dbNumBuckets, Path (recNext m) (tbl + 8 * i) (chains i)
  nodup : ∀ i < dbNumBuckets, (chains i).Nodup
  known : ∀ i < dbNumBuckets, ∀ a ∈ chains i, R a
  single : ∀ i < dbNumBuckets, ∀ j < dbNumBuckets, ∀ a, a ∈ chains i → a ∈ chains j → i = j
  home : ∀ i < dbNumBuckets, ∀ a ∈ chains i, calcHash (recKey m a) = i
  clear : ∀ i < dbNumBuckets, ∀ a ∈ chains i, recFlags m a = 0

variable {m m' : Mem} {tbl : Nat} {R : Nat → Prop} {chains : Nat → List Nat}

section
variable (h : Chains m tbl R chains)
include h

theorem Chains.mono {R' : Nat → Prop} (hsub : ∀ i < dbNumBuckets, ∀ a ∈ chains i, R' a) :
    Chains m tbl R' chains :=
  { h with known := hsub }

theorem Chains.frame (htable : AgreeOn m m' tbl (tbl + tableSize))
    (hrec : ∀ i < dbNumBuckets, ∀ a ∈ chains i, AgreeOn m m' a (recEnd m a)) :
    Chains m' tbl R chains := by
  have htab : tableSize = dbNumBuckets * 8 := rfl
  have hbody : ∀ i < dbNumBuckets, ∀ a ∈ chains i, SameBody m m' a := fun i hi a ha =>
    sameBody_of_agreeOn ((hrec i hi a ha).mono (by omega) le_rfl)
  refine ⟨fun i hi => (h.path i hi).congr ?_, h.nodup, h.known, h.single, ?_, ?_⟩
  · intro x hx
    rcases mem_cons.1 hx with rfl | hx
    · exact recNext_of_agreeOn (htable.mono (by omega) le_rfl) (by omega)
    · have := le_recEnd m x
      exact recNext_of_agreeOn (hrec i hi x hx) (by omega)
  · intro i hi a ha
    rw [(hbody i hi a ha).key]
    exact h.home i hi a ha
  · intro i hi a ha
    rw [(hbody i hi a ha).flags]
    exact h.clear i hi a ha

theorem Chains.isLink_endOf {i : Nat} (hi : i < dbNumBuckets) {l1 l2 : List Nat}
    (hsplit : chains i = l1 ++ l2) : IsLink tbl R (endOf (tbl + 8 * i) l1) := by
  rcases mem_cons.1 (endOf_mem _ _) with he | he
  · exact .inl ⟨i, hi, he⟩
  · exact .inr (h.known i hi _ (by rw [hsplit]; exact mem_append_left _ he))

end

/-- Overwriting the link behind the first nodes `l1` of bucket `i` by a link that
leads to the nodes `l3` replaces the rest of that chain by `l3`. -/
theorem Chains.redirect (hA : Arena m tbl R) (h : Chains m tbl R chains) {i : Nat}
    (hi : i < dbNumBuckets) {l1 l2 l3 : List Nat} (hsplit : chains i = l1 ++ l2) (hv : v < 2 ^ 64)
    (hpath : Path (update (recNext m) (endOf (tbl + 8 * i) l1) v) (endOf (tbl + 8 * i) l1) l3)
    (hnodup : (l1 ++ l3).Nodup) (hknown : ∀ a ∈ l3, R a)
    (hother : ∀ a ∈ l3, ∀ j < dbNumBuckets, a ∈ chains j → j = i)
    (hhome : ∀ a ∈ l3, calcHash (recKey m a) = i) (hclear : ∀ a ∈ l3, recFlags m a = 0) :
    Chains (applyWrite m (wordWrite 8 (endOf (tbl + 8 * i) l1) v)) tbl R
      (update chains i (l1 ++ l3)) := by
  have hl1 : ∀ a ∈ l1, a ∈ chains i := fun a ha => by
    rw [hsplit]; exact mem_append_left _ ha
  have hlink := h.isLink_endOf hi hsplit
  have hbody : ∀ a, R a → SameBody m _ a := fun a ha => hA.sameBody_storeLink hlink ha (v := v)
  have hmem : ∀ a ∈ l1 ++ l3, R a := fun a ha => by
    rcases mem_append.1 ha with ha | ha
    · exact h.known i hi a (hl1 a ha)
    · exact hknown a ha
  have hnext : ∀ x, IsLink tbl R x → x ≠ endOf (tbl + 8 * i) l1 →
      recNext (applyWrite m (wordWrite 8 (endOf (tbl + 8 * i) l1) v)) x = recNext m x :=
    fun x hx hne => hA.recNext_storeLink hlink hx hne
  have hslot : IsLink tbl R (tbl + 8 * i) := .inl ⟨i, hi, rfl⟩
  -- membership in an updated chain, by bucket
  have hcase : ∀ j < dbNumBuckets, ∀ a, a ∈ update chains i (l1 ++ l3) j →
      (j = i ∧ a ∈ l1 ++ l3) ∨ (j ≠ i ∧ a ∈ chains j) := by
    intro j _ a ha
    by_cases hji : j = i
    · subst hji
      rw [update_self] at ha
      exact .inl ⟨rfl, ha⟩
    · rw [update_of_ne hji] at ha
      exact .inr ⟨hji, ha⟩
  have howner : ∀ a ∈ l1 ++ l3, ∀ j < dbNumBuckets, a ∈ chains j → j = i := by
    intro a ha j hj haj
    rcases mem_append.1 ha with ha | ha
    · exact h.single j hj i hi a haj (hl1 a ha)
    · exact hother a ha j hj haj
  refine ⟨?_, ?_, ?_, ?_, ?_, ?_⟩
  · intro j hj
    by_cases hji : j = i
    · subst hji
      rw [update_self]
      have hold : Path (recNext m) (tbl + 8 * j) (l1 ++ l2) := hsplit ▸ h.path j hj
      have hnot : tbl + 8 * j ∉ l1 := fun hin => hA.slot_ne hj (hmem _ (by simp [hin])) rfl
      refine hold.redirect ?_ ?_ (hpath.congr ?_)
      · exact nodup_cons.2 ⟨hnot, (nodup_append.1 hnodup).1⟩
      · intro x hx hne
        refine hnext x ?_ hne
        rcases mem_cons.1 hx with rfl | hx
        · exact hslot
        · exact .inr (hmem x (mem_append_left _ hx))
      · intro x hx
        by_cases hxe : x = endOf (tbl + 8 * j) l1
        · rw [hxe, update_self]
          exact recNext_storeLink_self hv
        · rw [update_of_ne hxe]
          rcases mem_cons.1 hx with hx | hx
          · exact absurd hx hxe
          · exact hnext x (.inr (hknown x hx)) hxe
    · rw [update_of_ne hji]
      refine (h.path j hj).congr ?_
      intro x hx
      -- the overwritten link belongs to bucket `i`
      have hown : x = endOf (tbl + 8 * i) l1 → False := by
        intro hxe
        have he := endOf_mem (tbl + 8 * i) l1
        rw [← hxe] at he
        rcases mem_cons.1 hx with hx | hx
        · rcases mem_cons.1 he with he | he
          · omega
          · exact hA.slot_ne hj (h.known i hi x (hl1 x he)) hx.symm
        · rcases mem_cons.1 he with he | he
          · exact hA.slot_ne hi (h.known j hj x hx) he.symm
          · exact hji (h.single j hj i hi x hx (hl1 x he))
      refine hnext x ?_ hown
      rcases mem_cons.1 hx with rfl | hx
      · exact .inl ⟨j, hj, rfl⟩
      · exact .inr (h.known j hj x hx)
  · intro j hj
    by_cases hji : j = i
    · rw [hji, update_self]
      exact hnodup
    · rw [update_of_ne hji]
      exact h.nodup j hj
  · intro j hj a ha
    rcases hcase j hj a ha with ⟨_, ha⟩ | ⟨_, ha⟩
    · exact hmem a ha
    · exact h.known j hj a ha
  · intro j hj k hk a haj hak
    rcases hcase j hj a haj with ⟨hji, hin⟩ | ⟨_, hold⟩
    · rcases hcase k hk a hak with ⟨hki, _⟩ | ⟨_, hold⟩
      · exact hji.trans hki.symm
      · exact hji.trans (howner a hin k hk hold).symm
    · rcases hcase k hk a hak with ⟨hki, hin⟩ | ⟨_, hold'⟩
      · exact (howner a hin j hj hold).trans hki.symm
      · exact h.single j hj k hk a hold hold'
  · intro j hj a ha
    rcases hcase j hj a ha with ⟨hji, hin⟩ | ⟨_, hold⟩
    · rw [(hbody a (hmem a hin)).key, hji]
      rcases mem_append.1 hin with hin | hin
      · exact h.home i hi a (hl1 a hin)
      · exact hhome a hin
    · rw [(hbody a (h.known j hj a hold)).key]
      exact h.home j hj a hold
  · intro j hj a ha
    rcases hcase j hj a ha with ⟨_, hin⟩ | ⟨_, hold⟩
    · rw [(hbody a (hmem a hin)).flags]
      rcases mem_append.1 hin with hin | hin
      · exact h.clear i hi a (hl1 a hin)
      · exact hclear a hin
    · rw [(hbody a (h.known j hj a hold)).flags]
      exact h.clear j hj a hold

end CDbK8s.Db
