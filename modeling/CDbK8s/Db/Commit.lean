import CDbK8s.Db.Layout

/-!
# Stores of an operation and its commit point

An operation of the store changes the layout by a list of stores with one commit point (`Commit`),
which overwrites one link. The stores before it avoid the table and every linked record, those after
it the table and every record that is still linked.
-/

namespace CDbK8s.Db

open Base Lib.ByteMem Lib.LinkedCells List Function

variable {ws : List Write} {i : Nat}
variable {a : Nat}

/-- The record at `a` is in some chain. -/
def Linked (chains : Nat → List Nat) (a : Nat) : Prop := ∃ i < dbNumBuckets, a ∈ chains i

/-- The table and the linked records spell `chains` without overlap. -/
structure Layout (m : Mem) (tbl : Nat) (chains : Nat → List Nat) : Prop where
  arena : Arena m tbl (Linked chains)
  chained : Chains m tbl (Linked chains) chains

/-- The store `w` touches neither the table nor a linked record. -/
def AvoidsLayout (m : Mem) (tbl : Nat) (chains : Nat → List Nat) (w : Write) : Prop :=
  w.Avoids tbl (tbl + tableSize) ∧ ∀ a, Linked chains a → w.Avoids a (recEnd m a)

section
variable {m : Mem} {tbl : Nat} {chains : Nat → List Nat}

theorem agreeOn_record (hws : ∀ w ∈ ws, AvoidsLayout m tbl chains w) (ha : Linked chains a) :
    AgreeOn m (applyWrites m ws) a (recEnd m a) :=
  agreeOn_applyWrites fun w hw => (hws w hw).2 a ha

theorem sameBody_of_agree {m' : Mem} (h : AgreeOn m m' a (recEnd m a)) : SameBody m m' a :=
  sameBody_of_agreeOn (h.mono (by omega) le_rfl)

theorem sameBody_of_avoids (hws : ∀ w ∈ ws, AvoidsLayout m tbl chains w) (ha : Linked chains a) :
    SameBody m (applyWrites m ws) a :=
  sameBody_of_agree (agreeOn_record hws ha)

section
variable (h : Layout m tbl chains)
include h

theorem Layout.congr {m' : Mem} (htable : AgreeOn m m' tbl (tbl + tableSize))
    (hrec : ∀ a, Linked chains a → AgreeOn m m' a (recEnd m a)) : Layout m' tbl chains :=
  ⟨h.arena.congr fun a ha => sameBody_of_agree (hrec a ha),
    h.chained.frame htable fun i hi a ha => hrec a ⟨i, hi, ha⟩⟩

theorem Layout.frame (hws : ∀ w ∈ ws, AvoidsLayout m tbl chains w) :
    Layout (applyWrites m ws) tbl chains :=
  h.congr (agreeOn_applyWrites fun w hw => (hws w hw).1) fun _ ha => agreeOn_record hws ha

theorem Layout.path (hi : i < dbNumBuckets) : Path (recNext m) (tbl + 8 * i) (chains i) :=
  h.chained.path i hi

end

theorem linked_update {l : List Nat} (h : Linked (update chains i l) a) :
    a ∈ l ∨ Linked chains a := by
  obtain ⟨j, hj, ha⟩ := h
  by_cases hji : j = i
  · subst hji
    rw [update_self] at ha
    exact .inl ha
  · rw [update_of_ne hji] at ha
    exact .inr ⟨j, hj, ha⟩

end

/-! ## Commit points -/

/-- The key and the value stored in the record at `a`. -/
def entry (m : Mem) (a : Nat) : Bytes × Bytes := (recKey m a, recVal m a)

theorem entry_fst (m : Mem) (a : Nat) : (entry m a).1 = recKey m a := by
  rw [entry]

theorem entry_snd (m : Mem) (a : Nat) : (entry m a).2 = recVal m a := by
  rw [entry]

theorem SameBody.entry_eq {m m' : Mem} (h : SameBody m m' a) : entry m' a = entry m a := by
  rw [entry, entry, h.key, h.val]

/-- The stores `pre`, `w`, `post` turn the chains `chains` into `chains'` with the
entries `ent` at one commit point, the store `w`. -/
structure Commit (m : Mem) (tbl : Nat) (chains chains' : Nat → List Nat)
    (ent : Nat → Bytes × Bytes) (pre : List Write) (w : Write) (post : List Write) : Prop where
  before : ∀ v ∈ pre, AvoidsLayout m tbl chains v
  layout : Layout (applyWrites m (pre ++ [w])) tbl chains'
  entries : ∀ a, Linked chains' a → entry (applyWrites m (pre ++ [w])) a = ent a
  after : ∀ v ∈ post, AvoidsLayout (applyWrites m (pre ++ [w])) tbl chains' v

section
variable {m : Mem} {tbl : Nat} {chains chains' : Nat → List Nat} {ent : Nat → Bytes × Bytes}
  {pre post : List Write} {w : Write}
variable (h : Commit m tbl chains chains' ent pre w post)
include h

theorem Commit.up_to (hl : Layout m tbl chains) (n : Nat) :
    Layout (applyWrites m (pre.take n)) tbl chains ∧
      ∀ a, Linked chains a → entry (applyWrites m (pre.take n)) a = entry m a := by
  have hpre : ∀ v ∈ pre.take n, AvoidsLayout m tbl chains v := fun v hv =>
    h.before v (mem_of_mem_take hv)
  exact ⟨hl.frame hpre, fun a ha => (sameBody_of_avoids hpre ha).entry_eq⟩

theorem Commit.from_on (n : Nat) : Layout (applyWrites m (pre ++ w :: post.take n)) tbl chains' ∧
      ∀ a, Linked chains' a → entry (applyWrites m (pre ++ w :: post.take n)) a = ent a := by
  have e : pre ++ w :: post.take n = (pre ++ [w]) ++ post.take n := by simp
  have hpost : ∀ v ∈ post.take n,
      AvoidsLayout (applyWrites m (pre ++ [w])) tbl chains' v := fun v hv =>
    h.after v (mem_of_mem_take hv)
  rw [e, applyWrites_append]
  refine ⟨h.layout.frame hpost, fun a ha => ?_⟩
  rw [(sameBody_of_avoids hpost ha).entry_eq]
  exact h.entries a ha

end

/-! ## Linking and unlinking -/

variable {m : Mem} {tbl : Nat} {chains : Nat → List Nat}

/-- The range `lo ≤ x < hi` overlaps neither the table nor a linked record. -/
structure FreeRange (m : Mem) (tbl : Nat) (chains : Nat → List Nat) (lo hi : Nat) : Prop where
  table : hi ≤ tbl ∨ tbl + tableSize ≤ lo
  record : ∀ a, Linked chains a → hi ≤ a ∨ recEnd m a ≤ lo

theorem FreeRange.avoids {lo hi : Nat} (h : FreeRange m tbl chains lo hi) {w : Write}
    (hlo : lo ≤ w.addr) (hhi : w.stop ≤ hi) : AvoidsLayout m tbl chains w := by
  refine ⟨?_, fun a ha => ?_⟩
  · rcases h.table with ht | ht
    · exact .inl (by omega)
    · exact .inr (by omega)
  · rcases h.record a ha with hr | hr
    · exact .inl (by omega)
    · exact .inr (by omega)

/-- A filled record at `b` that no chain and no other record touches. -/
structure NewRec (m : Mem) (tbl : Nat) (chains : Nat → List Nat) (b : Nat) (key val : Bytes) :
    Prop where
  ne_zero : b ≠ 0
  lt : b < 2 ^ 64
  free : FreeRange m tbl chains b (recEnd m b)
  flags : recFlags m b = 0
  key_eq : recKey m b = key
  val_eq : recVal m b = val

theorem NewRec.not_linked {b : Nat} {key val : Bytes} (h : NewRec m tbl chains b key val) :
    ¬ Linked chains b := by
  intro hb
  have hend := le_recEnd m b
  rcases h.free.record b hb with hr | hr <;> omega

variable (h : Layout m tbl chains)
include h

/-- Linking the new record `b` behind the first nodes `l1` of its bucket, with a
link to the nodes `l3` in the record: `b` and `l3` become the rest of the chain. -/
theorem Layout.link (hi : i < dbNumBuckets) {l1 l2 l3 : List Nat} (hsplit : chains i = l1 ++ l2)
    (hsub : l3 <:+ l2) {b : Nat} {key val : Bytes} (hb : NewRec m tbl chains b key val)
    (hhome : calcHash key = i) (hpath : Path (recNext m) b l3) :
    Layout (applyWrite m (wordWrite 8 (endOf (tbl + 8 * i) l1) b)) tbl
        (update chains i (l1 ++ b :: l3)) ∧
      ∀ a, Linked chains a ∨ a = b →
        SameBody m (applyWrite m (wordWrite 8 (endOf (tbl + 8 * i) l1) b)) a := by
  obtain ⟨t, rfl⟩ := hsub
  have hin : ∀ a ∈ l1 ++ (t ++ l3), a ∈ chains i := fun a ha => by rw [hsplit]; exact ha
  have hl3 : ∀ a ∈ l3, a ∈ chains i := fun a ha => hin a (by simp [ha])
  have hnodup := h.chained.nodup i hi
  rw [hsplit] at hnodup
  -- the new record joins the linked ones
  let R : Nat → Prop := fun a => Linked chains a ∨ a = b
  have hA : Arena m tbl R := by
    refine ⟨?_, ?_⟩
    · rintro a (ha | rfl)
      · exact h.arena.offTable a ha
      · exact hb.free.table
    · rintro a (ha | rfl) c (hc | rfl) hac
      · exact h.arena.apart a ha c hc hac
      · exact (hb.free.record a ha).symm
      · exact hb.free.record c hc
      · exact absurd rfl hac
  have hC : Chains m tbl R chains := h.chained.mono fun j hj a ha => .inl ⟨j, hj, ha⟩
  have hnot : ∀ j < dbNumBuckets, b ∉ chains j := fun j hj hbj => hb.not_linked ⟨j, hj, hbj⟩
  have hslot : tbl + 8 * i ≠ b := hA.slot_ne hi (.inr rfl)
  have hend : endOf (tbl + 8 * i) l1 ∉ b :: l3 := by
    intro hmem
    rcases mem_cons.1 (endOf_mem _ _) with he | he
    · rw [he] at hmem
      rcases mem_cons.1 hmem with hm | hm
      · exact hslot hm
      · exact hA.slot_ne hi (.inl ⟨i, hi, hl3 _ hm⟩) rfl
    · rcases mem_cons.1 hmem with hm | hm
      · exact hnot i hi (hm ▸ hin _ (mem_append_left _ he))
      · exact (disjoint_of_nodup_append hnodup) he (by simp [hm])
  have hnext : Path (update (recNext m) (endOf (tbl + 8 * i) l1) b)
      (endOf (tbl + 8 * i) l1) (b :: l3) := by
    refine ⟨update_self .., hb.ne_zero, hpath.congr ?_⟩
    intro x hx
    have hxe : x ≠ endOf (tbl + 8 * i) l1 := by
      rintro rfl
      exact hend hx
    exact update_of_ne hxe ..
  have hnew := Chains.redirect hA hC hi hsplit hb.lt hnext ?_ ?_ ?_ ?_ ?_
  · have hbody : ∀ a, R a → SameBody m (applyWrite m (wordWrite 8 (endOf (tbl + 8 * i) l1) b)) a :=
      fun a ha => hA.sameBody_storeLink (hC.isLink_endOf hi hsplit) ha
    refine ⟨⟨?_, hnew.mono fun j hj a ha => ⟨j, hj, ha⟩⟩, hbody⟩
    refine (hA.congr hbody).mono fun a ha => ?_
    rcases linked_update ha with ha | ha
    · rcases mem_append.1 ha with ha | ha
      · exact .inl ⟨i, hi, hin a (mem_append_left _ ha)⟩
      · rcases mem_cons.1 ha with rfl | ha
        · exact .inr rfl
        · exact .inl ⟨i, hi, hl3 a ha⟩
    · exact .inl ha
  · have hsub : (l1 ++ l3).Nodup :=
      hnodup.sublist (List.Sublist.append_left (sublist_append_right t _) _)
    refine nodup_middle.2 (nodup_cons.2 ⟨?_, hsub⟩)
    intro hmem
    refine hnot i hi ?_
    rcases mem_append.1 hmem with hm | hm
    · exact hin b (mem_append_left _ hm)
    · exact hl3 b hm
  · intro a ha
    rcases mem_cons.1 ha with rfl | ha
    · exact .inr rfl
    · exact .inl ⟨i, hi, hl3 a ha⟩
  · intro a ha j hj haj
    rcases mem_cons.1 ha with rfl | ha
    · exact absurd haj (hnot j hj)
    · exact h.chained.single j hj i hi a haj (hl3 a ha)
  · intro a ha
    rcases mem_cons.1 ha with rfl | ha
    · rw [hb.key_eq, hhome]
    · exact h.chained.home i hi a (hl3 a ha)
  · intro a ha
    rcases mem_cons.1 ha with rfl | ha
    · exact hb.flags
    · exact h.chained.clear i hi a (hl3 a ha)

/-- Overwriting the link to the node `a` by the link of `a` takes `a` out. -/
theorem Layout.unlink (hi : i < dbNumBuckets) {l1 l3 : List Nat}
    (hsplit : chains i = l1 ++ a :: l3) :
    Layout (applyWrite m (wordWrite 8 (endOf (tbl + 8 * i) l1) (recNext m a))) tbl
        (update chains i (l1 ++ l3)) ∧
      ∀ c, Linked chains c →
        SameBody m (applyWrite m (wordWrite 8 (endOf (tbl + 8 * i) l1) (recNext m a))) c := by
  have hin : ∀ c ∈ l1 ++ a :: l3, c ∈ chains i := fun c hc => by rw [hsplit]; exact hc
  have hl3 : ∀ c ∈ l3, c ∈ chains i := fun c hc => hin c (by simp [hc])
  have hnodup := h.chained.nodup i hi
  rw [hsplit] at hnodup
  have hrest : Path (recNext m) a l3 := by
    have hp := h.path hi
    rw [hsplit] at hp
    exact hp.suffix.2.2
  have hend : endOf (tbl + 8 * i) l1 ∉ l3 := by
    intro hmem
    rcases mem_cons.1 (endOf_mem _ _) with he | he
    · rw [he] at hmem
      exact h.arena.slot_ne hi ⟨i, hi, hl3 _ hmem⟩ rfl
    · exact (disjoint_of_nodup_append hnodup) he (by simp [hmem])
  have hv : recNext m a < 2 ^ 64 := by
    have := readWord_lt m 8 a
    simpa [recNext] using this
  have hnew := Chains.redirect h.arena h.chained hi hsplit hv (hrest.update hend) ?_ ?_ ?_ ?_ ?_
  · have hbody : ∀ c, Linked chains c →
        SameBody m (applyWrite m (wordWrite 8 (endOf (tbl + 8 * i) l1) (recNext m a))) c :=
      fun c hc => h.arena.sameBody_storeLink (h.chained.isLink_endOf hi hsplit) hc
    refine ⟨⟨?_, hnew.mono fun j hj c hc => ⟨j, hj, hc⟩⟩, hbody⟩
    refine (h.arena.congr hbody).mono fun c hc => ?_
    rcases linked_update hc with hc | hc
    · rcases mem_append.1 hc with hc | hc
      · exact ⟨i, hi, hin c (mem_append_left _ hc)⟩
      · exact ⟨i, hi, hl3 c hc⟩
    · exact hc
  · exact hnodup.sublist (List.Sublist.append_left (sublist_cons_self a _) _)
  · exact fun c hc => ⟨i, hi, hl3 c hc⟩
  · exact fun c hc j hj hcj => h.chained.single j hj i hi c hcj (hl3 c hc)
  · exact fun c hc => h.chained.home i hi c (hl3 c hc)
  · exact fun c hc => h.chained.clear i hi c (hl3 c hc)

end CDbK8s.Db
