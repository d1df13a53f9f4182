import CDbK8s.Db.Integrity
import CDbK8s.Lib.Loops

/-!
# What `file_check` looks at

`file_check` follows the links of every bucket and compares 64-bit sums with the file size.
-/

namespace CDbK8s.Db

open Lib.ByteMem Lib.Loops

theorem isFile_fileMap (m : Mem) : IsFile (fileMap m) := ⟨rfl, rfl, rfl⟩

theorem fileMap_mem (m : Mem) : (fileMap m).mem = m := rfl

/-! ## Following links -/

/-- The record at `a` passes the two comparisons of `file_check`. -/
def Passes (m : Mem) (a : Nat) : Prop :=
  a ≠ 0 ∧ (a + sizeofRec) % 2 ^ 64 ≤ fileSize ∧ recEnd m a % 2 ^ 64 ≤ fileSize

/-- The record at `a` passes and links to `b`. -/
def LinksTo (m : Mem) (a b : Nat) : Prop := Passes m a ∧ recNext m a = b

/-- The link `db_buckets[i]` of the file. -/
def bucketLink (m : Mem) (i : Nat) : Nat := readWord m 8 (sizeofHdr + 8 * i)

/-- From `link` the links end in the null link, over records that pass. -/
def EndsNull (m : Mem) (link : Nat) : Prop := Relation.ReflTransGen (LinksTo m) link 0

/-- One pass of the loop of `file_check`: a verdict, or the next link. -/
def checkBody (m : Mem) (link : Nat) : Bool ⊕ Nat :=
  if link = 0 then .inl true
  else if (link + sizeofRec) % 2 ^ 64 > fileSize then .inl false
  else if (link + (sizeofRec + recKeyLen m link + recValLen m link)) % 2 ^ 64 > fileSize then
    .inl false
  else .inr (recNext m link)

section
variable {m : Mem} {link : Nat}

theorem fileCheckChain_eq_loop (fuel : Nat) :
    fileCheckChain m fileSize fuel link = loop (checkBody m) fuel link := by
  induction fuel generalizing link with
  | zero => rfl
  | succ fuel ih =>
    rw [fileCheckChain, loop, checkBody]
    split_ifs with h0 h1 h2
    · rfl
    · rfl
    · rfl
    · exact ih

theorem recEnd_eq (m : Mem) (a : Nat) :
    a + (sizeofRec + recKeyLen m a + recValLen m a) = recEnd m a := by
  rw [recEnd]
  omega

theorem next_checkBody (m : Mem) : Next (checkBody m) = LinksTo m := by
  funext a b
  rw [Next, checkBody, recEnd_eq, LinksTo, Passes, eq_iff_iff]
  split_ifs with h0 h1 h2
  · simp [h0]
  · exact ⟨False.elim, fun h => absurd h.1.2.1 (by omega)⟩
  · exact ⟨False.elim, fun h => absurd h.1.2.2 (by omega)⟩
  · rw [Sum.inr.injEq]
    exact ⟨fun h => ⟨⟨h0, by omega, by omega⟩, h⟩, fun h => h.2⟩

theorem checkBody_eq_true : checkBody m link = .inl true ↔ link = 0 := by
  rw [checkBody]
  split_ifs with h0 h1 h2
  · simp [h0]
  · simp [h0]
  · simp [h0]
  · simp [h0]

theorem returns_true_iff : Returns (checkBody m) link true ↔ EndsNull m link := by
  rw [Returns, next_checkBody]
  constructor
  · rintro ⟨a, ha, hr⟩
    rw [checkBody_eq_true.1 hr] at ha
    exact ha
  · exact fun h => ⟨0, h, checkBody_eq_true.2 rfl⟩

theorem recNext_lt (m : Mem) (a : Nat) : recNext m a < 2 ^ 64 := readWord_lt m 8 a

/-- The links that pass the first test of `file_check`. -/
def passable : Finset Nat :=
  ((Finset.range (fileSize + 1)).erase sizeofRec).image fun x => (x + (2 ^ 64 - sizeofRec)) % 2 ^ 64

theorem card_passable : passable.card ≤ fileSize := by
  refine Finset.card_image_le.trans ?_
  have hmem : sizeofRec ∈ Finset.range (fileSize + 1) := by
    simp [sizeofRec, fileSize, sizeofHdr]
    omega
  rw [Finset.card_erase_of_mem hmem, Finset.card_range]
  omega

theorem Passes.mem_passable {a : Nat} (h : Passes m a) (ha : a < 2 ^ 64) : a ∈ passable := by
  obtain ⟨h0, hhdr, -⟩ := h
  rw [sizeofRec] at hhdr
  refine Finset.mem_image.2 ⟨(a + sizeofRec) % 2 ^ 64, ?_, ?_⟩
  · simp [sizeofRec]
    omega
  · rw [sizeofRec]
    omega

theorem mem_passable_of_leads (hlink : link < 2 ^ 64) :
    ∀ a b, Relation.ReflTransGen (Next (checkBody m)) link a → Next (checkBody m) a b →
      a ∈ passable := by
  rw [next_checkBody]
  intro a b ha hab
  refine hab.1.mem_passable ?_
  rcases Relation.ReflTransGen.cases_tail ha with rfl | ⟨c, -, hc⟩
  · exact hlink
  · rw [← hc.2]
    exact recNext_lt m c

variable {fuel : Nat} (hlink : link < 2 ^ 64) (hfuel : fileSize < fuel)
include hlink hfuel

theorem fileCheckChain_eq_true_iff :
    fileCheckChain m fileSize fuel link = some true ↔ EndsNull m link := by
  rw [fileCheckChain_eq_loop, ← returns_true_iff]
  exact loop_eq_some_iff (mem_passable_of_leads hlink) (card_passable.trans_lt hfuel)

end

section
variable (m : Mem)

/-- What `file_check` finds in bucket `i`. -/
def bucketOutcome (i : Nat) : Option Bool :=
  fileCheckChain m fileSize (fileMap m).walkFuel (bucketLink m i)

theorem lt_walkFuel_fileMap : fileSize < (fileMap m).walkFuel := by
  have hsize : (fileMap m).dbSize = fileSize := rfl
  rw [State.walkFuel]
  omega

theorem bucketOutcome_eq_true_iff (i : Nat) :
    bucketOutcome m i = some true ↔ EndsNull m (bucketLink m i) :=
  fileCheckChain_eq_true_iff (readWord_lt m 8 _) (lt_walkFuel_fileMap m)

theorem fileCheckBuckets_succ (n idx : Nat) : fileCheckBuckets (fileMap m) (n + 1) idx =
      match bucketOutcome m idx with
      | none => none
      | some false => some false
      | some true => fileCheckBuckets (fileMap m) n (idx + 1) := by
  have hchain : fileCheckChain (fileMap m).mem (fileMap m).dbSize (fileMap m).walkFuel
      ((fileMap m).load64 ((fileMap m).slot idx)) = bucketOutcome m idx := rfl
  -- neither loop is to be evaluated
  rfl

theorem fileCheckBuckets_eq_true_iff (n idx : Nat) :
    fileCheckBuckets (fileMap m) n idx = some true ↔
      ∀ i, idx ≤ i → i < idx + n → bucketOutcome m i = some true := by
  induction n generalizing idx with
  | zero => exact ⟨fun _ i hlo hhi => by omega, fun _ => rfl⟩
  | succ n ih =>
    rw [fileCheckBuckets_succ]
    match h : bucketOutcome m idx with
    | none =>
      exact ⟨fun h' => (nomatch h'), fun hall =>
        absurd (h.symm.trans (hall idx (by omega) (by omega))) (by simp)⟩
    | some false =>
      exact ⟨fun h' => (nomatch h'), fun hall =>
        absurd (h.symm.trans (hall idx (by omega) (by omega))) (by simp)⟩
    | some true =>
      simp only [ih]
      refine ⟨fun hall i hlo hhi => ?_, fun hall i hlo hhi => hall i (by omega) (by omega)⟩
      rcases Nat.eq_or_lt_of_le hlo with rfl | hlt
      · exact h
      · exact hall i hlt (by omega)

/-! ## The whole check -/

theorem fileCheck_fileMap_of_magicOk (h : MagicOk m) : fileCheck (fileMap m) =
    match fileCheckBuckets (fileMap m) dbNumBuckets 0 with
    | none => none
    | some true => some 0
    | some false => some (-1) := by
  have hmagic : (fileMap m).magic = dbMagic := h.1
  have hversion : readWord (fileMap m).mem 4 hdrVersion = 1 := h.2
  -- the loop over all buckets is not to be evaluated
  exact (if_neg (not_not.2 hmagic)).trans (if_neg (not_not.2 hversion))

theorem fileCheck_fileMap_of_not_magicOk (h : ¬ MagicOk m) : fileCheck (fileMap m) = some (-1) := by
  rw [fileCheck]
  by_cases hmagic : (fileMap m).magic = dbMagic
  · have hversion : readWord (fileMap m).mem 4 hdrVersion ≠ 1 := fun hv => h ⟨hmagic, hv⟩
    simp [if_pos hversion]
  · rw [if_pos hmagic]

theorem fileCheck_eq_zero_iff : fileCheck (fileMap m) = some 0 ↔
      MagicOk m ∧ ∀ i < dbNumBuckets, EndsNull m (bucketLink m i) := by
  by_cases hmagic : MagicOk m
  · rw [fileCheck_fileMap_of_magicOk m hmagic]
    have htrue := fileCheckBuckets_eq_true_iff m dbNumBuckets 0
    simp only [bucketOutcome_eq_true_iff, zero_le, zero_add, forall_const] at htrue
    rw [← htrue]
    match fileCheckBuckets _ _ 0 with
    | none => simp
    | some false => simp
    | some true => simp [hmagic]
  · rw [fileCheck_fileMap_of_not_magicOk m hmagic]
    simp [hmagic]

end

end CDbK8s.Db
