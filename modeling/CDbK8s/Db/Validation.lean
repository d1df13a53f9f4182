import CDbK8s.Db.Crash
import CDbK8s.Db.Creation

/-!
# What acceptance by `file_check` is worth

`file_check` compares 64-bit sums and never looks at `next_offset`. Of the files that the program
leaves itself it accepts one kind too many: those whose creation was cut short between the stores
of the version and of `next_offset`.
-/

namespace CDbK8s.Db

open Base Lib.ByteMem Lib.LinkedCells Lib.Loops List

variable {m : Mem} {chains : Nat → List Nat}

/-! ## Live records -/

/-- The record at `a` is reached from the bucket table. -/
def Live (db : State) (a : Nat) : Prop :=
  ∃ i < dbNumBuckets, ∃ l, bucketChain db i = some l ∧ a ∈ l

/-- What the validation of a file is for: the chains end, every record reached lies in
the file, and `next_offset` lies behind every record and the table and in the file. -/
structure Validated (m : Mem) : Prop where
  chains : ∀ i < dbNumBuckets, ∃ l, bucketChain (fileMap m) i = some l
  inside : ∀ a, Live (fileMap m) a → recEnd m a ≤ fileSize
  behind : ∀ a, Live (fileMap m) a → recEnd m a ≤ nextOffset m
  table : sizeofHdr + tableSize ≤ nextOffset m
  next_le : nextOffset m ≤ fileSize

section
variable {m : Mem} (h : fileCheck (fileMap m) = some 0)
include h

end

/-! ## Records apart -/

/-- The records of the chains lie behind the table, apart from each other and in the
buckets of their keys, and none is marked as deleted. -/
structure Separate (m : Mem) (chains : Nat → List Nat) : Prop where
  chain : ∀ i < dbNumBuckets, bucketChain (fileMap m) i = some (chains i)
  nodup : ∀ i < dbNumBuckets, (chains i).Nodup
  behind : ∀ i < dbNumBuckets, ∀ a ∈ chains i, sizeofHdr + tableSize ≤ a
  apart : ∀ i < dbNumBuckets, ∀ j < dbNumBuckets, ∀ a ∈ chains i, ∀ b ∈ chains j,
    (i, a) ≠ (j, b) → recEnd m a ≤ b ∨ recEnd m b ≤ a
  home : ∀ i < dbNumBuckets, ∀ a ∈ chains i, calcHash (recKey m a) = i
  clear : ∀ i < dbNumBuckets, ∀ a ∈ chains i, recFlags m a = 0

theorem path_of_chainFrom {fuel p : Nat} {l : List Nat}
    (h : chainFrom m fuel (recNext m p) = some l) : Path (recNext m) p l := by
  induction fuel generalizing p l with
  | zero => exact absurd h (by simp [chainFrom])
  | succ fuel ih =>
    rw [chainFrom] at h
    by_cases h0 : recNext m p = 0
    · rw [if_pos h0, Option.some.injEq] at h
      rw [← h]
      exact h0
    · rw [if_neg h0, Option.map_eq_some_iff] at h
      obtain ⟨l', hl', rfl⟩ := h
      exact ⟨rfl, h0, ih hl'⟩

theorem Separate.fileOk (h : Separate m chains) (hmagic : MagicOk m) (hv : Validated m) :
    FileOk m chains := by
  have hlive : ∀ a, Linked chains a → Live (fileMap m) a := fun a ⟨i, hi, ha⟩ =>
    ⟨i, hi, chains i, h.chain i hi, ha⟩
  have hsingle : ∀ i < dbNumBuckets, ∀ j < dbNumBuckets, ∀ a, a ∈ chains i → a ∈ chains j →
      i = j := by
    intro i hi j hj a hai haj
    by_contra hij
    have hend := le_recEnd m a
    rcases h.apart i hi j hj a hai a haj (by simp [hij]) with hap | hap <;> omega
  refine ⟨⟨⟨fun a ⟨i, hi, ha⟩ => .inr (h.behind i hi a ha), ?_⟩,
    ⟨fun i hi => path_of_chainFrom (h.chain i hi), h.nodup, fun i hi a ha => ⟨i, hi, ha⟩, hsingle,
      h.home, h.clear⟩⟩, fun a ha => ?_, hv.table, hv.next_le, hmagic⟩
  · rintro a ⟨i, hi, ha⟩ b ⟨j, hj, hb⟩ hab
    exact h.apart i hi j hj a ha b hb (by simp [hab])
  · obtain ⟨i, hi, hai⟩ := ha
    exact ⟨h.behind i hi a hai, hv.behind a (hlive a ⟨i, hi, hai⟩)⟩

/-! ## Loads -/

section
variable {db db' : State} {chains : Nat → List Nat} {a : Nat}

theorem live_iff_linked (h : Wf db chains) : Live db a ↔ Linked chains a := by
  constructor
  · rintro ⟨i, hi, l, hl, ha⟩
    rw [bucketChain_eq h hi, Option.some.injEq] at hl
    exact ⟨i, hi, hl ▸ ha⟩
  · rintro ⟨i, hi, ha⟩
    exact ⟨i, hi, chains i, bucketChain_eq h hi, ha⟩

theorem FileStep.live {chains' : Nat → List Nat} {ent : Nat → Bytes × Bytes} {ws : List Write}
    (hs : FileStep db db' chains chains' ent ws) (hwf : Wf db chains)
    (hent : ∀ c, Linked chains c → ent c = entry db.mem c) :
    ∀ c, Live db c → Live db' c → entry db'.mem c = entry db.mem c := by
  obtain ⟨hsound, hdone⟩ := hs.sound
  intro c hc hc'
  rw [hdone c ((live_iff_linked hsound.wf).1 hc'), hent c ((live_iff_linked hwf).1 hc)]

variable (hfile : IsFile db) (h : FileOk db.mem chains)
include hfile h

end

/-- The files that the program leaves: its creation was cut short after `k` stores, or the file
was created and then used by any calls, of which each may have been cut short. -/
inductive FileLeft : Option Nat → Mem → Prop where
  | creating (z : Mem) (k : Nat) :
      FileLeft (some k) (applyWrites (zeroed z) (fileInitWrites.take k))
  | used {db : State} (h : FileReachable db) : FileLeft none db.mem

/-- An accepted file that the program has left is in order, unless its creation was cut short
between the stores of the version and of `next_offset`. -/
theorem FileLeft.fileOk {cut : Option Nat} {m : Mem} (hleft : FileLeft cut m)
    (hacc : fileCheck (fileMap m) = some 0) :
    (∃ chains, FileOk m chains) ∨ (cut = some 2 ∨ cut = some 3) ∧ nextOffset m = 0 := by
  cases hleft with
  | creating z k =>
    by_cases hearly : k < 2
    · rw [fileCheck_stored_lt z hearly] at hacc
      exact absurd hacc (by decide)
    · by_cases hmid : k ≤ 3
      · refine .inr ⟨?_, nextOffset_stored_mid z hmid⟩
        have hk : k = 2 ∨ k = 3 := by omega
        exact hk.imp (congrArg some) (congrArg some)
      · obtain ⟨j, rfl⟩ : ∃ j, k = j + 4 := ⟨k - 4, by omega⟩
        rw [stored_header]
        exact .inl ⟨_, fileOk_fileInitNew _⟩
  | used h => exact .inl (fileOk_of_reachable h).2

end CDbK8s.Db
