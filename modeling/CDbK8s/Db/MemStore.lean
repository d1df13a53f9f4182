import CDbK8s.Db.FileStore

/-!
# The store in memory, and both stores together

`MemOk` is the invariant of the store in memory: the table and every linked record lie in blocks the
heap has handed out.
-/

namespace CDbK8s.Db

open Base Lib.ByteMem Lib.LinkedCells List

/-! ## Memory mode -/

/-- The contract of `malloc` for a block of `size` bytes at `b`. -/
structure FreshBlock (db : State) (b size : Nat) : Prop where
  ne_zero : b ≠ 0
  le : b + size ≤ 2 ^ 64
  apart : ∀ c ∈ db.blocks, b + size ≤ c.1 ∨ c.1 + c.2 ≤ b

/-- The invariant of a database in memory: its table and its records are blocks. -/
structure MemOk (db : State) (chains : Nat → List Nat) : Prop where
  memory : db.dbFile = false
  layout : Layout db.mem db.dbBuckets chains
  table : (db.dbBuckets, tableSize) ∈ db.blocks
  owned : ∀ a, Linked chains a → (a, recEnd db.mem a - a) ∈ db.blocks

section
variable {db : State} {chains : Nat → List Nat} {key val : Slice} {l1 l3 : List Nat} {a b : Nat}
variable (h : MemOk db chains)
include h

theorem MemOk.wf : Wf db chains := by
  refine ⟨h.layout, fun i hi => ?_, fun hfile => by simp [h.memory] at hfile⟩
  have hsub : chains i ⊆ db.blocks.map Prod.fst := fun a ha =>
    mem_map.2 ⟨_, h.owned a ⟨i, hi, ha⟩, rfl⟩
  have hlen := (subperm_of_subset (h.layout.chained.nodup i hi) hsub).length_le
  rw [length_map] at hlen
  rw [State.walkFuel]
  omega

theorem MemOk.place {size : Nat} (hb : FreshBlock db b size) : Place db chains b size := by
  refine ⟨hb.ne_zero, hb.le, ⟨hb.apart _ h.table, fun a ha => ?_⟩,
    fun hfile => by simp [h.memory] at hfile⟩
  have hap := hb.apart _ (h.owned a ha)
  omega

omit h in
theorem delWrites_mem (h : db.dbFile = false) (a : Nat) : delWrites db a = [] := by
  simp [delWrites, h]

theorem MemOk.table_ne (ha : Linked chains a) : db.dbBuckets ≠ a := by
  have hend := le_recEnd db.mem a
  have htab : 0 < tableSize := by decide
  rcases h.layout.arena.offTable a ha with hoff | hoff <;> omega

omit h in
theorem mem_filter_blocks {bs : List (Nat × Nat)} {c n : Nat} (hc : (c, n) ∈ bs) (hne : c ≠ a) :
    (c, n) ∈ bs.filter fun x => decide (x.1 ≠ a) :=
  mem_filter.2 ⟨hc, by simpa using hne⟩

theorem memStep_del (hf : Found db chains key l1 a l3) :
    ∃ db', step db (.del key) = some (.code 0, db') ∧ MemOk db' (delChains chains key l1 l3) ∧
      ∀ c, Linked (delChains chains key l1 l3) c → entry db'.mem c = entry db.mem c := by
  have hc := commit_del h.wf hf
  have hbody := (h.layout.unlink (calcHash_lt _) hf.split).2
  have hfile : (db.stores [unchainWrite db key l1 a]).dbFile = false := by
    exact h.memory
  refine ⟨delRec (db.stores [unchainWrite db key l1 a]) a, ?_, ?_⟩
  · simp [step, dbDel_found h.wf hf]
  · rw [delRec_eq, delWrites_mem hfile, stores_stores, delBlocks, hfile, append_nil]
    refine ⟨⟨?_, ?_, ?_, fun c hc' => ?_⟩, fun c hc' => ?_⟩
    · exact h.memory
    · exact hc.layout
    · exact mem_filter_blocks h.table (h.table_ne hf.linked)
    · obtain ⟨hold, hne⟩ := linked_delChains h.wf hf hc'
      rw [stores_mem]
      have hend : recEnd (applyWrites db.mem [unchainWrite db key l1 a]) c = recEnd db.mem c :=
        (hbody c hold).recEnd_eq
      rw [hend]
      exact mem_filter_blocks (h.owned c hold) hne
    · exact hc.entries c hc'

theorem owned_put (hb : FreshBlock db b (recSize key val)) {l2 : List Nat}
    (hsplit : chains (calcHash key.bytes) = l1 ++ l2) (hsub : l3 <:+ l2) {q : Nat}
    (hq : IsLink db.dbBuckets (Linked chains) q) (hpath : Path (recNext db.mem) q l3) {c : Nat}
    (hc : Linked chains c ∨ c = b) :
    (c, recEnd (applyWrites db.mem (newWrites db b key val q ++ [linkWrite db key l1 b])) c - c) ∈
      (b, recSize key val) :: db.blocks := by
  have hplace := h.place hb
  rw [((link_newWrites h.wf hplace hq hpath hsplit hsub).2 c hc).recEnd_eq]
  rcases hc with hc | rfl
  · rw [(sameBody_of_avoids (newWrites_avoid h.wf hplace q) hc).recEnd_eq]
    exact .tail _ (h.owned c hc)
  · rw [(newRec_newWrites h.wf hplace q).2, Nat.add_sub_cancel_left]
    exact mem_cons_self

theorem memStep_set (hspot : Spot db chains key l1 l3) (hb : FreshBlock db b (recSize key val)) :
    ∃ db', step db (.set key val (some b)) = some (.code 0, db') ∧
      MemOk db' (putChains chains key l1 b l3) ∧
      ∀ c, Linked (putChains chains key l1 b l3) c →
        entry db'.mem c = Function.update (entry db.mem) b (key.bytes, val.bytes) c := by
  have hplace : Place db chains b (recSize key val) := h.place hb
  have halloc : allocAt db (recSize key val) (some b) = some b := by
    simp [allocAt, h.memory]
  have hblocks : allocBlocks db b (recSize key val) = (b, recSize key val) :: db.blocks := by
    simp [allocBlocks, h.memory]
  cases hspot with
  | front hm =>
    have hsplit : chains (calcHash key.bytes) = [] ++ chains (calcHash key.bytes) := rfl
    have hc := commit_insert h.wf hplace
    refine ⟨{ db.stores (insertWrites db b key val ++ [linkWrite db key [] b]) with
      blocks := (b, recSize key val) :: db.blocks }, ?_, ⟨?_, ?_, ?_, fun c hc' => ?_⟩,
      fun c hc' => ?_⟩
    · simp [step, dbSet_missing h.wf hm halloc, hblocks]
    · rw [stores_dbFile]
      exact h.memory
    · rw [stores_mem, stores_dbBuckets]
      exact hc.layout
    · rw [stores_dbBuckets]
      exact .tail _ h.table
    · rw [stores_mem]
      exact owned_put h hb hsplit (suffix_refl _) (isLink_slot db _ key)
        (h.layout.path (calcHash_lt _)) (linked_putChains hsplit (suffix_refl _) hc')
    · rw [stores_mem]
      exact hc.entries c hc'
  | @taken _ _ a hf =>
    have hc := commit_replace h.wf hplace hf
    have hfile : (replaceState db b key val l1 a).dbFile = false := by
      rw [replaceState_dbFile]
      exact h.memory
    refine ⟨delRec (replaceState db b key val l1 a) a, ?_, ?_⟩
    · simp [step, dbSet_found h.wf hf halloc]
    · rw [delRec_eq, delWrites_mem hfile, replaceState_stores, delBlocks, hfile,
        show (replaceState db b key val l1 a).blocks = _ from hblocks]
      refine ⟨⟨?_, ?_, ?_, fun c hc' => ?_⟩, fun c hc' => ?_⟩
      · rw [stores_dbFile]
        exact h.memory
      · rw [stores_mem, stores_dbBuckets]
        exact hc.layout
      · rw [stores_dbBuckets]
        exact mem_filter_blocks (.tail _ h.table) (h.table_ne hf.linked)
      · obtain ⟨hold, hne⟩ := linked_replace h.wf hplace hf hc'
        rw [stores_mem]
        exact mem_filter_blocks (owned_put h hb hf.split (suffix_cons a _)
          (.inr hf.linked) (hf.path h.wf) hold) hne
      · rw [stores_mem]
        exact hc.entries c hc'

end

/-! ## Either store -/

/-- The invariant of either backend. -/
def Sound (db : State) (chains : Nat → List Nat) : Prop :=
  (IsFile db ∧ FileOk db.mem chains) ∨ MemOk db chains

/-- The record for `key` and `val` still fits into the file, or `malloc` succeeds. -/
inductive Room (db : State) (key val : Slice) (alloc : Option Nat) : Prop where
  | file (hfile : db.dbFile = true) (hfit : nextOffset db.mem + recSize key val ≤ db.dbSize)
  | memory (hmem : db.dbFile = false) (b : Nat) (halloc : alloc = some b)
      (hb : FreshBlock db b (recSize key val))

/-- The address `x` belongs to the store. -/
inductive State.Owns (db : State) (x : Nat) : Prop where
  | file (hfile : db.dbFile = true) (hx : x < db.dbSize)
  | memory (hmem : db.dbFile = false) (c : Nat × Nat) (hc : c ∈ db.blocks) (hlo : c.1 ≤ x)
      (hhi : x < c.1 + c.2)

variable {db : State} {chains : Nat → List Nat} {key val : Slice} {alloc : Option Nat}
  {l1 l3 : List Nat} {a : Nat}

theorem Sound.wf (h : Sound db chains) : Wf db chains := by
  rcases h with ⟨hfile, hok⟩ | hmem
  · exact hok.wf hfile
  · exact hmem.wf

theorem FileStep.sound {db' : State} {chains' : Nat → List Nat} {ent : Nat → Bytes × Bytes}
    {ws : List Write} (h : FileStep db db' chains chains' ent ws) :
    Sound db' chains' ∧ ∀ c, Linked chains' c → entry db'.mem c = ent c :=
  ⟨.inl ⟨h.isFile, h.after.1⟩, h.after.2⟩

theorem step_del_found (h : Sound db chains) (hf : Found db chains key l1 a l3) :
    ∃ db', step db (.del key) = some (.code 0, db') ∧ Sound db' (delChains chains key l1 l3) ∧
      ∀ c, Linked (delChains chains key l1 l3) c → entry db'.mem c = entry db.mem c := by
  rcases h with ⟨hfile, hok⟩ | hmem
  · obtain ⟨db', hstep, hs⟩ := fileStep_del hfile hok hf
    exact ⟨db', hstep, hs.sound⟩
  · obtain ⟨db', hstep, hok, hent⟩ := memStep_del hmem hf
    exact ⟨db', hstep, .inr hok, hent⟩

theorem room_file (hfile : IsFile db) (hroom : Room db key val alloc) :
    nextOffset db.mem + recSize key val ≤ fileSize := by
  cases hroom with
  | file _ hfit => exact hfile.size ▸ hfit
  | memory hmem => simp [hfile.file] at hmem

theorem room_mem (hmem : MemOk db chains) (hroom : Room db key val alloc) :
    ∃ b, alloc = some b ∧ FreshBlock db b (recSize key val) := by
  cases hroom with
  | file hfile => simp [hmem.memory] at hfile
  | memory _ b halloc hb => exact ⟨b, halloc, hb⟩

theorem step_set (h : Sound db chains) (hspot : Spot db chains key l1 l3)
    (hroom : Room db key val alloc) :
    ∃ b db', ¬ Linked chains b ∧ step db (.set key val alloc) = some (.code 0, db') ∧
      Sound db' (putChains chains key l1 b l3) ∧
      ∀ c, Linked (putChains chains key l1 b l3) c →
        entry db'.mem c = Function.update (entry db.mem) b (key.bytes, val.bytes) c := by
  rcases h with ⟨hfile, hok⟩ | hmem
  · have hfit := room_file hfile hroom
    obtain ⟨db', -, q, post, hstep, -, -, hs⟩ := fileStep_set hfile hok hspot hfit _
    exact ⟨_, db', (place_file hfile hok hfit).not_linked (recSize_pos key val), hstep, hs.sound⟩
  · obtain ⟨b, rfl, hb⟩ := room_mem hmem hroom
    obtain ⟨db', hstep, hok, hent⟩ := memStep_set hmem hspot hb
    exact ⟨b, db', (hmem.place hb).not_linked (recSize_pos key val), hstep, .inr hok, hent⟩

theorem FileOk.outside {m m' : Mem} (h : FileOk m chains) (hagree : AgreeOn m m' 0 fileSize) :
    FileOk m' chains ∧ ∀ a, Linked chains a → entry m' a = entry m a := by
  have hsize : sizeofHdr + tableSize ≤ fileSize := by decide
  have hrec : ∀ a, Linked chains a → AgreeOn m m' a (recEnd m a) := fun a ha => by
    have hin := (h.inside a ha).2
    have hnext := h.next_le
    exact hagree.mono (Nat.zero_le _) (by omega)
  have hoff : nextOffset m' = nextOffset m :=
    readWord_congr (hagree.mono (Nat.zero_le _) (by decide))
  refine ⟨⟨h.layout.congr (hagree.mono (Nat.zero_le _) hsize) hrec, fun a ha => ?_, ?_, ?_,
    h.magic.congr (hagree.mono le_rfl (by decide))⟩,
    fun a ha => (sameBody_of_agree (hrec a ha)).entry_eq⟩
  · rw [hoff, (sameBody_of_agree (hrec a ha)).recEnd_eq]
    exact h.inside a ha
  · rw [hoff]
    exact h.start_le
  · rw [hoff]
    exact h.next_le

theorem MemOk.outside (h : MemOk db chains) {m : Mem}
    (hagree : ∀ c ∈ db.blocks, AgreeOn db.mem m c.1 (c.1 + c.2)) :
    MemOk { db with mem := m } chains ∧ ∀ a, Linked chains a → entry m a = entry db.mem a := by
  have hrec : ∀ a, Linked chains a → AgreeOn db.mem m a (recEnd db.mem a) := fun a ha => by
    exact (hagree _ (h.owned a ha)).mono le_rfl (by simp only; omega)
  refine ⟨⟨h.memory, h.layout.congr (hagree _ h.table) hrec, h.table, fun a ha => ?_⟩,
    fun a ha => (sameBody_of_agree (hrec a ha)).entry_eq⟩
  rw [(sameBody_of_agree (hrec a ha)).recEnd_eq]
  exact h.owned a ha

theorem Sound.outside (h : Sound db chains) {m : Mem} (hm : ∀ x, db.Owns x → m x = db.mem x) :
    Sound { db with mem := m } chains ∧ ∀ a, Linked chains a → entry m a = entry db.mem a := by
  rcases h with ⟨hfile, hok⟩ | hmem
  · have hagree : AgreeOn db.mem m 0 fileSize := fun x _ hx =>
      hm x (.file hfile.file (by rw [hfile.size]; exact hx))
    obtain ⟨hok', hent⟩ := hok.outside hagree
    exact ⟨.inl ⟨⟨hfile.file, hfile.size, hfile.buckets⟩, hok'⟩, hent⟩
  · obtain ⟨hok', hent⟩ := hmem.outside fun c hc x hlo hhi =>
      hm x (.memory hmem.memory c hc hlo hhi)
    exact ⟨.inr hok', hent⟩

end CDbK8s.Db
