import CDbK8s.Db.Commit

/-!
# What one operation does to the layout

The three operations, computed on a state whose layout spells `chains`.
-/

namespace CDbK8s.Db

open Base Lib.ByteMem Lib.LinkedCells List Function

variable {m : Mem} {a : Nat} {alloc : Option Nat} {key : Slice}
variable {chains : Nat → List Nat}

/-! ## Stores of a state -/

section
variable (db : State) (w : Write) (ws : List Write) (a v : Nat)

theorem stores_eq : db.stores ws =
    { db with mem := applyWrites db.mem ws, log := db.log ++ ws } := by
  induction ws generalizing db with
  | nil => simp [State.stores]
  | cons w ws ih =>
    have h : db.stores (w :: ws) = (db.store w).stores ws := rfl
    rw [h, ih]
    simp [State.store]

theorem store64_eq : db.store64 a v = db.stores [wordWrite 8 a v] := rfl

@[simp] theorem stores_mem : (db.stores ws).mem = applyWrites db.mem ws := by rw [stores_eq]

@[simp] theorem stores_log : (db.stores ws).log = db.log ++ ws := by rw [stores_eq]

@[simp] theorem stores_dbFile : (db.stores ws).dbFile = db.dbFile := by rw [stores_eq]

@[simp] theorem stores_dbSize : (db.stores ws).dbSize = db.dbSize := by rw [stores_eq]

@[simp] theorem stores_dbBuckets : (db.stores ws).dbBuckets = db.dbBuckets := by rw [stores_eq]

theorem stores_stores (vs : List Write) : (db.stores ws).stores vs = db.stores (ws ++ vs) := by
  simp [State.stores]

end

/-! ## A filled record -/

/-- `rec_size` of `create_rec`. -/
def recSize (key val : Slice) : Nat := sizeofRec + key.len + val.len

theorem recSize_mod (key val : Slice) :
    (sizeofRec + key.len + val.len) % 2 ^ 64 = recSize key val := by
  have hk : key.len < 2 ^ 62 := key.size_lt
  have hv : val.len < 2 ^ 62 := val.size_lt
  refine Nat.mod_eq_of_lt ?_
  rw [sizeofRec]
  omega

theorem fillWrites_range {val : Slice} {w : Write} (h : w ∈ fillWrites a key val) :
    a ≤ w.addr ∧ w.stop ≤ a + recSize key val := by
  rw [recSize, sizeofRec]
  simp only [fillWrites, mem_append, mem_cons, not_mem_nil, or_false] at h
  rcases h with ((rfl | rfl | rfl | rfl) | h) | h
  · simp [wordWrite, Write.stop]; omega
  · simp [wordWrite, Write.stop]; omega
  · simp [wordWrite, Write.stop]; omega
  · simp [wordWrite, Write.stop]; omega
  · have hr := copyWrites_range h
    have hlen : key.bytes.length = key.len := rfl
    rw [sizeofRec] at hr
    omega
  · have hr := copyWrites_range h
    have hlen : val.bytes.length = val.len := rfl
    rw [sizeofRec] at hr
    omega

/-- The fields and the data of a record that `fillWrites` has just filled. -/
theorem fillWrites_spec (m : Mem) (ws : List Write) (a : Nat) (key val : Slice) :
    let m' := applyWrites m (ws ++ fillWrites a key val)
    recFlags m' a = 0 ∧ recKeyLen m' a = key.len ∧ recValLen m' a = val.len ∧
      recKey m' a = key.bytes ∧ recVal m' a = val.bytes := by
  intro m'
  have hkl : key.bytes.length = key.len := rfl
  have hk62 : key.len < 2 ^ 62 := key.size_lt
  have hv62 : val.len < 2 ^ 62 := val.size_lt
  -- the two copies lie behind the header of the record
  have hcopy : ∀ w ∈ copyWrites (a + sizeofRec) key.bytes ++
      copyWrites (a + sizeofRec + key.len) val.bytes, a + 32 ≤ w.addr := by
    intro w hw
    rcases mem_append.1 hw with hw | hw
    · have := copyWrites_range hw
      rw [sizeofRec] at this
      omega
    · have := copyWrites_range hw
      rw [sizeofRec] at this
      omega
  have hfields : ∀ (pre post : List Write) (f v : Nat), v < 2 ^ 62 → f + 8 ≤ a + 32 →
      fillWrites a key val = pre ++ wordWrite 8 f v :: (post ++
        (copyWrites (a + sizeofRec) key.bytes ++ copyWrites (a + sizeofRec + key.len) val.bytes)) →
      (∀ w ∈ post, w.Avoids f (f + 8)) → readWord m' 8 f = v := by
    intro pre post f v _ _ heq hpost
    have hm' : m' = applyWrites m ((ws ++ pre) ++ wordWrite 8 f v :: (post ++
        (copyWrites (a + sizeofRec) key.bytes ++
          copyWrites (a + sizeofRec + key.len) val.bytes))) := by
      simp [m', heq]
    rw [hm', readWord_applyWrites_wordWrite]
    · exact Nat.mod_eq_of_lt (by omega)
    · intro w hw
      rcases mem_append.1 hw with hw | hw
      · exact hpost w hw
      · exact .inr (by have := hcopy w hw; omega)
  have hflags : recFlags m' a = 0 :=
    hfields [wordWrite 8 a 0] [wordWrite 8 (a + 16) key.len, wordWrite 8 (a + 24) val.len]
      _ 0 (by omega) (by omega) (by simp [fillWrites])
      (by simp [Write.Avoids, wordWrite])
  have hkey : recKeyLen m' a = key.len :=
    hfields [wordWrite 8 a 0, wordWrite 8 (a + 8) 0] [wordWrite 8 (a + 24) val.len]
      _ _ hk62 (by omega) (by simp [fillWrites])
      (by simp [Write.Avoids, wordWrite])
  have hval : recValLen m' a = val.len :=
    hfields [wordWrite 8 a 0, wordWrite 8 (a + 8) 0, wordWrite 8 (a + 16) key.len] []
      _ _ hv62 (by omega) (by simp [fillWrites]) (by simp)
  refine ⟨hflags, hkey, hval, ?_, ?_⟩
  · rw [recKey, hkey]
    have hm' : m' = applyWrites m ((ws ++ [wordWrite 8 a 0, wordWrite 8 (a + 8) 0,
        wordWrite 8 (a + 16) key.len, wordWrite 8 (a + 24) val.len]) ++
        copyWrites (a + sizeofRec) key.bytes ++
          copyWrites (a + sizeofRec + key.len) val.bytes) := by
      simp [m', fillWrites]
    rw [hm']
    refine readBytes_applyWrites_copyWrites ?_
    intro w hw
    have := copyWrites_range hw
    exact .inr (by omega)
  · rw [recVal, hkey, hval]
    have hm' : m' = applyWrites m ((ws ++ [wordWrite 8 a 0, wordWrite 8 (a + 8) 0,
        wordWrite 8 (a + 16) key.len, wordWrite 8 (a + 24) val.len] ++
        copyWrites (a + sizeofRec) key.bytes) ++
          copyWrites (a + sizeofRec + key.len) val.bytes ++ []) := by
      simp [m', fillWrites]
    rw [hm']
    exact readBytes_applyWrites_copyWrites (by simp)

/-! ## The shared invariant -/

/-- The layout spells `chains`, walks have fuel, and the file header is clear of
the layout. -/
structure Wf (db : State) (chains : Nat → List Nat) : Prop where
  layout : Layout db.mem db.dbBuckets chains
  fuel : ∀ i < dbNumBuckets, (chains i).length < db.walkFuel
  header : db.dbFile = true → FreeRange db.mem db.dbBuckets chains 0 sizeofHdr

theorem calcHash_lt (key : Bytes) : calcHash key < dbNumBuckets :=
  Nat.mod_lt _ (by decide)

theorem keyMatch_iff : keyMatch m key a = true ↔ recData m a key.len = key.bytes := by
  rw [keyMatch, decide_eq_true_iff]
  exact sliceCmpmem_eq_zero_iff (length_readBytes ..)

theorem keyMatch_of_recKey_eq (h : recKey m a = key.bytes) : keyMatch m key a = true := by
  have hlen : recKeyLen m a = key.len := by
    have := congrArg List.length h
    rwa [recKey, recData, length_readBytes] at this
  rw [recKey, hlen] at h
  exact keyMatch_iff.2 h

/-! ## Lookup -/

/-- No record in the bucket of `key` matches it. -/
def Missing (db : State) (chains : Nat → List Nat) (key : Slice) : Prop :=
  ∀ c ∈ chains (calcHash key.bytes), keyMatch db.mem key c = false

/-- The first matching record in the bucket of `key` is `a`, between the records
`l1` and `l3`. -/
structure Found (db : State) (chains : Nat → List Nat) (key : Slice) (l1 : List Nat) (a : Nat)
    (l3 : List Nat) : Prop where
  split : chains (calcHash key.bytes) = l1 ++ a :: l3
  skip : ∀ c ∈ l1, keyMatch db.mem key c = false
  hit : keyMatch db.mem key a = true

section
variable {db : State} {chains : Nat → List Nat} {key : Slice} {l1 l3 : List Nat} {a : Nat}

theorem missing_or_found (db : State) (chains : Nat → List Nat) (key : Slice) :
    Missing db chains key ∨ ∃ l1 a l3, Found db chains key l1 a l3 := by
  cases hf : (chains _).find? _ with
  | none =>
    refine .inl fun c hc => ?_
    simpa using List.find?_eq_none.1 hf c hc
  | some a =>
    obtain ⟨hhit, l1, l3, hsplit, hskip⟩ := List.find?_eq_some_iff_append.1 hf
    exact .inr ⟨l1, a, l3, hsplit, fun c hc => by simpa using hskip c hc, hhit⟩

theorem Found.linked (hf : Found db chains key l1 a l3) : Linked chains a :=
  ⟨calcHash key.bytes, calcHash_lt _, by rw [hf.split]; simp⟩

theorem Found.path (hf : Found db chains key l1 a l3) (h : Wf db chains) :
    Path (recNext db.mem) a l3 := by
  have hp := h.layout.path (calcHash_lt key.bytes)
  rw [hf.split] at hp
  exact hp.suffix.2.2

/-- Where a set puts its record: in front of the bucket, or in the place of the record that
matches. -/
inductive Spot (db : State) (chains : Nat → List Nat) (key : Slice) :
    List Nat → List Nat → Prop where
  | front (hm : Missing db chains key) : Spot db chains key [] (chains (calcHash key.bytes))
  | taken {l1 l3 : List Nat} {a : Nat} (hf : Found db chains key l1 a l3) : Spot db chains key l1 l3

theorem exists_spot (db : State) (chains : Nat → List Nat) (key : Slice) :
    ∃ l1 l3, Spot db chains key l1 l3 := by
  rcases missing_or_found db _ key with hm | ⟨l1, a, l3, hf⟩
  · exact ⟨_, _, .front hm⟩
  · exact ⟨l1, l3, .taken hf⟩

variable (h : Wf db chains)
include h

theorem chainWalk_missing (hm : Missing db chains key) :
    ∃ pp, chainWalk db key = some pp ∧ recNext db.mem pp = 0 := by
  have hpath := h.layout.path (calcHash_lt key.bytes)
  have hnone : (chains (calcHash key.bytes)).find? (keyMatch db.mem key) = none :=
    List.find?_eq_none.2 fun c hc => by simp [hm c hc]
  refine ⟨_, walk_path _ hpath _ (h.fuel _ (calcHash_lt _)), ?_⟩
  rw [cell_endOf_takeWhile _ hpath, hnone]
  rfl

theorem chainWalk_found (hf : Found db chains key l1 a l3) :
    chainWalk db key = some (endOf (db.slot (calcHash key.bytes)) l1) ∧
      recNext db.mem (endOf (db.slot (calcHash key.bytes)) l1) = a ∧ a ≠ 0 := by
  have hpath := h.layout.path (calcHash_lt key.bytes)
  have htake : (chains (calcHash key.bytes)).takeWhile (fun c => !keyMatch db.mem key c) = l1 := by
    rw [hf.split, takeWhile_append_of_pos fun c hc => by simp [hf.skip c hc],
      takeWhile_cons_of_neg (by simp [hf.hit]), append_nil]
  have hwalk := walk_path (keyMatch db.mem key) hpath _ (h.fuel _ (calcHash_lt _))
  rw [htake] at hwalk
  rw [hf.split] at hpath
  exact ⟨hwalk, hpath.suffix.1, hpath.suffix.2.1⟩

theorem dbGet_missing (hm : Missing db chains key) : dbGet db key = some none := by
  obtain ⟨pp, hwalk, hnext⟩ := chainWalk_missing h hm
  simp [dbGet, hashFind, hwalk, hnext]

theorem dbGet_found (hf : Found db chains key l1 a l3) :
    dbGet db key = some (some (recVal db.mem a)) := by
  obtain ⟨hwalk, hnext, ha⟩ := chainWalk_found h hf
  simp [dbGet, hashFind, hwalk, hnext, ha]

end

/-! ## Deletion -/

/-- The stores of `del_rec` in file mode. -/
def delWrites (db : State) (a : Nat) : List Write :=
  if db.dbFile then
    [wordWrite 8 (a + 8) (recFlags db.mem a ||| dbRecDel), wordWrite 8 hdrNumDel
        (readWord (applyWrite db.mem (wordWrite 8 (a + 8) (recFlags db.mem a ||| dbRecDel)))
          8 hdrNumDel + 1)]
  else []

/-- The blocks that `del_rec` leaves. -/
def delBlocks (db : State) (a : Nat) : List (Nat × Nat) :=
  if db.dbFile then db.blocks else db.blocks.filter fun b => b.1 ≠ a

theorem delRec_eq (db : State) (a : Nat) :
    delRec db a = { db.stores (delWrites db a) with blocks := delBlocks db a } := by
  rw [delRec, delWrites, delBlocks]
  cases hf : db.dbFile with
  | true => rfl
  | false => simp [hf]

theorem delWrites_avoid {db : State} {hi : Nat} (hhi : a + 32 ≤ hi)
    (hfree : FreeRange db.mem db.dbBuckets chains a hi)
    (hheader : db.dbFile = true → FreeRange db.mem db.dbBuckets chains 0 sizeofHdr) :
    ∀ w ∈ delWrites db a, AvoidsLayout db.mem db.dbBuckets chains w := by
  intro w hw
  cases hf : db.dbFile with
  | false => simp [delWrites, hf] at hw
  | true =>
    simp only [delWrites, hf, if_true, mem_cons, not_mem_nil, or_false] at hw
    rcases hw with rfl | rfl
    · exact hfree.avoids (by simp [wordWrite]) (by simp [wordWrite, Write.stop]; omega)
    · exact (hheader hf).avoids (by simp [wordWrite])
        (by simp [wordWrite, Write.stop, hdrNumDel, sizeofHdr])

theorem Arena.freeRange {m' : Mem} {tbl : Nat} {R : Nat → Prop} (h : Arena m tbl R) (ha : R a)
    (hold : ∀ c, Linked chains c → R c ∧ c ≠ a ∧ SameBody m m' c) :
    FreeRange m' tbl chains a (recEnd m a) := by
  refine ⟨h.offTable a ha, fun c hc => ?_⟩
  obtain ⟨hR, hne, hbody⟩ := hold c hc
  rw [hbody.recEnd_eq]
  exact h.apart a ha c hR hne.symm

theorem FreeRange.congr {m' : Mem} {tbl lo hi : Nat} {chains' : Nat → List Nat}
    (h : FreeRange m tbl chains lo hi)
    (hold : ∀ c, Linked chains' c → (Linked chains c ∧ SameBody m m' c) ∨ hi ≤ c) :
    FreeRange m' tbl chains' lo hi := by
  refine ⟨h.table, fun c hc => ?_⟩
  rcases hold c hc with ⟨hc, hbody⟩ | hc
  · rw [hbody.recEnd_eq]
    exact h.record c hc
  · exact .inl hc

section
variable {db : State} {chains : Nat → List Nat} {key : Slice} {l1 l3 : List Nat} {a : Nat}

/-- The chains after the record between `l1` and `l3` is taken out. -/
def delChains (chains : Nat → List Nat) (key : Slice) (l1 l3 : List Nat) : Nat → List Nat :=
  update chains (calcHash key.bytes) (l1 ++ l3)

/-- The store of `hash_del` that unchains the record at `a`. -/
def unchainWrite (db : State) (key : Slice) (l1 : List Nat) (a : Nat) : Write :=
  wordWrite 8 (endOf (db.slot (calcHash key.bytes)) l1) (recNext db.mem a)

variable (h : Wf db chains)
include h

theorem dbDel_missing (hm : Missing db chains key) : dbDel db key = some (-1, db) := by
  obtain ⟨pp, hwalk, hnext⟩ := chainWalk_missing h hm
  simp [dbDel, hashDel, hwalk, hnext]

variable (hf : Found db chains key l1 a l3)
include hf

theorem dbDel_found : dbDel db key = some (0, delRec (db.stores [unchainWrite db key l1 a]) a) := by
  obtain ⟨hwalk, hnext, ha⟩ := chainWalk_found h hf
  simp only [dbDel, hashDel, hwalk, hnext, ha]
  rfl

theorem linked_delChains {c : Nat} (hc : Linked (delChains chains key l1 l3) c) :
    Linked chains c ∧ c ≠ a := by
  have hi := calcHash_lt key.bytes
  have hnodup := h.layout.chained.nodup _ hi
  rw [hf.split] at hnodup
  obtain ⟨j, hj, hcj⟩ := hc
  by_cases hji : j = calcHash key.bytes
  · rw [delChains, hji, update_self] at hcj
    refine ⟨⟨_, hi, ?_⟩, ?_⟩
    · rw [hf.split]
      rcases mem_append.1 hcj with hc | hc <;> simp [hc]
    · rintro rfl
      exact (nodup_cons.1 (nodup_middle.1 hnodup)).1 hcj
  · rw [delChains, update_of_ne hji] at hcj
    refine ⟨⟨j, hj, hcj⟩, ?_⟩
    rintro rfl
    exact hji (h.layout.chained.single j hj _ hi c hcj (by rw [hf.split]; simp))

theorem commit_del :
    Commit db.mem db.dbBuckets chains (delChains chains key l1 l3) (entry db.mem) []
      (unchainWrite db key l1 a) (delWrites (db.stores [unchainWrite db key l1 a]) a) := by
  obtain ⟨hlayout, hbody⟩ := h.layout.unlink (calcHash_lt _) hf.split
  have hold : ∀ c, Linked (delChains chains key l1 l3) c → Linked chains c ∧ c ≠ a ∧
      SameBody db.mem (applyWrite db.mem (unchainWrite db key l1 a)) c := fun c hc =>
    ⟨(linked_delChains h hf hc).1, (linked_delChains h hf hc).2,
      hbody c (linked_delChains h hf hc).1⟩
  refine ⟨by simp, hlayout, fun c hc => (hold c hc).2.2.entry_eq, ?_⟩
  refine delWrites_avoid (le_recEnd db.mem a) ?_ fun hfile => ?_
  · exact h.layout.arena.freeRange hf.linked hold
  · exact (h.header hfile).congr fun c hc => .inl ⟨(hold c hc).1, (hold c hc).2.2⟩

end

/-! ## Storing -/

/-- The stores that `create_rec` makes to the header in file mode. -/
def allocWrites (db : State) (size : Nat) : List Write :=
  if db.dbFile then
    [wordWrite 8 hdrNextOffset (db.load64 hdrNextOffset + size),
      wordWrite 8 hdrNumRec (db.load64 hdrNumRec + 1)]
  else []

/-- The blocks after `create_rec` has allocated the record at `b`. -/
def allocBlocks (db : State) (b size : Nat) : List (Nat × Nat) :=
  if db.dbFile then db.blocks else (b, size) :: db.blocks

/-- The address `allocRec` gives, if any. -/
def allocAt (db : State) (size : Nat) (alloc : Option Nat) : Option Nat :=
  if db.dbFile then
    if (db.load64 hdrNextOffset + size) % 2 ^ 64 > db.dbSize then none
    else some (db.load64 hdrNextOffset)
  else alloc

theorem allocRec_eq (db : State) (size : Nat) (alloc : Option Nat) :
    allocRec db size alloc = (allocAt db size alloc).map fun b =>
      (b, { db.stores (allocWrites db size) with blocks := allocBlocks db b size }) := by
  unfold allocRec
  rw [allocAt, allocWrites]
  cases hf : db.dbFile with
  | true =>
    have hnum : (db.store64 hdrNextOffset (db.load64 hdrNextOffset + size)).load64 hdrNumRec =
        db.load64 hdrNumRec :=
      readWord_congr (agreeOn_applyWrite (.inr (by simp [wordWrite, hdrNumRec, hdrNextOffset])))
    simp only [if_true, hnum]
    split
    · rfl
    · simp only [allocBlocks, hf]
      rfl
  | false =>
    cases alloc with
    | none => rfl
    | some b => simp [allocBlocks, hf]

/-- A place for a record of `size` bytes outside the layout. -/
structure Place (db : State) (chains : Nat → List Nat) (b size : Nat) : Prop where
  ne_zero : b ≠ 0
  le : b + size ≤ 2 ^ 64
  free : FreeRange db.mem db.dbBuckets chains b (b + size)
  header : db.dbFile = true → sizeofHdr ≤ b

variable {db : State} {chains : Nat → List Nat} {key val : Slice} {l1 l3 : List Nat} {a b : Nat}

/-- The stores of `create_rec`. -/
def createWrites (db : State) (b : Nat) (key val : Slice) : List Write :=
  allocWrites db (recSize key val) ++ fillWrites b key val

/-- The stores of `hash_put` before the new record at `b` is linked: `create_rec`,
and the link of the new record copied from the link at `q`. -/
def newWrites (db : State) (b : Nat) (key val : Slice) (q : Nat) : List Write :=
  createWrites db b key val ++
    [wordWrite 8 b (recNext (applyWrites db.mem (createWrites db b key val)) q)]

/-- The state after `create_rec` has made the record at `b`. -/
def createState (db : State) (b : Nat) (key val : Slice) : State :=
  { db.stores (createWrites db b key val) with blocks := allocBlocks db b (recSize key val) }

theorem createState_stores (db : State) (b : Nat) (key val : Slice) (ws : List Write) :
    (createState db b key val).stores ws =
      { db.stores (createWrites db b key val ++ ws) with
        blocks := allocBlocks db b (recSize key val) } := by
  simp [createState, stores_eq, applyWrites_append]

theorem createState_recNext (db : State) (b : Nat) (key val : Slice) (q : Nat) :
    recNext (createState db b key val).mem q =
      recNext (applyWrites db.mem (createWrites db b key val)) q := by
  simp [createState]

theorem createState_slot (db : State) (b : Nat) (key val : Slice) (i : Nat) :
    (createState db b key val).slot i = db.slot i := by
  simp [State.slot, createState]

theorem createRec_eq (db : State) (key val : Slice) (alloc : Option Nat) :
    createRec db key val alloc = (allocAt db (recSize key val) alloc).map fun b =>
      (b, createState db b key val) := by
  rw [createRec, recSize_mod, allocRec_eq]
  cases allocAt db _ _ with
  | none => rfl
  | some b =>
    simp [createState, createWrites, stores_eq, applyWrites_append]

theorem recNext_of_avoids {ws : List Write}
    (hws : ∀ w ∈ ws, AvoidsLayout db.mem db.dbBuckets chains w) {q : Nat}
    (hq : IsLink db.dbBuckets (Linked chains) q) :
    recNext (applyWrites db.mem ws) q = recNext db.mem q := by
  rcases hq with ⟨i, hi, rfl⟩ | hq
  · have htab : tableSize = dbNumBuckets * 8 := rfl
    refine recNext_of_agreeOn ((agreeOn_applyWrites fun w hw => (hws w hw).1).mono ?_ le_rfl) ?_
    · omega
    · omega
  · have hend := le_recEnd db.mem q
    exact recNext_of_agreeOn (agreeOn_record hws hq) (by omega)

/-- The chains after the record at `b` is put between `l1` and `l3`. -/
def putChains (chains : Nat → List Nat) (key : Slice) (l1 : List Nat) (b : Nat)
    (l3 : List Nat) : Nat → List Nat :=
  update chains (calcHash key.bytes) (l1 ++ b :: l3)

/-- The store of `hash_put` that links the record at `b` behind the records `l1`. -/
def linkWrite (db : State) (key : Slice) (l1 : List Nat) (b : Nat) : Write :=
  wordWrite 8 (endOf (db.slot (calcHash key.bytes)) l1) b

theorem linked_putChains {l2 : List Nat} (hsplit : chains (calcHash key.bytes) = l1 ++ l2)
    (hsub : l3 <:+ l2) {c : Nat} (hc : Linked (putChains chains key l1 b l3) c) :
    Linked chains c ∨ c = b := by
  have hin : ∀ x ∈ l1 ++ l2, Linked chains x := fun x hx =>
    ⟨_, calcHash_lt _, by rw [hsplit]; exact hx⟩
  rcases linked_update hc with hc | hc
  · rcases mem_append.1 hc with hc | hc
    · exact .inl (hin c (mem_append_left _ hc))
    · rcases mem_cons.1 hc with rfl | hc
      · exact .inr rfl
      · exact .inl (hin c (mem_append_right _ (hsub.subset hc)))
  · exact .inl hc

section
variable (h : Wf db chains) (hb : Place db chains b (recSize key val))
include h hb

theorem createWrites_avoid :
    ∀ w ∈ createWrites db b key val, AvoidsLayout db.mem db.dbBuckets chains w := by
  intro w hw
  rcases mem_append.1 hw with hw | hw
  · cases hf : db.dbFile with
    | false => simp [allocWrites, hf] at hw
    | true =>
      simp only [allocWrites, hf, if_true, mem_cons, not_mem_nil, or_false] at hw
      rcases hw with rfl | rfl
      · exact (h.header hf).avoids (by simp [wordWrite])
          (by simp [wordWrite, Write.stop, hdrNextOffset, sizeofHdr])
      · exact (h.header hf).avoids (by simp [wordWrite])
          (by simp [wordWrite, Write.stop, hdrNumRec, sizeofHdr])
  · exact hb.free.avoids (fillWrites_range hw).1 (fillWrites_range hw).2

theorem newWrites_avoid (q : Nat) :
    ∀ w ∈ newWrites db b key val q, AvoidsLayout db.mem db.dbBuckets chains w := by
  intro w hw
  rcases mem_append.1 hw with hw | hw
  · exact createWrites_avoid h hb w hw
  · rw [mem_singleton.1 hw]
    refine hb.free.avoids (by simp [wordWrite]) ?_
    simp [wordWrite, Write.stop, recSize, sizeofRec]
    omega

theorem newRec_newWrites (q : Nat) :
    NewRec (applyWrites db.mem (newWrites db b key val q)) db.dbBuckets chains b key.bytes
        val.bytes ∧
      recEnd (applyWrites db.mem (newWrites db b key val q)) b = b + recSize key val := by
  obtain ⟨hflags, hkl, hvl, hkey, hval⟩ := fillWrites_spec _ _ b key val
  have hbody : SameBody (applyWrites db.mem (createWrites db b key val))
      (applyWrites db.mem (newWrites db b key val q)) b := by
    rw [newWrites, applyWrites_append]
    exact sameBody_of_agreeOn (agreeOn_applyWrites fun w hw => by
      rw [mem_singleton.1 hw]
      exact .inl (by simp [wordWrite, Write.stop]))
  have hend : recEnd (applyWrites db.mem (newWrites db b key val q)) b = b + recSize key val := by
    rw [hbody.recEnd_eq, recEnd, createWrites, hkl, hvl, recSize]
    omega
  have hpos : 0 < recSize key val := by
    rw [recSize, sizeofRec]
    omega
  refine ⟨⟨hb.ne_zero, by have := hb.le; omega, ?_, ?_, ?_, ?_⟩, hend⟩
  · rw [hend]
    refine hb.free.congr fun c hc => .inl ⟨hc, ?_⟩
    exact sameBody_of_avoids (newWrites_avoid h hb q) hc
  · rw [hbody.flags]
    exact hflags
  · rw [hbody.key]
    exact hkey
  · rw [hbody.val]
    exact hval

variable {q : Nat} (hq : IsLink db.dbBuckets (Linked chains) q)
  (hpath : Path (recNext db.mem) q l3)
include hq hpath

theorem path_newWrites (hl3 : ∀ c ∈ l3, Linked chains c) :
    Path (recNext (applyWrites db.mem (newWrites db b key val q))) b l3 := by
  have hlink : ∀ c, IsLink db.dbBuckets (Linked chains) c →
      recNext (applyWrites db.mem (newWrites db b key val q)) c = recNext db.mem c :=
    fun c hc => recNext_of_avoids (newWrites_avoid h hb q) hc
  have hlt := readWord_lt (applyWrites db.mem (createWrites db b key val)) 8 q
  have hnew : recNext (applyWrites db.mem (newWrites db b key val q)) b = recNext db.mem q := by
    rw [newWrites, applyWrites_append]
    refine (recNext_storeLink_self (by simpa [recNext] using hlt)).trans ?_
    exact recNext_of_avoids (createWrites_avoid h hb) hq
  refine (hpath.congr fun x hx => ?_).of_link_eq (hnew.trans (hlink q hq).symm)
  rcases mem_cons.1 hx with rfl | hx
  · exact hlink x hq
  · exact hlink x (.inr (hl3 x hx))

variable {l2 : List Nat} (hsplit : chains (calcHash key.bytes) = l1 ++ l2) (hsub : l3 <:+ l2)
include hsplit hsub

theorem link_newWrites :
    Layout (applyWrites db.mem (newWrites db b key val q ++ [linkWrite db key l1 b]))
        db.dbBuckets (putChains chains key l1 b l3) ∧
      ∀ c, Linked chains c ∨ c = b → SameBody (applyWrites db.mem (newWrites db b key val q))
          (applyWrites db.mem (newWrites db b key val q ++ [linkWrite db key l1 b])) c := by
  have hl3 : ∀ c ∈ l3, Linked chains c := fun c hc =>
    ⟨_, calcHash_lt _, by
      rw [hsplit]; exact mem_append_right _ (hsub.subset hc)⟩
  rw [applyWrites_append]
  exact (h.layout.frame (newWrites_avoid h hb q)).link (calcHash_lt _) hsplit hsub
    (newRec_newWrites h hb q).1 rfl (path_newWrites h hb hq hpath hl3)

theorem commit_link : Commit db.mem db.dbBuckets chains (putChains chains key l1 b l3)
      (update (entry db.mem) b (key.bytes, val.bytes))
      (newWrites db b key val q) (linkWrite db key l1 b) [] := by
  obtain ⟨hlayout, hbody⟩ := link_newWrites h hb hq hpath hsplit hsub
  obtain ⟨hnew, -⟩ := newRec_newWrites h hb q
  refine ⟨newWrites_avoid h hb q, hlayout, fun c hc => ?_, by simp⟩
  have hold := linked_putChains hsplit hsub hc
  rw [(hbody c hold).entry_eq]
  by_cases hcb : c = b
  · simp [hcb, entry, hnew.key_eq, hnew.val_eq]
  · rw [update_of_ne hcb]
    exact (sameBody_of_avoids (newWrites_avoid h hb q) (hold.resolve_right hcb)).entry_eq

end

/-! ### The two cases of `db_set` -/

theorem isLink_slot (db : State) (chains : Nat → List Nat) (key : Slice) :
    IsLink db.dbBuckets (Linked chains) (db.slot (calcHash key.bytes)) :=
  .inl ⟨_, calcHash_lt _, rfl⟩

/-- The stores that put a new record in front of its chain. -/
def insertWrites (db : State) (b : Nat) (key val : Slice) : List Write :=
  newWrites db b key val (db.slot (calcHash key.bytes))

theorem dbSet_full (h : Wf db chains) (hfull : allocAt db (recSize key val) alloc = none) :
    dbSet db key val alloc = some (dbFail, db) := by
  have hwalk : ∃ pp, chainWalk db key = some pp := by
    rcases missing_or_found db _ key with hm | ⟨l1, a, l3, hf⟩
    · exact ⟨_, (chainWalk_missing h hm).choose_spec.1⟩
    · exact ⟨_, (chainWalk_found h hf).1⟩
  obtain ⟨pp, hwalk⟩ := hwalk
  simp [dbSet, hashPut, hwalk, createRec_eq, hfull]

theorem dbSet_missing (h : Wf db chains) (hm : Missing db chains key)
    (halloc : allocAt db (recSize key val) alloc = some b) :
    dbSet db key val alloc = some (0,
      { db.stores (insertWrites db b key val ++ [linkWrite db key [] b]) with
        blocks := allocBlocks db b (recSize key val) }) := by
  obtain ⟨pp, hwalk, hnext⟩ := chainWalk_missing h hm
  have hload : (createState db b key val).load64 ((createState db b key val).slot
      (calcHash key.bytes)) = recNext (applyWrites db.mem (createWrites db b key val))
        (db.slot (calcHash key.bytes)) := by
    rw [createState_slot]
    exact createState_recNext db b key val _
  simp only [dbSet, hashPut, hwalk, hnext, createRec_eq, halloc, Option.map_some, ne_eq,
    not_true_eq_false, if_false, Option.isSome_some, if_true, hload]
  rw [store64_eq, store64_eq, stores_stores, createState_stores, createState_slot, insertWrites,
    newWrites, append_assoc, linkWrite, endOf]

theorem commit_insert (h : Wf db chains) (hb : Place db chains b (recSize key val)) :
    Commit db.mem db.dbBuckets chains (putChains chains key [] b (chains (calcHash key.bytes)))
      (update (entry db.mem) b (key.bytes, val.bytes))
      (insertWrites db b key val) (linkWrite db key [] b) [] :=
  commit_link h hb (isLink_slot db _ key) (h.layout.path (calcHash_lt _)) rfl (suffix_refl _)

/-- The database after a record is replaced by the one at `b`. -/
def replaceState (db : State) (b : Nat) (key val : Slice) (l1 : List Nat) (a : Nat) : State :=
  { db.stores (newWrites db b key val a ++ [linkWrite db key l1 b]) with
    blocks := allocBlocks db b (recSize key val) }

theorem replaceState_mem (db : State) (b : Nat) (key val : Slice) (l1 : List Nat) (a : Nat) :
    (replaceState db b key val l1 a).mem =
      applyWrites db.mem (newWrites db b key val a ++ [linkWrite db key l1 b]) := by
  simp [replaceState]

theorem replaceState_dbBuckets (db : State) (b : Nat) (key val : Slice) (l1 : List Nat)
    (a : Nat) : (replaceState db b key val l1 a).dbBuckets = db.dbBuckets := by
  simp [replaceState]

theorem replaceState_dbFile (db : State) (b : Nat) (key val : Slice) (l1 : List Nat) (a : Nat) :
    (replaceState db b key val l1 a).dbFile = db.dbFile := by
  simp [replaceState]

theorem replaceState_stores (db : State) (b : Nat) (key val : Slice) (l1 : List Nat) (a : Nat)
    (ws : List Write) : (replaceState db b key val l1 a).stores ws =
      { db.stores (newWrites db b key val a ++ linkWrite db key l1 b :: ws) with
        blocks := allocBlocks db b (recSize key val) } := by
  have happ : newWrites db b key val a ++ linkWrite db key l1 b :: ws =
      newWrites db b key val a ++ [linkWrite db key l1 b] ++ ws := by simp
  simp only [replaceState, stores_eq, happ, applyWrites_append, append_assoc]

theorem dbSet_found (h : Wf db chains) (hf : Found db chains key l1 a l3)
    (halloc : allocAt db (recSize key val) alloc = some b) :
    dbSet db key val alloc = some (0, delRec (replaceState db b key val l1 a) a) := by
  obtain ⟨hwalk, hnext, ha⟩ := chainWalk_found h hf
  simp only [dbSet, hashPut, hwalk, hnext, createRec_eq, halloc, Option.map_some, ne_eq, ha,
    not_false_eq_true, Option.isSome_some, if_true, createState_recNext]
  rw [store64_eq, store64_eq, stores_stores, createState_stores, replaceState, newWrites,
    append_assoc, linkWrite]

theorem recSize_pos (key val : Slice) : 0 < recSize key val := by
  rw [recSize, sizeofRec]
  omega

theorem Place.not_linked {size : Nat} (h : Place db chains b size) (hsize : 0 < size) :
    ¬ Linked chains b := by
  intro hb
  have hend := le_recEnd db.mem b
  rcases h.free.record b hb with hr | hr <;> omega

theorem linked_replace (h : Wf db chains) (hb : Place db chains b (recSize key val))
    (hf : Found db chains key l1 a l3) {c : Nat} (hc : Linked (putChains chains key l1 b l3) c) :
    (Linked chains c ∨ c = b) ∧ c ≠ a := by
  have hba : b ≠ a := by
    rintro rfl
    exact hb.not_linked (recSize_pos key val) hf.linked
  refine ⟨linked_putChains hf.split (suffix_cons a _) hc, ?_⟩
  by_cases hcb : c = b
  · rw [hcb]
    exact hba
  · -- without `b` these are the chains after a deletion
    refine (linked_delChains h hf ?_).2
    obtain ⟨j, hj, hcj⟩ := hc
    refine ⟨j, hj, ?_⟩
    by_cases hji : j = calcHash key.bytes
    · rw [putChains, hji, update_self] at hcj
      rw [delChains, hji, update_self]
      rcases mem_append.1 hcj with hc | hc
      · exact mem_append_left _ hc
      · exact mem_append_right _ ((mem_cons.1 hc).resolve_left hcb)
    · rw [putChains, update_of_ne hji] at hcj
      rw [delChains, update_of_ne hji]
      exact hcj

theorem commit_replace (h : Wf db chains) (hb : Place db chains b (recSize key val))
    (hf : Found db chains key l1 a l3) :
    Commit db.mem db.dbBuckets chains (putChains chains key l1 b l3)
      (update (entry db.mem) b (key.bytes, val.bytes))
      (newWrites db b key val a) (linkWrite db key l1 b)
      (delWrites (replaceState db b key val l1 a) a) := by
  have hlink : IsLink db.dbBuckets (Linked chains) a := .inr hf.linked
  have hpath := hf.path h
  have hsub : l3 <:+ a :: l3 := suffix_cons a _
  obtain ⟨-, hbody⟩ := link_newWrites h hb hlink hpath hf.split hsub
  obtain ⟨hnew, -⟩ := newRec_newWrites h hb a
  have hkeep : ∀ c, Linked chains c →
      SameBody db.mem (applyWrites db.mem (newWrites db b key val a)) c := fun c hc =>
    sameBody_of_avoids (newWrites_avoid h hb a) hc
  refine { commit_link h hb hlink hpath hf.split hsub with after := ?_ }
  rw [← replaceState_mem, ← replaceState_dbBuckets db b key val _ a]
  rw [← replaceState_mem] at hbody
  refine delWrites_avoid (le_recEnd db.mem a) ⟨?_, fun c hc => ?_⟩ fun hfile => ?_
  · rw [replaceState_dbBuckets]
    exact h.layout.arena.offTable a hf.linked
  · obtain ⟨hold, hne⟩ := linked_replace h hb hf hc
    rw [(hbody c hold).recEnd_eq]
    rcases hold with hold | rfl
    · rw [(hkeep c hold).recEnd_eq]
      exact h.layout.arena.apart a hf.linked c hold hne.symm
    · have hfree := hnew.free.record a hf.linked
      rw [(hkeep a hf.linked).recEnd_eq] at hfree
      exact hfree.symm
  · rw [replaceState_dbFile] at hfile
    rw [replaceState_dbBuckets]
    refine (h.header hfile).congr fun c hc => ?_
    rcases (linked_replace h hb hf hc).1 with hold | rfl
    · exact .inl ⟨hold, (hkeep c hold).trans (hbody c (.inl hold))⟩
    · exact .inr (hb.header hfile)

end CDbK8s.Db
