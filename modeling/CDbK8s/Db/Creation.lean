import CDbK8s.Db.Check
import CDbK8s.Db.FiniteMap

/-!
# Crashes while the database file is created

`file_init` creates the file, lets `ftruncate` fill it with zeros and then stores the header and
clears the table. A process that dies on the way leaves what the first `n` of these steps have made
(`diedAfter`), and the next process runs `dbInit` on it.
-/

namespace CDbK8s.Db

open Base Lib.ByteMem List Function

variable {k : Nat}

/-! ## Files -/

structure DbFile where
  size : Nat
  bytes : Mem

/-- `ftruncate(fd, file_size)` of a file that is smaller: zeros are appended. -/
def DbFile.resize (f : DbFile) : DbFile :=
  if f.size < fileSize then
    ⟨fileSize, fun x => if f.size ≤ x ∧ x < fileSize then 0 else f.bytes x⟩
  else f

/-- The steps by which `file_init` creates a file. -/
inductive CreateStep where
  | openNew
  | ftruncate
  | store (w : Write)

/-- One step; `m` are the bytes outside the file. -/
def CreateStep.apply (m : Mem) (f : Option DbFile) : CreateStep → Option DbFile
  | .openNew => some ⟨0, m⟩
  | .ftruncate => f.map DbFile.resize
  | .store w => f.map fun f => { f with bytes := applyWrite f.bytes w }

/-- What `db_init` does to create a file, in its order. -/
def createSteps : List CreateStep :=
  .openNew :: .ftruncate :: fileInitWrites.map .store

/-- What is left when the process dies after the first `n` steps. -/
def diedAfter (m : Mem) (n : Nat) : Option DbFile :=
  (createSteps.take n).foldl (CreateStep.apply m) none

/-- `db_init(file)`: create the file, or map the existing one and check it; the return
code and the store. -/
def dbInit (m : Mem) : Option DbFile → Option (Int × State)
  | none => some (0, fileInitNew (DbFile.resize ⟨0, m⟩).bytes)
  | some f =>
    let db := fileMap f.resize.bytes
    (fileCheck db).map fun rc => (rc, db)

/-! ## Set and get -/

def Empty (db : State) : Prop := ∀ i < dbNumBuckets, bucketChain db i = some []

/-- A value that was stored is found: at once in the store `db` itself, and after any
calls as long as the lookup finds an exact match. -/
structure KeepsValues (db : State) : Prop where
  first : ∀ key val alloc db', dbSet db key val alloc = some (0, db') →
    dbGet db' key = some (some val.bytes)
  later : ∀ ops rs db1, run db ops = some (rs, db1) →
    ∀ key val alloc db2, dbSet db1 key val alloc = some (0, db2) → ExactMatch db2 key →
      dbGet db2 key = some (some val.bytes)

section
variable {db db' : State} {chains : Nat → List Nat} {key val : Slice} {alloc : Option Nat}

/-- A set that succeeds has put its record in the place of the first match, or at the
head of the bucket. -/
theorem set_chains (hfile : IsFile db) (hok : FileOk db.mem chains)
    (hset : dbSet db key val alloc = some (0, db')) :
    ∃ l1 b l3, Sound db' (putChains chains key l1 b l3) ∧
      (∀ c ∈ l1, c ∈ chains (calcHash key.bytes) ∧ keyMatch db.mem key c = false ∧
        recKey db'.mem c = recKey db.mem c) ∧
      entry db'.mem b = (key.bytes, val.bytes) := by
  have hfit : nextOffset db.mem + recSize key val ≤ fileSize := by
    by_contra hfull
    have hstep := fileStep_full hfile hok (not_le.1 hfull) alloc
    rw [step, hset] at hstep
    exact absurd hstep (by simp [dbFail])
  have hroom : Room db key val alloc := .file hfile.file (by rw [hfile.size]; exact hfit)
  have hsound : Sound db chains := .inl ⟨hfile, hok⟩
  have hstate : ∀ db'', step db (.set key val alloc) = some (.code 0, db'') → db'' = db' := by
    intro db'' hstep
    rw [step, hset, Option.map_some, Option.some.injEq, Prod.mk.injEq] at hstep
    exact hstep.2.symm
  obtain ⟨l1, l3, hspot⟩ := exists_spot db _ key
  obtain ⟨b, db'', hb, hstep, hs, hent⟩ := step_set hsound hspot hroom
  rw [hstate db'' hstep] at hs hent
  have hskip : ∀ c ∈ l1, c ∈ chains (calcHash key.bytes) ∧ keyMatch db.mem key c = false := by
    cases hspot with
    | front _ => exact forall_mem_nil _
    | taken hf => exact fun c hc => ⟨by rw [hf.split]; simp [hc], hf.skip c hc⟩
  refine ⟨l1, b, l3, hs, fun c hc => ⟨(hskip c hc).1, (hskip c hc).2, ?_⟩, ?_⟩
  · have hcb : c ≠ b := fun h => hb (h ▸ ⟨_, calcHash_lt _, (hskip c hc).1⟩)
    have hput' : Linked (putChains chains key l1 b l3) c :=
      ⟨_, calcHash_lt key.bytes, by simp [putChains, hc]⟩
    simp [← entry_fst, hent c hput', update_of_ne hcb]
  · simp [hent b ⟨_, calcHash_lt key.bytes, by simp [putChains]⟩]

theorem dbGet_of_put {l1 l3 : List Nat} {b : Nat} (hs : Sound db' (putChains chains key l1 b l3))
    (hskip : ∀ c ∈ l1, keyMatch db'.mem key c = false)
    (hb : entry db'.mem b = (key.bytes, val.bytes)) : dbGet db' key = some (some val.bytes) := by
  have hsplit : putChains chains key l1 b l3 (calcHash key.bytes) = l1 ++ b :: l3 := by
    simp [putChains]
  have hkey : recKey db'.mem b = key.bytes := by rw [← entry_fst, hb]
  have hval : recVal db'.mem b = val.bytes := by rw [← entry_snd, hb]
  rw [dbGet_found hs.wf ⟨hsplit, hskip, keyMatch_of_recKey_eq hkey⟩, hval]

theorem dbGet_of_dbSet (hfile : IsFile db) (hok : FileOk db.mem chains)
    (hset : dbSet db key val alloc = some (0, db')) (hexact : ExactMatch db' key) :
    dbGet db' key = some (some val.bytes) := by
  obtain ⟨l1, b, l3, hs, hl1, hb⟩ := set_chains hfile hok hset
  refine dbGet_of_put hs (fun c hc => ?_) hb
  -- a record before the new one that matches now stores the key, so it matched before
  obtain ⟨-, hfalse, hsame⟩ := hl1 c hc
  by_contra htrue
  rw [Bool.not_eq_false] at htrue
  have hmem : c ∈ putChains chains key l1 b l3 (calcHash key.bytes) := by simp [putChains, hc]
  have hck := hexact _ (bucketChain_eq hs.wf (calcHash_lt _)) c hmem htrue
  rw [hsame] at hck
  rw [keyMatch_of_recKey_eq hck] at hfalse
  exact absurd hfalse (by simp)

theorem keepsValues_of_fileOk (hfile : IsFile db) (hok : FileOk db.mem fun _ => []) :
    KeepsValues db := by
  refine ⟨fun key val alloc db' hset => ?_, fun ops _ _ hrun key val alloc _ hset hexact => ?_⟩
  · obtain ⟨l1, b, l3, hs, hl1, hb⟩ := set_chains hfile hok hset
    exact dbGet_of_put hs (fun c hc => absurd (hl1 c hc).1 (by simp)) hb
  · obtain ⟨rs', db', chains', hrun', hfile', hok', -⟩ := run_file hfile hok ops
    rw [hrun', Option.some.injEq, Prod.mk.injEq] at hrun
    rw [hrun.2] at hfile' hok'
    exact dbGet_of_dbSet hfile' hok' hset hexact

end

/-! ## The file after each step -/

section
variable (m : Mem)

/-- The contents of the file that `ftruncate` has filled. -/
def zeroed : Mem := (DbFile.resize ⟨0, m⟩).bytes

theorem zeroed_eq_zero {x : Nat} (hx : x < fileSize) : zeroed m x = 0 := by
  exact if_pos ⟨zero_le, hx⟩

theorem applyWrites_take_zeros {m : Mem} {a : Nat} (hm : ∀ x, a ≤ x → x < a + k → m x = 0) (n : Nat) :
    applyWrites m ((copyWrites a (replicate k 0)).take n) = m := by
  induction k generalizing a n with
  | zero => simp [copyWrites]
  | succ k ih =>
    cases n with
    | zero => rfl
    | succ n =>
      have hhead : applyWrite m ⟨a, [0]⟩ = m := by
        simp [applyWrite, writeBytes, ← hm a _ (by omega)]
      rw [replicate_succ, copyWrites, take_succ_cons, applyWrites_cons, hhead]
      exact ih (fun x _ _ => hm x (by omega) (by omega)) n

theorem foldl_store (f : DbFile) (ws : List Write) :
    (ws.map CreateStep.store).foldl (CreateStep.apply m) (some f) =
      some ⟨f.size, applyWrites f.bytes ws⟩ := by
  induction ws generalizing f with
  | nil => rfl
  | cons w ws ih => exact ih { f with bytes := applyWrite f.bytes w }

theorem diedAfter_stores (n : Nat) :
    diedAfter m (n + 2) = some ⟨fileSize, applyWrites (zeroed m) (fileInitWrites.take n)⟩ := by
  have hlt : 0 < fileSize := by decide
  have hsize : (DbFile.resize ⟨0, m⟩).size = fileSize := by rw [DbFile.resize, if_pos hlt]
  have hsteps : createSteps.take (n + 2) =
      .openNew :: .ftruncate :: (fileInitWrites.take n).map .store := by
    simp [createSteps]
  rw [diedAfter, hsteps]
  exact (foldl_store m _ _).trans (by rw [hsize, zeroed])

theorem dbInit_full (bytes : Mem) : dbInit m (some ⟨fileSize, bytes⟩) =
    (fileCheck (fileMap bytes)).map fun rc => (rc, fileMap bytes) := by
  have hresize : DbFile.resize ⟨fileSize, bytes⟩ = ⟨fileSize, bytes⟩ := by
    simp [DbFile.resize]
  rw [dbInit, hresize]

theorem fileInitWrites_take (hk : k ≤ 4) : fileInitWrites.take k = hdrInitWrites.take k := by
  rw [fileInitWrites, ← hdrInitWrites, take_append_of_le_length hk]

theorem hdrInitWrites_stop : ∀ w ∈ hdrInitWrites, w.stop ≤ sizeofHdr := by
  simp only [hdrInitWrites, mem_cons, not_mem_nil, or_false]
  rintro w (rfl | rfl | rfl | rfl)
  · decide
  · decide
  · decide
  · decide

theorem stored_header (k : Nat) :
    applyWrites (zeroed m) (fileInitWrites.take (k + 4)) = (fileInitNew (zeroed m)).mem := by
  have htable : ∀ x, sizeofHdr ≤ x → x < sizeofHdr + tableSize →
      applyWrites (zeroed m) hdrInitWrites x = 0 := by
    intro x hlo hhi
    have hsize : sizeofHdr + tableSize ≤ fileSize := by decide
    rw [agreeOn_applyWrites (fun w hw => .inl (hdrInitWrites_stop w hw)) x hlo hhi]
    exact zeroed_eq_zero m (by omega)
  have htake : fileInitWrites.take (k + 4) =
      hdrInitWrites ++ (copyWrites sizeofHdr (replicate tableSize 0)).take k := rfl
  have hall := applyWrites_take_zeros htable (copyWrites sizeofHdr (replicate tableSize 0)).length
  rw [take_length] at hall
  rw [htake, applyWrites_append, applyWrites_take_zeros htable k, fileInitNew_mem, hall]

theorem magicOk_stored (hk : 2 ≤ k) : MagicOk (applyWrites (zeroed m) (fileInitWrites.take k)) := by
  have hmem : (fileInitNew (zeroed m)).mem =
      applyWrites (applyWrites (zeroed m) (fileInitWrites.take k)) (fileInitWrites.drop k) := by
    rw [← applyWrites_append, take_append_drop, fileInitNew, stores_mem]
    rfl
  have hbehind : ∀ w ∈ fileInitWrites.drop 2, 8 ≤ w.addr := by
    have hdrop : fileInitWrites.drop 2 = wordWrite 8 hdrNumRec 0 ::
        wordWrite 8 hdrNextOffset (sizeofHdr + tableSize) ::
          copyWrites sizeofHdr (replicate tableSize 0) := rfl
    rw [hdrop]
    simp only [mem_cons]
    rintro w (rfl | rfl | hw)
    · simp [wordWrite, hdrNumRec]
    · simp [wordWrite, hdrNextOffset]
    · exact le_trans (by decide) (copyWrites_range hw).1
  have hagree : AgreeOn (applyWrites (zeroed m) (fileInitWrites.take k))
      (fileInitNew (zeroed m)).mem 0 8 := by
    rw [hmem]
    exact agreeOn_applyWrites fun w hw => .inr (hbehind w ((drop_sublist_drop_left _ hk).subset hw))
  exact (magicOk_fileInitNew _).congr fun x hlo hhi => (hagree x hlo hhi).symm

theorem stored_zero (hk : k ≤ 3) {x : Nat} (hlo : hdrNextOffset ≤ x) (hhi : x < fileSize) :
    applyWrites (zeroed m) (fileInitWrites.take k) x = 0 := by
  have hstop : ∀ w ∈ hdrInitWrites.take k, w.stop ≤ hdrNextOffset := by
    intro w hw
    have hmem : w ∈ hdrInitWrites.take 3 := (take_sublist_take_left hk).subset hw
    simp only [hdrInitWrites, take_succ_cons, take_zero, mem_cons, not_mem_nil, or_false] at hmem
    rcases hmem with rfl | rfl | rfl
    · decide
    · decide
    · decide
  rw [fileInitWrites_take (by omega),
    agreeOn_applyWrites (fun w hw => .inl (hstop w hw)) x hlo (Nat.lt_succ_self x)]
  exact zeroed_eq_zero m hhi

/-! ## What the next process finds -/

theorem fileCheck_stored_lt (hk : k < 2) :
    fileCheck (fileMap (applyWrites (zeroed m) (fileInitWrites.take k))) = some (-1) := by
  refine fileCheck_fileMap_of_not_magicOk _ fun hmagic => ?_
  -- the version is still zero
  have hversion : readWord (applyWrites (zeroed m) (fileInitWrites.take k)) 4 hdrVersion = 0 := by
    rw [fileInitWrites_take (by omega), readWord_applyWrites fun w hw => ?_]
    · have hsize : hdrVersion + 4 ≤ fileSize := by decide
      exact readWord_eq_zero fun x _ _ => zeroed_eq_zero m (by omega)
    · have hmem : w ∈ hdrInitWrites.take 1 := (take_sublist_take_left (by omega : k ≤ 1)).subset hw
      rw [hdrInitWrites, take_succ_cons, take_zero, mem_singleton] at hmem
      rw [hmem]
      exact .inl (by decide)
  exact absurd (hversion.symm.trans hmagic.2) (by simp)

theorem fileCheck_stored_mid (hlo : 2 ≤ k) (hhi : k ≤ 3) :
    fileCheck (fileMap (applyWrites (zeroed m) (fileInitWrites.take k))) = some 0 := by
  refine (fileCheck_eq_zero_iff _).2 ⟨magicOk_stored m hlo, fun i _ => ?_⟩
  have htab : sizeofHdr + dbNumBuckets * 8 ≤ fileSize := by decide
  have hhdr : hdrNextOffset ≤ sizeofHdr := by decide
  have hnull : bucketLink (applyWrites (zeroed m) (fileInitWrites.take k)) i = 0 :=
    readWord_eq_zero fun x _ _ => stored_zero m hhi (by omega) (by omega)
  rw [hnull]
  exact .refl

theorem nextOffset_stored_mid (hk : k ≤ 3) :
    nextOffset (applyWrites (zeroed m) (fileInitWrites.take k)) = 0 := by
  have hsize : hdrNextOffset + 8 ≤ fileSize := by decide
  exact readWord_eq_zero fun x hx _ => stored_zero m hk hx (by omega)

end

/-- What `db_init` should make of what a crash has left: an error, or an empty store
whose records come behind the table and that keeps its values. -/
def Detected (r : Option (Int × State)) : Prop :=
  ∃ rc db, r = some (rc, db) ∧
    (rc ≠ 0 ∨ (Empty db ∧ sizeofHdr + tableSize ≤ nextOffset db.mem ∧ KeepsValues db))

theorem detected_new {db : State} {m : Mem} (hfile : IsFile db)
    (hmem : db.mem = (fileInitNew (zeroed m)).mem) : Detected (some (0, db)) := by
  have hok : FileOk db.mem fun _ => [] := by
    rw [hmem]
    exact fileOk_fileInitNew _
  exact ⟨0, db, rfl, .inr ⟨fun i hi => bucketChain_eq (hok.wf hfile) hi, hok.start_le,
    keepsValues_of_fileOk hfile hok⟩⟩

/-- The next process detects the crash, or starts from an empty store, unless the
process died after the store of the version and before that of `next_offset`. -/
theorem creation_crash_detected_iff (m : Mem) (n : Nat) :
    Detected (dbInit m (diedAfter m n)) ↔ n ≠ 4 ∧ n ≠ 5 := by
  match n with
  | 0 => exact ⟨fun _ => by omega, fun _ => detected_new (isFile_fileInitNew _) rfl⟩
  | 1 =>
    -- an empty file: the next process lets `ftruncate` fill it
    exact ⟨fun _ => by omega, fun _ => ⟨-1, _, rfl, .inl (by decide)⟩⟩
  | k + 2 =>
    rw [diedAfter_stores, dbInit_full]
    by_cases hearly : k < 2
    · rw [fileCheck_stored_lt m hearly]
      exact ⟨fun _ => by omega, fun _ => ⟨-1, _, rfl, .inl (by decide)⟩⟩
    · by_cases hmid : k ≤ 3
      · rw [fileCheck_stored_mid m (by omega) hmid]
        refine ⟨?_, fun h => by omega⟩
        rintro ⟨rc, db, heq, hgood⟩
        obtain ⟨rfl, rfl⟩ := heq
        rcases hgood with hrc | ⟨-, hnext, -⟩
        · exact absurd rfl hrc
        · have hzero := nextOffset_stored_mid m hmid
          rw [fileMap, hzero] at hnext
          exact absurd hnext (by decide)
      · obtain ⟨j, rfl⟩ : ∃ j, k = j + 4 := ⟨k - 4, by omega⟩
        have hmem := stored_header m j
        have hok := fileOk_fileInitNew (zeroed m)
        rw [← fileMap_mem (fileInitNew _).mem] at hok
        rw [hmem, fileCheck_eq (isFile_fileMap _) hok]
        exact ⟨fun _ => by omega, fun _ => detected_new (isFile_fileMap _) (fileMap_mem _)⟩

/-- The process dies right after the store of the version. The next one starts with the
allocator at offset 0: it stores the first record over the header, reports success, and
does not find the key. -/
theorem version_crash_undetected :
    ((dbInit (fun _ => 0) (diedAfter (fun _ => 0) 4)).map fun r =>
        (r.1, nextOffset r.2.mem)) = some (0, 0) ∧
    ((dbInit (fun _ => 0) (diedAfter (fun _ => 0) 4)).bind fun r =>
        (dbSet r.2 ⟨[97], by decide⟩ ⟨[120], by decide⟩ none).bind fun s =>
          (dbGet s.2 ⟨[97], by decide⟩).map fun v => (s.1, v)) = some (0, none) := by
  have hinit : dbInit (fun _ => 0) (diedAfter (fun _ => 0) 4) =
      some (0, fileMap (applyWrites (zeroed fun _ => 0) (fileInitWrites.take 2))) := by
    rw [diedAfter_stores, dbInit_full, fileCheck_stored_mid _ (by omega) (by omega),
      Option.map_some]
  rw [hinit]
  decide +kernel

end CDbK8s.Db
