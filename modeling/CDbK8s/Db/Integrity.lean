import CDbK8s.Db.FileStore

/-!
# Integrity of the database file
-/

namespace CDbK8s.Db

open Base Lib.ByteMem Lib.LinkedCells List

variable {chains : Nat → List Nat} {db : State}

/-! ## Following a bucket -/

/-- The records that the link `link` leads to, `none` when the fuel does not reach
the end of the chain. -/
def chainFrom (m : Mem) : Nat → Nat → Option (List Nat)
  | 0, _ => none
  | fuel + 1, link =>
    if link = 0 then some []
    else (chainFrom m fuel (recNext m link)).map (link :: ·)

/-- The addresses of the records of bucket `idx`. -/
def bucketChain (db : State) (idx : Nat) : Option (List Nat) :=
  chainFrom db.mem db.walkFuel (db.load64 (db.slot idx))

/-- The keys and values of the records of bucket `idx`. -/
def bucketRecords (db : State) (idx : Nat) : Option (List (Bytes × Bytes)) :=
  (bucketChain db idx).map (List.map (entry db.mem))

theorem chainFrom_path {m : Mem} {p : Nat} {l : List Nat} (h : Path (recNext m) p l) :
    ∀ fuel, l.length < fuel → chainFrom m fuel (recNext m p) = some l := by
  induction l generalizing p with
  | nil =>
    intro fuel hfuel
    obtain ⟨n, rfl⟩ : ∃ n, fuel = n + 1 := ⟨fuel - 1, by omega⟩
    have hnil : recNext m p = 0 := h
    rw [chainFrom, if_pos hnil]
  | cons a l ih =>
    intro fuel hfuel
    rw [length_cons] at hfuel
    obtain ⟨n, rfl⟩ : ∃ n, fuel = n + 1 := ⟨fuel - 1, by omega⟩
    obtain ⟨hp, ha, htail⟩ := h
    rw [hp, chainFrom, if_neg ha, ih htail n (by omega), Option.map_some]

theorem bucketChain_eq (h : Wf db chains) {i : Nat} (hi : i < dbNumBuckets) :
    bucketChain db i = some (chains i) :=
  chainFrom_path (h.layout.path hi) _ (h.fuel i hi)

theorem bucketRecords_eq {ent : Nat → Bytes × Bytes} (hfile : IsFile db)
    (h : Holds db.mem chains ent) {i : Nat} (hi : i < dbNumBuckets) :
    bucketRecords db i = some ((chains i).map ent) := by
  rw [bucketRecords, bucketChain_eq (h.1.wf hfile) hi, Option.map_some,
    map_congr_left fun a ha => h.2 a ⟨i, hi, ha⟩]

/-! ## `file_check` -/

theorem fileCheckChain_path {m : Mem} {size : Nat} (hsize : size < 2 ^ 64) {p : Nat}
    {l : List Nat} (h : Path (recNext m) p l) (hin : ∀ a ∈ l, recEnd m a ≤ size) :
    ∀ fuel, l.length < fuel → fileCheckChain m size fuel (recNext m p) = some true := by
  induction l generalizing p with
  | nil =>
    intro fuel hfuel
    obtain ⟨n, rfl⟩ : ∃ n, fuel = n + 1 := ⟨fuel - 1, by omega⟩
    have hnil : recNext m p = 0 := h
    rw [fileCheckChain, if_pos hnil]
  | cons a l ih =>
    intro fuel hfuel
    rw [length_cons] at hfuel
    obtain ⟨n, rfl⟩ : ∃ n, fuel = n + 1 := ⟨fuel - 1, by omega⟩
    obtain ⟨hp, ha, htail⟩ := h
    have hend : a + (sizeofRec + recKeyLen m a + recValLen m a) = recEnd m a := by
      rw [recEnd]
      omega
    have hle := hin a (by simp)
    rw [hp, fileCheckChain, if_neg ha, if_neg (by omega), if_neg (by omega)]
    exact ih htail (fun c hc => hin c (by simp [hc])) n (by omega)

theorem fileCheck_eq (hfile : IsFile db) (h : FileOk db.mem chains) : fileCheck db = some 0 := by
  have hwf := h.wf hfile
  have hchain : ∀ i < dbNumBuckets, fileCheckChain db.mem db.dbSize db.walkFuel
      (db.load64 (db.slot i)) = some true := by
    intro i hi
    have hsize : db.dbSize < 2 ^ 64 := by
      rw [hfile.size]
      decide
    refine fileCheckChain_path hsize (hwf.layout.path hi) (fun a ha => ?_) _ (hwf.fuel i hi)
    have := (h.inside a ⟨i, hi, ha⟩).2
    have := h.next_le
    rw [hfile.size]
    omega
  -- the bucket loop, by the number of buckets left
  have hloop : ∀ n idx, idx + n ≤ dbNumBuckets → fileCheckBuckets db n idx = some true := by
    intro n
    induction n with
    | zero => exact fun _ _ => rfl
    | succ n ih =>
      intro idx hle
      rw [fileCheckBuckets, hchain idx (by omega)]
      exact ih _ (by omega)
  have hmagic : db.magic = dbMagic := h.magic.1
  rw [fileCheck, hmagic, h.magic.2, hloop dbNumBuckets 0 (by omega)]
  simp

/-! ## The new file -/

section
variable {m : Mem}

/-- The stores by which `file_init` sets up the header. -/
def hdrInitWrites : List Write :=
  [⟨hdrMagic, magicBytes⟩, wordWrite 4 hdrVersion 1, wordWrite 8 hdrNumRec 0,
    wordWrite 8 hdrNextOffset (sizeofHdr + tableSize)]

theorem fileInitNew_mem (m : Mem) : (fileInitNew m).mem =
    applyWrites (applyWrites m hdrInitWrites) (copyWrites sizeofHdr (replicate tableSize 0)) := by
  rw [fileInitNew, stores_mem, fileInitWrites, applyWrites_append, hdrInitWrites, fileMap]

theorem isFile_fileInitNew (m : Mem) : IsFile (fileInitNew m) := by
  refine ⟨?_, ?_, ?_⟩
  · rw [fileInitNew, stores_dbFile, fileMap]
  · rw [fileInitNew, stores_dbSize, fileMap]
  · rw [fileInitNew, stores_dbBuckets, fileMap]

theorem header_fileInitNew (m : Mem) :
    AgreeOn (applyWrites m hdrInitWrites) (fileInitNew m).mem 0 sizeofHdr := by
  rw [fileInitNew_mem]
  exact agreeOn_applyWrites fun w hw => Or.inr (copyWrites_range hw).1

theorem table_fileInitNew (m : Mem) {x : Nat} (hlo : sizeofHdr ≤ x)
    (hhi : x < sizeofHdr + tableSize) : (fileInitNew m).mem x = 0 := by
  have hread := readBytes_writeBytes (applyWrites m hdrInitWrites) sizeofHdr (replicate tableSize 0)
  rw [← applyWrites_copyWrites, ← fileInitNew_mem, length_replicate] at hread
  exact readBytes_eq_replicate_iff.1 hread x hlo hhi

theorem nextOffset_fileInitNew (m : Mem) :
    nextOffset (fileInitNew m).mem = sizeofHdr + tableSize := by
  have hagree := header_fileInitNew m
  rw [nextOffset, readWord_congr (hagree.mono (Nat.zero_le _) (by decide)), hdrInitWrites]
  simp only [applyWrites_cons, applyWrites_nil, readWord_wordWrite]
  decide

theorem numRec_fileInitNew (m : Mem) : numRec (fileInitNew m).mem = 0 := by
  have hagree := header_fileInitNew m
  have hlast : (wordWrite 8 hdrNextOffset (sizeofHdr + tableSize)).Avoids hdrNumRec
      (hdrNumRec + 8) := Or.inr (by simp [wordWrite, hdrNumRec, hdrNextOffset])
  rw [numRec, readWord_congr (hagree.mono (Nat.zero_le _) (by decide)), hdrInitWrites]
  simp only [applyWrites_cons, applyWrites_nil]
  rw [readWord_congr (agreeOn_applyWrite hlast), readWord_wordWrite, Nat.zero_mod]

theorem numDel_fileInitNew (hm : ∀ x < fileSize, m x = 0) : numDel (fileInitNew m).mem = 0 := by
  have hagree := header_fileInitNew m
  rw [numDel, readWord_congr (hagree.mono (Nat.zero_le _) (by decide))]
  have hsize : hdrNumDel + 8 ≤ fileSize := by decide
  refine (readWord_applyWrites fun w hw => ?_).trans
    (readWord_eq_zero fun x _ hx => hm x (by omega))
  simp only [hdrInitWrites, mem_cons, not_mem_nil, or_false] at hw
  rcases hw with rfl | rfl | rfl | rfl
  · exact Or.inl (by decide)
  · exact Or.inl (by simp [wordWrite, Write.stop, hdrVersion, hdrNumDel])
  · exact Or.inl (by simp [wordWrite, Write.stop, hdrNumRec, hdrNumDel])
  · exact Or.inr (by simp [wordWrite, hdrNextOffset, hdrNumDel])

theorem magicOk_fileInitNew (m : Mem) : MagicOk (fileInitNew m).mem := by
  have hagree := header_fileInitNew m
  have hrest : ∀ w ∈ [wordWrite 8 hdrNumRec 0,
      wordWrite 8 hdrNextOffset (sizeofHdr + tableSize)], 8 ≤ w.addr := by
    simp [wordWrite, hdrNumRec, hdrNextOffset]
  refine ⟨?_, ?_⟩
  · have hkeep : ∀ w ∈ [wordWrite 4 hdrVersion 1, wordWrite 8 hdrNumRec 0,
        wordWrite 8 hdrNextOffset (sizeofHdr + tableSize)], w.Avoids hdrMagic (hdrMagic + 4) := by
      intro w hw
      rcases mem_cons.1 hw with rfl | hw
      · exact Or.inr (by simp [wordWrite, hdrMagic, hdrVersion])
      · exact Or.inr (le_trans (by decide) (hrest w hw))
    have hread := readBytes_writeBytes m hdrMagic magicBytes
    rw [readBytes_congr (hagree.mono (Nat.zero_le _) (by decide)), hdrInitWrites,
      applyWrites_cons, readBytes_congr (agreeOn_applyWrites hkeep), applyWrite]
    rw [show magicBytes.length = 4 from rfl] at hread
    rw [hread]
    decide
  · rw [readWord_congr (hagree.mono (Nat.zero_le _) (by decide)), hdrInitWrites]
    refine (readWord_applyWrites_cons fun w hw => ?_).trans (by decide)
    exact Or.inr (le_trans (by decide) (hrest w hw))

theorem path_fileInitNew (m : Mem) {i : Nat} (hi : i < dbNumBuckets) :
    Path (recNext (fileInitNew m).mem) (sizeofHdr + 8 * i) [] := by
  have htab : tableSize = dbNumBuckets * 8 := rfl
  exact readWord_eq_zero fun x hlo hhi => table_fileInitNew m (by omega) (by omega)

theorem not_linked_nil {a : Nat} : ¬ Linked (fun _ => []) a := by
  rintro ⟨i, _, ha⟩
  simp at ha

theorem layout_empty {m : Mem} {tbl : Nat}
    (h : ∀ i < dbNumBuckets, Path (recNext m) (tbl + 8 * i) []) : Layout m tbl fun _ => [] := by
  refine ⟨⟨fun a ha => absurd ha not_linked_nil, fun a ha => absurd ha not_linked_nil⟩, h,
    ?_, ?_, ?_, ?_, ?_⟩
  · simp
  · simp
  · simp
  · simp
  · simp

theorem fileOk_fileInitNew (m : Mem) : FileOk (fileInitNew m).mem fun _ => [] := by
  refine ⟨layout_empty fun i hi => path_fileInitNew m hi, fun a ha => absurd ha not_linked_nil,
    ?_, ?_, magicOk_fileInitNew m⟩
  · rw [nextOffset_fileInitNew]
  · rw [nextOffset_fileInitNew]
    decide

theorem counted_fileInitNew (hm : ∀ x < fileSize, m x = 0) :
    Counted (fileInitNew m).mem fun _ => [] := by
  refine ⟨?_, ?_⟩
  · rw [numRec_fileInitNew, numDel_fileInitNew hm]
    simp [total]
  · rw [numRec_fileInitNew]
    omega

end

/-! ## Runs -/

/-- The calls `ops` in order: their replies and the final state. -/
def run (db : State) : List Op → Option (List Reply × State)
  | [] => some ([], db)
  | op :: ops =>
    match step db op with
    | none => none
    | some (r, db') => (run db' ops).map fun x => (r :: x.1, x.2)

/-- The file is in order: `chains` are the chains of its buckets. -/
structure FileIntegrity (db : State) (chains : Nat → List Nat) : Prop where
  chain : ∀ i < dbNumBuckets, bucketChain db i = some (chains i)
  acyclic : ∀ i < dbNumBuckets, (chains i).Nodup
  inside : ∀ i < dbNumBuckets, ∀ a ∈ chains i,
    sizeofHdr + tableSize ≤ a ∧ recEnd db.mem a ≤ nextOffset db.mem
  next_le : nextOffset db.mem ≤ db.dbSize
  apart : ∀ i < dbNumBuckets, ∀ j < dbNumBuckets, ∀ a ∈ chains i, ∀ b ∈ chains j,
    (i, a) ≠ (j, b) → recEnd db.mem a ≤ b ∨ recEnd db.mem b ≤ a
  home : ∀ i < dbNumBuckets, ∀ a ∈ chains i, calcHash (recKey db.mem a) = i
  clear : ∀ i < dbNumBuckets, ∀ a ∈ chains i, recFlags db.mem a &&& dbRecDel = 0
  count : numRec db.mem = numDel db.mem + total chains
  accepted : fileCheck db = some 0

theorem fileIntegrity_of_fileOk (hfile : IsFile db) (h : FileOk db.mem chains)
    (hcount : Counted db.mem chains) : FileIntegrity db chains := by
  refine ⟨fun i hi => bucketChain_eq (h.wf hfile) hi, h.layout.chained.nodup,
    fun i hi a ha => h.inside a ⟨i, hi, ha⟩, ?_, ?_, h.layout.chained.home, ?_, hcount.count,
    fileCheck_eq hfile h⟩
  · rw [hfile.size]
    exact h.next_le
  · intro i hi j hj a ha b hb hne
    have hab : a ≠ b := by
      rintro rfl
      exact hne (by rw [h.layout.chained.single i hi j hj a ha hb])
    exact h.layout.arena.apart a ⟨i, hi, ha⟩ b ⟨j, hj, hb⟩ hab
  · intro i hi a ha
    rw [h.layout.chained.clear i hi a ha]
    rfl

theorem run_cons {db' db'' : State} {op : Op} {ops : List Op} {r : Reply} {rs : List Reply}
    (hstep : step db op = some (r, db')) (hrun : run db' ops = some (rs, db'')) :
    run db (op :: ops) = some (r :: rs, db'') := by
  rw [run, hstep]
  simp only [hrun, Option.map_some]

theorem run_file (hfile : IsFile db) (h : FileOk db.mem chains) (ops : List Op) :
    ∃ rs db' chains', run db ops = some (rs, db') ∧ IsFile db' ∧ FileOk db'.mem chains' ∧
      (Counted db.mem chains → Counted db'.mem chains') := by
  induction ops generalizing db chains with
  | nil => exact ⟨[], db, chains, rfl, hfile, h, id⟩
  | cons op ops ih =>
    obtain ⟨r, db', chains', ent, ws, hstep, hs, -⟩ := fileStep_spec hfile h op
    obtain ⟨rs, db'', chains'', hrun, hfile'', hok, hcount⟩ := ih hs.isFile hs.after.1
    exact ⟨r :: rs, db'', chains'', run_cons hstep hrun, hfile'', hok, hcount ∘ hs.counted⟩

/-- From a new file every sequence of calls returns, and leaves the file in order. -/
theorem file_integrity (m : Mem) (hm : ∀ x < fileSize, m x = 0) (ops : List Op) :
    ∃ rs db chains, run (fileInitNew m) ops = some (rs, db) ∧ FileIntegrity db chains := by
  obtain ⟨rs, db, chains, hrun, hfile, hok, hcount⟩ :=
    run_file (isFile_fileInitNew m) (fileOk_fileInitNew m) ops
  exact ⟨rs, db, chains, hrun, fileIntegrity_of_fileOk hfile hok (hcount (counted_fileInitNew hm))⟩

/-- A store, a replacement and a deletion on a file of zeros. -/
theorem file_integrity_zeros : ∃ rs db chains, run (fileInitNew fun _ => 0)
        [.set ⟨[97], by decide⟩ ⟨[120], by decide⟩ none,
          .set ⟨[97], by decide⟩ ⟨[121, 122], by decide⟩ none, .del ⟨[97], by decide⟩] =
      some (rs, db) ∧ FileIntegrity db chains :=
  file_integrity (fun _ => 0) (fun _ _ => rfl) _

end CDbK8s.Db
