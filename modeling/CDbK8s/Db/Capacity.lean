import CDbK8s.Db.Crash

/-!
# Room in the store

In the file the room is used up for good: a set takes the header and the payload of its record
behind `next_offset`, and neither a replacement nor a deletion gives anything back.
-/

namespace CDbK8s.Db

open Base Lib.ByteMem List

variable {op : Op}

/-! ## A failed set -/

/-- What `malloc` answers is a block that is not in use. -/
def Op.Proper (db : State) : Op → Prop
  | .set key val alloc => db.dbFile = false → ∀ b, alloc = some b →
      FreshBlock db b (recSize key val)
  | _ => True

/-- The states that either backend can be in: those of a file, and those that calls, and
the rest of the process on memory of its own, make of a table in memory. -/
inductive Reachable : State → Prop where
  | file {db : State} (h : FileReachable db) : Reachable db
  | memory (m : Mem) (table : Nat) (hm : ∀ x, table ≤ x → x < table + tableSize → m x = 0) :
      Reachable (hashInit m table)
  | call {db db' : State} {op : Op} {r : Reply} (h : Reachable db) (hop : op.Proper db)
      (hstep : step db op = some (r, db')) : Reachable db'
  | outside {db : State} {m : Mem} (h : Reachable db) (hm : ∀ x, db.Owns x → m x = db.mem x) :
      Reachable { db with mem := m }

section
variable {db db' : State} {chains : Nat → List Nat} {key val : Slice} {alloc : Option Nat}

theorem Sound.step {r : Reply} (h : Sound db chains) (hop : op.Proper db)
    (hstep : step db op = some (r, db')) : ∃ chains', Sound db' chains' := by
  rcases h with ⟨hfile, hok⟩ | hmem
  · obtain ⟨chains', ent, ws, hs⟩ := fileStep_of_step hfile hok hstep
    exact ⟨chains', hs.sound.1⟩
  · have hsound : Sound db chains := .inr hmem
    have hother : ∀ {r' : Reply} {db'' : State} {chains' : Nat → List Nat},
        Db.step db op = some (r', db'') → Sound db'' chains' → ∃ chains', Sound db' chains' := by
      intro r' db'' chains' hspec hs
      rw [hstep, Option.some.injEq] at hspec
      obtain ⟨-, rfl⟩ := hspec
      exact ⟨chains', hs⟩
    have hsame : ∀ {r' : Reply}, Db.step db op = some (r', db) → ∃ chains', Sound db' chains' :=
      fun hspec => hother hspec hsound
    cases op with
    | set key val alloc =>
      cases halloc : allocAt db (recSize key val) alloc with
      | none => exact hsame (by rw [Db.step, dbSet_full hsound.wf halloc, Option.map_some])
      | some b =>
        rw [allocAt, hmem.memory] at halloc
        have hroom : Room db key val alloc :=
          .memory hmem.memory b halloc (hop hmem.memory b halloc)
        obtain ⟨l1, l3, hspot⟩ := exists_spot db _ key
        obtain ⟨b, db'', -, hspec, hs, -⟩ := step_set hsound hspot hroom
        exact hother hspec hs
    | get key =>
      rcases missing_or_found db _ key with hm | ⟨l1, a, l3, hf⟩
      · exact hsame (by rw [Db.step, dbGet_missing hsound.wf hm, Option.map_some])
      · exact hsame (by rw [Db.step, dbGet_found hsound.wf hf, Option.map_some])
    | del key =>
      rcases missing_or_found db _ key with hm | ⟨l1, a, l3, hf⟩
      · exact hsame (by rw [Db.step, dbDel_missing hsound.wf hm, Option.map_some])
      · obtain ⟨db'', hspec, hs, -⟩ := step_del_found hsound hf
        exact hother hspec hs

theorem sound_of_reachable (h : Reachable db) : ∃ chains, Sound db chains := by
  induction h with
  | file h =>
    obtain ⟨hfile, chains, hok⟩ := fileOk_of_reachable h
    exact ⟨chains, .inl ⟨hfile, hok⟩⟩
  | memory m table hm =>
    obtain ⟨chains, hs, -⟩ := refines_start (.memory m _ hm)
    exact ⟨chains, hs⟩
  | call _ hop hstep ih =>
    obtain ⟨chains, hs⟩ := ih
    exact hs.step hop hstep
  | outside _ hm ih =>
    obtain ⟨chains, hs⟩ := ih
    exact ⟨chains, (hs.outside hm).1⟩

theorem dbSet_cases (h : Wf db chains) (key val : Slice) (alloc : Option Nat) :
    (∃ db', dbSet db key val alloc = some (0, db')) ∨ dbSet db key val alloc = some (dbFail, db) := by
  cases halloc : allocAt db _ _ with
  | none => exact .inr (dbSet_full h halloc)
  | some b =>
    rcases missing_or_found db _ key with hm | ⟨l1, a, l3, hf⟩
    · exact .inl ⟨_, dbSet_missing h hm halloc⟩
    · exact .inl ⟨_, dbSet_found h hf halloc⟩

end

/-- In every reachable state of either backend a set returns, and if it returns
`DB_FAIL` no store was made and nothing has changed: every later call behaves as if the
set had not been made. -/
theorem failed_set_changes_nothing {db : State} (h : Reachable db) (key val : Slice)
    (alloc : Option Nat) :
    ∃ rc db', dbSet db key val alloc = some (rc, db') ∧
      (rc = dbFail → db' = db ∧ ∀ ops, run db' ops = run db ops) := by
  obtain ⟨chains, hs⟩ := sound_of_reachable h
  rcases dbSet_cases hs.wf key val _ with ⟨db', hset⟩ | hset
  · exact ⟨0, db', hset, fun hfail => absurd hfail (by decide)⟩
  · exact ⟨dbFail, db, hset, fun _ => ⟨rfl, fun _ => rfl⟩⟩

/-- `malloc` fails in a set on an empty table. -/
theorem failed_set_without_memory :
    ∃ db', dbSet (hashInit (fun _ => 0) 4096) ⟨[97], by decide⟩ ⟨[120], by decide⟩ none =
        some (dbFail, db') ∧
      db' = hashInit (fun _ => 0) 4096 ∧
        ∀ ops, run db' ops = run (hashInit (fun _ => 0) 4096) ops := by
  obtain ⟨rc, db', hset, hfail⟩ := failed_set_changes_nothing
    (.memory (fun _ => 0) 4096 fun _ _ _ => rfl) ⟨[97], by decide⟩ ⟨[120], by decide⟩ none
  have hrc : (dbSet (hashInit (fun _ => 0) 4096) ⟨[97], by decide⟩ ⟨[120], by decide⟩ none).map
      Prod.fst = some dbFail := by decide +kernel
  rw [hset, Option.map_some, Option.some.injEq] at hrc
  rw [show rc = dbFail from hrc] at hset
  exact ⟨db', hset, hfail hrc⟩

/-! ## The space that a run takes -/

/-- The bytes a call takes from the file. -/
def Op.demand : Op → Nat
  | .set key val _ => recSize key val
  | _ => 0

def Op.Fails (op : Op) (r : Reply) : Prop :=
  ∃ key val alloc, op = .set key val alloc ∧ r = .code dbFail

/-- No set among the calls `ops` failed, going by the replies `rs`. -/
def NoSetFails (ops : List Op) (rs : List Reply) : Prop :=
  ∀ x ∈ ops.zip rs, ¬ x.1.Fails x.2

section
variable {db db' : State} {chains : Nat → List Nat} {key val : Slice} {alloc : Option Nat}

theorem step_fits (hfile : IsFile db) (h : FileOk db.mem chains)
    (hfit : nextOffset db.mem + op.demand ≤ fileSize) :
    ∃ r db', step db op = some (r, db') ∧ ¬ op.Fails r ∧
      nextOffset db'.mem = nextOffset db.mem + op.demand := by
  cases op with
  | set key _ alloc =>
    obtain ⟨l1, l3, hspot⟩ := exists_spot db _ key
    obtain ⟨db', l2, q, post, hstep, hsplit, hpost, hs⟩ := fileStep_set hfile h hspot hfit _
    refine ⟨.code 0, db', hstep, ?_, hs.mem ▸ nextOffset_put hfile h hsplit hfit hpost⟩
    rintro ⟨_, _, _, -, hr⟩
    exact absurd hr (by decide)
  | get key =>
    obtain ⟨r, hget⟩ := fileStep_get hfile h key
    refine ⟨r, db, hget, ?_, rfl⟩
    rintro ⟨_, _, _, hop, -⟩
    exact nomatch hop
  | del key =>
    obtain ⟨rc, db', chains', ws, hstep, hlate, hs⟩ := fileStep_delete hfile h key
    refine ⟨.code rc, db', hstep, ?_,
      hs.mem ▸ nextOffset_frame fun w hw => (hlate w hw).avoids_nextOffset⟩
    rintro ⟨_, _, _, hop, -⟩
    exact nomatch hop

theorem step_full (hfile : IsFile db) (h : FileOk db.mem chains)
    (hfull : fileSize < nextOffset db.mem + op.demand) :
    ∃ r, step db op = some (r, db) ∧ op.Fails r := by
  have hle := h.next_le
  cases op with
  | set key val alloc =>
    exact ⟨_, fileStep_full hfile h hfull _, key, val, alloc, rfl, rfl⟩
  | get key => exact absurd hfull (not_lt.2 hle)
  | del key => exact absurd hfull (not_lt.2 hle)

theorem noSetFails_cons {ops : List Op} {r : Reply} {rs : List Reply} :
    NoSetFails (op :: ops) (r :: rs) ↔ ¬ op.Fails r ∧ NoSetFails ops rs := by
  rw [NoSetFails, zip_cons_cons, forall_mem_cons]
  rfl

theorem run_fits_iff (ops : List Op) {db : State} {chains : Nat → List Nat} (hfile : IsFile db)
    (h : FileOk db.mem chains) :
    ∃ rs db', run db ops = some (rs, db') ∧
      (NoSetFails ops rs ↔ nextOffset db.mem + (ops.map Op.demand).sum ≤ fileSize) := by
  induction ops generalizing db chains with
  | nil => exact ⟨[], db, rfl, by simpa [NoSetFails] using h.next_le⟩
  | cons op ops ih =>
    rw [map_cons, sum_cons]
    by_cases hfit : nextOffset db.mem + op.demand ≤ fileSize
    · obtain ⟨r, db', hstep, hok, hnext⟩ := step_fits hfile h hfit
      obtain ⟨chains', ent, ws, hs⟩ := fileStep_of_step hfile h hstep
      obtain ⟨rs, db'', hrun, hiff⟩ := ih hs.isFile hs.after.1
      refine ⟨r :: rs, db'', run_cons hstep hrun, ?_⟩
      rw [noSetFails_cons, hiff, hnext, add_assoc]
      exact and_iff_right hok
    · obtain ⟨r, hstep, hfails⟩ := step_full hfile h (not_le.1 hfit)
      obtain ⟨rs, db'', hrun, -⟩ := ih hfile h
      refine ⟨r :: rs, db'', run_cons hstep hrun, ?_⟩
      rw [noSetFails_cons]
      exact ⟨fun hno => absurd hfails hno.1, fun hle => absurd hle (by omega)⟩

end

/-- On a new file no set of a run fails exactly when the records of all its sets, those
replaced or deleted since included, fit into the space for `DB_MAX_REC` lines. -/
theorem capacity_iff (m : Mem) (ops : List Op) : ∃ rs db, run (fileInitNew m) ops = some (rs, db) ∧
      (NoSetFails ops rs ↔ (ops.map Op.demand).sum ≤ dbMaxRec * maxLine) := by
  obtain ⟨rs, db, hrun, hiff⟩ := run_fits_iff ops (isFile_fileInitNew m) (fileOk_fileInitNew m)
  refine ⟨rs, db, hrun, hiff.trans ?_⟩
  rw [nextOffset_fileInitNew, fileSize]
  omega

/-! ## One live key -/

/-- The call is one of a line that is accepted: `SET`, key and value in `MAX_LINE`. -/
def Op.FitsLine : Op → Prop
  | .set key val _ => key.len + val.len ≤ maxLine - 5
  | _ => True

/-- The keys that are live after the calls `ops`. -/
def liveKeys (ops : List Op) : Finset Bytes :=
  ops.foldl (fun live op =>
    match op with
    | .set key _ _ => insert key.bytes live
    | .get _ => live
    | .del key => live.erase key.bytes) ∅

theorem liveKeys_replicate_set (key val : Slice) (n : Nat) :
    liveKeys (replicate n (.set key val none)) ⊆ {key.bytes} := by
  have hfold : ∀ (n : Nat) (live : Finset Bytes), live ⊆ {key.bytes} →
      (replicate n (Op.set key val none)).foldl (fun live op =>
        match op with
        | .set key _ _ => insert key.bytes live
        | .get _ => live
        | .del key => live.erase key.bytes) live ⊆ {key.bytes} := by
    intro n
    induction n with
    | zero => exact fun live hlive => hlive
    | succ n ih =>
      intro live hlive
      exact ih _ (Finset.insert_subset (Finset.mem_singleton_self _) hlive)
  exact hfold n ∅ (Finset.empty_subset _)

def longVal : Slice :=
  ⟨replicate 250 120, by rw [length_replicate]; decide⟩

theorem longVal_len : longVal.len = 250 := length_replicate

/-- A set of the key `a` with that value. -/
def longSet : Op := .set ⟨[97], by decide⟩ longVal none

theorem longSet_demand : longSet.demand = 283 := by
  rw [longSet, Op.demand, recSize, longVal_len]
  decide

theorem longSet_fitsLine : longSet.FitsLine := by
  rw [longSet, Op.FitsLine, longVal_len]
  decide

theorem longSets_fail {k : Nat} (hk : 9046 ≤ k) :
    ∃ rs db, run (fileInitNew fun _ => 0) (replicate k longSet) = some (rs, db) ∧
      ¬ NoSetFails (replicate k longSet) rs := by
  obtain ⟨rs, db, hrun, hiff⟩ := run_fits_iff _
    (isFile_fileInitNew fun _ => 0) (fileOk_fileInitNew fun _ => 0)
  refine ⟨rs, db, hrun, fun hno => ?_⟩
  have hfits := hiff.1 hno
  simp [nextOffset_fileInitNew, longSet_demand, fileSize, dbMaxRec, maxLine] at hfits
  omega

theorem card_liveKeys_longSets (k n : Nat) :
    (liveKeys ((replicate k longSet).take n)).card ≤ 1 := by
  rw [take_replicate]
  exact Finset.card_le_card (liveKeys_replicate_set ⟨[97], by decide⟩ _ _)

/-- Setting one key again and again with lines of full length fails at the 9046th call,
with a single live key. -/
theorem one_key_fills_the_file : ∃ ops : List Op, (∀ op ∈ ops, op.FitsLine) ∧
      (∀ n, (liveKeys (ops.take n)).card ≤ dbMaxRec) ∧
      ∃ rs db, run (fileInitNew fun _ => 0) ops = some (rs, db) ∧ ¬ NoSetFails ops rs := by
  refine ⟨replicate 9046 longSet, fun _ hop => ?_, fun n => ?_, longSets_fail (Nat.le_refl 9046)⟩
  · rw [eq_of_mem_replicate hop]
    exact longSet_fitsLine
  · exact (card_liveKeys_longSets 9046 n).trans (by decide)

end CDbK8s.Db
