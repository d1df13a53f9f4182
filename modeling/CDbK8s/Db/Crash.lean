import CDbK8s.Db.FiniteMap

/-!
# Crash consistency of the database file

A crash during an operation leaves the file after a prefix of the operation's stores, and the next
process maps that file.
-/

namespace CDbK8s.Db

open Base Lib.ByteMem Lib.NodeMap List

/-- The mapping of the file that is left when the process dies after the first `n`
of the stores `ws`. -/
def crashed (m : Mem) (ws : List Write) (n : Nat) : State := fileMap (applyWrites m (ws.take n))

/-- The state `db` with an empty log, so that the log of a call is the list of its
stores. -/
def State.clearLog (db : State) : State := { db with log := [] }

/-- The states that calls and crashes reach from a new file. -/
inductive FileReachable : State → Prop where
  | fresh (m : Mem) (hm : ∀ x < fileSize, m x = 0) : FileReachable (fileInitNew m)
  | call {db db' : State} {op : Op} {r : Reply} (h : FileReachable db)
      (hstep : step db op = some (r, db')) : FileReachable db'
  | crash {db db' : State} {op : Op} {r : Reply} (h : FileReachable db)
      (hstep : step db.clearLog op = some (r, db')) (n : Nat) :
      FileReachable (crashed db.mem db'.log n)

theorem isFile_crashed (m : Mem) (ws : List Write) (n : Nat) : IsFile (crashed m ws n) :=
  ⟨rfl, rfl, rfl⟩

theorem isFile_clearLog {db : State} (h : IsFile db) : IsFile db.clearLog :=
  ⟨h.file, h.size, h.buckets⟩

theorem Atomic.fileOk_take {m : Mem} {chains chains' : Nat → List Nat}
    {ent : Nat → Bytes × Bytes} {ws : List Write} (h : Atomic m chains chains' ent ws) (n : Nat) :
    ∃ chains'', FileOk (applyWrites m (ws.take n)) chains'' := by
  rcases h.cut n with hold | hnew
  · exact ⟨chains, hold.1⟩
  · exact ⟨chains', hnew.1⟩

theorem fileOk_of_reachable {db : State} (h : FileReachable db) :
    IsFile db ∧ ∃ chains, FileOk db.mem chains := by
  induction h with
  | fresh m _ => exact ⟨isFile_fileInitNew m, _, fileOk_fileInitNew m⟩
  | call h hstep ih =>
    obtain ⟨hfile, chains, hok⟩ := ih
    obtain ⟨chains', ent, ws, hs⟩ := fileStep_of_step hfile hok hstep
    exact ⟨hs.isFile, chains', hs.after.1⟩
  | crash h hstep n ih =>
    obtain ⟨hfile, chains, hok⟩ := ih
    obtain ⟨chains', ent, ws, hs⟩ := fileStep_of_step (isFile_clearLog hfile) hok hstep
    have hlog : _ = [] ++ ws := hs.log
    rw [hlog]
    exact ⟨isFile_crashed _ _ n, hs.atomic.fileOk_take n⟩

/-- In a reachable file every call returns, and wherever the process dies during it
the file is accepted and every bucket holds the records from before the call or
those from after it. -/
theorem crash_keeps_buckets {db : State} (h : FileReachable db) (op : Op) :
    ∃ r db', step db.clearLog op = some (r, db') ∧
      ∀ n, fileCheck (crashed db.mem db'.log n) = some 0 ∧
        ∀ i < dbNumBuckets, ∃ l, bucketRecords (crashed db.mem db'.log n) i = some l ∧
          (bucketRecords db i = some l ∨ bucketRecords db' i = some l) := by
  obtain ⟨hfile, chains, hok⟩ := fileOk_of_reachable h
  obtain ⟨r, db', chains', ent, ws, hstep, hs, -⟩ := fileStep_spec (isFile_clearLog hfile) hok op
  have hlog : db'.log = ws := by
    rw [hs.log]
    rfl
  have hbefore : Holds db.mem chains (entry db.mem) := ⟨hok, fun _ _ => rfl⟩
  refine ⟨r, db', hstep, fun n => ⟨?_, fun i hi => ?_⟩⟩
  · obtain ⟨chains'', hcut⟩ := hs.atomic.fileOk_take n
    rw [hlog]
    exact fileCheck_eq (isFile_crashed _ ws n) hcut
  · rw [hlog]
    -- the commit point decides which list a bucket holds
    rcases hs.atomic.cut n with hold | hnew
    · exact ⟨_, bucketRecords_eq (isFile_crashed _ ws n) hold hi,
        .inl (bucketRecords_eq hfile hbefore hi)⟩
    · exact ⟨_, bucketRecords_eq (isFile_crashed _ ws n) hnew hi,
        .inr (bucketRecords_eq hs.isFile hs.after hi)⟩

/-- A set on a file of zeros. -/
theorem crash_keeps_buckets_zeros : ∃ r db', step (fileInitNew fun _ => 0).clearLog
        (.set ⟨[97], by decide⟩ ⟨[120], by decide⟩ none) = some (r, db') ∧
      ∀ n, fileCheck (crashed (fileInitNew fun _ => 0).mem db'.log n) = some 0 ∧
        ∀ i < dbNumBuckets, ∃ l,
          bucketRecords (crashed (fileInitNew fun _ => 0).mem db'.log n) i = some l ∧
            (bucketRecords (fileInitNew fun _ => 0) i = some l ∨ bucketRecords db' i = some l) :=
  crash_keeps_buckets (.fresh (fun _ => 0) fun _ _ => rfl) _

/-! ## The life of a file -/

/-- A call, or with `some n` one during which the process dies after `n` stores. -/
def attempt (db : State) (op : Op) (dies : Option Nat) : Option State :=
  (step db op).map fun r => dies.elim r.2 (crashed db.mem (r.2.log.drop db.log.length))

/-- The processes that map a file one after the other. -/
def attempts (db : State) : List (Op × Option Nat) → Option State
  | [] => some db
  | (op, dies) :: rest => (attempt db op dies).bind (attempts · rest)

/-- The attempts may make `g` of `f`: a call that has returned counts, and one during which the
process has died counts or does not. -/
def Outcome (f g : KvMap) : List (Op × Option Nat) → Prop
  | [] => g = f
  | (op, dies) :: rest => Outcome (specStep f op).2 g rest ∨ dies.isSome ∧ Outcome f g rest

/-- Every call has room for its record and finds an exact match. -/
def Suited (db : State) : List (Op × Option Nat) → Prop
  | [] => True
  | (op, dies) :: rest => op.Served db ∧ ExactMatch db op.key ∧
      ∀ db', attempt db op dies = some db' → Suited db' rest

section
variable {db : State} {f : KvMap} {chains : Nat → List Nat}

theorem Sound.fileOk (h : Sound db chains) (hfile : IsFile db) : FileOk db.mem chains := by
  rcases h with ⟨-, hok⟩ | hmem
  · exact hok
  · exact absurd (hmem.memory.symm.trans hfile.file) Bool.false_ne_true

/-- Any chains that fit the memory are those that the code finds. -/
theorem Refines.represents (h : Refines db f) (hs : Sound db chains) :
    Represents (Linked chains) (entry db.mem) f := by
  obtain ⟨chains1, hs1, hrep⟩ := h
  refine hrep.congr (fun a => exists_congr fun i => and_congr_right fun hi => ?_) fun _ _ => rfl
  have hchain := bucketChain_eq hs.wf hi
  rw [bucketChain_eq hs1.wf hi, Option.some.injEq] at hchain
  rw [hchain]

theorem Refines.attempt_refines (h : Refines db f) (hfile : IsFile db) {op : Op}
    (hserved : op.Served db) (he : ExactMatch db op.key) (dies : Option Nat) :
    ∃ db' g, attempt db op dies = some db' ∧ IsFile db' ∧ Refines db' g ∧
      (g = (specStep f op).2 ∨ dies.isSome ∧ g = f) := by
  obtain ⟨db', hstep, hdone⟩ := h.step_refines op hserved he
  obtain ⟨chains, hsound, hrep⟩ := h
  obtain ⟨chains', ent, ws, hs⟩ := fileStep_of_step hfile (hsound.fileOk hfile) hstep
  have hlog : db'.log.drop db.log.length = ws := by rw [hs.log, drop_left]
  rw [attempt, hstep, Option.map_some, hlog]
  cases dies with
  | none => exact ⟨db', _, rfl, hs.isFile, hdone, .inl rfl⟩
  | some n =>
    have hcut : IsFile (crashed db.mem ws n) := isFile_crashed _ _ _
    rcases hs.atomic.cut n with hold | hnew
    · refine ⟨_, f, rfl, hcut, ⟨chains, .inl ⟨hcut, hold.1⟩, ?_⟩, .inr ⟨rfl, rfl⟩⟩
      exact hrep.congr (fun _ => Iff.rfl) hold.2
    · refine ⟨_, _, rfl, hcut, ⟨chains', .inl ⟨hcut, hnew.1⟩, ?_⟩, .inl rfl⟩
      have hrep' := hdone.represents (.inl ⟨hs.isFile, hs.after.1⟩)
      exact hrep'.congr (fun _ => Iff.rfl) fun a ha => (hnew.2 a ha).trans (hs.after.2 a ha).symm

theorem Refines.attempts_refine (h : Refines db f) (hfile : IsFile db)
    (l : List (Op × Option Nat)) (hl : Suited db l) :
    ∃ db' g, attempts db l = some db' ∧ IsFile db' ∧ Refines db' g ∧ Outcome f g l := by
  induction l generalizing db f with
  | nil => exact ⟨db, f, rfl, hfile, h, rfl⟩
  | cons call rest ih =>
    obtain ⟨hserved, he, hrest⟩ := hl
    obtain ⟨db1, f1, hcall, hfile1, h1, hf1⟩ := h.attempt_refines hfile hserved he call.2
    obtain ⟨db', g, hall, hfile', hg, hout⟩ := ih h1 hfile1 (hrest db1 hcall)
    refine ⟨db', g, by rw [attempts, hcall]; exact hall, hfile', hg, ?_⟩
    rcases hf1 with rfl | ⟨hdies, rfl⟩
    · exact .inl hout
    · exact .inr ⟨hdies, hout⟩

end

/-- Whatever calls are made on a new file, and wherever processes die in the middle of one: the file
is accepted, and it holds what all calls that have returned, and some of the others, make of an
empty map. -/
theorem calls_survive_crashes {m : Mem} (hm : ∀ x < fileSize, m x = 0)
    (l : List (Op × Option Nat)) (hl : Suited (fileInitNew m) l) :
    ∃ db' g, attempts (fileInitNew m) l = some db' ∧ fileCheck db' = some 0 ∧
      Outcome (fun _ => none) g l ∧
      ∀ key, ExactMatch db' key → dbGet db' key = some (g key.bytes) := by
  obtain ⟨db', g, hrun, hfile, hg, hout⟩ :=
    (refines_start (.file m hm)).attempts_refine (isFile_fileInitNew m) l hl
  refine ⟨db', g, hrun, ?_, hout, fun key hkey => hg.dbGet_eq hkey⟩
  obtain ⟨chains, hsound, -⟩ := hg
  exact fileCheck_eq hfile (hsound.fileOk hfile)

/-- A process dies after three stores of a set. -/
theorem set_survives_crash : ∃ db' g, attempts (fileInitNew fun _ => 0)
      [(.set ⟨[97], by decide⟩ ⟨[120], by decide⟩ none, some 3)] = some db' ∧
      fileCheck db' = some 0 ∧
      Outcome (fun _ => none) g [(.set ⟨[97], by decide⟩ ⟨[120], by decide⟩ none, some 3)] ∧
      ∀ key, ExactMatch db' key → dbGet db' key = some (g key.bytes) :=
  calls_survive_crashes (fun _ _ => rfl) _ ⟨room_fileInitNew _ (by decide) none,
    (refines_start (.file _ fun _ _ => rfl)).exactMatch fun _ _ _ => rfl, fun _ _ => trivial⟩

end CDbK8s.Db
