import CDbK8s.Db.Operations

/-!
# The database file
-/

namespace CDbK8s.Db

open Base Lib.ByteMem Lib.LinkedCells List Function

variable {l1 : List Nat} {ws : List Write} {ent : Nat → Bytes × Bytes} {chains' : Nat → List Nat}
  {key : Slice} {db : State}
variable {m : Mem} {chains : Nat → List Nat} {w : Write}

/-! ## Operations -/

/-- A call of the interface; `alloc` is the answer of `malloc` in memory mode. -/
inductive Op where
  | set (key val : Slice) (alloc : Option Nat)
  | get (key : Slice)
  | del (key : Slice)

/-- The result of a call. -/
inductive Reply where
  | code (rc : Int)
  | slice (val : Option Bytes)
deriving DecidableEq

/-- One call. -/
def step (db : State) : Op → Option (Reply × State)
  | .set key val alloc => (dbSet db key val alloc).map fun r => (.code r.1, r.2)
  | .get key => (dbGet db key).map fun v => (.slice v, db)
  | .del key => (dbDel db key).map fun r => (.code r.1, r.2)

/-! ## The header -/

/-- `db_hdr->num_rec`. -/
def numRec (m : Mem) : Nat := readWord m 8 hdrNumRec

/-- `db_hdr->num_del`. -/
def numDel (m : Mem) : Nat := readWord m 8 hdrNumDel

/-- `db_hdr->next_offset`. -/
def nextOffset (m : Mem) : Nat := readWord m 8 hdrNextOffset

/-- `file_check` accepts the magic and the version. -/
def MagicOk (m : Mem) : Prop :=
  ofLe (readBytes m hdrMagic 4).reverse = dbMagic ∧ readWord m 4 hdrVersion = 1

theorem MagicOk.congr {m' : Mem} (h : MagicOk m) (hagree : AgreeOn m m' 0 8) : MagicOk m' := by
  refine ⟨?_, ?_⟩
  · rw [readBytes_congr (hagree.mono (by simp [hdrMagic]) (by simp [hdrMagic]))]
    exact h.1
  · rw [readWord_congr (hagree.mono (by simp [hdrVersion]) (by simp [hdrVersion]))]
    exact h.2

theorem MagicOk.frame (h : MagicOk m) (hws : ∀ w ∈ ws, 8 ≤ w.addr) : MagicOk (applyWrites m ws) :=
  h.congr (agreeOn_applyWrites fun w hw => .inr (hws w hw))

section
variable {m : Mem} {ws : List Write}

theorem nextOffset_frame (hws : ∀ w ∈ ws, w.Avoids hdrNextOffset (hdrNextOffset + 8)) :
    nextOffset (applyWrites m ws) = nextOffset m :=
  readWord_applyWrites hws

theorem numRec_frame (hws : ∀ w ∈ ws, w.Avoids hdrNumRec (hdrNumRec + 8)) :
    numRec (applyWrites m ws) = numRec m :=
  readWord_applyWrites hws

theorem numDel_frame (hws : ∀ w ∈ ws, w.Avoids hdrNumDel (hdrNumDel + 8)) :
    numDel (applyWrites m ws) = numDel m :=
  readWord_applyWrites hws

theorem avoids_of_behind (hw : sizeofHdr ≤ w.addr) {f : Nat} (hf : f + 8 ≤ sizeofHdr) :
    w.Avoids f (f + 8) :=
  .inr (by omega)

/-- A store inside the file that touches no field of the header but `num_del`. -/
structure Late (w : Write) : Prop where
  addr : sizeofHdr ≤ w.addr ∨ (w.addr = hdrNumDel ∧ w.stop = hdrNumDel + 8)
  stop : w.stop ≤ fileSize

variable (h : Late w)
include h

theorem Late.eight_le : 8 ≤ w.addr := by
  rcases h.addr with hb | ⟨haddr, -⟩
  · exact le_trans (by decide) hb
  · rw [haddr]
    decide

theorem Late.avoids_nextOffset : w.Avoids hdrNextOffset (hdrNextOffset + 8) := by
  rcases h.addr with hb | ⟨-, hstop⟩
  · exact avoids_of_behind hb (by decide)
  · exact .inl (by rw [hstop]; decide)

theorem Late.avoids_numRec : w.Avoids hdrNumRec (hdrNumRec + 8) := by
  rcases h.addr with hb | ⟨haddr, -⟩
  · exact avoids_of_behind hb (by decide)
  · exact .inr (by rw [haddr]; decide)

end

/-! ## The invariant of the file -/

/-- The file spells `chains`, with every record before `next_offset`. -/
structure FileOk (m : Mem) (chains : Nat → List Nat) : Prop where
  layout : Layout m sizeofHdr chains
  inside : ∀ a, Linked chains a → sizeofHdr + tableSize ≤ a ∧ recEnd m a ≤ nextOffset m
  start_le : sizeofHdr + tableSize ≤ nextOffset m
  next_le : nextOffset m ≤ fileSize
  magic : MagicOk m

/-- The number of linked records. -/
def total (chains : Nat → List Nat) : Nat :=
  ((range dbNumBuckets).map fun i => (chains i).length).sum

/-- The counters of the header fit the chains; the bound keeps them from wrapping. -/
structure Counted (m : Mem) (chains : Nat → List Nat) : Prop where
  count : numRec m = numDel m + total chains
  room : 32 * numRec m ≤ nextOffset m

/-- A mapped database. -/
structure IsFile (db : State) : Prop where
  file : db.dbFile = true
  size : db.dbSize = fileSize
  buckets : db.dbBuckets = sizeofHdr

theorem length_le_of_nodup {l : List Nat} (hnodup : l.Nodup) {n : Nat} (hlt : ∀ a ∈ l, a < n) :
    l.length ≤ n := by
  have hsub : l ⊆ range n := fun a ha => mem_range.2 (hlt a ha)
  simpa using (subperm_of_subset hnodup hsub).length_le

theorem FileOk.length_le (h : FileOk m chains) {i : Nat} (hi : i < dbNumBuckets) :
    (chains i).length ≤ fileSize := by
  refine length_le_of_nodup (h.layout.chained.nodup i hi) fun a ha => ?_
  have hin := h.inside a ⟨i, hi, ha⟩
  have hend := le_recEnd m a
  have hnext := h.next_le
  omega

theorem FileOk.wf (hfile : IsFile db) (h : FileOk db.mem chains) : Wf db chains := by
  refine ⟨?_, fun i hi => ?_, fun _ => ⟨?_, fun a ha => ?_⟩⟩
  · rw [hfile.buckets]
    exact h.layout
  · have := h.length_le hi
    rw [State.walkFuel, hfile.size]
    omega
  · rw [hfile.buckets]
    exact .inl le_rfl
  · have := (h.inside a ha).1
    exact .inl (by omega)

theorem allocAt_file (hfile : IsFile db) (h : FileOk db.mem chains) (key val : Slice)
    (alloc : Option Nat) :
    allocAt db (recSize key val) alloc = if nextOffset db.mem + recSize key val > fileSize then none
      else some (nextOffset db.mem) := by
  have hk : key.len < 2 ^ 62 := key.size_lt
  have hv : val.len < 2 ^ 62 := val.size_lt
  have hnext : nextOffset db.mem < 2 ^ 62 := by
    have := h.next_le
    have hsize : fileSize < 2 ^ 62 := by decide
    omega
  have hmod : (nextOffset db.mem + recSize key val) % 2 ^ 64 =
      nextOffset db.mem + recSize key val := by
    refine Nat.mod_eq_of_lt ?_
    rw [recSize, sizeofRec]
    omega
  rw [allocAt, hfile.file, hfile.size]
  show (if (nextOffset db.mem + recSize key val) % 2 ^ 64 > fileSize then none
    else some (nextOffset db.mem)) = _
  rw [hmod]

theorem place_file (hfile : IsFile db) (h : FileOk db.mem chains) {size : Nat}
    (hfit : nextOffset db.mem + size ≤ fileSize) : Place db chains (nextOffset db.mem) size := by
  have hstart := h.start_le
  have hhdr : 0 < sizeofHdr := by decide
  have hsize : fileSize ≤ 2 ^ 64 := by decide
  refine ⟨by omega, by omega, ⟨?_, fun a ha => ?_⟩, fun _ => by omega⟩
  · rw [hfile.buckets]
    exact .inr hstart
  · exact .inr (h.inside a ha).2

/-! ## Where the stores of an operation go -/

section
variable {db : State} {chains : Nat → List Nat} {key val : Slice} {a b : Nat}

theorem FileOk.endOf_within (h : FileOk m chains) {i : Nat} (hi : i < dbNumBuckets) {l2 : List Nat}
    (hsplit : chains i = l1 ++ l2) :
    sizeofHdr ≤ endOf (sizeofHdr + 8 * i) l1 ∧ endOf (sizeofHdr + 8 * i) l1 + 8 ≤ fileSize := by
  have hnext := h.next_le
  have htab : sizeofHdr + dbNumBuckets * 8 ≤ fileSize := by decide
  rcases mem_cons.1 (endOf_mem (sizeofHdr + 8 * i) l1) with he | he
  · omega
  · have hin := h.inside _ ⟨i, hi, by rw [hsplit]; exact mem_append_left _ he⟩
    have hend := le_recEnd m (endOf (sizeofHdr + 8 * i) l1)
    omega

theorem stop_wordWrite (a v : Nat) : (wordWrite 8 a v).stop = a + 8 := by
  simp [Write.stop, wordWrite]

variable (hfile : db.dbFile = true)
include hfile

theorem delWrites_file (a : Nat) :
    delWrites db a = [wordWrite 8 (a + 8) (recFlags db.mem a ||| dbRecDel),
        wordWrite 8 hdrNumDel
          (readWord (applyWrite db.mem (wordWrite 8 (a + 8) (recFlags db.mem a ||| dbRecDel)))
            8 hdrNumDel + 1)] := by
  rw [delWrites, if_pos hfile]

theorem delWrites_late (ha : sizeofHdr ≤ a ∧ a + 16 ≤ fileSize) (hw : w ∈ delWrites db a) :
    Late w := by
  rw [delWrites_file hfile] at hw
  simp only [mem_cons, not_mem_nil, or_false] at hw
  rcases hw with rfl | rfl
  · exact ⟨.inl (by simp only [wordWrite]; omega), by rw [stop_wordWrite]; omega⟩
  · exact ⟨.inr ⟨rfl, stop_wordWrite ..⟩, by rw [stop_wordWrite]; decide⟩

theorem numDel_delWrites (ha : sizeofHdr ≤ a) :
    numDel (applyWrites db.mem (delWrites db a)) = (numDel db.mem + 1) % 2 ^ 64 := by
  have hkeep : readWord (applyWrite db.mem (wordWrite 8 (a + 8) (recFlags db.mem a ||| dbRecDel)))
      8 hdrNumDel = numDel db.mem :=
    readWord_congr (agreeOn_applyWrite (avoids_of_behind (by simp only [wordWrite]; omega)
      (by decide)))
  rw [delWrites_file hfile, hkeep, numDel, applyWrites_cons, applyWrites_cons, applyWrites_nil,
    readWord_wordWrite]
  norm_num

/-- The stores of `hash_put` behind the header, before the new record is linked. -/
def newTail (db : State) (b : Nat) (key val : Slice) (q : Nat) : List Write :=
  fillWrites b key val ++
    [wordWrite 8 b (recNext (applyWrites db.mem (createWrites db b key val)) q)]

omit hfile in
theorem newTail_within (hb : sizeofHdr ≤ b) (hfit : b + recSize key val ≤ fileSize) {q : Nat}
    (hw : w ∈ newTail db b key val q) : sizeofHdr ≤ w.addr ∧ w.stop ≤ fileSize := by
  rcases mem_append.1 hw with hw | hw
  · have hrange := fillWrites_range hw
    omega
  · rw [recSize, sizeofRec] at hfit
    rw [mem_singleton.1 hw, stop_wordWrite]
    exact ⟨hb, by omega⟩

theorem newWrites_file (b : Nat) (key val : Slice) (q : Nat) :
    newWrites db b key val q = wordWrite 8 hdrNextOffset (nextOffset db.mem + recSize key val) ::
        wordWrite 8 hdrNumRec (numRec db.mem + 1) :: newTail db b key val q := by
  have hcreate : createWrites db b key val =
      wordWrite 8 hdrNextOffset (nextOffset db.mem + recSize key val) ::
        wordWrite 8 hdrNumRec (numRec db.mem + 1) :: fillWrites b key val := by
    simp [createWrites, allocWrites, if_pos hfile, State.load64, nextOffset, numRec]
  simp [newWrites, newTail, hcreate]

end

/-! ## One commit point -/

/-- The file spells `chains` with the entries `ent`. -/
def Holds (m : Mem) (chains : Nat → List Nat) (ent : Nat → Bytes × Bytes) : Prop :=
  FileOk m chains ∧ ∀ a, Linked chains a → entry m a = ent a

/-- After every prefix of the stores `ws` the file holds the old chains and entries
or the new ones; after all of them it holds the new ones. -/
structure Atomic (m : Mem) (chains chains' : Nat → List Nat) (ent : Nat → Bytes × Bytes)
    (ws : List Write) : Prop where
  cut : ∀ n, Holds (applyWrites m (ws.take n)) chains (entry m) ∨
    Holds (applyWrites m (ws.take n)) chains' ent
  done : Holds (applyWrites m ws) chains' ent

theorem atomic_nil (h : FileOk m chains) : Atomic m chains chains (entry m) [] :=
  ⟨fun _ => .inl ⟨by simpa using h, fun _ _ => by simp⟩, h, fun _ _ => rfl⟩

/-- A commit whose stores keep `next_offset` between its old value and the file size
is atomic. -/
theorem atomic_of_commit {pre post : List Write} (h : FileOk m chains)
    (hc : Commit m sizeofHdr chains chains' ent pre w post)
    (hmagic : ∀ v ∈ pre ++ w :: post, 8 ≤ v.addr) {next : Nat} (hnext : next ≤ fileSize)
    (hold : ∀ n, nextOffset m ≤ nextOffset (applyWrites m (pre.take n)) ∧
      nextOffset (applyWrites m (pre.take n)) ≤ next)
    (hnew : ∀ n, nextOffset (applyWrites m (pre ++ w :: post.take n)) = next)
    (hinside : ∀ a, Linked chains' a →
      sizeofHdr + tableSize ≤ a ∧ recEnd (applyWrites m (pre ++ [w])) a ≤ next) :
    Atomic m chains chains' ent (pre ++ w :: post) := by
  have hbefore : ∀ n, Holds (applyWrites m (pre.take n)) chains (entry m) := by
    intro n
    obtain ⟨hlayout, hent⟩ := hc.up_to h.layout n
    have hpre : ∀ v ∈ pre.take n, AvoidsLayout m sizeofHdr chains v := fun v hv =>
      hc.before v (mem_of_mem_take hv)
    obtain ⟨hlo, hhi⟩ := hold n
    refine ⟨⟨hlayout, fun a ha => ?_, ?_, ?_, ?_⟩, hent⟩
    · rw [(sameBody_of_avoids hpre ha).recEnd_eq]
      have := h.inside a ha
      omega
    · have := h.start_le
      omega
    · omega
    · exact h.magic.frame fun v hv => hmagic v (by simp [mem_of_mem_take hv])
  have hafter : ∀ n, Holds (applyWrites m (pre ++ w :: post.take n)) chains' ent := by
    intro n
    obtain ⟨hlayout, hent⟩ := hc.from_on n
    have hpost : ∀ v ∈ post.take n,
        AvoidsLayout (applyWrites m (pre ++ [w])) sizeofHdr chains' v := fun v hv =>
      hc.after v (mem_of_mem_take hv)
    have hstart : sizeofHdr + tableSize ≤ next := by
      have := hold 0
      have := h.start_le
      omega
    refine ⟨⟨hlayout, fun a ha => ⟨(hinside a ha).1, ?_⟩, ?_, ?_, ?_⟩, hent⟩
    · have hbody := sameBody_of_avoids hpost ha
      rw [← applyWrites_append, append_assoc] at hbody
      rw [hnew, show pre ++ w :: post.take n = pre ++ ([w] ++ post.take n) from rfl,
        hbody.recEnd_eq]
      exact (hinside a ha).2
    · rw [hnew]
      exact hstart
    · rw [hnew]
      exact hnext
    · refine h.magic.frame fun v hv => hmagic v ?_
      rcases mem_append.1 hv with hv | hv
      · exact mem_append_left _ hv
      · refine mem_append_right _ ?_
        rcases mem_cons.1 hv with rfl | hv
        · simp
        · exact .tail _ (mem_of_mem_take hv)
  refine ⟨fun n => ?_, ?_⟩
  · rw [take_append]
    cases hn : n - pre.length with
    | zero =>
      rw [take_zero, append_nil]
      exact .inl (hbefore n)
    | succ k =>
      rw [take_of_length_le (by omega)]
      exact .inr (hafter k)
  · have hall := hafter post.length
    rwa [take_length] at hall

/-! ## Deletion -/

theorem total_update (chains : Nat → List Nat) {i : Nat} (hi : i < dbNumBuckets) (l : List Nat) :
    total (update chains i l) + (chains i).length = total chains + l.length := by
  have hgen : ∀ n, (((range n).map fun j => (update chains i l j).length).sum +
      if i < n then (chains i).length else 0) =
        ((range n).map fun j => (chains j).length).sum + if i < n then l.length else 0 := by
    intro n
    induction n with
    | zero => simp
    | succ n ih =>
      rw [range_succ, map_append, map_append, sum_append, sum_append]
      simp only [map_cons, map_nil]
      by_cases hin : n = i
      · subst hin
        simp only [lt_irrefl, if_false] at ih
        simp
        omega
      · rw [update_of_ne hin]
        have hiff : (i < n + 1) ↔ (i < n) := by omega
        simp only [hiff]
        omega
  have h := hgen dbNumBuckets
  rw [if_pos hi, if_pos hi] at h
  exact h

section
variable {db : State} {chains : Nat → List Nat} {key : Slice} {l1 l3 : List Nat} {a : Nat}

/-- The stores of `db_del`. -/
def fileDelWrites (db : State) (key : Slice) (l1 : List Nat) (a : Nat) : List Write :=
  unchainWrite db key l1 a :: delWrites (db.stores [unchainWrite db key l1 a]) a

theorem Found.within (hf : Found db chains key l1 a l3) (h : FileOk db.mem chains) :
    sizeofHdr ≤ a ∧ a + 16 ≤ fileSize := by
  have hin := h.inside a hf.linked
  have hend := le_recEnd db.mem a
  have hnext := h.next_le
  omega

variable (hfile : IsFile db) (h : FileOk db.mem chains)
  (hf : Found db chains key l1 a l3)
include hfile h hf

theorem unchainWrite_within :
    sizeofHdr ≤ (unchainWrite db key l1 a).addr ∧ (unchainWrite db key l1 a).stop ≤ fileSize := by
  rw [unchainWrite, State.slot, hfile.buckets]
  exact h.endOf_within (calcHash_lt _) hf.split

theorem fileDelWrites_late (hw : w ∈ fileDelWrites db key l1 a) : Late w := by
  rcases mem_cons.1 hw with rfl | hw
  · have hin := unchainWrite_within hfile h hf
    exact ⟨.inl hin.1, hin.2⟩
  · exact delWrites_late (by rw [stores_dbFile]; exact hfile.file) (hf.within h) hw

theorem atomic_del :
    Atomic db.mem chains (delChains chains key l1 l3) (entry db.mem)
      (fileDelWrites db key l1 a) := by
  have hc := commit_del (h.wf hfile) hf
  rw [hfile.buckets] at hc
  have hlate : ∀ w ∈ fileDelWrites db key l1 a, Late w := fun w hw =>
    fileDelWrites_late hfile h hf hw
  refine atomic_of_commit h hc (fun v hv => (hlate v hv).eight_le) h.next_le (fun n => ?_)
    (fun n => ?_) fun c hc' => ?_
  · simp
  · refine nextOffset_frame fun v hv => (hlate v ?_).avoids_nextOffset
    rcases mem_cons.1 hv with rfl | hv
    · exact mem_cons_self
    · exact .tail _ (mem_of_mem_take hv)
  · obtain ⟨hold, -⟩ := linked_delChains (h.wf hfile) hf hc'
    obtain ⟨-, hbody⟩ := (h.wf hfile).layout.unlink (calcHash_lt _) hf.split
    have hend := (hbody c hold).recEnd_eq
    have hin := h.inside c hold
    refine ⟨hin.1, ?_⟩
    rw [← hend] at hin
    exact hin.2

theorem counted_del (hcount : Counted db.mem chains) :
    Counted (applyWrites db.mem (fileDelWrites db key l1 a)) (delChains chains key l1 l3) := by
  have hrec : numRec (applyWrites db.mem (fileDelWrites db key l1 a)) = numRec db.mem :=
    numRec_frame fun w hw => (fileDelWrites_late hfile h hf hw).avoids_numRec
  have hnext : nextOffset (applyWrites db.mem (fileDelWrites db key l1 a)) = nextOffset db.mem :=
    nextOffset_frame fun w hw => (fileDelWrites_late hfile h hf hw).avoids_nextOffset
  have hdel : numDel (applyWrites db.mem (fileDelWrites db key l1 a)) =
      (numDel db.mem + 1) % 2 ^ 64 := by
    have hfile' : (db.stores [unchainWrite db key l1 a]).dbFile = true := by
      exact hfile.file
    have hd := numDel_delWrites hfile' (hf.within h).1
    have hw : numDel (applyWrites db.mem [unchainWrite db key l1 a]) = numDel db.mem :=
      numDel_frame fun w hw => by
        rw [mem_singleton.1 hw]
        exact avoids_of_behind (unchainWrite_within hfile h hf).1 (by decide)
    rw [stores_mem, hw] at hd
    exact hd
  have htotal := total_update chains (calcHash_lt key.bytes) (l1 ++ l3)
  rw [hf.split] at htotal
  simp only [length_append, length_cons] at htotal
  have hcnt := hcount.count
  have hroom := hcount.room
  have hle := h.next_le
  have hsize : fileSize < 2 ^ 62 := by decide
  refine ⟨?_, ?_⟩
  · rw [delChains]
    omega
  · rw [hrec, hnext]
    exact hroom

end

/-! ## Storing -/

section
variable {db : State} {chains : Nat → List Nat} {key val : Slice} {l1 l2 l3 : List Nat} {q : Nat}
  {post : List Write}

/-- The stores of a set in a file: those of the new record at `next_offset`, the
commit point, and then `post`. -/
def filePutWrites (db : State) (key val : Slice) (q : Nat) (l1 : List Nat) (post : List Write) :
    List Write :=
  newWrites db (nextOffset db.mem) key val q ++ linkWrite db key l1 (nextOffset db.mem) :: post

/-- The stores of a set after the two header fields that `create_rec` writes. -/
def filePutTail (db : State) (key val : Slice) (q : Nat) (l1 : List Nat) (post : List Write) :
    List Write :=
  newTail db (nextOffset db.mem) key val q ++ linkWrite db key l1 (nextOffset db.mem) :: post

theorem nextOffset_cons {v : Nat} {vs : List Write} (hv : v ≤ fileSize)
    (hvs : ∀ w ∈ vs, w.Avoids hdrNextOffset (hdrNextOffset + 8)) :
    nextOffset (applyWrites m (wordWrite 8 hdrNextOffset v :: vs)) = v :=
  (readWord_applyWrites_cons hvs).trans (Nat.mod_eq_of_lt (lt_of_le_of_lt hv (by decide)))

variable (hfile : IsFile db)
include hfile

theorem filePutWrites_eq :
    filePutWrites db key val q l1 post =
      wordWrite 8 hdrNextOffset (nextOffset db.mem + recSize key val) ::
        wordWrite 8 hdrNumRec (numRec db.mem + 1) :: filePutTail db key val q l1 post := by
  simp [filePutWrites, newWrites_file hfile.file, filePutTail]

variable (h : FileOk db.mem chains) (hsplit : chains (calcHash key.bytes) = l1 ++ l2)
  (hfit : nextOffset db.mem + recSize key val ≤ fileSize)
include h hsplit hfit

theorem filePutTail_within (hw : w ∈ filePutTail db key val q l1 post) :
    (sizeofHdr ≤ w.addr ∧ w.stop ≤ fileSize) ∨ w ∈ post := by
  have hstart := h.start_le
  rcases mem_append.1 hw with hw | hw
  · exact .inl (newTail_within (by omega) hfit hw)
  · rcases mem_cons.1 hw with rfl | hw
    · left
      rw [linkWrite, State.slot, hfile.buckets]
      exact h.endOf_within (calcHash_lt _) hsplit
    · exact .inr hw

theorem numDel_putLink :
    numDel (applyWrites db.mem (filePutWrites db key val q l1 [])) = numDel db.mem := by
  refine numDel_frame fun w hw => ?_
  rw [filePutWrites_eq hfile] at hw
  rcases mem_cons.1 hw with rfl | hw
  · exact .inr (by simp [wordWrite, hdrNumDel, hdrNextOffset])
  · rcases mem_cons.1 hw with rfl | hw
    · exact .inl (by simp [wordWrite, Write.stop, hdrNumRec, hdrNumDel])
    · rcases filePutTail_within hfile h hsplit hfit hw with hin | hw
      · exact avoids_of_behind hin.1 (by decide)
      · simp at hw

variable (hpost : ∀ w ∈ post, Late w)
include hpost

theorem filePutTail_late (hw : w ∈ filePutTail db key val q l1 post) : Late w :=
  (filePutTail_within hfile h hsplit hfit hw).elim (fun hin => ⟨.inl hin.1, hin.2⟩) (hpost w)

theorem filePutWrites_safe :
    ∀ w ∈ filePutWrites db key val q l1 post, 8 ≤ w.addr ∧ w.stop ≤ fileSize := by
  intro w hw
  rw [filePutWrites_eq hfile] at hw
  rcases mem_cons.1 hw with rfl | hw
  · exact ⟨Nat.le_of_ble_eq_true rfl, by rw [stop_wordWrite]; decide⟩
  · rcases mem_cons.1 hw with rfl | hw
    · exact ⟨Nat.le_refl 8, by rw [stop_wordWrite]; decide⟩
    · have hlate := filePutTail_late hfile h hsplit hfit hpost hw
      exact ⟨hlate.eight_le, hlate.stop⟩

theorem filePutTail_avoid
    (hw : w ∈ wordWrite 8 hdrNumRec (numRec db.mem + 1) :: filePutTail db key val q l1 post) :
    w.Avoids hdrNextOffset (hdrNextOffset + 8) := by
  rcases mem_cons.1 hw with rfl | hw
  · exact .inl (by simp [wordWrite, Write.stop, hdrNumRec, hdrNextOffset])
  · exact (filePutTail_late hfile h hsplit hfit hpost hw).avoids_nextOffset

theorem nextOffset_put :
    nextOffset (applyWrites db.mem (filePutWrites db key val q l1 post)) =
      nextOffset db.mem + recSize key val := by
  rw [filePutWrites_eq hfile]
  exact nextOffset_cons hfit fun w hw => filePutTail_avoid hfile h hsplit hfit hpost hw

theorem atomic_put (hsub : l3 <:+ l2) (hq : IsLink db.dbBuckets (Linked chains) q)
    (hpath : Path (recNext db.mem) q l3)
    (hc : Commit db.mem db.dbBuckets chains (putChains chains key l1 (nextOffset db.mem) l3)
      (update (entry db.mem) (nextOffset db.mem) (key.bytes, val.bytes)) (newWrites db (nextOffset
      db.mem) key val q) (linkWrite db key l1 (nextOffset db.mem)) post) :
    Atomic db.mem chains (putChains chains key l1 (nextOffset db.mem) l3)
      (update (entry db.mem) (nextOffset db.mem) (key.bytes, val.bytes))
      (filePutWrites db key val q l1 post) := by
  have hb := place_file hfile h hfit
  obtain ⟨-, hbody⟩ := link_newWrites (h.wf hfile) hb hq hpath hsplit hsub
  rw [hfile.buckets] at hc
  have hrest : ∀ w ∈ wordWrite 8 hdrNumRec (numRec db.mem + 1) ::
      filePutTail db key val q l1 post, w.Avoids hdrNextOffset (hdrNextOffset + 8) :=
    fun w hw => filePutTail_avoid hfile h hsplit hfit hpost hw
  rw [filePutTail, ← cons_append] at hrest
  refine atomic_of_commit h hc (fun v hv => ?_) hfit (fun n => ?_) (fun n => ?_) fun c hc' => ?_
  · exact (filePutWrites_safe hfile h hsplit hfit hpost v hv).1
  · rw [newWrites_file hfile.file]
    cases n with
    | zero => simp
    | succ n =>
      rw [take_succ_cons, nextOffset_cons hfit fun w hw =>
        hrest w (mem_append_left _ (mem_of_mem_take hw))]
      omega
  · rw [newWrites_file hfile.file]
    refine nextOffset_cons hfit fun w hw => hrest w ?_
    rcases mem_append.1 hw with hw | hw
    · exact mem_append_left _ hw
    · refine mem_append_right _ ?_
      rcases mem_cons.1 hw with rfl | hw
      · simp
      · exact .tail _ (mem_of_mem_take hw)
  · have hold := linked_putChains hsplit hsub hc'
    have hstart := h.start_le
    rw [(hbody c hold).recEnd_eq]
    rcases hold with hold | rfl
    · rw [(sameBody_of_avoids (newWrites_avoid (h.wf hfile) hb q) hold).recEnd_eq]
      have := h.inside c hold
      omega
    · exact ⟨hstart, le_of_eq (newRec_newWrites (h.wf hfile) hb q).2⟩

theorem counted_put {k : Nat} (hlen : l2.length = l3.length + k)
    (hdel : numDel (applyWrites db.mem (filePutWrites db key val q l1 post)) = numDel db.mem + k)
    (hcount : Counted db.mem chains) :
    Counted (applyWrites db.mem (filePutWrites db key val q l1 post))
      (putChains chains key l1 (nextOffset db.mem) l3) := by
  have hcnt := hcount.count
  have hroom := hcount.room
  have hsize : fileSize < 2 ^ 62 := by decide
  have hnext := nextOffset_put (q := q) hfile h hsplit hfit hpost
  have hrec : numRec (applyWrites db.mem (filePutWrites db key val q l1 post)) =
      numRec db.mem + 1 := by
    rw [filePutWrites_eq hfile, applyWrites_cons]
    refine (readWord_applyWrites_cons fun w hw => ?_).trans (Nat.mod_eq_of_lt ?_)
    · exact (filePutTail_late hfile h hsplit hfit hpost hw).avoids_numRec
    · omega
  have htotal := total_update chains (calcHash_lt key.bytes) (l1 ++ nextOffset db.mem :: l3)
  rw [hsplit] at htotal
  simp only [length_append, length_cons] at htotal
  refine ⟨?_, ?_⟩
  · rw [putChains]
    omega
  · rw [hnext, recSize, sizeofRec]
    omega

end

/-! ## One operation on the file -/

/-- An operation on the file from `db` to `db'` made the stores `ws`. -/
structure FileStep (db db' : State) (chains chains' : Nat → List Nat)
    (ent : Nat → Bytes × Bytes) (ws : List Write) : Prop where
  isFile : IsFile db'
  log : db'.log = db.log ++ ws
  mem : db'.mem = applyWrites db.mem ws
  atomic : Atomic db.mem chains chains' ent ws
  counted : Counted db.mem chains → Counted db'.mem chains'

variable {db : State} {chains : Nat → List Nat}

section
variable (hfile : IsFile db)
include hfile

theorem fileStep_same (h : FileOk db.mem chains) : FileStep db db chains chains (entry db.mem) [] :=
  ⟨hfile, by simp, rfl, atomic_nil h, id⟩

theorem fileStep_stores (bs : List (Nat × Nat)) (ha : Atomic db.mem chains chains' ent ws)
    (hcount : Counted db.mem chains → Counted (applyWrites db.mem ws) chains') :
    FileStep db { db.stores ws with blocks := bs } chains chains' ent ws := by
  refine ⟨⟨?_, ?_, ?_⟩, stores_log .., stores_mem .., ha, ?_⟩
  · simpa using hfile.file
  · simpa using hfile.size
  · simpa using hfile.buckets
  · simpa using hcount

variable (h : FileOk db.mem chains)
include h

theorem fileStep_get (key : Slice) : ∃ r, step db (.get key) = some (r, db) := by
  rcases missing_or_found db _ key with hm | ⟨l1, a, l3, hf⟩
  · exact ⟨.slice none, by rw [step, dbGet_missing (h.wf hfile) hm, Option.map_some]⟩
  · exact ⟨.slice _, by
      rw [step, dbGet_found (h.wf hfile) hf, Option.map_some]⟩

theorem fileStep_del {l3 : List Nat} {a : Nat} (hf : Found db chains key l1 a l3) :
    ∃ db', step db (.del key) = some (.code 0, db') ∧
      FileStep db db' chains (delChains chains key l1 l3) (entry db.mem)
        (fileDelWrites db key l1 a) := by
  refine ⟨_, ?_, fileStep_stores hfile (delBlocks (db.stores [unchainWrite db key l1 a]) a)
      (atomic_del hfile h hf) (counted_del hfile h hf)⟩
  rw [step, dbDel_found (h.wf hfile) hf, Option.map_some, delRec_eq, stores_stores,
    singleton_append, ← fileDelWrites]

theorem fileStep_delete (key : Slice) :
    ∃ rc db' chains' ws, step db (.del key) = some (.code rc, db') ∧ (∀ w ∈ ws, Late w) ∧
      FileStep db db' chains chains' (entry db.mem) ws := by
  rcases missing_or_found db _ key with hm | ⟨l1, a, l3, hf⟩
  · refine ⟨-1, db, chains, [], ?_, nofun, fileStep_same hfile h⟩
    simp [step, dbDel_missing (h.wf hfile) hm]
  · obtain ⟨db', hstep, hs⟩ := fileStep_del hfile h hf
    exact ⟨0, db', _, _, hstep, fun w hw => fileDelWrites_late hfile h hf hw, hs⟩

theorem fileStep_set {val : Slice} {l3 : List Nat} (hspot : Spot db chains key l1 l3)
    (hfit : nextOffset db.mem + recSize key val ≤ fileSize) (alloc : Option Nat) :
    ∃ db' l2 q post, step db (.set key val alloc) = some (.code 0, db') ∧
      chains (calcHash key.bytes) = l1 ++ l2 ∧ (∀ w ∈ post, Late w) ∧
      FileStep db db' chains (putChains chains key l1 (nextOffset db.mem) l3)
        (update (entry db.mem) (nextOffset db.mem) (key.bytes, val.bytes))
        (filePutWrites db key val q l1 post) := by
  have hwf := h.wf hfile
  have hplace := place_file hfile h hfit
  have halloc := allocAt_file hfile h key val alloc
  rw [if_neg (by omega)] at halloc
  cases hspot with
  | front hm =>
    have hsplit : chains (calcHash key.bytes) = [] ++ chains (calcHash key.bytes) := rfl
    have hnone : ∀ w ∈ ([] : List Write), Late w := nofun
    have hatomic := atomic_put hfile h hsplit hfit hnone (suffix_refl _)
      (isLink_slot db _ key) (hwf.layout.path (calcHash_lt _)) (commit_insert hwf hplace)
    have hcount := counted_put (q := db.slot (calcHash key.bytes)) hfile h hsplit
      hfit hnone (add_zero _).symm
      ((numDel_putLink hfile h hsplit hfit).trans (add_zero _).symm)
    refine ⟨_, _, _, _, ?_, hsplit, hnone, fileStep_stores hfile
      (allocBlocks db (nextOffset db.mem) (recSize key val)) hatomic hcount⟩
    simp [step, dbSet_missing hwf hm halloc, insertWrites, filePutWrites]
  | @taken _ _ a hf =>
    have hfile' : (replaceState db (nextOffset db.mem) key val l1 a).dbFile = true := by
      rw [replaceState_dbFile]
      exact hfile.file
    have hpost : ∀ w ∈ delWrites (replaceState db (nextOffset db.mem) key val l1 a) a, Late w :=
      fun w hw => delWrites_late hfile' (hf.within h) hw
    have hatomic := atomic_put hfile h hf.split hfit hpost (suffix_cons a _)
      (.inr hf.linked) (hf.path hwf) (commit_replace hwf hplace hf)
    have hdel : numDel (applyWrites db.mem (filePutWrites db key val a l1
        (delWrites (replaceState db (nextOffset db.mem) key val l1 a) a))) =
          (numDel db.mem + 1) % 2 ^ 64 := by
      have hlink : numDel (replaceState db (nextOffset db.mem) key val l1 a).mem =
          numDel db.mem := by
        rw [replaceState_mem]
        exact numDel_putLink hfile h hf.split hfit
      have hd := numDel_delWrites hfile' (hf.within h).1
      rwa [hlink, replaceState_mem, ← applyWrites_append, append_assoc, singleton_append] at hd
    refine ⟨_, _, _, _, ?_, hf.split, hpost, fileStep_stores hfile
      (delBlocks (replaceState db (nextOffset db.mem) key val l1 a) a) hatomic fun hcount => ?_⟩
    · simp [step, dbSet_found hwf hf halloc, delRec_eq, replaceState_stores, filePutWrites]
    · have hcnt := hcount.count
      have hroom := hcount.room
      have hsize : fileSize < 2 ^ 62 := by decide
      rw [Nat.mod_eq_of_lt (by omega)] at hdel
      exact counted_put hfile h hf.split hfit hpost rfl hdel hcount

theorem fileStep_full {val : Slice} (hfull : fileSize < nextOffset db.mem + recSize key val)
    (alloc : Option Nat) : step db (.set key val alloc) = some (.code dbFail, db) := by
  have halloc := allocAt_file hfile h key val alloc
  rw [if_pos hfull] at halloc
  simp [step, dbSet_full (h.wf hfile) halloc]

/-- Every operation on a valid file returns, with one commit point. Its stores stay in the file and
away from magic and version, and no linked record changes. -/
theorem fileStep_spec (op : Op) :
    ∃ r db' chains' ent ws, step db op = some (r, db') ∧ FileStep db db' chains chains' ent ws ∧
      (∀ w ∈ ws, 8 ≤ w.addr ∧ w.stop ≤ fileSize) ∧ ∀ c, Linked chains c → ent c = entry db.mem c := by
  cases op with
  | set key val alloc =>
    by_cases hfit : nextOffset db.mem + recSize key val ≤ fileSize
    · obtain ⟨l1, l3, hspot⟩ := exists_spot db _ key
      obtain ⟨db', l2, q, post, hstep, hsplit, hpost, hs⟩ := fileStep_set hfile h hspot hfit _
      refine ⟨_, db', _, _, _, hstep, hs, filePutWrites_safe hfile h hsplit hfit hpost, ?_⟩
      intro c hc
      refine update_of_ne (fun hcn => ?_) ..
      exact (place_file hfile h hfit).not_linked (recSize_pos key val) (hcn ▸ hc)
    · exact ⟨.code dbFail, db, chains, entry db.mem, [], fileStep_full hfile h (by omega) _,
        fileStep_same hfile h, nofun, fun _ _ => rfl⟩
  | get key =>
    obtain ⟨r, hr⟩ := fileStep_get hfile h key
    exact ⟨r, db, chains, entry db.mem, [], hr, fileStep_same hfile h, nofun, fun _ _ => rfl⟩
  | del key =>
    obtain ⟨rc, db', chains', ws, hstep, hlate, hs⟩ := fileStep_delete hfile h key
    exact ⟨_, db', _, _, ws, hstep, hs, fun w hw => ⟨(hlate w hw).eight_le, (hlate w hw).stop⟩,
      fun _ _ => rfl⟩

end

theorem FileStep.after {db' : State} (hs : FileStep db db' chains chains' ent ws) :
    Holds db'.mem chains' ent := by
  rw [hs.mem]
  exact hs.atomic.done

theorem fileStep_of_step {db' : State} {op : Op} {r : Reply} (hfile : IsFile db)
    (h : FileOk db.mem chains) (hstep : step db op = some (r, db')) :
    ∃ chains' ent ws, FileStep db db' chains chains' ent ws := by
  obtain ⟨_, _, chains', ent, ws, hspec, hs, -⟩ := fileStep_spec hfile h op
  rw [hstep] at hspec
  obtain ⟨-, rfl⟩ := hspec
  exact ⟨chains', ent, ws, hs⟩

end CDbK8s.Db
