import CDbK8s.Db.Integrity
import CDbK8s.Db.MemStore
import CDbK8s.Lib.NodeMap

/-!
# The store as a finite map

`specStep` is what a call does to a finite map. The store refines it as long as every call finds an
exact match. The code does not ensure this: it compares `key.len` bytes of a record whatever the
length of the stored key, so a key that is a prefix of another key in the same bucket matches the
other record.
-/

namespace CDbK8s.Db

open Base Lib.ByteMem Lib.LinkedCells Lib.NodeMap List Function

variable {alloc : Option Nat} {val : Slice} {db : State}

/-! ## The finite map -/

/-- The abstract database. -/
abbrev KvMap := Bytes → Option Bytes

/-- A call on the abstract database. -/
def specStep (f : KvMap) : Op → Reply × KvMap
  | .set key val _ => (.code 0, update f key.bytes (some val.bytes))
  | .get key => (.slice (f key.bytes), f)
  | .del key => (.code (if (f key.bytes).isSome then 0 else -1), update f key.bytes none)

/-- The key of a call. -/
def Op.key : Op → Slice
  | .set key _ _ => key
  | .get key => key
  | .del key => key

theorem specStep_other (f : KvMap) (op : Op) {k : Bytes} (hk : k ≠ op.key.bytes) :
    (specStep f op).2 k = f k := by
  cases op with
  | set key _ _ => exact update_of_ne hk ..
  | get key => rfl
  | del key => exact update_of_ne hk ..

/-! ## Exact matches -/

/-- Every record in the bucket of `key` that matches `key` stores the key `key`. -/
def ExactMatch (db : State) (key : Slice) : Prop :=
  ∀ l, bucketChain db (calcHash key.bytes) = some l →
    ∀ a ∈ l, keyMatch db.mem key a = true → recKey db.mem a = key.bytes

section
variable {db : State} {chains : Nat → List Nat} {f : KvMap} {key : Slice} {l1 l3 : List Nat}
  {a b : Nat}
variable (h : Wf db chains)
include h

theorem Found.recKey_eq (he : ExactMatch db key) (hf : Found db chains key l1 a l3) :
    recKey db.mem a = key.bytes :=
  he _ (bucketChain_eq h (calcHash_lt _)) a (by rw [hf.split]; simp) hf.hit

theorem Missing.recKey_ne (hm : Missing db chains key) (ha : Linked chains a) :
    recKey db.mem a ≠ key.bytes := by
  intro hk
  obtain ⟨i, hi, hmem⟩ := ha
  have hhome := h.layout.chained.home i hi a hmem
  rw [hk] at hhome
  subst hhome
  have hfalse := hm a hmem
  rw [keyMatch_of_recKey_eq hk] at hfalse
  simp at hfalse

theorem dbGet_refines (hrep : Represents (Linked chains) (entry db.mem) f) (he : ExactMatch db key) :
    dbGet db key = some (f key.bytes) := by
  rcases missing_or_found db _ key with hm | ⟨l1, a, l3, hf⟩
  · rw [dbGet_missing h hm, hrep.eq_none fun a ha => ?_]
    exact hm.recKey_ne h ha
  · have hkey : (entry db.mem a).1 = key.bytes := by
      exact hf.recKey_eq h he
    rw [dbGet_found h hf, hrep.eq_some hf.linked hkey, entry_snd]

omit h in
theorem mem_putChains_iff {i c : Nat} : c ∈ putChains chains key l1 b l3 i ↔
    (i = calcHash key.bytes ∧ c ∈ l1 ++ b :: l3) ∨ (i ≠ calcHash key.bytes ∧ c ∈ chains i) := by
  rw [putChains]
  by_cases hi : i = calcHash key.bytes
  · rw [hi]
    simp
  · simp [hi]

theorem linked_insert_iff (hm : Missing db chains key) (c : Nat) :
    Linked (putChains chains key [] b (chains (calcHash key.bytes))) c ↔
      c = b ∨ (c ≠ b ∧ Linked chains c ∧ (entry db.mem c).1 ≠ key.bytes) := by
  have hi := calcHash_lt key.bytes
  have hsplit : chains (calcHash key.bytes) = [] ++ chains (calcHash key.bytes) := rfl
  refine ⟨fun hc => ?_, fun hc => ?_⟩
  · by_cases hcb : c = b
    · exact .inl hcb
    · have hold := (linked_putChains hsplit (suffix_refl _) hc).resolve_right hcb
      exact .inr ⟨hcb, hold, hm.recKey_ne h hold⟩
  · rcases hc with rfl | ⟨-, ⟨j, hj, hcj⟩, -⟩
    · exact ⟨_, hi, mem_putChains_iff.2 (.inl ⟨rfl, by simp⟩)⟩
    · refine ⟨j, hj, mem_putChains_iff.2 ?_⟩
      by_cases hji : j = calcHash key.bytes
      · rw [hji] at hcj
        exact .inl ⟨hji, mem_append_right _ (.tail _ hcj)⟩
      · exact .inr ⟨hji, hcj⟩

omit h in
theorem linked_delChains_of_ne (hf : Found db chains key l1 a l3) {c : Nat} (hc : Linked chains c)
    (hne : c ≠ a) : Linked (delChains chains key l1 l3) c := by
  obtain ⟨j, hj, hcj⟩ := hc
  refine ⟨j, hj, ?_⟩
  rw [delChains]
  by_cases hji : j = calcHash key.bytes
  · rw [hji]
    rw [hji, hf.split] at hcj
    simpa [hne] using hcj
  · rw [update_of_ne hji]
    exact hcj

variable (hrep : Represents (Linked chains) (entry db.mem) f) (he : ExactMatch db key)
  (hf : Found db chains key l1 a l3)
include hrep he hf

theorem Found.ne_iff {c : Nat} (hc : Linked chains c) : c ≠ a ↔ (entry db.mem c).1 ≠ key.bytes := by
  have hkey : (entry db.mem a).1 = key.bytes := by
    exact hf.recKey_eq h he
  refine ⟨fun hne hk => hne ?_, fun hne hca => hne ?_⟩
  · exact hrep.unique c hc a hf.linked (hk.trans hkey.symm)
  · rw [hca]
    exact hkey

theorem linked_delete_iff (c : Nat) :
    Linked (delChains chains key l1 l3) c ↔ Linked chains c ∧ (entry db.mem c).1 ≠ key.bytes := by
  refine ⟨fun hc => ?_, fun ⟨hc, hk⟩ => ?_⟩
  · obtain ⟨hold, hne⟩ := linked_delChains h hf hc
    exact ⟨hold, (hf.ne_iff h hrep he hold).1 hne⟩
  · exact linked_delChains_of_ne hf hc ((hf.ne_iff h hrep he hc).2 hk)

theorem linked_replace_iff (c : Nat) : Linked (putChains chains key l1 b l3) c ↔
      c = b ∨ (c ≠ b ∧ Linked chains c ∧ (entry db.mem c).1 ≠ key.bytes) := by
  have hdel := linked_delete_iff h hrep he hf c
  -- the new chains are those of a deletion, with `b` put in
  have hput : Linked (putChains chains key l1 b l3) c ↔
      c = b ∨ Linked (delChains chains key l1 l3) c := by
    refine ⟨fun ⟨j, hj, hcj⟩ => ?_, fun hc => ?_⟩
    · rcases mem_putChains_iff.1 hcj with ⟨hji, hcj⟩ | ⟨hji, hcj⟩
      · by_cases hcb : c = b
        · exact .inl hcb
        · refine .inr ⟨j, hj, ?_⟩
          rw [delChains, hji]
          simpa [hcb] using hcj
      · refine .inr ⟨j, hj, ?_⟩
        rw [delChains, update_of_ne hji]
        exact hcj
    · rcases hc with rfl | ⟨j, hj, hcj⟩
      · exact ⟨_, calcHash_lt key.bytes, mem_putChains_iff.2 (.inl ⟨rfl, by simp⟩)⟩
      · refine ⟨j, hj, mem_putChains_iff.2 ?_⟩
        by_cases hji : j = calcHash key.bytes
        · rw [delChains, hji, update_self] at hcj
          refine .inl ⟨hji, ?_⟩
          rcases mem_append.1 hcj with hc | hc <;> simp [hc]
        · rw [delChains, update_of_ne hji] at hcj
          exact .inr ⟨hji, hcj⟩
  rw [hput, hdel]
  exact or_congr_right' fun hcb => ⟨fun hc => ⟨hcb, hc⟩, fun hc => hc.2⟩

end

/-! ## One call -/

/-- The store holds the map `f`. -/
def Refines (db : State) (f : KvMap) : Prop :=
  ∃ chains, Sound db chains ∧ Represents (Linked chains) (entry db.mem) f

/-- What a call needs: room for the record it stores. -/
def Op.Served (db : State) : Op → Prop
  | .set key val alloc => Room db key val alloc
  | _ => True

theorem refines_set {f : KvMap} {key : Slice} (h : Refines db f) (hroom : Room db key val alloc)
    (he : ExactMatch db key) :
    ∃ db', step db (.set key val alloc) = some (.code 0, db') ∧
      Refines db' (update f key.bytes (some val.bytes)) := by
  obtain ⟨chains, hs, hrep⟩ := h
  obtain ⟨l1, l3, hspot⟩ := exists_spot db _ key
  obtain ⟨b, db', hb, hstep, hs', hent⟩ := step_set hs hspot hroom
  refine ⟨db', hstep, _, hs', ?_⟩
  refine (hrep.insert (fun hlinked => absurd hlinked hb) ?_).congr (fun _ => Iff.rfl) hent
  cases hspot with
  | front hm => exact linked_insert_iff hs.wf hm
  | taken hf => exact linked_replace_iff hs.wf hrep he hf

theorem refines_del {f : KvMap} {key : Slice} (h : Refines db f) (he : ExactMatch db key) :
    ∃ db', step db (.del key) = some (.code (if (f key.bytes).isSome then 0 else -1), db') ∧
      Refines db' (update f key.bytes none) := by
  obtain ⟨chains, hs, hrep⟩ := h
  rcases missing_or_found db _ key with hm | ⟨l1, a, l3, hf⟩
  · have hnone : f key.bytes = none := hrep.eq_none fun a ha => by
      exact hm.recKey_ne hs.wf ha
    refine ⟨db, ?_, chains, hs, ?_⟩
    · rw [step, dbDel_missing hs.wf hm, hnone]
      rfl
    · rwa [update_eq_self_iff.2 hnone.symm]
  · obtain ⟨db', hstep, hs', hent⟩ := step_del_found hs hf
    have hkey : (entry db.mem a).1 = key.bytes := by
      exact hf.recKey_eq hs.wf he
    refine ⟨db', ?_, _, hs', ?_⟩
    · rw [hstep, hrep.eq_some hf.linked hkey]
      rfl
    · exact (hrep.erase (linked_delete_iff hs.wf hrep he hf)).congr (fun _ => Iff.rfl) hent

theorem Refines.step_refines {f : KvMap} (h : Refines db f) (op : Op) (hserved : op.Served db)
    (he : ExactMatch db op.key) :
    ∃ db', step db op = some ((specStep f op).1, db') ∧ Refines db' (specStep f op).2 := by
  cases op with
  | set key _ _ => exact refines_set h hserved he
  | get key =>
    obtain ⟨chains, hs, hrep⟩ := h
    refine ⟨db, ?_, chains, hs, hrep⟩
    have hget : dbGet db key = some (f key.bytes) := dbGet_refines hs.wf hrep he
    rw [step, hget]
    rfl
  | del key => exact refines_del h he

theorem Refines.dbGet_eq {f : KvMap} (h : Refines db f) {key : Slice} (he : ExactMatch db key) :
    dbGet db key = some (f key.bytes) := by
  obtain ⟨chains, hs, hrep⟩ := h
  exact dbGet_refines hs.wf hrep he

/-! ## Runs -/

/-- What happens to the store: a call, or a change of memory by the rest of the
process. -/
inductive Event where
  | call (op : Op)
  | outside (m : Mem)

/-- A call, or a change of the memory from outside. -/
def eventStep (db : State) : Event → Option (List Reply × State)
  | .call op => (step db op).map fun x => ([x.1], x.2)
  | .outside m => some ([], { db with mem := m })

/-- The replies and the final state of a run. -/
def runEvents (db : State) : List Event → Option (List Reply × State)
  | [] => some ([], db)
  | ev :: evs =>
    match eventStep db ev with
    | none => none
    | some (rs, db') => (runEvents db' evs).map fun x => (rs ++ x.1, x.2)

/-- The replies of a run of the finite map, and the map it ends with. -/
def specRun (f : KvMap) : List Event → List Reply × KvMap
  | [] => ([], f)
  | .outside _ :: evs => specRun f evs
  | .call op :: evs =>
    ((specStep f op).1 :: (specRun (specStep f op).2 evs).1, (specRun (specStep f op).2 evs).2)

/-- The event is one the store must serve: the record of a set has room, and the
rest of the process writes to memory of its own. -/
def Event.Served (db : State) : Event → Prop
  | .call op => op.Served db
  | .outside m => ∀ x, db.Owns x → m x = db.mem x

/-- A call finds an exact match. -/
def Event.Exact (db : State) : Event → Prop
  | .call op => ExactMatch db op.key
  | .outside _ => True

/-- `P` holds of every event of the run, in the state before it. -/
def Along (P : State → Event → Prop) (db : State) : List Event → Prop
  | [] => True
  | ev :: evs => P db ev ∧ ∀ rs db', eventStep db ev = some (rs, db') → Along P db' evs

/-- The call has a key of `keys`. -/
def Event.In (keys : Set Bytes) : Event → Prop
  | .call op => op.key.bytes ∈ keys
  | .outside _ => True

/-- No record matches a key of `keys` that is not its own. -/
def Distinct (keys : Set Bytes) (db : State) : Prop :=
  ∀ key : Slice, key.bytes ∈ keys → ExactMatch db key

/-- `P` holds in every state of the run, with what the finite map is there. -/
def Throughout (P : State → KvMap → Prop) (db : State) (f : KvMap) : List Event → Prop
  | [] => P db f
  | ev :: evs => P db f ∧ ∀ rs db', eventStep db ev = some (rs, db') →
      Throughout P db' (specRun f [ev]).2 evs

/-- An empty store: a new file, or a table that `calloc` has cleared. -/
inductive Start : State → Prop where
  | file (m : Mem) (hm : ∀ x < fileSize, m x = 0) : Start (fileInitNew m)
  | memory (m : Mem) (table : Nat) (hm : ∀ x, table ≤ x → x < table + tableSize → m x = 0) :
      Start (hashInit m table)

theorem refines_start (h : Start db) : Refines db fun _ => none := by
  cases h with
  | file m hm =>
    exact ⟨_, .inl ⟨isFile_fileInitNew m, fileOk_fileInitNew m⟩,
      represents_empty fun a => not_linked_nil⟩
  | memory m table hm =>
    have hpath : ∀ i < dbNumBuckets, Path (recNext m) (table + 8 * i) [] := fun i _ => by
      have htab : tableSize = dbNumBuckets * 8 := rfl
      exact readWord_eq_zero fun x _ _ => hm x (by omega) (by omega)
    refine ⟨fun _ => [], .inr ⟨rfl, layout_empty hpath, ?_, fun a ha => ?_⟩,
      represents_empty fun a => not_linked_nil⟩
    · simp [hashInit]
    · exact absurd ha not_linked_nil

theorem Refines.event_refines {f : KvMap} (h : Refines db f) (ev : Event) (hserved : ev.Served db)
    (he : ev.Exact db) :
    ∃ rs db', eventStep db ev = some (rs, db') ∧ Refines db' (specRun f [ev]).2 ∧
      rs = (specRun f [ev]).1 := by
  cases ev with
  | call op =>
    obtain ⟨db', hstep, hrep⟩ := h.step_refines op hserved he
    exact ⟨_, db', by rw [eventStep, hstep]; rfl, hrep, rfl⟩
  | outside m =>
    obtain ⟨chains, hs, hrep⟩ := h
    obtain ⟨hs', hent⟩ := hs.outside hserved
    exact ⟨[], _, rfl, ⟨chains, hs', hrep.congr (fun _ => Iff.rfl) hent⟩, rfl⟩

theorem specRun_cons (f : KvMap) (ev : Event) (evs : List Event) :
    specRun f (ev :: evs) = ((specRun f [ev]).1 ++ (specRun (specRun f [ev]).2 evs).1,
      (specRun (specRun f [ev]).2 evs).2) := by
  cases ev with
  | call _ => rfl
  | outside m => rfl

/-- The lookups of the keys give the values of the map. -/
def Answers (keys : Set Bytes) (db : State) (f : KvMap) : Prop :=
  ∀ key : Slice, key.bytes ∈ keys → dbGet db key = some (f key.bytes)

/-- The call leaves the lookups of the other keys as they are. -/
def Spares (keys : Set Bytes) (db : State) (ev : Event) : Prop :=
  ∀ op, ev = .call op → ∀ r db', step db op = some (r, db') →
    ∀ key : Slice, key.bytes ∈ keys → key.bytes ≠ op.key.bytes → dbGet db' key = dbGet db key

section
variable {f : KvMap} {keys : Set Bytes} (h : Refines db f)
include h

theorem Refines.answers (hd : Distinct keys db) : Answers keys db f :=
  fun _ hkey => h.dbGet_eq (hd _ hkey)

theorem Refines.spares {ev : Event} (hserved : ev.Served db) (hin : ev.In keys)
    (hd : Distinct keys db) (hnext : ∀ rs db', eventStep db ev = some (rs, db') → Distinct keys db') :
    Spares keys db ev := by
  rintro op rfl r db' hstep key hkey hne
  obtain ⟨db1, hstep1, hrep⟩ := h.step_refines op hserved (hd _ hin)
  obtain rfl : db1 = db' := (Prod.mk.inj (Option.some.inj (hstep1.symm.trans hstep))).2
  have hafter : Distinct keys db1 := hnext [r] db1 (by rw [eventStep, hstep]; rfl)
  rw [hrep.answers hafter _ hkey, h.answers hd _ hkey, specStep_other _ op hne]

theorem Refines.run_refines (evs : List Event) (hserved : Along (fun db ev => ev.Served db) db evs)
    (hin : ∀ ev ∈ evs, ev.In keys) (hd : Throughout (fun db _ => Distinct keys db) db f evs) :
    (∃ db', runEvents db evs = some ((specRun f evs).1, db')) ∧
      Throughout (Answers keys) db f evs ∧ Along (Spares keys) db evs := by
  induction evs generalizing db f with
  | nil => exact ⟨⟨db, rfl⟩, h.answers hd, trivial⟩
  | cons ev evs ih =>
    obtain ⟨hnow, hlater⟩ := hd
    have hexact : ev.Exact db := by
      cases ev with
      | call op => exact hnow _ (hin _ mem_cons_self)
      | outside _ => trivial
    obtain ⟨-, db1, hstep, hrep, rfl⟩ := h.event_refines ev hserved.1 hexact
    obtain ⟨⟨db', hrun⟩, hanswers, hspares⟩ := ih hrep (hserved.2 _ db1 hstep)
      (fun ev hev => hin ev (mem_cons_of_mem _ hev)) (hlater _ db1 hstep)
    have hsame : ∀ {rs db'}, eventStep db ev = some (rs, db') → db' = db1 := fun hrun =>
      (Prod.mk.inj (Option.some.inj (hrun.symm.trans hstep))).2
    have hnext : ∀ rs db', eventStep db ev = some (rs, db') → Distinct keys db' := by
      intro rs db' hrun
      have hd := hlater rs db' hrun
      cases evs with
      | nil => exact hd
      | cons _ _ => exact hd.1
    refine ⟨⟨db', ?_⟩, ⟨h.answers hnow, fun rs db' hrun => ?_⟩,
      h.spares hserved.1 (hin _ mem_cons_self) hnow hnext, fun rs db' hrun => ?_⟩
    · rw [runEvents, hstep, specRun_cons f ev evs]
      simp [hrun]
    · rw [hsame hrun]
      exact hanswers
    · rw [hsame hrun]
      exact hspares

end

/-- In every run from an empty store whose states have no record that matches another one's key, or
a key that is looked up: the calls return what the finite map returns, every lookup gives the value
of the map in every state, and no call changes the lookups of other keys. -/
theorem finite_map_run {db : State} (hstart : Start db) (keys : Set Bytes) (evs : List Event)
    (hserved : Along (fun db ev => ev.Served db) db evs) (hin : ∀ ev ∈ evs, ev.In keys)
    (hdistinct : Throughout (fun db _ => Distinct keys db) db (fun _ => none) evs) :
    (∃ db', runEvents db evs = some ((specRun (fun _ => none) evs).1, db')) ∧
      Throughout (Answers keys) db (fun _ => none) evs ∧ Along (Spares keys) db evs :=
  (refines_start hstart).run_refines evs hserved hin hdistinct

theorem Refines.exactMatch {f : KvMap} (h : Refines db f) {key : Slice}
    (hf : ∀ k, k ≠ key.bytes → calcHash k = calcHash key.bytes → f k = none) :
    ExactMatch db key := by
  obtain ⟨chains, hs, hrep⟩ := h
  intro l hl a ha _
  rw [bucketChain_eq hs.wf (calcHash_lt _), Option.some.injEq] at hl
  subst hl
  by_contra hne
  have hsome := hrep.eq_some ⟨_, calcHash_lt _, ha⟩ rfl
  rw [entry_fst, hf _ hne (hs.wf.layout.chained.home _ (calcHash_lt _) a ha)] at hsome
  simp at hsome

/-- Keys that have buckets of their own never match a record of another one. -/
theorem Refines.throughout {f : KvMap} {keys : Set Bytes} (h : Refines db f)
    (hf : ∀ k, f k ≠ none → k ∈ keys) (hinj : Set.InjOn calcHash keys) (evs : List Event)
    (hserved : Along (fun db ev => ev.Served db) db evs) (hin : ∀ ev ∈ evs, ev.In keys) :
    Throughout (fun db _ => Distinct keys db) db f evs := by
  have hd : ∀ {db f}, Refines db f → (∀ k, f k ≠ none → k ∈ keys) → Distinct keys db :=
    fun h hf key hkey => h.exactMatch fun k hne hhash => by_contra fun hk =>
      hne (hinj (hf k hk) hkey hhash)
  induction evs generalizing db f with
  | nil => exact hd h hf
  | cons ev evs ih =>
    refine ⟨hd h hf, fun rs db' hrun => ?_⟩
    have hexact : ev.Exact db := by
      cases ev with
      | call op => exact hd h hf _ (hin _ mem_cons_self)
      | outside _ => trivial
    obtain ⟨rs1, db1, hstep, hrep, -⟩ := h.event_refines ev hserved.1 hexact
    obtain ⟨rfl, rfl⟩ := Prod.mk.inj (Option.some.inj (hstep.symm.trans hrun))
    refine ih hrep (fun k hk => ?_) (hserved.2 _ _ hstep) fun ev hev => hin ev (mem_cons_of_mem _ hev)
    cases ev with
    | outside _ => exact hf k hk
    | call op =>
      by_cases hkey : k = op.key.bytes
      · rw [hkey]
        exact hin _ mem_cons_self
      · exact hf k fun hnone => hk ((specStep_other f op hkey).trans hnone)

theorem room_fileInitNew (m : Mem) {key : Slice}
    (h : sizeofHdr + tableSize + recSize key val ≤ fileSize) (alloc : Option Nat) :
    Room (fileInitNew m) key val alloc := by
  have hfile := isFile_fileInitNew m
  refine .file hfile.file ?_
  rw [nextOffset_fileInitNew, hfile.size]
  exact h

/-- A set of `aji` in a new file, and lookups of it and of `b`, which has another bucket. -/
theorem finite_map_run_set_get : ∃ db', runEvents (fileInitNew fun _ => 0)
        [.call (.set ⟨[97, 106, 105], by decide⟩ ⟨[120], by decide⟩ none),
          .call (.get ⟨[98], by decide⟩), .call (.get ⟨[97, 106, 105], by decide⟩)] =
        some ([.code 0, .slice none, .slice (some [120])], db') := by
  have hstart : Start (fileInitNew fun _ => 0) := .file _ fun _ _ => rfl
  have hserved : Along (fun db ev => ev.Served db) (fileInitNew fun _ => 0)
      [.call (.set ⟨[97, 106, 105], by decide⟩ ⟨[120], by decide⟩ none),
        .call (.get ⟨[98], by decide⟩), .call (.get ⟨[97, 106, 105], by decide⟩)] :=
    ⟨room_fileInitNew _ (by decide) none, fun _ _ _ => ⟨trivial, fun _ _ _ => ⟨trivial,
      fun _ _ _ => trivial⟩⟩⟩
  have hin : ∀ ev ∈ [Event.call (.set ⟨[97, 106, 105], by decide⟩ ⟨[120], by decide⟩ none),
      .call (.get ⟨[98], by decide⟩), .call (.get ⟨[97, 106, 105], by decide⟩)],
        ev.In {[97, 106, 105], [98]} := by
    simp [Event.In, Op.key]
  have hinj : Set.InjOn calcHash {[97, 106, 105], [98]} := by
    have hne : calcHash [97, 106, 105] ≠ calcHash [98] := by decide
    rintro k (rfl | rfl) k' (rfl | rfl) hhash
    · rfl
    · exact absurd hhash hne
    · exact absurd hhash.symm hne
    · rfl
  obtain ⟨⟨db', hrun⟩, -⟩ := finite_map_run hstart {[97, 106, 105], [98]} _ hserved hin
    ((refines_start hstart).throughout (fun _ hk => absurd rfl hk) hinj _ hserved hin)
  refine ⟨db', hrun.trans ?_⟩
  simp [specRun, specStep]

/-! ## A key that is a prefix of another one -/

theorem keyMatch_of_keyStart {m : Mem} {a : Nat} {key : Slice}
    (h : key.bytes <+: recKey m a) : keyMatch m key a = true := by
  have hlen : (recKey m a).length = recKeyLen m a := length_readBytes ..
  obtain ⟨k, hk⟩ : ∃ k, recKeyLen m a = key.len + k :=
    ⟨recKeyLen m a - key.len, by
      have hle : key.len ≤ (recKey m a).length := h.length_le
      omega⟩
  rw [keyMatch_iff]
  rw [recKey, recData, hk, readBytes_append] at h
  exact ((prefix_of_prefix_length_le h (prefix_append _ _)
    (le_of_eq (length_readBytes ..).symm)).eq_of_length (length_readBytes ..).symm).symm

/-- From an empty store, a set of a key followed by a lookup of a prefix of it with
the same hash returns the value of the other key. -/
theorem get_prefix_of_other_key (hstart : Start db) {short long : Slice}
    (hhash : calcHash short.bytes = calcHash long.bytes) (hsub : short.bytes <+: long.bytes)
    (hroom : Room db long val alloc) :
    ∃ db', runEvents db [.call (.set long val alloc), .call (.get short)] =
      some ([.code 0, .slice (some val.bytes)], db') := by
  obtain ⟨chains, hs, hrep⟩ := refines_start hstart
  have hnone : ∀ a, ¬ Linked chains a := fun a ha => by
    have := hrep.eq_some ha rfl
    simp at this
  have hempty : chains (calcHash long.bytes) = [] :=
    eq_nil_iff_forall_not_mem.2 fun a ha => hnone a ⟨_, calcHash_lt _, ha⟩
  have hm : Missing db chains long := fun c hc => by
    rw [hempty] at hc
    simp at hc
  obtain ⟨b, db', -, hstep, hs', hent⟩ := step_set hs (.front hm) hroom
  rw [hempty] at hs' hent
  have hb : putChains chains long [] b [] (calcHash short.bytes) = [] ++ b :: [] := by
    simp [hhash, putChains]
  have hlinked : Linked (putChains chains long [] b []) b := ⟨_, calcHash_lt _, by rw [hb]; simp⟩
  have hentry := hent b hlinked
  rw [update_self] at hentry
  have hkey : recKey db'.mem b = long.bytes := by rw [← entry_fst, hentry]
  have hval : recVal db'.mem b = val.bytes := by rw [← entry_snd, hentry]
  have hf : Found db' (putChains chains long [] b []) short [] b [] :=
    ⟨hb, by simp, keyMatch_of_keyStart (by rw [hkey]; exact hsub)⟩
  refine ⟨db', ?_⟩
  have hget := dbGet_found hs'.wf hf
  rw [hval] at hget
  have hstep' : step db' (.get short) = some (.slice (some val.bytes), db') := by
    simp [step, hget]
  simp [runEvents, eventStep, hstep, hstep']

/-- The keys `aji` and `a` share a bucket: after `SET aji x` a lookup of `a`, which
was never set, returns `x`. -/
theorem get_a_after_set_aji : (∃ db', runEvents (fileInitNew fun _ => 0)
        [.call (.set ⟨[97, 106, 105], by decide⟩ ⟨[120], by decide⟩ none),
          .call (.get ⟨[97], by decide⟩)] =
      some ([.code 0, .slice (some [120])], db')) ∧
    (specRun (fun _ => none) [.call (.set ⟨[97, 106, 105], by decide⟩ ⟨[120], by decide⟩ none),
          .call (.get ⟨[97], by decide⟩)]).1 = [.code 0, .slice none] := by
  refine ⟨get_prefix_of_other_key (.file _ fun _ _ => rfl) (by decide) ⟨[106, 105], rfl⟩
    (room_fileInitNew _ (by decide) none), ?_⟩
  simp [specRun, specStep]

end CDbK8s.Db
