import CDbK8s.Db.FiniteMap
import CDbK8s.Server.Independence

/-!
# The server over its database

With `db.c` as its store the server answers as if a finite map were behind it.
-/

namespace CDbK8s.Server

open Base Db Function

/-- A part of a line as an argument of `db.c`. -/
def toSlice (bs : Bytes) : Slice := if h : bs.length < 2 ^ 62 then ⟨bs, h⟩ else ⟨[], by decide⟩

/-- The code of a call. -/
def code (db : State) (op : Op) : Int × State :=
  match step db op with
  | some (.code rc, db') => (rc, db')
  | _ => (dbFail, db)

/-- The calls of `db.c`, with the block that `malloc` returns in a state. -/
def dbStore (malloc : State → Option Nat) : Store State where
  dbSet db key val := code db (.set (toSlice key) (toSlice val) (malloc db))
  dbGet db key := ((dbGet db (toSlice key)).getD none).map toSlice
  dbDel db key := code db (.del (toSlice key))

/-- The abstract database as the server's store. -/
def mapStore : Store KvMap where
  dbSet f key val := (0, update f (toSlice key).bytes (some (toSlice val).bytes))
  dbGet f key := (f (toSlice key).bytes).map toSlice
  dbDel f key :=
    (if (f (toSlice key).bytes).isSome then 0 else -1, update f (toSlice key).bytes none)

/-- The call that a command makes. -/
def cmdOp (alloc : Option Nat) (args : Bytes) : CliCmd → Option Op
  | .set =>
    let key := sliceTrim (sliceSplitch args 32).1
    let val := sliceTrim (sliceSplitch args 32).2
    if key.length = 0 ∨ val.length = 0 then none else some (.set (toSlice key) (toSlice val) alloc)
  | .get => some (.get (toSlice args))
  | .del => if args.length = 0 then none else some (.del (toSlice args))
  | _ => none

variable (malloc : State → Option Nat)

/-- Every call that the lines make has room for its record and finds an exact match. -/
def Apt (db : State) : List Bytes → Prop
  | [] => True
  | line :: lines =>
    (∀ op ∈ cmdOp (malloc db) (sliceTrim (sliceSplitch line 32).2) (lineCmd line),
      op.Served db ∧ ExactMatch db op.key) ∧ Apt (respond (dbStore malloc) db line).2 lines

variable {malloc} {db : State} {f : KvMap}

theorem code_refines (h : Refines db f) {op : Op} (hop : op.Served db ∧ ExactMatch db op.key)
    {rc : Int} (hrc : (specStep f op).1 = .code rc) :
    ∃ db', code db op = (rc, db') ∧ Refines db' (specStep f op).2 := by
  obtain ⟨db', hstep, hdb⟩ := h.step_refines op hop.1 hop.2
  exact ⟨db', by rw [code, hstep, hrc], hdb⟩

theorem answer_refines (h : Refines db f) {args : Bytes} {cmd : CliCmd}
    (hop : ∀ op ∈ cmdOp (malloc db) args cmd, op.Served db ∧ ExactMatch db op.key) :
    (answer (dbStore malloc) db args cmd).1 = (answer mapStore f args cmd).1 ∧
      Refines (answer (dbStore malloc) db args cmd).2 (answer mapStore f args cmd).2 := by
  cases cmd with
  | unsupp => exact ⟨rfl, h⟩
  | quit => exact ⟨rfl, h⟩
  | get =>
    have hget : (dbStore malloc).dbGet db args = mapStore.dbGet f args := by
      show ((dbGet db (toSlice args)).getD none).map toSlice = _
      rw [h.dbGet_eq (show ExactMatch db (toSlice args) from (hop _ rfl).2)]
      rfl
    unfold answer
    dsimp only
    rw [hget]
    split <;> exact ⟨rfl, h⟩
  | set | del =>
    unfold answer
    dsimp only [cmdOp] at hop ⊢
    split
    · exact ⟨rfl, h⟩
    · rename_i hne
      rw [if_neg hne] at hop
      obtain ⟨db', hcode, hdb⟩ := code_refines h (hop _ rfl) rfl
      simp only [dbStore, mapStore, hcode]
      -- only the code of a deletion depends on the map
      first | exact ⟨rfl, hdb⟩ | (split <;> exact ⟨rfl, hdb⟩)

theorem respondAll_refines (h : Refines db f) {lines : List Bytes} (hapt : Apt malloc db lines) :
    (respondAll (dbStore malloc) db lines).1 = (respondAll mapStore f lines).1 ∧
      Refines (respondAll (dbStore malloc) db lines).2 (respondAll mapStore f lines).2 := by
  induction lines generalizing db f with
  | nil => exact ⟨rfl, h⟩
  | cons line lines ih =>
    obtain ⟨hrsp, hdb⟩ := answer_refines h hapt.1
    obtain ⟨hall, hlast⟩ := ih hdb hapt.2
    refine ⟨?_, hlast⟩
    unfold respondAll respond
    dsimp only
    rw [hrsp, hall]

/-- However the stream of a client arrives at a server with an empty store: the client is sent what
a finite map answers, and the store holds that map at the end. -/
theorem session_of_map (hstart : Start db) {stream : Bytes} (hstream : Admissible stream)
    (hend : fragment stream = []) (hapt : Apt malloc db (commands stream))
    (hfit : (respondAll mapStore (fun _ => none) (commands stream)).1.length ≤ SOCK_MAX_BUFSIZE)
    (d : Delivery stream) :
    (d.session (dbStore malloc) db).output =
        prompt ++ (respondAll mapStore (fun _ => none) (commands stream)).1 ∧
      Refines (d.session (dbStore malloc) db).conn.db
        (respondAll mapStore (fun _ => none) (commands stream)).2 := by
  obtain ⟨hall, hlast⟩ := respondAll_refines (refines_start hstart) hapt
  rw [← hall] at hfit ⊢
  obtain ⟨hlive, hreads, houtput⟩ := opening_live db d.opened d.reads
  have hout := d.of_ends (P := fun s => s.outcome = _) <| ends_fits (x := [])
    ⟨hlive, houtput.trans (List.append_nil _).symm⟩ (by rw [hreads]; exact d.script)
    hstream.lines hend hfit
  simp only [Session.outcome, Prod.mk.injEq] at hout
  rw [hout.2.1]
  exact ⟨hout.2.2, hlast⟩

/-- `SET a x` and `GET a` on a new file, in three reads. -/
theorem session_get_of_map :
    ((@steady [83, 69, 84, 32, 97, 32, 120, 10, 71, 69, 84, 32, 97, 10] _
        (@Script.data [83, 69, 84] _ _ (by decide) (.again (@Script.data [32, 97, 32, 120, 10, 71] _ _
          (by decide) (@Script.data [69, 84, 32, 97, 10] _ _ (by decide) .fin))))).session
        (dbStore fun _ => none) (fileInitNew fun _ => 0)).output =
      prompt ++ [79, 75, 13, 10] ++ prompt ++ [120, 13, 10] ++ prompt := by
  have hstart : Start (fileInitNew fun _ => 0) := .file _ fun _ _ => rfl
  have hapt : Apt (fun _ => none) (fileInitNew fun _ => 0)
      [[83, 69, 84, 32, 97, 32, 120], [71, 69, 84, 32, 97]] := by
    have hset : ∀ op ∈ cmdOp none [97, 32, 120] .set, op.Served (fileInitNew fun _ => 0) ∧
        ExactMatch (fileInitNew fun _ => 0) op.key := by
      rintro op ⟨⟩
      exact ⟨room_fileInitNew _ (by decide) none,
        (refines_start hstart).exactMatch fun _ _ _ => rfl⟩
    have hnext := (@answer_refines (fun _ => none) _ _ (refines_start hstart) _ _ hset).2
    have hline : ∀ (store : Store State) (db : State),
        (answer store db [97, 32, 120] .set).2 = (respond store db [83, 69, 84, 32, 97, 32, 120]).2 :=
      fun _ _ => rfl
    refine ⟨hset, ?_, trivial⟩
    rintro op ⟨⟩
    rw [hline] at hnext
    refine ⟨trivial, hnext.exactMatch fun k hne _ => ?_⟩
    show update (fun _ => none) [97] (some [120]) k = none
    exact update_of_ne hne _ _
  have hstream : Admissible [83, 69, 84, 32, 97, 32, 120, 10, 71, 69, 84, 32, 97, 10] := by
    constructor <;> decide
  exact (session_of_map hstart hstream rfl hapt (by decide) _).1

end CDbK8s.Server
