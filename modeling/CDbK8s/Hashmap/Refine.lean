import CDbK8s.Hashmap.Instances
import CDbK8s.Hashmap.Remove
import CDbK8s.Hashmap.Update

/-!
# The hash map as a finite map

A run is a sequence of calls, each with the memory that the string keys point into at that time.
-/

namespace CDbK8s.Hashmap

open Lib Lib.NodeMap Function

/-! ## Runs -/

/-- The calls of a run. A put carries whether `calloc` would succeed. -/
inductive Op (Key Val : Type) where
  | put (key : Key) (val : Val) (callocOk : Bool)
  | get (key : Key)
  | del (key : Key)
  | set (idx : Nat) (val : Val)
  | rem (idx : Nat)

/-- What a call returns, and the map after it. -/
def call {Key Val : Type} [DecidableEq Key] (T : Instance Key Val) (m : Map Key Val) :
    Op Key Val → Option (Nat × Map Key Val)
  | .put key val callocOk => mapPut T m key val callocOk
  | .get key => (mapGet T m key).map fun idx => (idx, m)
  | .del key => mapDel T m key
  | .set idx val => some (mapSet T m idx val)
  | .rem idx => mapRem T m idx

/-- The memory at the last call, the map, and the values of the live keys. -/
structure State (t : Template) where
  ctx : t.Ctx
  map : Map t.Key t.Val
  contents : t.A → Option t.Val

section
variable {t : Template}

/-- The values of the live keys after a call that returned `idx` and left the map
`m'`. A put that returns the end stores nothing; a set and a rem are for the key of
the entry at their index. -/
def contentsAfter (s : State t) (c : t.Ctx) (idx : Nat) (m' : Map t.Key t.Val) :
    Op t.Key t.Val → t.A → Option t.Val
  | .put key val _ =>
    if idx = mapEnd m' then s.contents
    else update s.contents (t.abs c key) (some val)
  | .get _ => s.contents
  | .del key => update s.contents (t.abs c key) none
  | .set i val =>
    if s.map.Live (t.inst c) i then
      update s.contents (t.abs c (mapKey (t.inst c) s.map i)) (some val)
    else s.contents
  | .rem i => update s.contents (t.abs c (mapKey (t.inst c) s.map i)) none

/-- One call in the memory `c`. -/
def State.next (s : State t) (c : t.Ctx) (op : Op t.Key t.Val) : Option (State t) :=
  (call (t.inst c) s.map op).map fun r => ⟨c, r.2, contentsAfter s c r.1 r.2 op⟩

/-- A run of calls. -/
def State.run (s : State t) : List (t.Ctx × Op t.Key t.Val) → Option (State t)
  | [] => some s
  | (c, op) :: es =>
    match s.next c op with
    | none => none
    | some s' => s'.run es

/-- The stored keys stand for the same keys in the memory `c` as before. -/
def State.Unchanged (s : State t) (c : t.Ctx) : Prop :=
  ∀ i, s.map.Live (t.inst c) i → t.abs c (s.map.buckets i).key = t.abs s.ctx (s.map.buckets i).key

/-- The keys of a call are valid, and a rem is at the index of a live entry. -/
def State.Permits (s : State t) (c : t.Ctx) : Op t.Key t.Val → Prop
  | .put key _ _ => t.valid key
  | .get key => t.valid key
  | .del key => t.valid key
  | .set _ _ => True
  | .rem idx => s.map.Live (t.inst c) idx

/-- The run keeps to the rules, with fewer than `2 ^ 29` keys live at every call. -/
def State.Allows (s : State t) : List (t.Ctx × Op t.Key t.Val) → Prop
  | [] => True
  | (c, op) :: es => s.Unchanged c ∧ s.Permits c op ∧ (liveKeys s.contents).ncard < 2 ^ 29 ∧
      ∀ s', s.next c op = some s' → s'.Allows es

/-- How a map is set up. The struct that a buffer is attached to need not be zero. -/
inductive Setup (t : Template) where
  | zero
  | init (capacity : Nat) (callocOk : Bool)
  | attach (m : Map t.Key t.Val) (capacity : Nat)

/-- The map after the setup; an attached buffer is zero-filled. -/
def Setup.start (c : t.Ctx) : Setup t → Option (Map t.Key t.Val)
  | .zero => some (zeroMap (t.inst c))
  | .init capacity callocOk =>
    (mapInit (t.inst c) (zeroMap (t.inst c)) capacity callocOk).map Prod.snd
  | .attach m capacity => some (mapAttach m (fun _ => (t.inst c).zeroEntry) capacity).2

/-- The arguments of the setup: a capacity from `1` to `2 ^ 30`, or a buffer of a
power of two of at least four entries. -/
def Setup.Ok : Setup t → Prop
  | .zero => True
  | .init capacity _ => 1 ≤ capacity ∧ capacity ≤ 2 ^ 30
  | .attach _ capacity => 4 ≤ capacity ∧ capacity < 2 ^ 32 ∧ ∃ b, capacity = 2 ^ b

/-- The map answers as the finite map `contents` does. -/
structure State.FiniteMap (s : State t) : Prop where
  get_live : ∀ key v, t.valid key → s.contents (t.abs s.ctx key) = some v →
    ∃ idx, mapGet (t.inst s.ctx) s.map key = some idx ∧ idx < mapEnd s.map ∧
      mapVal (t.inst s.ctx) s.map idx = v
  get_dead : ∀ key, t.valid key → s.contents (t.abs s.ctx key) = none →
    mapGet (t.inst s.ctx) s.map key = some (mapEnd s.map)
  size : mapSize s.map = (liveKeys s.contents).ncard
  put_end : ∀ key val callocOk m', t.valid key → (liveKeys s.contents).ncard < 2 ^ 29 →
    mapPut (t.inst s.ctx) s.map key val callocOk = some (mapEnd m', m') → m' = s.map

/-! ## One call -/

/-- The map holds what the run has left in it. -/
def State.Good (s : State t) : Prop := Holds (t.inst s.ctx) (t.abs s.ctx) s.map s.contents

theorem zero_eq (c c' : t.Ctx) : (t.inst c).zero = (t.inst c').zero :=
  congrArg Entry.key (t.zeroEntry_eq c c')

theorem Table.change {c c' : t.Ctx} {m : Map t.Key t.Val} (h : Table (t.inst c) m)
    (hkeys : ∀ i, m.Live (t.inst c') i → t.abs c' (m.buckets i).key = t.abs c (m.buckets i).key) :
    Table (t.inst c') m := by
  refine { h with probing := h.probing.congr (fun i _ => ?_) fun i hi hocc => ?_ }
  · rw [Occ, Occ, zero_eq c' c]
  · have hocc' : (m.buckets i).key ≠ (t.inst c').zero := by
      rw [zero_eq c' c]
      exact hocc
    rw [home, home, (t.laws c').hash_eq _ hocc', (t.laws c).hash_eq _ hocc, hkeys i ⟨hi, hocc'⟩]

theorem State.Good.change {s : State t} (h : s.Good) {c : t.Ctx} (hkeys : s.Unchanged c) :
    Holds (t.inst c) (t.abs c) s.map s.contents := by
  have hlive : ∀ i, s.map.Live (t.inst c) i ↔ s.map.Live (t.inst s.ctx) i := by
    simp [Map.Live, zero_eq c s.ctx]
  refine ⟨?_, h.rep.congr hlive fun i hi => ?_, h.size, h.size_le⟩
  · rcases h.shape with ht | hzero
    · exact .inl (ht.change hkeys)
    · right
      rw [hzero, zeroMap, zeroMap, t.zeroEntry_eq c _]
  · rw [ent, ent, hkeys i ((hlive i).2 hi)]

theorem mapKey_live {Key Val : Type} [DecidableEq Key] {T : Instance Key Val} {m : Map Key Val}
    {i : Nat} (hi : m.Live T i) : mapKey T m i = (m.buckets i).key := if_pos hi

/-- An allowed call returns, and the map after it holds the contents after it. -/
theorem next_good {s : State t} (h : s.Good) {c : t.Ctx} (hkeys : s.Unchanged c)
    {op : Op t.Key t.Val} (hop : s.Permits c op) (hfew : (liveKeys s.contents).ncard < 2 ^ 29) :
    ∃ s', s.next c op = some s' ∧ s'.Good := by
  have hnow := h.change hkeys
  have L := t.laws c
  unfold State.next
  cases op with
  | put key val callocOk =>
    rw [← hnow.size] at hfew
    obtain ⟨i, m', hrun, hres⟩ := mapPut_spec L hnow hfew hop val _
    refine ⟨_, by rw [call, hrun]; rfl, ?_⟩
    rcases hres with ⟨hend, rfl⟩ | ⟨hi, hnew⟩
    · simpa [State.Good, contentsAfter, hend] using hnow
    · simpa [State.Good, contentsAfter, ne_of_lt hi] using hnew
  | get key =>
    cases hf : s.contents (t.abs c key) with
    | none =>
      refine ⟨_, by rw [call, mapGet_none L hnow hop hf]; rfl, ?_⟩
      exact hnow
    | some v =>
      obtain ⟨i, hget, -⟩ := mapGet_some L hnow hop hf
      refine ⟨_, by rw [call, hget]; rfl, ?_⟩
      exact hnow
  | del key =>
    obtain ⟨i, m', hrun, -, hnew⟩ := mapDel_spec L hnow hop
    refine ⟨_, by rw [call, hrun]; rfl, ?_⟩
    exact hnew
  | set i val =>
    by_cases hi : s.map.Live (t.inst c) i
    · obtain ⟨hrun, hnew⟩ := mapSet_live L hnow hi val
      refine ⟨_, by rw [call, hrun]; rfl, ?_⟩
      simpa [State.Good, contentsAfter, hi, mapKey_live hi] using hnew
    · refine ⟨_, by rw [call, mapSet]; rfl, ?_⟩
      simpa [State.Good, contentsAfter, hi] using hnow
  | rem i =>
    obtain ⟨j, m', hrun, -, hnew⟩ := mapRem_spec hnow hop
    refine ⟨_, by rw [call, hrun]; rfl, ?_⟩
    rw [← mapKey_live hop] at hnew
    exact hnew

/-! ## A run -/

theorem run_good : ∀ (es : List (t.Ctx × Op t.Key t.Val)) {s : State t}, s.Good → s.Allows es →
    ∃ s', s.run es = some s' ∧ s'.Good
  | [], s, h, _ => ⟨s, rfl, h⟩
  | _ :: es, s, h, hes => by
    obtain ⟨hkeys, hop, hfew, hrest⟩ := hes
    obtain ⟨s1, hnext, hgood⟩ := next_good h hkeys hop hfew
    obtain ⟨s', hrun, hgood'⟩ := run_good es hgood (hrest _ hnext)
    exact ⟨s', by rw [State.run, hnext]; exact hrun, hgood'⟩

theorem start_good (c : t.Ctx) {su : Setup t} (hsu : su.Ok) :
    ∃ m, su.start c = some m ∧ State.Good ⟨c, m, fun _ => none⟩ := by
  cases su with
  | zero => exact ⟨_, rfl, zeroMap_holds _ _⟩
  | init capacity callocOk =>
    obtain ⟨m, hinit, hgood⟩ := mapInit_spec (t.laws c) hsu.1 hsu.2 _
    exact ⟨m, by rw [Setup.start, hinit]; rfl, hgood⟩
  | attach m capacity =>
    obtain ⟨hfour, hlt, b, rfl⟩ := hsu
    have hlo : 2 ≤ b := (Nat.pow_le_pow_iff_right Nat.one_lt_two).1 hfour
    have hhi : b < 32 := (Nat.pow_lt_pow_iff_right Nat.one_lt_two).1 hlt
    obtain ⟨m', hattach, hgood⟩ := mapAttach_spec (t.inst c) (t.abs c) m hlo (by omega)
    exact ⟨m', by rw [Setup.start, hattach], hgood⟩

theorem State.Good.finiteMap {s : State t} (h : s.Good) : s.FiniteMap := by
  have L := t.laws s.ctx
  refine ⟨fun key v hv hf => ?_, fun key hv hf => mapGet_none L h hv hf, h.size, ?_⟩
  · obtain ⟨i, hget, hi, -, hval⟩ := mapGet_some L h hv hf
    exact ⟨i, hget, hi.1, by rw [mapVal, if_pos hi, hval]⟩
  · intro key val callocOk _ hv hfew hput
    rw [← h.size] at hfew
    obtain ⟨i, m1, hrun, hres⟩ := mapPut_spec L h hfew hv val _
    rw [hrun, Option.some.injEq] at hput
    obtain ⟨rfl, rfl⟩ := hput
    rcases hres with ⟨-, heq⟩ | ⟨hlt, -⟩
    · exact heq
    · exact absurd hlt (lt_irrefl _)

end

/-- Every run of calls on each of the four hash maps returns and ends in a map that
answers as the finite map of the values stored and not deleted since. -/
theorem map_refines (k : Kind) (c : k.template.Ctx) (su : Setup k.template) (hsu : su.Ok)
    (es : List (k.template.Ctx × Op k.template.Key k.template.Val))
    (hes : ∀ m, su.start c = some m → State.Allows ⟨c, m, fun _ => none⟩ es) :
    ∃ m s, su.start c = some m ∧ State.run ⟨c, m, fun _ => none⟩ es = some s ∧ s.FiniteMap := by
  obtain ⟨m, hstart, hgood⟩ := start_good c hsu
  obtain ⟨s, hrun, hgood'⟩ := run_good es hgood (hes m hstart)
  exact ⟨m, s, hstart, hrun, hgood'.finiteMap⟩

/-- The key `0`, which the code stores as `-1`, in a zero-filled `hashmap32`. -/
theorem map_refines_put_zero :
    ∃ m s, Setup.start () (.zero : Setup Kind.hashmap32.template) = some m ∧
      State.run ⟨(), m, fun _ => none⟩ [((), .put (0 : UInt32) (7 : UInt32) true)] = some s ∧
      s.FiniteMap := by
  refine map_refines .hashmap32 () .zero trivial _ fun m _ => ?_
  refine ⟨fun i _ => rfl, ?_, ?_, fun _ _ => trivial⟩
  · show (0 : UInt32) ≠ 0xFFFFFFFF
    decide
  · simp [liveKeys]

end CDbK8s.Hashmap
