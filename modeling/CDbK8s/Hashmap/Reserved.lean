import CDbK8s.Hashmap.Keys
import CDbK8s.Lib.Runs

/-!
# Empty buckets and the reserved key

`MAP_FN(rem)` counts one too many as gone at an empty bucket, and the key `0` is stored as `-1`,
which `MAP_FN(put)` refuses.
-/

namespace CDbK8s.Hashmap

open Lib Lib.NodeMap Lib.Runs

/-! ## The key `-1` -/

section
variable {Key Val A : Type} [DecidableEq Key] {T : Instance Key Val} {abs : Key → A}
  {H : A → Nat → Nat} {valid : Key → Prop} {m : Map Key Val} {f : A → Option Val}

theorem sanitize_top : sanitize T T.top = sanitize T T.zero := by
  simp [sanitize]

theorem mapGet_top : mapGet T m T.top = mapGet T m T.zero := by
  rw [mapGet, mapGet, sanitize_top]

theorem mapDel_top : mapDel T m T.top = mapDel T m T.zero := by
  rw [mapDel, mapDel, sanitize_top]

variable (L : KeyLaws T abs H valid)
include L

theorem mapPut_top [DecidableEq A] (h : Holds T abs m f) (hfew : m.size < 2 ^ 29) (val : Val)
    (callocOk : Bool) :
    ∃ m', mapPut T m T.top val callocOk = some (mapEnd m', m') ∧ Holds T abs m' f := by
  have hput : ∀ m' : Map Key Val, putEntry T m' T.top val = some (mapEnd m', m') :=
    fun m' => if_pos rfl
  unfold mapPut
  by_cases hfull : m.size ≥ m.threshold
  · rw [if_pos hfull]
    by_cases hgrow : m.isFixed = false ∧ callocOk = true
    · obtain ⟨hfix, rfl⟩ := hgrow
      obtain ⟨m', hrun, -, -, hnew⟩ := mapResize_full L h hfull hfew hfix
      rw [hrun]
      exact ⟨m', hput m', hnew⟩
    · have hno : m.isFixed = true ∨ callocOk = false := by
        cases hfix : m.isFixed with
        | true => exact .inl rfl
        | false => exact .inr (Bool.eq_false_iff.2 fun hok => hgrow ⟨hfix, hok⟩)
      rw [mapResize_refused hno]
      exact ⟨m, rfl, h⟩
  · rw [if_neg hfull]
    exact ⟨m, hput m, h⟩

end

/-! ## The size -/

section
variable {t : Template}

/-- The key of a call is a valid one, or `-1` where `0` is a key. -/
def Template.Takes (t : Template) (c : t.Ctx) : Op t.Key t.Val → Prop
  | .put key _ _ | .get key | .del key =>
    t.valid key ∨ (key = (t.inst c).top ∧ t.valid (t.inst c).zero)
  | _ => True

/-- A rem is at an entry, or out of range, or the map is empty. -/
def AtEntry {Key Val : Type} (T : Instance Key Val) (m : Map Key Val) : Op Key Val → Prop
  | .rem i => m.Live T i ∨ m.size = 0 ∨ mapEnd m ≤ i
  | _ => True

/-- The memory and the map after a call. -/
def mapNext (s : t.Ctx × Map t.Key t.Val) (e : t.Ctx × Op t.Key t.Val) :
    t.Ctx × Map t.Key t.Val :=
  (e.1, ((call (t.inst e.1) s.2 e.2).map Prod.snd).getD s.2)

/-- The call returns, the size is the number of the buckets in use, and a rem at another
bucket changes nothing. -/
structure SizeRight (s : t.Ctx × Map t.Key t.Val) (e : t.Ctx × Op t.Key t.Val) : Prop where
  returns : (call (t.inst e.1) s.2 e.2).isSome = true
  size : mapSize (mapNext s e).2 = {i | (mapNext s e).2.Live (t.inst e.1) i}.ncard
  rem : ∀ i, e.2 = .rem i → ¬ s.2.Live (t.inst e.1) i →
    mapRem (t.inst e.1) s.2 i = some (mapEnd s.2, s.2)

/-- The stored keys stand for what they did, the call has a key it may have, and the map is
below the size from which on its capacity overflows. -/
structure Allowed (s : t.Ctx × Map t.Key t.Val) (e : t.Ctx × Op t.Key t.Val) : Prop where
  unchanged : ∀ i, s.2.Live (t.inst e.1) i →
    t.abs e.1 (s.2.buckets i).key = t.abs s.1 (s.2.buckets i).key
  takes : t.Takes e.1 e.2
  few : s.2.size < 2 ^ 29

/-- The map holds some contents. -/
def HoldsSome (c : t.Ctx) (m : Map t.Key t.Val) : Prop := ∃ f, Holds (t.inst c) (t.abs c) m f

theorem call_permitted {c : t.Ctx} {m : Map t.Key t.Val} {f : t.A → Option t.Val}
    (h : Holds (t.inst c) (t.abs c) m f) (hfew : m.size < 2 ^ 29) {op : Op t.Key t.Val}
    (hop : State.Permits ⟨c, m, f⟩ c op) :
    ∃ r, call (t.inst c) m op = some r ∧ HoldsSome c r.2 := by
  obtain ⟨s', hnext, hgood⟩ := next_good (s := ⟨c, m, f⟩) h (fun _ _ => rfl) hop (h.size ▸ hfew)
  obtain ⟨r, hcall, rfl⟩ := Option.map_eq_some_iff.1 hnext
  exact ⟨r, hcall, _, hgood⟩

theorem call_holds {c : t.Ctx} {m : Map t.Key t.Val} (h : HoldsSome c m) (hfew : m.size < 2 ^ 29)
    {op : Op t.Key t.Val} (hkey : t.Takes c op) (hrem : AtEntry (t.inst c) m op) :
    ∃ r, call (t.inst c) m op = some r ∧ HoldsSome c r.2 := by
  obtain ⟨f, h⟩ := h
  have L := t.laws c
  cases op with
  | put key val callocOk =>
    rcases hkey with hv | ⟨rfl, -⟩
    · exact call_permitted h hfew hv
    · obtain ⟨m', hrun, hnew⟩ := mapPut_top L h hfew val _
      exact ⟨_, hrun, f, hnew⟩
  | get key =>
    rcases hkey with hv | ⟨rfl, hz⟩
    · exact call_permitted h hfew hv
    · rw [call, mapGet_top]
      exact call_permitted h hfew (show State.Permits ⟨c, m, f⟩ c (.get _) from hz)
  | del key =>
    rcases hkey with hv | ⟨rfl, hz⟩
    · exact call_permitted h hfew hv
    · rw [call, mapDel_top]
      exact call_permitted h hfew (show State.Permits ⟨c, m, f⟩ c (.del _) from hz)
  | set i val => exact call_permitted h hfew trivial
  | rem i =>
    rcases hrem with hi | hout
    · exact call_permitted h hfew hi
    · exact ⟨(mapEnd m, m), if_pos hout, f, h⟩

theorem atEntry_of_rem {Key Val : Type} [DecidableEq Key] {T : Instance Key Val}
    {m : Map Key Val} {i : Nat}
    (h : mapRem T m i = some (mapEnd m, m)) : m.size = 0 ∨ mapEnd m ≤ i := by
  by_contra hin
  rw [mapRem, if_neg (show ¬ (m.size = 0 ∨ i ≥ m.capacity) from hin)] at h
  split at h
  · exact absurd h (by simp)
  · have hsize : (m.size + (2 ^ 32 - 1)) % 2 ^ 32 = m.size :=
      congrArg (fun r => r.2.size) (Option.some.inj h)
    omega

theorem sizeRight_iff {s : t.Ctx × Map t.Key t.Val} (h : HoldsSome s.1 s.2)
    {e : t.Ctx × Op t.Key t.Val} (he : Allowed s e) :
    (SizeRight s e ↔ AtEntry (t.inst e.1) s.2 e.2) ∧
      (AtEntry (t.inst e.1) s.2 e.2 → HoldsSome (mapNext s e).1 (mapNext s e).2) := by
  obtain ⟨f, h⟩ := h
  have hnow : HoldsSome e.1 s.2 := ⟨f, State.Good.change (s := ⟨s.1, s.2, f⟩) h he.unchanged⟩
  have hstep : AtEntry (t.inst e.1) s.2 e.2 → (call (t.inst e.1) s.2 e.2).isSome = true ∧
      HoldsSome (mapNext s e).1 (mapNext s e).2 := by
    intro hrem
    obtain ⟨r, hcall, hnew⟩ := call_holds hnow he.few he.takes hrem
    rw [mapNext, hcall]
    exact ⟨rfl, hnew⟩
  refine ⟨⟨fun hs => ?_, fun hrem => ?_⟩, fun hrem => (hstep hrem).2⟩
  · obtain ⟨c, op⟩ := e
    cases op with
    | rem i =>
      by_cases hi : s.2.Live (t.inst c) i
      · exact .inl hi
      · exact .inr (atEntry_of_rem (hs.rem i rfl hi))
    | _ => trivial
  · obtain ⟨hreturns, f', hnew⟩ := hstep hrem
    refine ⟨hreturns, hnew.ncard_live.symm, fun i hi hdead => ?_⟩
    rw [hi] at hrem
    exact if_pos (hrem.resolve_left hdead)

end

/-- Over every run of calls on each of the four hash maps the size is the number of the buckets
in use exactly if no rem is at an empty bucket of a map with entries. -/
theorem size_counts_iff (k : Kind) (c : k.template.Ctx) (su : Setup k.template) (hsu : su.Ok)
    (m : Map k.template.Key k.template.Val) (hstart : su.start c = some m)
    (es : List (k.template.Ctx × Op k.template.Key k.template.Val))
    (hes : EveryStep mapNext Allowed (c, m) es) :
    EveryStep mapNext SizeRight (c, m) es ↔
      EveryStep mapNext (fun s e => AtEntry (k.template.inst e.1) s.2 e.2) (c, m) es := by
  refine everyStep_iff
    (fun s e hs he hrem => (sizeRight_iff hs he).2 hrem) (fun s e hs he => (sizeRight_iff hs he).1)
    es _ ?_ hes
  obtain ⟨m', hm', hgood⟩ := start_good c hsu
  obtain rfl : m' = m := Option.some.inj (hm'.symm.trans hstart)
  exact ⟨_, hgood⟩

/-- A put of the key `1`, one of `-1`, which is refused, and a rem of the entry. -/
theorem size_counts_refused_key :
    EveryStep (mapNext (t := Kind.hashmap32.template)) SizeRight ((), zeroMap map32)
      [((), .put (1 : UInt32) (7 : UInt32) true), ((), .put (0xFFFFFFFF : UInt32) (7 : UInt32) true),
        ((), .rem 2)] := by
  refine (size_counts_iff .hashmap32 () .zero trivial _ rfl _ ?_).2 ?_
  · refine ⟨⟨fun _ _ => rfl, .inl ?_, by decide⟩, ⟨fun _ _ => rfl, .inr ⟨rfl, ?_⟩, ?_⟩,
      ⟨fun _ _ => rfl, trivial, ?_⟩, trivial⟩
    · exact show (1 : UInt32) ≠ 0xFFFFFFFF by decide
    · exact show (0 : UInt32) ≠ 0xFFFFFFFF by decide
    · decide +kernel
    · decide +kernel
  · exact ⟨trivial, trivial, .inl (by decide +kernel), trivial⟩

/-- The one key of a map is in the third bucket. A rem at the first one returns that index and
counts the map as empty, so that the key is not found any more. -/
theorem rem_of_empty_bucket :
    ¬ EveryStep (mapNext (t := Kind.hashmap32.template)) SizeRight ((), zeroMap map32)
        [((), .put (1 : UInt32) (7 : UInt32) true), ((), .rem 0)] ∧
      ((mapPut map32 (zeroMap map32) 1 7 true).bind fun r => mapRem map32 r.2 0).map
        (fun r => (r.1, mapSize r.2, mapKey map32 r.2 2, mapGet map32 r.2 1)) =
          some (0, 0, 1, some 4) := by
  refine ⟨fun h => ?_, by decide +kernel⟩
  have hrem := congrArg (Option.map Prod.fst) (h.2.1.rem 0 rfl (by decide +kernel))
  exact absurd hrem (by decide +kernel)

/-! ## The integer keys -/

section
variable {Key Val A : Type} [DecidableEq Key] {T : Instance Key Val} {m : Map Key Val}
  {f : Key → Option Val} {k : Key}

variable (htop : T.top ≠ T.zero) (hkeyEq : ∀ a b, T.keyEq a b = true ↔ a = b)
  (hhash : ∀ k bits, 2 ≤ bits → bits ≤ 31 → T.hash k bits < 2 ^ bits)
  (h : Holds T (intAbs T) m f)
include htop hkeyEq hhash h

theorem get_dead (hk : k ≠ T.top) (hf : f k = none) :
    mapGet T m k = some (mapEnd m) ∧ mapDel T m k = some (mapEnd m, m) := by
  have L := intLaws T htop hkeyEq hhash
  have hget := mapGet_none L h hk (by rw [intAbs, if_neg hk]; exact hf)
  refine ⟨hget, ?_⟩
  rw [mapDel, mapGet_sanitize L, hget]
  exact if_pos rfl

end

section
variable {t : Template}

/-- A call that is permitted, or that has the key `-1` and is not to find the key `0`. -/
def State.Admits (s : State t) (c : t.Ctx) (op : Op t.Key t.Val) : Prop :=
  s.Permits c op ∨ (t.valid (t.inst c).zero ∧ (op = .get (t.inst c).top ∨
    (∃ val callocOk, op = .put (t.inst c).top val callocOk) ∨
    (op = .del (t.inst c).top ∧ s.contents (t.abs c (t.inst c).zero) = none)))

/-- The states of the runs from a setup, with fewer than `2 ^ 29` keys live in each. -/
inductive Reached : State t → Prop where
  | start (c : t.Ctx) (su : Setup t) (hsu : su.Ok) (m : Map t.Key t.Val)
      (hstart : su.start c = some m) : Reached ⟨c, m, fun _ => none⟩
  | call {s s' : State t} (hs : Reached s) (c : t.Ctx) (op : Op t.Key t.Val)
      (hkeys : s.Unchanged c) (hop : s.Admits c op) (hnext : s.next c op = some s')
      (hfew : (liveKeys s'.contents).ncard < 2 ^ 29) : Reached s'

theorem Reached.few {s : State t} (h : Reached s) : (liveKeys s.contents).ncard < 2 ^ 29 := by
  cases h with
  | start => simp [liveKeys]
  | call _ _ _ _ _ _ hfew => exact hfew

theorem next_admitted {s : State t} (h : s.Good) {c : t.Ctx} (hkeys : s.Unchanged c)
    {op : Op t.Key t.Val} (hop : s.Admits c op) (hfew : (liveKeys s.contents).ncard < 2 ^ 29) :
    ∃ s', s.next c op = some s' ∧ s'.Good := by
  have L := t.laws c
  have hnow := h.change hkeys
  rcases hop with hop | ⟨hz, rfl | ⟨val, callocOk, rfl⟩ | ⟨rfl, -⟩⟩
  · exact next_good h hkeys hop hfew
  · rw [State.next, call, mapGet_top]
    exact next_good h hkeys (show s.Permits c (.get _) from hz) hfew
  · obtain ⟨m', hrun, hnew⟩ := mapPut_top L hnow (hnow.size ▸ hfew) val callocOk
    refine ⟨⟨c, m', s.contents⟩, ?_, hnew⟩
    simp [State.next, call, hrun, contentsAfter]
  · have habs : t.abs c (t.inst c).top = t.abs c (t.inst c).zero := by
      simp [← L.abs_sanitize _ hz, sanitize]
    have hsame : s.next c (.del (t.inst c).top) = s.next c (.del (t.inst c).zero) := by
      simp only [State.next, call, mapDel_top, contentsAfter, habs]
    rw [hsame]
    exact next_good h hkeys hz hfew

theorem Reached.good {s : State t} (h : Reached s) : s.Good := by
  induction h with
  | start c _ hsu m hstart =>
    obtain ⟨m', hm', hgood⟩ := start_good c hsu
    obtain rfl : m' = m := Option.some.inj (hm'.symm.trans hstart)
    exact hgood
  | call hs c _ hkeys hop hnext _ ih =>
    obtain ⟨s1, hrun, hgood⟩ := next_admitted ih hkeys hop hs.few
    obtain rfl := Option.some.inj (hrun.symm.trans hnext)
    exact hgood

end

end CDbK8s.Hashmap
