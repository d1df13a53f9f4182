import CDbK8s.Base.Bytes

/-!
# The hash map template of `hashmap_impl.h`

The bucket array is a function from indices to entries, of which the code reads those below
`capacity`. The counters are `uint32_t`: sums and differences that may wrap are reduced.

A loop that the code does not bound is run with fuel, and `none` stands for a loop that never ends.
`calloc` is an argument of the calls that may grow the map: whether it succeeds.
-/

namespace CDbK8s.Hashmap

open Function

/-- What one inclusion of the template is given: the zero and the `-1` of `KEY_TYPE`,
the zero of `VAL_TYPE`, `KEY_HASH` and `KEY_EQ`. -/
structure Instance (Key Val : Type) where
  zero : Key
  top : Key
  zeroVal : Val
  hash : Key → Nat → Nat
  keyEq : Key → Key → Bool

/-- `MAP_FN(entry)`. -/
structure Entry (Key Val : Type) where
  key : Key
  val : Val

/-- `HASHMAP_TYPE`. -/
structure Map (Key Val : Type) where
  buckets : Nat → Entry Key Val
  capacity : Nat
  threshold : Nat
  size : Nat
  mask : Nat
  nbits : Nat
  isFixed : Bool

variable {Key Val : Type} [DecidableEq Key] (T : Instance Key Val)

def Instance.zeroEntry {Key Val : Type} (T : Instance Key Val) : Entry Key Val :=
  ⟨T.zero, T.zeroVal⟩

def zeroMap {Key Val : Type} (T : Instance Key Val) : Map Key Val :=
  { buckets := fun _ => T.zeroEntry, capacity := 0, threshold := 0, size := 0, mask := 0
    nbits := 0, isFixed := false }

/-- `MAP_FN(sanitize)`. -/
def sanitize (k : Key) : Key := if k = T.zero then T.top else k

/-- `MAP_FN(calc_bits)`: `32 - clz(n)` is the position of the highest bit plus one. -/
def calcBits (n : Nat) : Nat := if n = 0 then 0 else Nat.log2 n + 1

/-! ## Growing -/

/-- The loop `while (buckets[idx].key)` of `MAP_FN(resize)`. -/
def freeSlot (buckets : Nat → Entry Key Val) (mask : Nat) : Nat → Nat → Option Nat
  | 0, _ => none
  | fuel + 1, idx =>
    if (buckets idx).key = T.zero then some idx
    else freeSlot buckets mask fuel ((idx + 1) &&& mask)

/-- The rehash loop of `MAP_FN(resize)` over the `n` old entries from index `i` on:
the new buckets and the new size. -/
def rehash (old : Nat → Entry Key Val) (nbits mask : Nat) :
    Nat → Nat → (Nat → Entry Key Val) → Nat → Option ((Nat → Entry Key Val) × Nat)
  | 0, _, buckets, size => some (buckets, size)
  | n + 1, i, buckets, size =>
    if (old i).key = T.zero then rehash old nbits mask n (i + 1) buckets size
    else
      match freeSlot T buckets mask (mask + 2) (T.hash (old i).key nbits) with
      | none => none
      | some idx =>
        rehash old nbits mask n (i + 1) (update buckets idx ⟨(old i).key, (old i).val⟩)
          ((size + 1) % 2 ^ 32)

/-- The number of bits `MAP_FN(resize)` takes for a capacity. -/
def newBits (capacity : Nat) : Nat :=
  let nbits := calcBits ((capacity + (2 ^ 32 - 1)) % 2 ^ 32)
  if nbits < 2 then 2 else nbits

/-- `MAP_FN(resize)`: whether the map was resized, and the map. -/
def mapResize (m : Map Key Val) (capacity : Nat) (callocOk : Bool) :
    Option (Bool × Map Key Val) :=
  if m.isFixed then some (false, m)
  else
    let nbits := newBits capacity
    let capacity := 2 ^ nbits
    if callocOk then
      let mask := capacity - 1
      match rehash T m.buckets nbits mask m.capacity 0 (fun _ => T.zeroEntry) 0 with
      | none => none
      | some (buckets, size) =>
        some (true, { buckets, capacity, threshold := (capacity >>> 1) + (capacity >>> 2), size
                      mask, nbits, isFixed := m.isFixed })
    else some (false, m)

/-- `MAP_FN(init)`. -/
def mapInit (m : Map Key Val) (capacity : Nat) (callocOk : Bool) : Option (Bool × Map Key Val) :=
  mapResize T m capacity callocOk

/-- `MAP_FN(attach)`: whether the buffer was attached, and the map. -/
def mapAttach {Key Val : Type} (m : Map Key Val) (buffer : Nat → Entry Key Val)
    (capacity : Nat) : Bool × Map Key Val :=
  if capacity < 4 ∨ capacity &&& (capacity - 1) ≠ 0 then (false, m)
  else
    (true, { buckets := buffer, capacity, threshold := (capacity >>> 1) + (capacity >>> 2)
             size := 0, mask := capacity - 1, nbits := calcBits (capacity - 1), isFixed := true })

/-! ## Lookup and insertion -/

/-- `MAP_FN(end)`. -/
def mapEnd {Key Val : Type} (m : Map Key Val) : Nat := m.capacity

/-- `MAP_FN(size)`. -/
def mapSize {Key Val : Type} (m : Map Key Val) : Nat := m.size

/-- The loop that `MAP_FN(put)` and `MAP_FN(get)` share: it stops at an empty bucket
or at one with the key, or comes back to `stop` (`none` inside). -/
def probe (m : Map Key Val) (key : Key) (stop : Nat) : Nat → Nat → Option (Option Nat)
  | 0, _ => none
  | fuel + 1, idx =>
    if (m.buckets idx).key = T.zero then some (some idx)
    else if T.keyEq (m.buckets idx).key key then some (some idx)
    else if (idx + 1) &&& m.mask = stop then some none
    else probe m key stop fuel ((idx + 1) &&& m.mask)

/-- The loop from the home of `key`. -/
def probeKey (m : Map Key Val) (key : Key) : Option (Option Nat) :=
  probe T m key (T.hash key m.nbits) (m.capacity + 1) (T.hash key m.nbits)

/-- The part of `MAP_FN(put)` behind the resize. -/
def putEntry (m : Map Key Val) (key : Key) (val : Val) : Option (Nat × Map Key Val) :=
  if key = T.top then some (m.capacity, m)
  else
    match probeKey T m (sanitize T key) with
    | none => none
    | some none => some (m.capacity, m)
    | some (some idx) =>
      let size := if (m.buckets idx).key = T.zero then (m.size + 1) % 2 ^ 32 else m.size
      some (idx, { m with size, buckets := update m.buckets idx ⟨sanitize T key, val⟩ })

/-- `MAP_FN(put)`: the index or the end, and the map. -/
def mapPut (m : Map Key Val) (key : Key) (val : Val) (callocOk : Bool) :
    Option (Nat × Map Key Val) :=
  if m.size ≥ m.threshold then
    match mapResize T m ((m.capacity + 1) % 2 ^ 32) callocOk with
    | none => none
    | some (false, m) => some (m.capacity, m)
    | some (true, m) => putEntry T m key val
  else putEntry T m key val

/-- `MAP_FN(get)`: the index or the end. -/
def mapGet (m : Map Key Val) (key : Key) : Option Nat :=
  if m.size = 0 then some m.capacity
  else
    match probeKey T m (sanitize T key) with
    | none => none
    | some none => some m.capacity
    | some (some idx) => some (if (m.buckets idx).key = T.zero then m.capacity else idx)

/-! ## Deletion -/

/-- `MAP_FN(must_backshift)`, the branchless form. -/
def mustBackshift (idx nidx kidx : Nat) : Bool :=
  (decide (nidx < idx) ^^ decide (kidx ≤ idx)) ^^ decide (kidx > nidx)

/-- `MAP_FN(must_backshift)` under `HASHMAP_BACKSHIFT_NORMAL`. -/
def mustBackshiftNormal (idx nidx kidx : Nat) : Bool :=
  if idx ≤ nidx then kidx ≤ idx || kidx > nidx else kidx > nidx && kidx ≤ idx

/-- The loop of `MAP_FN(rem)`: the last hole, and the buckets. -/
def backshift (mask nbits : Nat) :
    Nat → Nat → Nat → (Nat → Entry Key Val) → Option (Nat × (Nat → Entry Key Val))
  | 0, _, _, _ => none
  | fuel + 1, idx, nidx, buckets =>
    let nidx := (nidx + 1) &&& mask
    if nidx = idx ∨ (buckets nidx).key = T.zero then some (idx, buckets)
    else if mustBackshift idx nidx (T.hash (buckets nidx).key nbits) then
      backshift mask nbits fuel nidx nidx (update buckets idx (buckets nidx))
    else backshift mask nbits fuel idx nidx buckets

/-- `MAP_FN(rem)`: the index of the emptied bucket or the end, and the map. -/
def mapRem (m : Map Key Val) (idx : Nat) : Option (Nat × Map Key Val) :=
  if m.size = 0 ∨ idx ≥ m.capacity then some (m.capacity, m)
  else
    match backshift T m.mask m.nbits (m.capacity + 1) idx idx m.buckets with
    | none => none
    | some (idx, buckets) =>
      some (idx, { m with
        buckets := update buckets idx { buckets idx with key := T.zero }
        size := (m.size + (2 ^ 32 - 1)) % 2 ^ 32 })

/-- `MAP_FN(del)`. -/
def mapDel (m : Map Key Val) (key : Key) : Option (Nat × Map Key Val) :=
  match mapGet T m (sanitize T key) with
  | none => none
  | some idx => if idx = m.capacity then some (idx, m) else mapRem T m idx

/-! ## Access by index -/

/-- There is an entry at `idx`. -/
def Map.Live (m : Map Key Val) (idx : Nat) : Prop := idx < m.capacity ∧ (m.buckets idx).key ≠ T.zero

instance (m : Map Key Val) (idx : Nat) : Decidable (m.Live T idx) :=
  inferInstanceAs (Decidable (_ ∧ _))

/-- `MAP_FN(key)`. -/
def mapKey (m : Map Key Val) (idx : Nat) : Key :=
  if m.Live T idx then (m.buckets idx).key else T.zero

/-- `MAP_FN(val)`. -/
def mapVal (m : Map Key Val) (idx : Nat) : Val :=
  if m.Live T idx then (m.buckets idx).val else T.zeroVal

/-- `MAP_FN(set)`: the index or the end, and the map. -/
def mapSet (m : Map Key Val) (idx : Nat) (val : Val) : Nat × Map Key Val :=
  if m.Live T idx then
    (idx, { m with buckets := update m.buckets idx { m.buckets idx with val := val } })
  else (m.capacity, m)

end CDbK8s.Hashmap
