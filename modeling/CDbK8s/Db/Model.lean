import CDbK8s.Base.Bytes
import CDbK8s.Lib.ByteMem
import CDbK8s.Lib.LinkedCells

/-!
# The key/value store of `db.c`

Both backends run the same code over one byte memory. In file mode an address is
an offset from `db_mmap_ptr` and the memory is the mapped file; in memory mode an
address is a heap address and `blocks` lists the allocated blocks. A link is a
64-bit cell holding the address of a record, and the `next` field is the first
field of a record, so `&rec->next` is the address of the record itself.

Every store goes through `State.store`, which also appends it to `log`: the log of
an operation is the list of its stores in program order. `memcpy` is logged byte
by byte.

The loops over a bucket chain are `walk` with the fuel `walkFuel`; `none` stands
for a walk that never ends.
-/

namespace CDbK8s.Db

open Base Lib.ByteMem Lib.LinkedCells

/-! ## Layout -/

/-- `MAX_LINE` of `config.h`. -/
def maxLine : Nat := 256

def dbMaxRec : Nat := 10000

def dbNumBuckets : Nat := 15013

def dbRecDel : Nat := 1

def dbFail : Int := -1

def dbMagic : Nat := 0x4D594442

/-- `sizeof(struct db_rec)`: `next`, `flags`, `key_len`, `val_len`. -/
def sizeofRec : Nat := 32

/-- `sizeof(struct db_hdr)`: `magic`, `version`, `num_rec`, `num_del`, `next_offset`. -/
def sizeofHdr : Nat := 32

/-- `table_size` of `file_init`. -/
def tableSize : Nat := dbNumBuckets * 8

/-- `file_size` of `file_init`. -/
def fileSize : Nat := sizeofHdr + tableSize + dbMaxRec * maxLine

/-- Offset of `magic` in `struct db_hdr`; the other fields follow it. -/
def hdrMagic : Nat := 0

/-- Offset of `version`. -/
def hdrVersion : Nat := 4

/-- Offset of `num_rec`. -/
def hdrNumRec : Nat := 8

/-- Offset of `num_del`. -/
def hdrNumDel : Nat := 16

/-- Offset of `next_offset`. -/
def hdrNextOffset : Nat := 24

/-- State of the store: `db_file`, `db_size`, `db_buckets`, the memory, the stores
made so far, and the blocks the heap has handed out (address and size). -/
structure State where
  dbFile : Bool
  dbSize : Nat
  dbBuckets : Nat
  mem : Mem
  log : List Write
  blocks : List (Nat × Nat)

namespace State

/-- One store, which is logged. -/
def store (db : State) (w : Write) : State :=
  { db with mem := applyWrite db.mem w, log := db.log ++ [w] }

def stores (db : State) (ws : List Write) : State := ws.foldl store db

def store64 (db : State) (a v : Nat) : State := db.store (wordWrite 8 a v)

def load64 (db : State) (a : Nat) : Nat := readWord db.mem 8 a

end State

/-! ## Records -/

/-- `rec->next`. -/
def recNext (m : Mem) (a : Nat) : Nat := readWord m 8 a

/-- `rec->flags`. -/
def recFlags (m : Mem) (a : Nat) : Nat := readWord m 8 (a + 8)

/-- `rec->key_len`. -/
def recKeyLen (m : Mem) (a : Nat) : Nat := readWord m 8 (a + 16)

/-- `rec->val_len`. -/
def recValLen (m : Mem) (a : Nat) : Nat := readWord m 8 (a + 24)

/-- The first `n` bytes of `rec->data`. -/
def recData (m : Mem) (a n : Nat) : Bytes := readBytes m (a + sizeofRec) n

/-- The key of the record at `a`. -/
def recKey (m : Mem) (a : Nat) : Bytes := recData m a (recKeyLen m a)

/-- The value of the record at `a`. -/
def recVal (m : Mem) (a : Nat) : Bytes :=
  readBytes m (a + sizeofRec + recKeyLen m a) (recValLen m a)

/-- Address of `db_buckets[idx]`. -/
def State.slot (db : State) (idx : Nat) : Nat := db.dbBuckets + 8 * idx

/-- Loops over a chain are run with this much fuel: a chain without repetition in
a file of `db_size` bytes, or over the allocated blocks, is shorter. -/
def State.walkFuel (db : State) : Nat := db.dbSize + db.blocks.length + 1

/-! ## Hash table -/

/-- `calc_hash(key)`. -/
def calcHash (key : Bytes) : Nat := (dbj2aHash key).toNat % dbNumBuckets

/-- The test `!slice_cmpmem(key, rec->data, key.len)` at the record at `a`: the
first `key.len` bytes of the data, whatever the length of the stored key. -/
def keyMatch (m : Mem) (key : Slice) (a : Nat) : Bool :=
  decide (sliceCmpmem key (recData m a key.len) = 0)

/-- The loop `while (*pp)` shared by `hash_search`, `hash_put` and `hash_del`: the
address of the link that is null or leads to a matching record. -/
def chainWalk (db : State) (key : Slice) : Option Nat :=
  walk (recNext db.mem) (keyMatch db.mem key) db.walkFuel (db.slot (calcHash key.bytes))

/-- The space for a record: the end of the used part of the file, or a block from
`malloc`, whose answer is `alloc`. -/
def allocRec (db : State) (recSize : Nat) (alloc : Option Nat) : Option (Nat × State) :=
  if db.dbFile then
    let nextOffset := db.load64 hdrNextOffset
    if (nextOffset + recSize) % 2 ^ 64 > db.dbSize then none
    else
      let db := db.store64 hdrNextOffset (nextOffset + recSize)
      let db := db.store64 hdrNumRec (db.load64 hdrNumRec + 1)
      some (nextOffset, db)
  else
    match alloc with
    | none => none
    | some a => some (a, { db with blocks := (a, recSize) :: db.blocks })

/-- The stores that fill a record: its header, its key, its value. -/
def fillWrites (a : Nat) (key val : Slice) : List Write :=
  [wordWrite 8 a 0, wordWrite 8 (a + 8) 0, wordWrite 8 (a + 16) key.len,
    wordWrite 8 (a + 24) val.len] ++
    copyWrites (a + sizeofRec) key.bytes ++ copyWrites (a + sizeofRec + key.len) val.bytes

/-- `create_rec(key, val)`. -/
def createRec (db : State) (key val : Slice) (alloc : Option Nat) : Option (Nat × State) :=
  match allocRec db ((sizeofRec + key.len + val.len) % 2 ^ 64) alloc with
  | none => none
  | some (a, db) => some (a, db.stores (fillWrites a key val))

/-- `del_rec(rec)`: mark the record in the file, or free its block. -/
def delRec (db : State) (a : Nat) : State :=
  if db.dbFile then
    let db := db.store64 (a + 8) (recFlags db.mem a ||| dbRecDel)
    db.store64 hdrNumDel (db.load64 hdrNumDel + 1)
  else { db with blocks := db.blocks.filter fun b => b.1 ≠ a }

/-- `hash_del(key)`. -/
def hashDel (db : State) (key : Slice) : Option (Int × State) :=
  match chainWalk db key with
  | none => none
  | some pp =>
    let a := recNext db.mem pp
    if a = 0 then some (-1, db)
    else
      -- unchain, then delete the entry
      let db := db.store64 pp (recNext db.mem a)
      some (0, delRec db a)

/-- `hash_find(key)`: the address of the record, `none` inside for `NULL`. -/
def hashFind (db : State) (key : Slice) : Option (Option Nat) :=
  match chainWalk db key with
  | none => none
  | some pp =>
    let a := recNext db.mem pp
    some (if a = 0 then none else some a)

/-- `hash_put(key, val)`: the address of the new record, `none` inside for `NULL`. -/
def hashPut (db : State) (key val : Slice) (alloc : Option Nat) :
    Option (Option Nat × State) :=
  match chainWalk db key with
  | none => none
  | some pp =>
    let a := recNext db.mem pp
    match createRec db key val alloc with
    | none => some (none, db)
    | some (b, db) =>
      if a ≠ 0 then
        -- replace the existing entry
        let db := db.store64 b (recNext db.mem a)
        let db := db.store64 pp b
        some (some b, delRec db a)
      else
        -- new entry at the head of the bucket
        let slot := db.slot (calcHash key.bytes)
        let db := db.store64 b (db.load64 slot)
        some (some b, db.store64 slot b)

/-! ## File and memory stores -/

/-- The bytes of `htobe32(DB_MAGIC)`. -/
def magicBytes : Bytes := [0x4D, 0x59, 0x44, 0x42]

/-- `be32toh(db_hdr->magic)`. -/
def State.magic (db : State) : Nat := ofLe (readBytes db.mem hdrMagic 4).reverse

/-- The chain loop of `file_check` from the link `link`: `some true` when every
record of the chain lies inside the file, `none` when the loop does not end. The
comparisons are on 64-bit sums. -/
def fileCheckChain (m : Mem) (dbSize : Nat) : Nat → Nat → Option Bool
  | 0, _ => none
  | fuel + 1, link =>
    if link = 0 then some true
    else if (link + sizeofRec) % 2 ^ 64 > dbSize then some false
    else if (link + (sizeofRec + recKeyLen m link + recValLen m link)) % 2 ^ 64 > dbSize then
      some false
    else fileCheckChain m dbSize fuel (recNext m link)

/-- The bucket loop of `file_check` over the `n` buckets from `idx` on. -/
def fileCheckBuckets (db : State) : Nat → Nat → Option Bool
  | 0, _ => some true
  | n + 1, idx =>
    match fileCheckChain db.mem db.dbSize db.walkFuel (db.load64 (db.slot idx)) with
    | none => none
    | some false => some false
    | some true => fileCheckBuckets db n (idx + 1)

/-- `file_check()`: `0` when the file is accepted and `-1` when it is refused. -/
def fileCheck (db : State) : Option Int :=
  if db.magic ≠ dbMagic then some (-1)
  else if readWord db.mem 4 hdrVersion ≠ 1 then some (-1)
  else
    match fileCheckBuckets db dbNumBuckets 0 with
    | none => none
    | some true => some 0
    | some false => some (-1)

/-- The stores by which `file_init` sets up a new file, in program order. -/
def fileInitWrites : List Write :=
  [⟨hdrMagic, magicBytes⟩, wordWrite 4 hdrVersion 1, wordWrite 8 hdrNumRec 0,
    wordWrite 8 hdrNextOffset (sizeofHdr + tableSize)] ++
    copyWrites sizeofHdr (List.replicate tableSize 0)

/-- The state `file_init` gives a mapping with the contents `m`. -/
def fileMap (m : Mem) : State :=
  { dbFile := true, dbSize := fileSize, dbBuckets := sizeofHdr, mem := m, log := [], blocks := [] }

/-- `file_init` on a file it has just created: `m` holds the zero bytes that
`ftruncate` put into the file, and anything outside it. -/
def fileInitNew (m : Mem) : State := (fileMap m).stores fileInitWrites

/-- `hash_init()`: `calloc` returned a zeroed table at the address `table`. -/
def hashInit (m : Mem) (table : Nat) : State :=
  { dbFile := false, dbSize := 0, dbBuckets := table, mem := m, log := []
    blocks := [(table, tableSize)] }

/-! ## The interface of `db.h` -/

/-- `db_set(key, val)`; `alloc` is the answer of `malloc` in memory mode. -/
def dbSet (db : State) (key val : Slice) (alloc : Option Nat) : Option (Int × State) :=
  match hashPut db key val alloc with
  | none => none
  | some (b, db) => some (if b.isSome then 0 else dbFail, db)

/-- `db_get(key)`: the bytes of the returned slice, `none` inside for a null slice. -/
def dbGet (db : State) (key : Slice) : Option (Option Bytes) :=
  match hashFind db key with
  | none => none
  | some a => some (a.map (recVal db.mem))

/-- `db_del(key)`. -/
def dbDel (db : State) (key : Slice) : Option (Int × State) := hashDel db key

end CDbK8s.Db
