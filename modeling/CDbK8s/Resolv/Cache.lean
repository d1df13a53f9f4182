import CDbK8s.Hashmap.Keys
import CDbK8s.Lib.Block
import CDbK8s.Lib.Runs
import CDbK8s.Resolv.Result
import Mathlib.Data.List.TakeWhile

/-!
# The cache of addresses

`struct dns_cache` of `dns_resolv.c`. A name is stored in the byte store with its family in
front, and a pointer into the store is its key in a `hashmap64s`, whose values are the entries
of `addrs`. The `sock_type` of an entry holds the second at which it expires, and zero marks a
free entry.

`cache_put` copies the name without a terminator. What a stored key points to is the string up
to the next zero byte of the memory, so the bytes behind a name belong to its key as well:
names stored later, and behind the end of the store the first entry of `addrs`.

A value of the map is the index of an entry here. The map is never attached to the `buffer`
of the struct: it starts as zero bytes and allocates its buckets.
-/

namespace CDbK8s.Resolv

open Base Dns Hashmap Lib.Block List

/-! ## The memory -/

def DNS_HOSTS_MAXNAME : Nat := 256

def DNS_HOSTS_MAXADDR : Nat := 128

/-- `BUFSIZ`. -/
def DNS_HOSTS_MAXSTORE : Nat := 8192

/-- `struct dns_cache`. -/
structure Cache where
  storeLen : Nat
  numAddr : Nat
  maxAddr : Nat
  nameToaddr : Map Ptr Nat
  store : Bytes
  addrs : List SockAddr

/-- The addresses of the store and of the buffer `name` on the stack. -/
structure Place where
  store : Ptr
  name : Ptr
  store_pos : 0 < store.toNat
  store_end : store.toNat + DNS_HOSTS_MAXSTORE < 2 ^ 64 - 1
  name_ptr : StrPtr name
  apart : DNS_HOSTS_MAXSTORE ≤ (name - store).toNat

/-- The address of an offset of the store. -/
def Place.ptr (pl : Place) (off : Nat) : Ptr := pl.store + UInt64.ofNat off

/-- The static `glob_cache` after `init_cache`. -/
def initCache : Cache :=
  { storeLen := 0, numAddr := 0, maxAddr := DNS_HOSTS_MAXADDR
    nameToaddr := zeroMap (mapStr Nat 0 fun _ => ⟨[], zero_notMem_nil⟩)
    store := replicate DNS_HOSTS_MAXSTORE 0
    addrs := replicate DNS_HOSTS_MAXADDR SockAddr.zero }

def leBytes (n : Nat) : Bytes :=
  [UInt8.ofNat n, UInt8.ofNat (n / 2 ^ 8), UInt8.ofNat (n / 2 ^ 16), UInt8.ofNat (n / 2 ^ 24)]

/-- `cache->addrs[i]`. -/
def Cache.addr (c : Cache) (i : Nat) : SockAddr := c.addrs.getD i SockAddr.zero

/-- The memory behind the store, as far as a string can go: the first two fields of the first
entry. A length of an address is small, so its last bytes are zero. -/
def Cache.behind (c : Cache) : Bytes :=
  leBytes (((c.addr 0).sockType % 2 ^ 32).toNat) ++ leBytes (c.addr 0).len

theorem zero_notMem_cstr (bs : Bytes) : 0 ∉ cstr bs := by
  intro hmem
  have hne := mem_takeWhile_imp hmem
  simp at hne

/-- The C string that some bytes start with. -/
def strOf (bs : Bytes) : CString := ⟨cstr bs, zero_notMem_cstr bs⟩

/-- The string at a pointer, with `name` in the buffer on the stack and the bytes `behind` in the
memory that follows the store. -/
def strIn (pl : Place) (store behind name : Bytes) (p : Ptr) : CString :=
  if (p - pl.store).toNat < DNS_HOSTS_MAXSTORE then
    strOf (store.drop (p - pl.store).toNat ++ behind)
  else if p = pl.name then strOf name
  else strOf []

/-- The string at a pointer during a call with `name` in its buffer. -/
def Cache.strAt (c : Cache) (pl : Place) (name : Bytes) (p : Ptr) : CString :=
  strIn pl c.store c.behind name p

/-- The map of the names during a call. -/
def Cache.inst (c : Cache) (pl : Place) (name : Bytes) : Instance Ptr Nat :=
  mapStr Nat 0 (c.strAt pl name)

/-! ## The calls -/

/-- The character in front of a cached name, `4` or `6`. -/
def famChar : Fam → UInt8
  | .ip4 => 52
  | .ip6 => 54

/-- The buffer `name` up to its terminator, where the name fits it. -/
def cacheName (fam : Fam) (hostname : Bytes) : Option Bytes :=
  if hostname.length + 1 > DNS_HOSTS_MAXNAME - 1 then none
  else some (famChar fam :: hostname.map lower)

/-- `get_now_ms` at a reading of the clock, where the product of `tv_sec` wraps in `int64_t`. -/
def getNowMs (sec nsec : Nat) : Int :=
  ((sec : Int) * 1000 + nsec / 1000000 + 2 ^ 63) % 2 ^ 64 - 2 ^ 63

/-- `get_now_ms() / 1000`. -/
def nowSecs (sec nsec : Nat) : Int := (getNowMs sec nsec).tdiv 1000

/-- `DNS_TIME_GEQ(now_secs, expiry)` for the expiry in a `sock_type`. -/
def dnsTimeGeq (now : Int) (sockType : Int) : Bool :=
  0 ≤ toInt32 (now % 2 ^ 32 - sockType % 2 ^ 32)

/-- `cache_get` where `get_now_ms() / 1000` is `now`: the address or null, and the cache. -/
def cacheGet (pl : Place) (c : Cache) (fam : Fam) (hostname : Bytes) (now : Int) :
    Option (Option SockAddr × Cache) :=
  match cacheName fam hostname with
  | none => some (none, c)
  | some name =>
    match mapGet (c.inst pl name) c.nameToaddr pl.name with
    | none => none
    | some idx =>
      if idx = mapEnd c.nameToaddr then some (none, c)
      else
        let i := mapVal (c.inst pl name) c.nameToaddr idx
        if dnsTimeGeq now (c.addr i).sockType then
          match mapRem (c.inst pl name) c.nameToaddr idx with
          | none => none
          | some (_, m) =>
            some (none, { c with
              nameToaddr := m
              addrs := c.addrs.set i { c.addr i with sockType := 0 }
              numAddr := sizeSub c.numAddr 1 })
        else some (some (c.addr i), c)

/-- The end of `cache_put`: the address with its expiry goes to the entry `i`. -/
def Cache.fill (c : Cache) (i : Nat) (addr : SockAddr) (ttl : UInt32) (now : Int) : Cache :=
  { c with addrs := c.addrs.set i { addr with sockType := toInt32 (now + ttl.toNat) } }

/-- The first free address slot. -/
def Cache.freeAddr (c : Cache) : Option Nat :=
  (c.addrs.take c.maxAddr).findIdx? fun sa => sa.sockType = 0

/-- The name is copied into the store. -/
def Cache.copied (c : Cache) (name : Bytes) : Cache :=
  { c with store := blit c.store c.storeLen name }

/-- A new name and its slot are counted. -/
def Cache.added (c : Cache) (name : Bytes) (m : Map Ptr Nat) : Cache :=
  { c with
    nameToaddr := m
    storeLen := c.storeLen + name.length
    numAddr := c.numAddr + 1 }

/-- `cache_put` behind the copy of a new name to `str`. -/
def putCopied (pl : Place) (c : Cache) (name : Bytes) (str : Ptr) (addr : SockAddr)
    (ttl : UInt32) (now : Int) (callocOk : Bool) : Option (Bool × Cache) :=
  match c.freeAddr with
  | none => some (false, c)
  | some i =>
    match mapPut (c.inst pl name) c.nameToaddr str i callocOk with
    | none => none
    | some (idx, m) =>
      if idx = mapEnd m then some (false, { c with nameToaddr := m })
      else some (true, (c.added name m).fill (mapVal (c.inst pl name) m idx) addr ttl now)

/-- The part of `cache_put` for a name that is not in the map, `name` with its family. The copy
stays in the store when a later step fails. -/
def putNew (pl : Place) (c : Cache) (name : Bytes) (addr : SockAddr) (ttl : UInt32) (now : Int)
    (callocOk : Bool) : Option (Bool × Cache) :=
  if c.storeLen + name.length > DNS_HOSTS_MAXSTORE then some (false, c)
  else putCopied pl (c.copied name) name (pl.ptr c.storeLen) addr ttl now callocOk

/-- `cache_put` where `get_now_ms() / 1000` is `now`: what it returns, and the cache. -/
def cachePut (pl : Place) (c : Cache) (fam : Fam) (hostname : Bytes) (addr : SockAddr)
    (ttl : UInt32) (now : Int) (callocOk : Bool) : Option (Bool × Cache) :=
  if c.numAddr ≥ c.maxAddr then some (false, c)
  else if ttl = 0 ∨ ttl &&& 0x80000000 ≠ 0 then some (false, c)
  else
    match cacheName fam hostname with
    | none => some (false, c)
    | some name =>
      match mapGet (c.inst pl name) c.nameToaddr pl.name with
      | none => none
      | some idx =>
        if idx = mapEnd c.nameToaddr then putNew pl c name addr ttl now callocOk
        else
          some (true, c.fill (mapVal (c.inst pl name) c.nameToaddr idx) addr ttl now)

/-! ## Runs -/

/-- A host name: no zero byte, at most 253 bytes. -/
structure HostName where
  text : Bytes
  noNul : 0 ∉ text
  short : text.length ≤ 253

/-- The calls of a run, each `wait` seconds after the one before. A put carries whether
`calloc` would succeed. -/
inductive Call where
  | get (wait : Nat) (fam : Fam) (host : HostName)
  | put (wait : Nat) (fam : Fam) (host : HostName) (addr : SockAddr) (ttl : UInt32)
      (callocOk : Bool)

/-- A family and a name. -/
abbrev CacheKey := Fam × Bytes

/-- The key of a host name, in lower case. -/
def cacheKey (fam : Fam) (host : HostName) : CacheKey := (fam, host.text.map lower)

/-- The cache, the second of the last call, and for each name the address of the last
successful put with the second at which it expires. -/
structure Session where
  cache : Cache
  now : Nat
  latest : CacheKey → Option (SockAddr × Nat)

/-- A session that starts at the second `now`. -/
def Session.start (now : Nat) : Session := ⟨initCache, now, fun _ => none⟩

/-- The address of the last successful put for the name, while it has not expired; its
`sock_type` is the expiry. -/
def Session.expected (s : Session) (key : CacheKey) (now : Nat) : Option SockAddr :=
  match s.latest key with
  | none => none
  | some (addr, expiry) =>
    if now < expiry then some { addr with sockType := toInt32 expiry } else none

/-- What a call hands back, and the session after it; `none` if it never returns. -/
def Session.call (pl : Place) (s : Session) : Call → Option (Option SockAddr × Session)
  | .get wait fam host =>
    (cacheGet pl s.cache fam host.text (s.now + wait)).map fun r =>
      (r.1, { s with cache := r.2, now := s.now + wait })
  | .put wait fam host addr ttl callocOk =>
    (cachePut pl s.cache fam host.text addr ttl (s.now + wait) callocOk).map fun r =>
      (none,
        { cache := r.2
          now := s.now + wait
          latest := if r.1 then
              Function.update s.latest (cacheKey fam host) (some (addr, s.now + wait + ttl.toNat))
            else s.latest })

/-- The session after a call. -/
def Session.next (pl : Place) (s : Session) (op : Call) : Session :=
  match s.call pl op with
  | none => s
  | some r => r.2

/-- The call returns, and a get hands back what it should. -/
def Session.Coherent (pl : Place) (s : Session) : Call → Prop
  | .get wait fam host =>
    (s.call pl (.get wait fam host)).map Prod.fst =
      some (s.expected (cacheKey fam host) (s.now + wait))
  | .put wait fam host addr ttl callocOk =>
    (s.call pl (.put wait fam host addr ttl callocOk)).isSome = true

end CDbK8s.Resolv
