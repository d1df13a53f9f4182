import CDbK8s.Inet.Text
import CDbK8s.Resolv.ConfLine
import CDbK8s.Resolv.NameTable
import CDbK8s.Resolv.ReadLine

/-!
# The table of hosts

`init_hosts` loads `/etc/hosts` into a hash map from names to entries of the array `addrs`.
`hosts_add` decodes the address of a line into the first entry that is not taken, and copies it from
there to the entry of each name of the line. The first new name of the line takes that very entry,
so that from then on the address is copied from an entry that has a name.

The copies never change the entry that they are made from, nor that of a name the line does not
mention.
-/

namespace CDbK8s.Resolv

open Base Dns Hashmap List Function

variable {name : Bytes}

/-! ## The calls -/

/-- `struct dns_hosts`. A value of the map is an index of `addrs` where the code has a pointer. -/
structure Hosts where
  storeLen : Nat
  numAddr : Nat
  maxAddr : Nat
  nameToaddr : Map Ptr Nat
  store : Bytes
  addrs : List SockAddr

/-- The store of names and the map over it, as a table of names. -/
def Hosts.table (hosts : Hosts) : NameTable Nat := ⟨hosts.storeLen, hosts.store, hosts.nameToaddr⟩

/-- The hosts with another table of names. -/
def Hosts.withTable (hosts : Hosts) (t : NameTable Nat) : Hosts :=
  { hosts with storeLen := t.storeLen, store := t.store, nameToaddr := t.map }

/-- `hosts->addrs[i]`. -/
def Hosts.addr (hosts : Hosts) (i : Nat) : SockAddr := hosts.addrs.getD i SockAddr.zero

/-- Writes `hosts->addrs[i]`. -/
def Hosts.setAddr (hosts : Hosts) (i : Nat) (sa : SockAddr) : Hosts :=
  { hosts with addrs := hosts.addrs.set i sa }

/-- The bytes behind the store: the start of the first address. -/
def Hosts.behind (hosts : Hosts) : Bytes :=
  leBytes (((hosts.addr 0).sockType % 2 ^ 32).toNat) ++ leBytes (hosts.addr 0).len

/-- The buffer `name` up to its terminator, where the name fits it. -/
def hostsName (hostname : Bytes) : Option Bytes :=
  if hostname.length + 1 > DNS_HOSTS_MAXNAME then none else some (hostname.map lower)

section
variable (pl : Place)

/-- `hosts_get`: the address that the pointer points to, or null. -/
def hostsGet (hosts : Hosts) (hostname : Bytes) : Option (Option SockAddr) :=
  match hostsName hostname with
  | none => some none
  | some name =>
    match hosts.table.find 0 pl hosts.behind name with
    | none => none
    | some idx =>
      if idx = mapEnd hosts.nameToaddr then some none
      else
        let i := mapVal (hosts.table.inst 0 pl hosts.behind name) hosts.nameToaddr idx
        some (some (hosts.addr i))

/-- The end of `hosts_put`: the address at `addr` goes to the entry of the name. -/
def Hosts.update (hosts : Hosts) (name : Bytes) (idx addr : Nat) : Hosts :=
  let sa := mapVal (hosts.table.inst 0 pl hosts.behind name) hosts.nameToaddr idx
  hosts.setAddr sa (hosts.addr addr)

/-- `hosts_put` of the address at the index `addr`. -/
def hostsPut (hosts : Hosts) (hostname : Bytes) (addr : Nat) (callocOk : Bool) :
    Option (Bool × Hosts) :=
  if hosts.numAddr ≥ hosts.maxAddr then some (false, hosts)
  else
    match hostsName hostname with
    | none => some (false, hosts)
    | some name =>
      match hosts.table.find 0 pl hosts.behind name with
      | none => none
      | some idx =>
        if idx = mapEnd hosts.nameToaddr then
          match hosts.table.add 0 pl hosts.behind name hosts.numAddr callocOk with
          | none => none
          | some (none, t) => some (false, hosts.withTable t)
          | some (some idx, t) =>
            let hosts := { hosts.withTable t with numAddr := hosts.numAddr + 1 }
            some (true, hosts.update pl name idx addr)
        else some (true, hosts.update pl name idx addr)

/-- The loop of `hosts_add` over the aliases, each of which takes at least a byte. -/
def addAliases (addr : Nat) (callocOk : Bool) :
    Nat → Hosts → Bytes → Nat → Option (Nat × Hosts)
  | 0, hosts, aliases, numAdd => if aliases = [] then some (numAdd, hosts) else none
  | fuel + 1, hosts, aliases, numAdd =>
    if aliases = [] then some (numAdd, hosts)
    else
      let split := sliceSplitset aliases
      match hostsPut pl hosts split.1 addr callocOk with
      | none => none
      | some (ok, hosts) =>
        addAliases addr callocOk fuel hosts split.2 (if ok then numAdd + 1 else numAdd)

/-- `hosts_add`, with `decode` for `ipstr_decode`. -/
def hostsAdd (decode : Bytes → Option Ip) (hosts : Hosts) (ip hostname aliases : Bytes)
    (callocOk : Bool) : Option (Nat × Hosts) :=
  if hosts.numAddr ≥ DNS_HOSTS_MAXADDR then some (0, hosts)
  else
    match decode ip with
    | none => some (0, hosts)
    | some ipAddr =>
      let addr := hosts.numAddr
      match hostsPut pl (hosts.setAddr addr (sockaddrLoad ipAddr 0 0)) hostname addr callocOk with
      | none => none
      | some (false, hosts) => some (0, hosts)
      | some (true, hosts) => addAliases pl addr callocOk aliases.length hosts aliases 1

/-- The static `glob_hosts` when `init_hosts` has set its capacity. -/
def Hosts.start : Hosts :=
  { storeLen := 0, numAddr := 0, maxAddr := DNS_HOSTS_MAXADDR
    nameToaddr := zeroMap (mapStr Nat 0 fun _ => ⟨[], zero_notMem_nil⟩)
    store := replicate DNS_HOSTS_MAXSTORE 0
    addrs := replicate DNS_HOSTS_MAXADDR SockAddr.zero }

/-- What `init_hosts` does with a line. -/
def loadHosts (decode : Bytes → Option Ip) (callocOk : Bool) (hosts : Hosts) (line : Bytes) :
    Option Hosts :=
  match cutLine line with
  | none => some hosts
  | some (addr, name, aliases) =>
    (hostsAdd pl decode hosts addr name aliases callocOk).map Prod.snd

/-- `init_hosts`, for the lines that `read_line` returns. -/
def initHosts (decode : Bytes → Option Ip) (callocOk : Bool) (lines : List Bytes) : Option Hosts :=
  lines.foldlM (loadHosts pl decode callocOk) .start

end

/-! ## A file -/

/-- A line of the file: an address, a name, and the text with the aliases. -/
structure HostsLine where
  ip : Bytes
  hostname : Bytes
  aliases : Bytes
  unindented : Unindented aliases
  noNul : ∀ name ∈ hostname :: wordsOf aliases, 0 ∉ name
  short : ∀ name ∈ hostname :: wordsOf aliases, name.length ≤ 255

/-- The host name and its aliases. -/
def HostsLine.names (l : HostsLine) : List Bytes := l.hostname :: wordsOf l.aliases

/-- The line has the name, whatever the case. -/
def HostsLine.Mentions (l : HostsLine) (name : Bytes) : Prop :=
  ∃ name' ∈ l.names, name'.map lower = name.map lower

instance (l : HostsLine) (name : Bytes) : Decidable (l.Mentions name) :=
  inferInstanceAs (Decidable (∃ name' ∈ l.names, name'.map lower = name.map lower))

/-- The key of a name: in lower case, up to its first zero byte. -/
def nameKey (name : Bytes) : CString := strOf (name.map lower)

/-- The keys of some names. -/
def keysOf (names : List Bytes) : Finset CString := (names.map nameKey).toFinset

def hostKeys (lines : List HostsLine) : Finset CString := keysOf (lines.flatMap HostsLine.names)

/-- The address that a line gives a name. -/
def HostsLine.gives (decode : Bytes → Option Ip) (name : Bytes) (l : HostsLine) :
    Option SockAddr :=
  if l.Mentions name then (decode l.ip).map fun ip => sockaddrLoad ip 0 0 else none

/-- The address in the last line that has one for a name. -/
def lastAddr (decode : Bytes → Option Ip) (lines : List HostsLine) (name : Bytes) :
    Option SockAddr := lines.reverse.findSome? (HostsLine.gives decode name)

/-- Feeds the lines to `hosts_add`; no allocation fails. -/
def feedHosts (pl : Place) (decode : Bytes → Option Ip) (lines : List HostsLine) : Option Hosts :=
  lines.foldlM (fun hosts l =>
    (hostsAdd pl decode hosts l.ip l.hostname l.aliases true).map Prod.snd) .start

theorem initHosts_eq_feed (pl : Place) (decode : Bytes → Option Ip) {texts : List Bytes}
    {lines : List HostsLine}
    (h : texts.filterMap cutLine = lines.map fun l => (l.ip, l.hostname, l.aliases)) :
    initHosts pl decode true texts = feedHosts pl decode lines := by
  unfold initHosts feedHosts
  generalize Hosts.start = hosts
  induction texts generalizing lines hosts with
  | nil =>
    obtain rfl := map_eq_nil_iff.1 h.symm
    rfl
  | cons text texts ih =>
    rw [foldlM_cons, loadHosts]
    cases hcut : cutLine text with
    | none =>
      rw [filterMap_cons_none hcut] at h
      exact ih h hosts
    | some _ =>
      rw [filterMap_cons_some hcut] at h
      cases lines with
      | nil => cases h
      | cons l lines =>
        obtain ⟨hcut', hrest⟩ := List.cons.inj h
        rw [hcut', foldlM_cons]
        dsimp only
        cases (hostsAdd pl decode hosts l.ip l.hostname l.aliases true).map Prod.snd with
        | none => rfl
        | some hosts' => exact ih hrest hosts'

/-! ## What is in the table -/

/-- The table holds the names `names`, and `g` gives the addresses in their entries. -/
structure Fed (pl : Place) (hosts : Hosts) (names : Finset CString) (slot : CString → Option Nat)
    (g : CString → Option SockAddr) : Prop where
  holds : Names 0 pl hosts.table names slot
  grows : hosts.nameToaddr.isFixed = false
  numAddr : hosts.numAddr = names.card
  maxAddr : hosts.maxAddr = DNS_HOSTS_MAXADDR
  size : hosts.addrs.length = DNS_HOSTS_MAXADDR
  taken : ∀ s i, slot s = some i → i < hosts.numAddr
  apart : ∀ s s' i, slot s = some i → slot s' = some i → s = s'
  value : ∀ s, g s = (slot s).map hosts.addr

section
variable {hosts : Hosts} {i j : Nat} {sa : SockAddr}

theorem Hosts.addr_setAddr (h : i < hosts.addrs.length) : (hosts.setAddr i sa).addr i = sa := by
  rw [Hosts.addr, Hosts.setAddr, List.getD_eq_getElem?_getD, List.getElem?_set_self h]
  rfl

theorem Hosts.addr_setAddr_ne (h : i ≠ j) : (hosts.setAddr i sa).addr j = hosts.addr j := by
  rw [Hosts.addr, Hosts.setAddr, List.getD_eq_getElem?_getD, List.getElem?_set_ne h]
  rfl

theorem Hosts.addr_copy (h : i < hosts.addrs.length) :
    (hosts.setAddr i (hosts.addr j)).addr j = hosts.addr j := by
  by_cases hij : i = j
  · rw [← hij, Hosts.addr_setAddr h]
  · exact Hosts.addr_setAddr_ne hij

end

section
variable {pl : Place} {hosts : Hosts} {names : Finset CString} {slot : CString → Option Nat}
  {g : CString → Option SockAddr} {s : CString} {i : Nat}
variable (h : Fed pl hosts names slot g)
include h

theorem Fed.setAddr (hfew : names.card ≤ DNS_HOSTS_MAXADDR) (hs : slot s = some i) (sa : SockAddr) :
    Fed pl (hosts.setAddr i sa) names slot (update g s (some sa)) := by
  refine ⟨h.holds, h.grows, h.numAddr, h.maxAddr, (length_set ..).trans h.size, h.taken,
    h.apart, fun s' => ?_⟩
  have hi : i < hosts.addrs.length := by
    have hlt := h.taken s i hs
    rw [h.size]
    have hnum := h.numAddr
    omega
  by_cases hss : s' = s
  · simp [hss, hs, Hosts.addr_setAddr hi]
  · rw [update_of_ne hss, h.value s']
    cases hs' : slot s' with
    | none => rfl
    | some j =>
      have hij : i ≠ j := fun heq => hss (h.apart s' s i (heq ▸ hs') hs)
      simp [Hosts.addr_setAddr_ne hij]

theorem Fed.scratch (sa : SockAddr) : Fed pl (hosts.setAddr hosts.numAddr sa) names slot g := by
  refine ⟨h.holds, h.grows, h.numAddr, h.maxAddr, (length_set ..).trans h.size, h.taken,
    h.apart, fun s' => ?_⟩
  rw [h.value s']
  cases hs' : slot s' with
  | none => rfl
  | some j =>
    have hne : hosts.numAddr ≠ j := (ne_of_lt (h.taken s' j hs')).symm
    simp [Hosts.addr_setAddr_ne hne]

/-- The names fit into the map and the store. -/
structure HostsRoom (all : Finset CString) : Prop where
  card : all.card < DNS_HOSTS_MAXADDR
  store : ∑ s ∈ all, (s.1.length + 1) ≤ DNS_HOSTS_MAXSTORE

omit h in
theorem hostsName_short (h : name.length ≤ 255) :
    hostsName name = some (name.map lower) := if_neg (by unfold DNS_HOSTS_MAXNAME; omega)

theorem Fed.again (hfew : names.card < DNS_HOSTS_MAXADDR) {name : Bytes}
    (hshort : name.length ≤ 255) (hs : slot (nameKey name) = some i) (a : Nat) :
    hostsPut pl hosts name a true = some (true, hosts.setAddr i (hosts.addr a)) := by
  have hnum : ¬ hosts.numAddr ≥ hosts.maxAddr := by
    rw [h.numAddr, h.maxAddr]
    exact not_le.2 hfew
  obtain ⟨idx, hfind, hne, -, -, hval⟩ := h.holds.find_some hosts.behind hs
  rw [hostsPut, if_neg hnum, hostsName_short hshort]
  dsimp only
  rw [hfind]
  dsimp only
  rw [if_neg (show idx ≠ mapEnd hosts.nameToaddr from hne)]
  unfold Hosts.update
  rw [show mapVal _ hosts.nameToaddr idx = i from hval]

/-- `hosts_put` of a name that has none: it gets the first entry that is not taken. -/
theorem Fed.fresh (hnul : 0 ∉ name) (hshort : name.length ≤ 255) (hs : slot (nameKey name) = none)
    (hroom : HostsRoom (insert (nameKey name) names)) (a : Nat) :
    ∃ hosts1, hostsPut pl hosts name a true =
        some (true, hosts1.setAddr hosts.numAddr (hosts1.addr a)) ∧
      hosts1.addrs = hosts.addrs ∧
      Fed pl hosts1 (insert (nameKey name) names) (update slot (nameKey name) (some hosts.numAddr))
        (update g (nameKey name) (some (hosts.addr hosts.numAddr))) := by
  have hnotin : nameKey name ∉ names := fun hmem => (h.holds.named _).1 hmem hs
  have hcard := hroom.card
  have hstore := hroom.store
  have hkey : (nameKey name).1 = name.map lower := cstr_self (zero_notMem_lower hnul)
  have hused : hosts.storeLen = ∑ s ∈ names, (s.1.length + 1) := h.holds.used
  rw [Finset.card_insert_of_notMem hnotin] at hcard
  rw [Finset.sum_insert hnotin, hkey, ← hused, add_comm] at hstore
  have hnum : ¬ hosts.numAddr ≥ hosts.maxAddr := by
    rw [h.numAddr, h.maxAddr]
    omega
  obtain ⟨idx, t', hadd, hnew, -, hval, hlive, hfix, -⟩ := h.holds.add hosts.behind
    (zero_notMem_lower hnul) hs hstore (lt_trans (Nat.lt_of_succ_lt hcard) (by decide))
    (.inr ⟨h.grows, rfl⟩) hosts.numAddr
  refine ⟨{ hosts.withTable t' with numAddr := hosts.numAddr + 1 }, ?_, rfl, hnew,
    hfix.trans h.grows, ?_, h.maxAddr, h.size, ?_, ?_, ?_⟩
  · rw [hostsPut, if_neg hnum, hostsName_short hshort]
    dsimp only
    rw [h.holds.find_none hosts.behind hs]
    dsimp only
    rw [if_pos (show mapEnd hosts.table.map = mapEnd hosts.nameToaddr from rfl), hadd]
    dsimp only
    have hslot : mapVal (t'.inst 0 pl hosts.behind (name.map lower)) t'.map idx = hosts.numAddr := by
      rw [mapVal, if_pos hlive, hval]
    unfold Hosts.update
    rw [show mapVal _ (Hosts.nameToaddr _) idx = hosts.numAddr from hslot]
  · rw [Finset.card_insert_of_notMem hnotin, ← h.numAddr]
  · intro s j hj
    show j < hosts.numAddr + 1
    rw [update_apply] at hj
    split at hj
    · cases hj
      omega
    · have hlt := h.taken s j hj
      omega
  · intro s s' j hj hj'
    have hfree : ∀ s0, slot s0 ≠ some hosts.numAddr := fun s0 h0 =>
      lt_irrefl _ (h.taken _ _ h0)
    rw [update_apply] at hj hj'
    split at hj <;> split at hj'
    · rename_i heq heq'
      rw [heq, heq']
    · cases hj
      exact absurd hj' (hfree s')
    · cases hj'
      exact absurd hj (hfree s)
    · exact h.apart s s' j hj hj'
  · intro s
    rw [update_apply, update_apply]
    split
    · rfl
    · exact h.value s

/-- `hosts_put` gives the name the address at `a`, which it leaves there. -/
theorem Fed.put (hnul : 0 ∉ name) (hshort : name.length ≤ 255)
    (hroom : HostsRoom (insert (nameKey name) names)) (a : Nat) :
    ∃ hosts' slot', hostsPut pl hosts name a true = some (true, hosts') ∧
      Fed pl hosts' (insert (nameKey name) names) slot'
        (update g (nameKey name) (some (hosts.addr a))) ∧
      hosts'.addr a = hosts.addr a := by
  cases hs : slot _ with
  | some i =>
    have hin : nameKey name ∈ names := (h.holds.named _).2 (by rw [hs]; simp)
    rw [Finset.insert_eq_self.2 hin] at hroom ⊢
    have hi : i < hosts.addrs.length := by
      have hlt := h.taken _ i hs
      have hcard := hroom.card
      rw [h.size]
      rw [h.numAddr] at hlt
      omega
    exact ⟨_, slot, h.again hroom.card hshort hs a, h.setAddr (Nat.le_of_lt hroom.card) hs _,
      Hosts.addr_copy hi⟩
  | none =>
    obtain ⟨hosts1, hput, haddrs, hnew⟩ := h.fresh hnul hshort hs hroom a
    have hsame : ∀ j, hosts1.addr j = hosts.addr j := fun j => by
      rw [Hosts.addr, haddrs]
      rfl
    have hset := hnew.setAddr (Nat.le_of_lt hroom.card) (update_self ..) (hosts1.addr a)
    rw [update_idem, hsame a] at hset
    have hi : hosts.numAddr < hosts1.addrs.length := by
      have hlt := hnew.taken _ _ (update_self ..)
      have hcard := hroom.card
      rw [hnew.numAddr] at hlt
      rw [hnew.size]
      omega
    rw [hsame a] at hput
    exact ⟨_, _, hput, hset, by rw [← hsame a, Hosts.addr_copy hi]⟩

end

/-! ## Lines -/

/-- Gives the address `sa` to some names. -/
def assign (g : CString → Option SockAddr) (keys : Finset CString) (sa : SockAddr) :
    CString → Option SockAddr := fun s => if s ∈ keys then some sa else g s

theorem assign_cons (g : CString → Option SockAddr) (name : Bytes) (names : List Bytes)
    (sa : SockAddr) :
    assign (update g (nameKey name) (some sa)) (keysOf names) sa =
      assign g (keysOf (name :: names)) sa := by
  funext s
  have hmem : s ∈ keysOf (name :: names) ↔ s = nameKey name ∨ s ∈ keysOf names := by
    unfold keysOf
    simp
  unfold assign
  by_cases hs : s = nameKey name
  · rw [if_pos (hmem.2 (.inl hs)), hs, update_self, ite_self]
  · rw [update_of_ne hs]
    exact if_congr (hmem.trans (or_iff_right hs)).symm rfl rfl

theorem insert_union_keysOf (known : Finset CString) (name : Bytes) (names : List Bytes) :
    insert (nameKey name) known ∪ keysOf names = known ∪ keysOf (name :: names) := by
  unfold keysOf
  simp

theorem HostsRoom.mono {all part : Finset CString} (h : HostsRoom all) (hsub : part ⊆ all) :
    HostsRoom part :=
  ⟨lt_of_le_of_lt (Finset.card_le_card hsub) h.card,
    le_trans (Finset.sum_le_sum_of_subset hsub) h.store⟩

section
variable {pl : Place} {hosts : Hosts} {names : Finset CString} {slot : CString → Option Nat}
  {g : CString → Option SockAddr} {a : Nat}

theorem Fed.aliases (fuel : Nat) : ∀ {hosts names slot g} {text : Bytes} (numAdd : Nat),
    Fed pl hosts names slot g → Unindented text → text.length ≤ fuel →
    (∀ name ∈ wordsOf text, 0 ∉ name ∧ name.length ≤ 255) →
    HostsRoom (names ∪ keysOf (wordsOf text)) →
    ∃ r slot', addAliases pl a true fuel hosts text numAdd = some r ∧
      Fed pl r.2 (names ∪ keysOf (wordsOf text)) slot'
        (assign g (keysOf (wordsOf text)) (hosts.addr a)) := by
  have hdone : ∀ {hosts names slot g}, Fed pl hosts names slot g →
      Fed pl hosts (names ∪ keysOf (wordsOf [])) slot
        (assign g (keysOf (wordsOf [])) (hosts.addr a)) := by
    intro hosts names slot g h
    have hnone : keysOf (wordsOf []) = ∅ := rfl
    rw [hnone, Finset.union_empty]
    exact h
  induction fuel with
  | zero =>
    intro hosts names slot g text numAdd h _ hlen _ _
    obtain rfl := eq_nil_of_length_eq_zero (Nat.le_zero.1 hlen)
    exact ⟨_, slot, rfl, hdone h⟩
  | succ fuel ih =>
    intro hosts names slot g text numAdd h hstart hlen hwords hroom
    rw [addAliases]
    by_cases hnil : text = []
    · subst hnil
      exact ⟨_, slot, rfl, hdone h⟩
    · obtain ⟨hcut, hless⟩ := wordsOf_split hnil hstart
      rw [hcut] at hwords hroom ⊢
      rw [← insert_union_keysOf] at hroom ⊢
      obtain ⟨hnul, hshort⟩ := hwords _ mem_cons_self
      obtain ⟨hosts1, slot1, hput, h1, hkept⟩ :=
        h.put hnul hshort (hroom.mono Finset.subset_union_left) a
      have hnext : Unindented (sliceSplitset text).2 := unindented_dropWhile _
      obtain ⟨r, slot', hrun, h'⟩ := ih _ h1 hnext (by omega)
        (fun name hname => hwords name (.tail _ hname)) hroom
      rw [if_neg hnil]
      dsimp only
      rw [hput]
      rw [hkept, assign_cons] at h'
      exact ⟨r, slot', hrun, h'⟩

/-- The addresses after one more line. -/
def HostsLine.assigned (decode : Bytes → Option Ip) (l : HostsLine)
    (g : CString → Option SockAddr) : CString → Option SockAddr :=
  match decode l.ip with
  | none => g
  | some ip => assign g (keysOf l.names) (sockaddrLoad ip 0 0)

theorem Fed.add (h : Fed pl hosts names slot g) (decode : Bytes → Option Ip) (l : HostsLine)
    (hroom : HostsRoom (names ∪ keysOf l.names)) :
    ∃ r names' slot', hostsAdd pl decode hosts l.ip l.hostname l.aliases true = some r ∧
      Fed pl r.2 names' slot' (l.assigned decode g) ∧ names' ⊆ names ∪ keysOf l.names := by
  have hcard : names.card < DNS_HOSTS_MAXADDR := (hroom.mono Finset.subset_union_left).card
  have hnum : ¬ hosts.numAddr ≥ DNS_HOSTS_MAXADDR := by
    rw [h.numAddr]
    omega
  rw [hostsAdd, if_neg hnum, HostsLine.assigned]
  cases hip : decode l.ip with
  | none => exact ⟨_, names, slot, rfl, h, Finset.subset_union_left⟩
  | some ip =>
    dsimp only
    have hscratch := h.scratch (sockaddrLoad ip 0 0)
    have hloaded : (hosts.setAddr hosts.numAddr (sockaddrLoad ip 0 0)).addr hosts.numAddr =
        sockaddrLoad ip 0 0 := by
      refine Hosts.addr_setAddr ?_
      rw [h.size]
      omega
    rw [HostsLine.names, ← insert_union_keysOf] at hroom ⊢
    obtain ⟨hosts1, slot1, hput, h1, hkept⟩ := hscratch.put (l.noNul _ mem_cons_self)
      (l.short _ mem_cons_self) (hroom.mono Finset.subset_union_left) hosts.numAddr
    obtain ⟨r, slot', hrun, h'⟩ := Fed.aliases l.aliases.length 1 h1 l.unindented le_rfl
      (fun _ hname => ⟨l.noNul _ (.tail _ hname), l.short _ (.tail _ hname)⟩) hroom
    rw [hput]
    rw [hkept, hloaded, assign_cons] at h'
    exact ⟨r, _, slot', hrun, h', Finset.Subset.refl _⟩

theorem Fed.run (decode : Bytes → Option Ip) (lines : List HostsLine) :
    ∀ {hosts names slot g}, Fed pl hosts names slot g → HostsRoom (names ∪ hostKeys lines) →
      ∃ hosts' names' slot', lines.foldlM (fun hosts l =>
            (hostsAdd pl decode hosts l.ip l.hostname l.aliases true).map Prod.snd) hosts =
          some hosts' ∧
        Fed pl hosts' names' slot' (lines.foldl (fun g l => l.assigned decode g) g) := by
  induction lines with
  | nil => exact fun h _ => ⟨_, _, _, rfl, h⟩
  | cons l lines ih =>
    intro _ _ _ g h hroom
    have hkeys : hostKeys (l :: lines) = keysOf l.names ∪ hostKeys lines := by
      unfold hostKeys keysOf
      simp
    rw [hkeys, ← Finset.union_assoc] at hroom
    obtain ⟨r, names1, slot1, hadd, h1, hsub⟩ :=
      h.add decode l (hroom.mono Finset.subset_union_left)
    obtain ⟨hosts', names', slot', hrun, h'⟩ :=
      ih h1 (hroom.mono (Finset.union_subset_union_left hsub))
    refine ⟨hosts', names', slot', ?_, h'⟩
    rw [foldlM_cons, hadd]
    exact hrun

theorem fed_start (pl : Place) : Fed pl .start ∅ (fun _ => none) fun _ => none := by
  refine ⟨⟨length_replicate, rfl, zero_le, fun s => ?_, fun i hi => ?_, ?_⟩, rfl, rfl,
    rfl, length_replicate, ?_, ?_, fun s => rfl⟩
  · simp
  · exact absurd rfl hi.2
  · have hsame : ∀ str str' : Ptr → CString,
        zeroMap (mapStr Nat 0 str) = zeroMap (mapStr Nat 0 str') := fun str str' => by
      unfold zeroMap Instance.zeroEntry
      rfl
    show Holds (mapStr Nat 0 _) _ (zeroMap _) _
    rw [hsame]
    exact zeroMap_holds _ _
  · intro s i hs
    cases hs
  · intro s _ i hs
    cases hs

theorem Fed.get (h : Fed pl hosts names slot g) (hshort : name.length ≤ 255) :
    hostsGet pl hosts name = some (g (nameKey name)) := by
  rw [hostsGet, hostsName_short hshort, h.value]
  dsimp only
  cases hs : slot _ with
  | none =>
    rw [h.holds.find_none hosts.behind hs]
    exact if_pos rfl
  | some i =>
    obtain ⟨idx, hfind, hne, -, -, hval⟩ := h.holds.find_some hosts.behind hs
    rw [hfind]
    dsimp only
    rw [if_neg (show idx ≠ mapEnd hosts.nameToaddr from hne)]
    rw [show mapVal _ hosts.nameToaddr idx = i from hval]
    rfl

end

/-! ## The last line -/

theorem cstr_lower (name : Bytes) : cstr (name.map lower) = (cstr name).map lower := by
  have hzero : ∀ b : UInt8, decide (lower b ≠ 0) = decide (b ≠ 0) := by
    intro b
    by_cases hb : b = 0
    · rw [hb]
      rfl
    · rw [decide_eq_true hb, decide_eq_true (lower_ne_zero hb)]
  unfold cstr
  rw [takeWhile_map]
  exact congrArg _ (congrArg (takeWhile · name) (funext hzero))

theorem mentions_iff (l : HostsLine) (name : Bytes) :
    l.Mentions (cstr name) ↔ nameKey name ∈ keysOf l.names := by
  have hkey : (nameKey name).1 = (cstr name).map lower := cstr_lower _
  unfold keysOf
  rw [mem_toFinset, mem_map]
  refine exists_congr fun name' => and_congr_right fun hmem => ?_
  have hself : (nameKey name').1 = name'.map lower := cstr_self (zero_notMem_lower (l.noNul _ hmem))
  rw [Subtype.ext_iff, hkey, hself]

theorem assigned_last (decode : Bytes → Option Ip) (name : Bytes) (lines : List HostsLine) :
    lines.foldl (fun g l => l.assigned decode g) (fun _ => none) (nameKey name) =
      lastAddr decode lines (cstr name) := by
  induction lines using reverseRecOn with
  | nil => rfl
  | append_singleton lines l ih =>
    rw [foldl_concat, lastAddr, reverse_concat, List.findSome?_cons, ← lastAddr, ← ih,
      HostsLine.gives, HostsLine.assigned]
    cases decode l.ip with
    | none =>
      simp
    | some ip =>
      dsimp only
      rw [assign]
      by_cases hmem : nameKey name ∈ keysOf l.names
      · rw [if_pos hmem, if_pos ((mentions_iff l _).2 hmem)]
        rfl
      · rw [if_neg hmem, if_neg fun h => hmem ((mentions_iff l _).1 h)]

/-- A name has the address of the last line that mentions it and has one. A name is what a text has
in front of its first zero byte, as `hosts_get` makes a string of it. -/
theorem hosts_last_line (pl : Place) (decode : Bytes → Option Ip) (lines : List HostsLine)
    (hcard : (hostKeys lines).card ≤ 127)
    (hstore : ∑ s ∈ hostKeys lines, (s.1.length + 1) ≤ DNS_HOSTS_MAXSTORE) :
    ∃ hosts, feedHosts pl decode lines = some hosts ∧ ∀ name : Bytes, name.length ≤ 255 →
        hostsGet pl hosts name = some (lastAddr decode lines (cstr name)) := by
  have hroom : HostsRoom (∅ ∪ hostKeys lines) := by
    exact ⟨Nat.lt_succ_of_le hcard, hstore⟩
  obtain ⟨hosts, names, slot, hrun, h⟩ := (fed_start pl).run _ _ hroom
  refine ⟨hosts, hrun, fun _ hshort => ?_⟩
  rw [h.get hshort, assigned_last]

/-- The text `10.0.0.n` for the digit `n`. -/
def tenText (n : UInt8) : Bytes := [49, 48, 46, 48, 46, 48, 46, n]

/-- The lines `10.0.0.1 a b`, `? a` and `10.0.0.2 B c`. -/
def sampleHosts : List HostsLine :=
  [⟨tenText 49, [97], [98], unindented_dropWhile [98], by decide, by decide⟩,
    ⟨[63], [97], [], unindented_dropWhile [], by decide, by decide⟩,
    ⟨tenText 50, [66], [99], unindented_dropWhile [99], by decide, by decide⟩]

/-- `ipstr_decode` of an IPv4 text. -/
def sampleDecode (text : Bytes) : Option Ip :=
  let r := Inet.ip4StrDecode text
  if h : r.1 ≠ 0 ∧ r.2.length = 4 then some (.v4 ⟨r.2, h.2⟩) else none

/-- The name `b` has the address of the third line, and `a` that of the first one. -/
theorem sampleHosts_read : ∃ hosts, feedHosts samplePlace sampleDecode sampleHosts = some hosts ∧
    hostsGet samplePlace hosts [98] = some (some (sockaddrLoad (.v4 ⟨[10, 0, 0, 2], rfl⟩) 0 0)) ∧
    hostsGet samplePlace hosts [65] = some (some (sockaddrLoad (.v4 ⟨[10, 0, 0, 1], rfl⟩) 0 0)) ∧
    hostsGet samplePlace hosts [100] = some none := by
  obtain ⟨hosts, hrun, hget⟩ := hosts_last_line _ _ sampleHosts
    (by decide +kernel) (by decide +kernel)
  refine ⟨hosts, hrun, ?_, ?_, ?_⟩
  · rw [hget [98] (by decide)]
    decide +kernel
  · rw [hget [65] (by decide)]
    decide +kernel
  · rw [hget [100] (by decide)]
    decide +kernel

/-! ## The file as it is read -/

/-- `init_hosts` on a file that is read in chunks, with `n` calls of `read_line`. -/
def readHosts (pl : Place) (decode : Bytes → Option Ip) (n : Nat) (chunks : List Bytes) :
    Option Hosts :=
  (nextLines n (Sock.rwbufStatic 1024) (chunks.map .data)).bind fun rs =>
    initHosts pl decode true ((rs.takeWhile (0 < ·.1)).map Prod.snd)

theorem takeWhile_fileLines (x : Bytes) (n : Nat) :
    (fileLines x ++ replicate (n + 1) (0, [])).takeWhile (0 < ·.1) = fileLines x := by
  have hpos : ∀ r ∈ fileLines x, decide (0 < r.1) = true := by
    intro r hr
    unfold fileLines at hr
    grind [length_pos_iff]
  rw [takeWhile_append_of_pos hpos]
  simp [replicate_succ]

/-- However the reads cut a file whose lines fit the buffer: each name of it has the address of the
last of its lines that mentions the name and has one. -/
theorem hosts_file_read (pl : Place) (decode : Bytes → Option Ip) {chunks : List Bytes}
    (hchunks : ∀ c ∈ chunks, c ≠ []) (hfit : LinesFit 1024 chunks.flatten) {lines : List HostsLine}
    (hlines : ((fileLines chunks.flatten).map Prod.snd).filterMap cutLine =
      lines.map fun l => (l.ip, l.hostname, l.aliases)) (hroom : HostsRoom (hostKeys lines)) (n : Nat) :
    ∃ hosts, readHosts pl decode ((fileLines chunks.flatten).length + (n + 1)) chunks = some hosts ∧
      ∀ name : Bytes, name.length ≤ 255 →
        hostsGet pl hosts name = some (lastAddr decode lines (cstr name)) := by
  have hread := @nextLines_fit 1024 (Sock.rwbufStatic 1024) chunks chunks.flatten (by decide)
    (n + 1) ⟨rfl, Nat.le_refl 0, Nat.zero_le _, fun _ => rfl, hchunks, rfl⟩ hfit
  rw [← Finset.empty_union (hostKeys lines)] at hroom
  obtain ⟨hosts, names, slot, hrun, h⟩ := (fed_start pl).run decode lines hroom
  refine ⟨hosts, ?_, fun _ hshort => ?_⟩
  · rw [readHosts, hread, Option.bind_some, takeWhile_fileLines, initHosts_eq_feed pl decode hlines]
    exact hrun
  · rw [h.get hshort, assigned_last]

/-- The three lines in two reads. -/
theorem sampleHosts_file_read : ∃ hosts, readHosts samplePlace sampleDecode 4
      [tenText 49 ++ [32, 97, 32, 98, 10, 63, 32], [97, 10] ++ tenText 50 ++ [32, 66, 32, 99, 10]] =
        some hosts ∧
    hostsGet samplePlace hosts [98] = some (lastAddr sampleDecode sampleHosts [98]) := by
  obtain ⟨hosts, hread, hget⟩ := @hosts_file_read samplePlace sampleDecode
    [tenText 49 ++ [32, 97, 32, 98, 10, 63, 32], [97, 10] ++ tenText 50 ++ [32, 66, 32, 99, 10]]
    (by decide)
    ⟨by decide, by decide⟩ sampleHosts (by decide) ⟨by decide +kernel, by decide +kernel⟩ 0
  exact ⟨hosts, hread, hget [98] (by decide)⟩

end CDbK8s.Resolv
