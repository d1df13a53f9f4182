import CDbK8s.Resolv.ConfLine
import CDbK8s.Resolv.NameTable
import CDbK8s.Resolv.ReadLine

/-!
# The table of services

`init_services` loads `/etc/services` into a hash map from names to a word with two ports, one in
each half. The map has a fixed buffer, and a name that does not fit it is dropped.

`services_add` takes `slice_cmpmem` for a test of equality, so that a line for `tcp` is stored as
one for `udp` and the other way round. `services_put` has the port as an `int16_t`: a port from
32768 on sets all bits of the upper half when it is stored in the lower one.
-/

namespace CDbK8s.Resolv

open Base Dns Hashmap Server List Function

variable {name : Bytes}

/-! ## The calls -/

def DNS_SVC_MAXNAME : Nat := 32

def DNS_SVC_MAXPORT : Nat := 256

/-- `struct dns_services`. -/
structure Services where
  storeLen : Nat
  numSvc : Nat
  maxSvc : Nat
  nameToport : Map Ptr UInt32
  store : Bytes

/-- The store of names and the map over it, as a table of names. -/
def Services.table (svcs : Services) : NameTable UInt32 :=
  ⟨svcs.storeLen, svcs.store, svcs.nameToport⟩

/-- The services with another table of names. -/
def Services.withTable (svcs : Services) (t : NameTable UInt32) : Services :=
  { svcs with storeLen := t.storeLen, store := t.store, nameToport := t.map }

/-- The buffer `name` up to its terminator, where the name fits it. -/
def svcName (service : Bytes) : Option Bytes :=
  if service.length + 1 > DNS_SVC_MAXNAME then none else some (service.map lower)

section
variable (pl : Place)

/-- `services_get`: both ports of a service, 0 for an unknown one. -/
def servicesGet (svcs : Services) (service : Bytes) : Option UInt32 :=
  match svcName service with
  | none => some 0
  | some name =>
    match svcs.table.find 0 pl [] name with
    | none => none
    | some idx =>
      if idx = mapEnd svcs.nameToport then some 0
      else some (mapVal (svcs.table.inst 0 pl [] name) svcs.nameToport idx)

/-- A port in its half of the word. The port is promoted to an `int`, with its sign. -/
def portBits (proto : Proto) (port : Int16) : UInt32 :=
  match proto with
  | .tcp => port.toInt32.toUInt32
  | .udp => (port.toInt32 <<< 16).toUInt32

/-- The end of `services_put`: the port is or-ed into the word at `idx`. -/
def Services.setPort (svcs : Services) (name : Bytes) (idx : Nat) (proto : Proto) (port : Int16) :
    Services :=
  let T := svcs.table.inst 0 pl [] name
  let val := mapVal T svcs.nameToport idx ||| portBits proto port
  { svcs with nameToport := (mapSet T svcs.nameToport idx val).2 }

/-- `services_put`. The map never allocates. -/
def servicesPut (svcs : Services) (service : Bytes) (proto : Proto) (port : Int16) :
    Option (Bool × Services) :=
  match svcName service with
  | none => some (false, svcs)
  | some name =>
    match svcs.table.find 0 pl [] name with
    | none => none
    | some idx =>
      if idx = mapEnd svcs.nameToport then
        match svcs.table.add 0 pl [] name 0 true with
        | none => none
        | some (none, t) => some (false, svcs.withTable t)
        | some (some idx, t) =>
          let svcs := { svcs.withTable t with numSvc := svcs.numSvc + 1 }
          some (true, svcs.setPort pl name idx proto port)
      else some (true, svcs.setPort pl name idx proto port)

/-- `"tcp"` and `"udp"`. -/
def Proto.text : Proto → Bytes
  | .tcp => [116, 99, 112]
  | .udp => [117, 100, 112]

/-- The protocol that `services_add` takes a text for. -/
def ptypeOf (pp : Bytes) : Option Proto :=
  let ptype := none
  let ptype := if strCmp pp Proto.tcp.text ≠ 0 then some .tcp else ptype
  if strCmp pp Proto.udp.text ≠ 0 then some .udp else ptype

/-- `services_add`. The aliases of a line are not used. -/
def servicesAdd (svcs : Services) (name pp : Bytes) : Option (Bool × Services) :=
  if svcs.numSvc ≥ svcs.maxSvc then some (false, svcs)
  else
    let split := sliceSplitch pp 47
    let port := (sliceTou32 split.1).toUInt16
    match ptypeOf split.2 with
    | none => some (false, svcs)
    | some proto =>
      if port = 0 then some (false, svcs) else servicesPut pl svcs name proto port.toInt16

/-- The static `glob_svcs`, with its buffer attached. -/
def Services.start : Services :=
  { storeLen := 0, numSvc := 0, maxSvc := DNS_SVC_MAXPORT
    nameToport := (mapAttach (zeroMap (mapStr UInt32 0 fun _ => ⟨[], zero_notMem_nil⟩))
      (fun _ => ⟨0, 0⟩) DNS_SVC_MAXPORT).2
    store := replicate DNS_HOSTS_MAXSTORE 0 }

/-- What `init_services` does with a line. -/
def loadService (svcs : Services) (line : Bytes) : Option Services :=
  match cutLine line with
  | none => some svcs
  | some (name, pp, _) => (servicesAdd pl svcs name pp).map Prod.snd

/-- `init_services`, for the results of the reads of the file; the loop makes at most `n` calls of
`read_line`. -/
def initServices (n : Nat) (reads : List Sock.ReadResult) : Option Services :=
  (loopLines n (Sock.rwbufStatic 1024) reads).bind fun lines => lines.foldlM (loadService pl) .start

end

/-! ## A file -/

def decimal (digits : Bytes) : Nat := digits.foldl (fun n ch => 10 * n + (ch.toNat - 48)) 0

/-- A line `name port/protocol`, with white space in front, and aliases or a comment behind. -/
structure ServiceLine where
  lead : Bytes
  name : Bytes
  gap : Bytes
  digits : Bytes
  proto : Proto
  rest : Bytes
  lead_white : ∀ ch ∈ lead, isWhite ch = true
  name_word : IsWord name
  name_text : 0 ∉ name
  gap_nonempty : gap ≠ []
  gap_blank : ∀ ch ∈ gap, isBlank ch = true
  digits_numeral : ∀ ch ∈ digits, isNumeral ch = true
  port_pos : 1 ≤ decimal digits
  port_le : decimal digits ≤ 65535
  rest_trails : Trails rest

def ServiceLine.port (l : ServiceLine) : Nat := decimal l.digits

/-- The line as it stands in the file. -/
def ServiceLine.text (l : ServiceLine) : Bytes :=
  l.lead ++ l.name ++ l.gap ++ (l.digits ++ 47 :: l.proto.text) ++ l.rest

def ServiceLine.key (l : ServiceLine) : CString := strOf (l.name.map lower)

/-- The port that the file declares for a name, or 0. -/
def declared (lines : List ServiceLine) (proto : Proto) (name : Bytes) : Nat :=
  match lines.find? fun l => l.proto = proto ∧ l.name.map lower = name.map lower with
  | none => 0
  | some l => l.port

/-- No name is declared twice for a protocol. -/
def Once (lines : List ServiceLine) : Prop :=
  lines.Pairwise fun l l' => l.proto = l'.proto → l.name.map lower ≠ l'.name.map lower

/-- The chunks of a file that has these lines, with blank lines and comments between them. -/
structure FileOf (chunks : List Bytes) (lines : List ServiceLine) : Prop where
  nonempty : ∀ c ∈ chunks, c ≠ []
  texts : ((fileLines chunks.flatten).map Prod.snd).filter (fun l => (cutLine l).isSome) =
    lines.map ServiceLine.text
  once : Once lines

/-- The table that is loaded from the chunks gives every name its two ports. -/
def LoadsRight (pl : Place) (n : Nat) (chunks : List Bytes) (lines : List ServiceLine) : Prop :=
  ∃ svcs, initServices pl n (chunks.map .data) = some svcs ∧
    ∀ name, 0 ∉ name → ∃ val, servicesGet pl svcs name = some val ∧
      val.toNat % 2 ^ 16 = declared lines .tcp name ∧
      val.toNat / 2 ^ 16 = declared lines .udp name

/-! ## One line -/

/-- The other protocol, under which the code stores a port. -/
def Proto.other : Proto → Proto
  | .tcp => .udp
  | .udp => .tcp

theorem ptypeOf_text (proto : Proto) : ptypeOf proto.text = some proto.other := by
  cases proto <;> decide

theorem isNumeral_facts {ch : UInt8} (h : isNumeral ch = true) :
    isWhite ch = false ∧ ch ≠ 35 ∧ ch ≠ 47 := by
  have hall : ∀ n : Fin 256, isNumeral (UInt8.ofNat n) = true →
      isWhite (UInt8.ofNat n) = false ∧ UInt8.ofNat n ≠ 35 ∧ UInt8.ofNat n ≠ 47 := by
    decide +kernel
  have hch := hall ⟨ch.toNat, ch.toNat_lt⟩
  rw [UInt8.ofNat_toNat] at hch
  exact hch h

theorem sliceTou32_numeral {digits : Bytes} (h : ∀ ch ∈ digits, isNumeral ch = true) :
    (sliceTou32 digits).toNat = decimal digits % 2 ^ 32 := by
  have hfold : ∀ (ds : Bytes) (val : UInt32) (n : Nat), val.toNat = n % 2 ^ 32 →
      (ds.foldl (fun (val : UInt32) (ch : UInt8) =>
          (val <<< 3) + (val <<< 1) + UInt32.ofNat (ch.toNat - 48)) val).toNat =
        ds.foldl (fun n ch => 10 * n + (ch.toNat - 48)) n % 2 ^ 32 := by
    intro ds
    induction ds with
    | nil => exact fun val n hval => hval
    | cons d ds ih =>
      intro val n hval
      refine ih _ _ ?_
      have hd : d.toNat - 48 < 2 ^ 32 := lt_of_le_of_lt (Nat.sub_le _ _)
        (lt_trans d.toNat_lt (by decide))
      have h3 : (val <<< 3).toNat = val.toNat * 8 % 2 ^ 32 := by
        simp [Nat.shiftLeft_eq]
      have h1 : (val <<< 1).toNat = val.toNat * 2 % 2 ^ 32 := by
        simp [Nat.shiftLeft_eq]
      rw [UInt32.toNat_add, UInt32.toNat_add, UInt32.toNat_ofNat_of_lt' hd]
      dsimp only
      omega
  rw [sliceTou32, takeWhile_eq_self_iff.2 h]
  exact hfold digits 0 0 rfl

/-- The port as `services_put` is given it. -/
def port16 (port : Nat) : Int16 := (UInt16.ofNat port).toInt16

section
variable (l : ServiceLine)

theorem ServiceLine.split : sliceSplitch (l.digits ++ 47 :: l.proto.text) 47 =
    (l.digits, l.proto.text) := by
  have hnone : 47 ∉ l.digits := fun hmem => (isNumeral_facts (l.digits_numeral 47 hmem)).2.2 rfl
  have hidx : (l.digits ++ 47 :: l.proto.text).idxOf 47 = l.digits.length := by
    simp [idxOf_append_of_notMem hnone]
  rw [sliceSplitch, hidx]
  simp

theorem ServiceLine.cut : ∃ more,
    cutLine l.text = some (l.name, l.digits ++ 47 :: l.proto.text, more) := by
  have hword : IsWord (l.digits ++ 47 :: l.proto.text) := by
    refine ⟨by simp, fun ch hch => ?_⟩
    rcases mem_append.1 hch with hdigit | hproto
    · have hfacts := isNumeral_facts (l.digits_numeral ch hdigit)
      exact ⟨hfacts.1, hfacts.2.1⟩
    · have hall : ∀ proto : Proto, ∀ ch ∈ 47 :: proto.text, isWhite ch = false ∧ ch ≠ 35 := by
        intro proto
        cases proto <;> exact forall_mem_of_all (by decide)
      exact hall l.proto ch hproto
  exact ⟨_, cutLine_words l.lead_white l.name_word l.gap_nonempty l.gap_blank hword l.rest_trails⟩

theorem loadService_text (pl : Place) {svcs : Services} (h : svcs.numSvc < svcs.maxSvc) :
    loadService pl svcs l.text =
      (servicesPut pl svcs l.name l.proto.other (port16 l.port)).map Prod.snd := by
  obtain ⟨more, hcut⟩ := l.cut
  have hport : (sliceTou32 l.digits).toUInt16 = UInt16.ofNat l.port := by
    have hnat := sliceTou32_numeral l.digits_numeral
    have hle := l.port_le
    rw [Nat.mod_eq_of_lt (by omega)] at hnat
    refine UInt16.toNat_inj.1 ?_
    rw [UInt32.toNat_toUInt16, hnat]
    rfl
  have hne : UInt16.ofNat l.port ≠ 0 := by
    intro hzero
    have hnat := congrArg UInt16.toNat hzero
    have hpos := l.port_pos
    have hle := l.port_le
    unfold ServiceLine.port at hnat
    simp at hnat
    omega
  unfold loadService
  rw [hcut]
  dsimp only
  rw [servicesAdd, if_neg (not_le.2 h)]
  dsimp only
  rw [l.split, ptypeOf_text]
  dsimp only
  rw [hport, if_neg hne]
  rfl

end

/-! ## What is loaded -/

theorem ServiceLine.key_val (l : ServiceLine) : l.key.1 = l.name.map lower :=
  cstr_self (zero_notMem_lower l.name_text)

/-- The name is short enough to be stored. -/
def ServiceLine.short (l : ServiceLine) : Bool := l.name.length < DNS_SVC_MAXNAME

/-- The bits that a line sets. -/
def ServiceLine.mark (l : ServiceLine) : UInt32 := portBits l.proto.other (port16 l.port)

/-- The names that could be in the table, and what they have there, as far as there is room. -/
def svcKeys (lines : List ServiceLine) : Finset CString :=
  ((lines.filter ServiceLine.short).map ServiceLine.key).toFinset

/-- The ports after one more line. -/
def marked (f : CString → Option UInt32) (l : ServiceLine) : CString → Option UInt32 :=
  if l.short then update f l.key (some ((f l.key).getD 0 ||| l.mark)) else f

/-- The ports after some lines. -/
def contentsOf (lines : List ServiceLine) : CString → Option UInt32 :=
  lines.foldl marked fun _ => none

/-- The number of names that the map has room for. -/
def svcRoom : Nat := 192

/-- The table after the lines `done`. -/
structure Loaded (pl : Place) (done : List ServiceLine) (svcs : Services)
    (names : Finset CString) (f : CString → Option UInt32) : Prop where
  holds : Names 0 pl svcs.table names f
  fixed : svcs.nameToport.isFixed = true
  threshold : svcs.nameToport.threshold = svcRoom
  numSvc : svcs.numSvc = names.card
  maxSvc : svcs.maxSvc = DNS_SVC_MAXPORT
  known : names ⊆ svcKeys done
  exact : (svcKeys done).card ≤ svcRoom → f = contentsOf done

theorem svcKeys_concat (done : List ServiceLine) (l : ServiceLine) :
    svcKeys (done ++ [l]) = if l.short then insert l.key (svcKeys done) else svcKeys done := by
  unfold svcKeys
  rw [filter_append]
  cases hshort : l.short with
  | true =>
    rw [filter_singleton, hshort]
    ext s
    simp
  | false =>
    rw [filter_singleton, hshort]
    simp

theorem contentsOf_concat (done : List ServiceLine) (l : ServiceLine) :
    contentsOf (done ++ [l]) = marked (contentsOf done) l := foldl_concat ..

section
variable {pl : Place} {done : List ServiceLine} {svcs : Services} {names : Finset CString}
  {f : CString → Option UInt32}

section
variable (h : Loaded pl done svcs names f)
include h

theorem Loaded.card_le : names.card ≤ svcRoom := by
  have hsize := h.holds.now.size_le
  have hcard := h.holds.card
  have hthr := h.threshold
  change svcs.nameToport.size = names.card at hcard
  change svcs.nameToport.size ≤ svcs.nameToport.threshold at hsize
  omega

theorem Loaded.numSvc_lt : svcs.numSvc < svcs.maxSvc := by
  rw [h.numSvc, h.maxSvc]
  exact lt_of_le_of_lt h.card_le (by decide)

omit h in
theorem svcName_short (h : name.length < DNS_SVC_MAXNAME) :
    svcName name = some (name.map lower) := if_neg (not_lt.2 h)

theorem Loaded.room {len : Nat} (hlen : len < DNS_SVC_MAXNAME) :
    svcs.storeLen + (len + 1) ≤ DNS_HOSTS_MAXSTORE := by
  have hused : svcs.storeLen = ∑ s ∈ names, (s.1.length + 1) := h.holds.used
  have hshort : ∀ s ∈ names, s.1.length + 1 ≤ 32 := by
    intro s hs
    have hmem := h.known hs
    unfold svcKeys at hmem
    rw [mem_toFinset, mem_map] at hmem
    obtain ⟨l, hl, rfl⟩ := hmem
    have hl' := (mem_filter.1 hl).2
    have hlt : l.name.length < 32 := of_decide_eq_true hl'
    simp [l.key_val]
    omega
  have hsum := Finset.sum_le_card_nsmul names (fun s => s.1.length + 1) 32 hshort
  have hcard := h.card_le
  unfold svcRoom at hcard
  unfold DNS_SVC_MAXNAME at hlen
  unfold DNS_HOSTS_MAXSTORE
  simp at hsum
  omega

omit h in
theorem Loaded.setPort (h : Names 0 pl svcs.table names f) {idx : Nat}
    (hlive : svcs.nameToport.Live (svcs.table.inst 0 pl [] name) idx) {s : CString}
    (hkey : strIn pl svcs.store [] name (svcs.nameToport.buckets idx).key = s) (proto : Proto)
    (port : Int16) {v : UInt32} (hval : (svcs.nameToport.buckets idx).val = v) :
    Names 0 pl (svcs.setPort pl name idx proto port).table names
        (update f s (some (v ||| portBits proto port))) ∧
      (svcs.setPort pl name idx proto port).nameToport.isFixed = svcs.nameToport.isFixed ∧
      (svcs.setPort pl name idx proto port).nameToport.threshold = svcs.nameToport.threshold := by
  have hword : mapVal (svcs.table.inst 0 pl [] name) svcs.nameToport idx = v := by
    rw [mapVal, if_pos hlive, hval]
  have hset := h.set [] name hlive hkey (v ||| portBits proto port)
  unfold Services.setPort
  dsimp only
  rw [hword]
  exact hset

theorem Loaded.again {l : ServiceLine} (hshort : l.short = true) {v : UInt32}
    (hf : f l.key = some v) :
    ∃ svcs', loadService pl svcs l.text = some svcs' ∧
      Loaded pl (done ++ [l]) svcs' names (update f l.key (some (v ||| l.mark))) := by
  obtain ⟨idx, hfind, hne, hlive, hkey, hval⟩ := h.holds.find_some [] hf
  have hbucket : (svcs.nameToport.buckets idx).val = v := by
    rw [mapVal, if_pos hlive] at hval
    exact hval
  obtain ⟨hnew, hfix, hthr⟩ := Loaded.setPort h.holds hlive hkey l.proto.other _ hbucket
  refine ⟨svcs.setPort pl _ idx _ _, ?_, hnew,
    hfix.trans h.fixed, hthr.trans h.threshold, h.numSvc, h.maxSvc, ?_, fun hroom => ?_⟩
  · rw [loadService_text l pl h.numSvc_lt, servicesPut, svcName_short (of_decide_eq_true hshort)]
    dsimp only
    rw [hfind]
    dsimp only
    rw [if_neg (show idx ≠ mapEnd svcs.nameToport from hne)]
    rfl
  · rw [svcKeys_concat, if_pos hshort]
    exact h.known.trans (Finset.subset_insert _ _)
  · have hmem : l.key ∈ svcKeys done := h.known ((h.holds.named _).2 (by rw [hf]; simp))
    rw [svcKeys_concat, if_pos hshort, Finset.insert_eq_self.2 hmem] at hroom
    rw [contentsOf_concat, marked, if_pos hshort, ← h.exact hroom, hf]
    rfl

theorem Loaded.fresh {l : ServiceLine} (hshort : l.short = true) (hf : f l.key = none) :
    ∃ svcs' names' f', loadService pl svcs l.text = some svcs' ∧
      Loaded pl (done ++ [l]) svcs' names' f' := by
  have hlt : l.name.length < DNS_SVC_MAXNAME := of_decide_eq_true hshort
  have hnotin : l.key ∉ names := fun hmem => (h.holds.named _).1 hmem hf
  have hsize : svcs.nameToport.size = names.card := h.holds.card
  have hroom : svcs.storeLen + ((l.name.map lower).length + 1) ≤ DNS_HOSTS_MAXSTORE := by
    rw [length_map]
    exact h.room hlt
  have hknown : insert l.key names ⊆ svcKeys (done ++ [l]) := by
    rw [svcKeys_concat, if_pos hshort]
    exact Finset.insert_subset_insert _ h.known
  have hput : loadService pl svcs l.text = match svcs.table.add 0 pl [] (l.name.map lower) 0 true with
      | none => none
      | some (none, t) => some (svcs.withTable t)
      | some (some idx, t) =>
        some ({ svcs.withTable t with numSvc := svcs.numSvc + 1 }.setPort pl (l.name.map lower) idx
          l.proto.other (port16 l.port)) := by
    rw [loadService_text l pl h.numSvc_lt, servicesPut, svcName_short hlt]
    dsimp only
    rw [h.holds.find_none [] hf]
    dsimp only
    rw [if_pos (show mapEnd svcs.table.map = mapEnd svcs.nameToport from rfl)]
    split <;> rfl
  rcases Nat.lt_or_ge _ _ with hfew | hfull
  · have hlow : svcs.nameToport.size < svcs.nameToport.threshold := by
      rw [hsize, h.threshold]
      exact hfew
    obtain ⟨idx, t', hadd, hnew, hkey, hval, hlive, hfix, hthr⟩ := h.holds.add []
      (zero_notMem_lower l.name_text) hf hroom (lt_of_lt_of_le hfew (by decide))
      (.inl hlow) 0
    let svcs1 : Services := { svcs.withTable t' with numSvc := svcs.numSvc + 1 }
    change Names 0 pl svcs1.table (insert l.key names) (update f l.key (some 0)) at hnew
    change _ = l.key at hkey
    obtain ⟨hset, hfix', hthr'⟩ := Loaded.setPort hnew hlive hkey l.proto.other _ hval
    refine ⟨_, _, _, by rw [hput, hadd], hset, ?_, ?_, ?_, h.maxSvc, hknown, fun hle => ?_⟩
    · exact hfix'.trans (hfix.trans h.fixed)
    · exact hthr'.trans ((hthr hlow).trans h.threshold)
    · rw [Finset.card_insert_of_notMem hnotin, ← h.numSvc]
      rfl
    · have hsub : (svcKeys done).card ≤ svcRoom := by
        refine le_trans (Finset.card_le_card ?_) hle
        rw [svcKeys_concat, if_pos hshort]
        exact Finset.subset_insert _ _
      rw [contentsOf_concat, marked, if_pos hshort, ← h.exact hsub, hf, update_idem]
      rfl
  · obtain ⟨t', hadd, hnew, hmap⟩ := h.holds.add_full [] hroom (by
        show svcs.nameToport.threshold ≤ svcs.nameToport.size
        rw [hsize, h.threshold]
        exact hfull) h.fixed 0 true
    refine ⟨svcs.withTable t', names, f, by rw [hput, hadd], hnew, ?_, ?_, h.numSvc, h.maxSvc,
      (Finset.subset_insert _ _).trans hknown, fun hle => ?_⟩
    · show t'.map.isFixed = true
      rw [hmap]
      exact h.fixed
    · show t'.map.threshold = svcRoom
      rw [hmap]
      exact h.threshold
    · -- one name more than there is room for
      have hcard' := Finset.card_le_card hknown
      rw [Finset.card_insert_of_notMem hnotin] at hcard'
      omega

theorem Loaded.step (l : ServiceLine) : ∃ svcs' names' f', loadService pl svcs l.text = some svcs' ∧
      Loaded pl (done ++ [l]) svcs' names' f' := by
  cases hshort : l.short with
  | true =>
    cases hf : f l.key with
    | none => exact h.fresh hshort hf
    | some v =>
      obtain ⟨svcs', hload, hnew⟩ := h.again hshort hf
      exact ⟨svcs', _, _, hload, hnew⟩
  | false =>
    have hlong : ¬ l.name.length < DNS_SVC_MAXNAME := of_decide_eq_false hshort
    have hname : svcName l.name = none := if_pos (by omega)
    refine ⟨svcs, names, f, ?_, h.holds, h.fixed, h.threshold, h.numSvc, h.maxSvc, ?_, fun hle => ?_⟩
    · rw [loadService_text l pl h.numSvc_lt, servicesPut, hname]
      rfl
    · rw [svcKeys_concat, hshort]
      exact h.known
    · rw [svcKeys_concat, hshort] at hle
      rw [contentsOf_concat, marked, hshort]
      exact h.exact hle

end

theorem Loaded.run (rest : List ServiceLine) : ∀ {done svcs names f}, Loaded pl done svcs names f →
      ∃ svcs' names' f', (rest.map ServiceLine.text).foldlM (loadService pl) svcs = some svcs' ∧
        Loaded pl (done ++ rest) svcs' names' f' := by
  induction rest with
  | nil =>
    intro done svcs names f h
    exact ⟨svcs, names, f, rfl, by rwa [append_nil]⟩
  | cons l rest ih =>
    intro done svcs names f h
    obtain ⟨svcs1, names1, f1, hload, h₁⟩ := h.step l
    obtain ⟨svcs', names', f', hrun, h'⟩ := ih h₁
    refine ⟨svcs', names', f', ?_, ?_⟩
    · rw [map_cons, foldlM_cons, hload]
      exact hrun
    · rwa [append_assoc, singleton_append] at h'

theorem loaded_start (pl : Place) : Loaded pl [] .start ∅ fun _ => none := by
  have hattach := mapAttach_spec (mapStr _ 0 (strIn pl Services.start.store [] []))
    (strIn pl Services.start.store [] [])
    (zeroMap (mapStr UInt32 0 fun _ => ⟨[], zero_notMem_nil⟩)) (b := 8) (by decide) (by decide)
  obtain ⟨m, hm, hholds⟩ := hattach
  have hmap : Services.start.nameToport = m := congrArg Prod.snd hm
  refine ⟨⟨length_replicate, rfl, zero_le, fun s => ?_, fun i hi => ?_, ?_⟩, rfl, rfl, rfl,
    rfl, Finset.Subset.refl _, fun _ => rfl⟩
  · simp
  · exact absurd rfl hi.2
  · show Holds _ _ Services.start.nameToport _
    rw [hmap]
    exact hholds

theorem Loaded.get (h : Loaded pl done svcs names f) (hshort : name.length < DNS_SVC_MAXNAME) :
    servicesGet pl svcs name = some ((f (strOf (name.map lower))).getD 0) := by
  rw [servicesGet, svcName_short hshort]
  dsimp only
  cases hf : f _ with
  | none =>
    rw [h.holds.find_none [] hf]
    exact if_pos rfl
  | some v =>
    obtain ⟨idx, hfind, hne, -, -, hval⟩ := h.holds.find_some [] hf
    rw [hfind]
    dsimp only
    rw [if_neg (show idx ≠ mapEnd svcs.nameToport from hne)]
    exact congrArg some hval

theorem servicesGet_long (pl : Place) (svcs : Services) (hlong : DNS_SVC_MAXNAME ≤ name.length) :
    servicesGet pl svcs name = some 0 := by
  have hname : svcName name = none := if_pos (by omega)
  rw [servicesGet, hname]

end

/-! ## The word of a name -/

section
variable {port : Nat}

/-- The upper half of a port that is promoted to an `int`. -/
def signHalf (port : Nat) : Nat := if port < 2 ^ 15 then 0 else 65535

theorem toNat_portBits_tcp (h : port < 2 ^ 16) :
    (portBits .tcp (port16 port)).toNat = signHalf port * 2 ^ 16 + port := by
  have hbits : (portBits .tcp (port16 port)).toNat =
      ((BitVec.ofNat 16 port).signExtend 32).toNat := rfl
  rw [hbits, BitVec.toNat_signExtend, BitVec.toNat_setWidth,
    BitVec.msb_eq_decide, BitVec.toNat_ofNat]
  unfold signHalf
  by_cases hlow : port < 2 ^ 15
  · rw [if_pos hlow, decide_eq_false (by omega), if_neg (by decide)]
    omega
  · rw [if_neg hlow, decide_eq_true (by omega), if_pos rfl]
    omega

theorem toNat_portBits_udp (h : port < 2 ^ 16) :
    (portBits .udp (port16 port)).toNat = port * 2 ^ 16 := by
  have hbits : (portBits .udp (port16 port)).toNat =
      ((portBits .tcp (port16 port)).toNat <<< 16) % 2 ^ 32 := BitVec.toNat_shiftLeft
  rw [hbits, toNat_portBits_tcp h]
  unfold signHalf
  split <;> omega

theorem or_ones {n : Nat} (h : n < 2 ^ 16) : n ||| 65535 = 65535 := by
  refine Nat.eq_of_testBit_eq fun i => ?_
  have hones : Nat.testBit 65535 i = decide (i < 16) := Nat.testBit_two_pow_sub_one 16 i
  rw [Nat.testBit_or, hones]
  by_cases hi : i < 16
  · simp [decide_eq_true hi]
  · have hle : 2 ^ 16 ≤ 2 ^ i := Nat.pow_le_pow_right (by decide) (not_lt.1 hi)
    simp [Nat.testBit_lt_two_pow (lt_of_lt_of_le h hle)]

theorem word_halves {tcp udp : Nat} (htcp : tcp < 2 ^ 16) (hudp : udp < 2 ^ 16) :
    (portBits .udp (port16 tcp) ||| portBits .tcp (port16 udp)).toNat % 2 ^ 16 = udp ∧
      (portBits .udp (port16 tcp) ||| portBits .tcp (port16 udp)).toNat / 2 ^ 16 =
        if udp < 2 ^ 15 then tcp else 65535 := by
  have hlow : tcp * 2 ^ 16 % 2 ^ 16 = 0 := Nat.mul_mod_left _ _
  have hhigh : tcp * 2 ^ 16 / 2 ^ 16 = tcp := Nat.mul_div_cancel _ (by decide)
  have hlow' : (signHalf udp * 2 ^ 16 + udp) % 2 ^ 16 = udp := by
    rw [mul_comm, Nat.mul_add_mod, Nat.mod_eq_of_lt hudp]
  have hhigh' : (signHalf udp * 2 ^ 16 + udp) / 2 ^ 16 = signHalf udp := by
    rw [mul_comm, Nat.mul_add_div (by decide), Nat.div_eq_of_lt hudp, add_zero]
  rw [UInt32.toNat_or, toNat_portBits_udp htcp, toNat_portBits_tcp hudp, Nat.or_mod_two_pow,
    Nat.or_div_two_pow, hlow, hhigh, hlow', hhigh', Nat.zero_or]
  refine ⟨rfl, ?_⟩
  unfold signHalf
  split
  · exact Nat.or_zero _
  · exact or_ones htcp

end

/-- All bits that some lines set for a service. -/
def marks (s : CString) : List ServiceLine → UInt32
  | [] => 0
  | l :: ls => (if l.short ∧ l.key = s then l.mark else 0) ||| marks s ls

theorem portBits_zero (proto : Proto) : portBits proto (port16 0) = 0 := by
  cases proto <;> decide

theorem foldl_marked (s : CString) (lines : List ServiceLine) :
    ∀ f, ((lines.foldl marked f) s).getD 0 = (f s).getD 0 ||| marks s lines := by
  induction lines with
  | nil => exact fun f => UInt32.or_zero.symm
  | cons l ls ih =>
    intro f
    rw [foldl_cons, ih, marks, ← UInt32.or_assoc]
    refine congrArg (· ||| marks s ls) ?_
    unfold marked
    by_cases hshort : l.short = true
    · by_cases hkey : l.key = s
      · rw [if_pos hshort, if_pos ⟨hshort, hkey⟩, hkey, update_self]
        rfl
      · rw [if_pos hshort, if_neg (fun h => hkey h.2), update_of_ne (Ne.symm hkey), UInt32.or_zero]
    · rw [if_neg hshort, if_neg (fun h => hshort h.1), UInt32.or_zero]

theorem declared_cons (l : ServiceLine) (ls : List ServiceLine) (proto : Proto) (name : Bytes) :
    declared (l :: ls) proto name =
      if l.proto = proto ∧ l.name.map lower = name.map lower then l.port
      else declared ls proto name := by
  unfold declared
  rw [List.find?_cons]
  by_cases h : l.proto = proto ∧ l.name.map lower = name.map lower
  · rw [decide_eq_true h, if_pos h]
  · rw [decide_eq_false h, if_neg h]

theorem declared_eq_zero {lines : List ServiceLine} {proto : Proto}
    (h : ∀ l ∈ lines, l.proto = proto → l.name.map lower ≠ name.map lower) :
    declared lines proto name = 0 := by
  have hnone : lines.find? (fun l => l.proto = proto ∧ l.name.map lower = name.map lower) = none :=
    List.find?_eq_none.2 fun l hl hmatch =>
      h l hl (of_decide_eq_true hmatch).1 (of_decide_eq_true hmatch).2
  rw [declared, hnone]

/-- With no name declared twice, the bits of a name are those of its two ports. -/
theorem marks_eq (hnul : 0 ∉ name) (hshort : name.length < DNS_SVC_MAXNAME)
    (lines : List ServiceLine) (hone : Once lines) :
    marks (strOf (name.map lower)) lines = portBits .udp (port16 (declared lines .tcp name)) |||
        portBits .tcp (port16 (declared lines .udp name)) := by
  induction lines with
  | nil =>
    have hnone : ∀ proto, declared [] proto name = 0 := fun _ => rfl
    rw [hnone, hnone]
    rfl
  | cons l ls ih =>
    obtain ⟨hl, hls⟩ := pairwise_cons.1 hone
    rw [marks, ih hls, declared_cons, declared_cons]
    by_cases hname : l.name.map lower = name.map lower
    · have hkey : l.key = strOf (name.map lower) := by rw [ServiceLine.key, hname]
      have hlen : l.short = true := by
        have hlen := congrArg List.length hname
        rw [length_map, length_map] at hlen
        exact decide_eq_true (by omega)
      have hother : declared ls l.proto name = 0 :=
        declared_eq_zero fun l' hl' hproto heq => hl l' hl' hproto.symm (hname.trans heq.symm)
      rw [if_pos ⟨hlen, hkey⟩, ServiceLine.mark]
      cases hproto : l.proto with
      | tcp =>
        rw [hproto] at hother
        rw [if_pos ⟨rfl, hname⟩, if_neg (fun h => nomatch h.1), hother, portBits_zero,
          UInt32.zero_or]
        rfl
      | udp =>
        rw [hproto] at hother
        rw [if_neg (fun h => nomatch h.1), if_pos ⟨rfl, hname⟩, hother, portBits_zero,
          UInt32.or_zero, UInt32.or_comm]
        rfl
    · have hkey : l.key ≠ strOf (name.map lower) := fun h =>
        hname (strOf_inj (zero_notMem_lower l.name_text) (zero_notMem_lower hnul) h)
      rw [if_neg (fun h => hkey h.2), if_neg (fun h => hname h.2), if_neg (fun h => hname h.2),
        UInt32.zero_or]

theorem declared_lt (lines : List ServiceLine) (proto : Proto) (name : Bytes) :
    declared lines proto name < 2 ^ 16 := by
  unfold declared
  split
  · decide
  · rename_i l _
    exact Nat.lt_succ_of_le l.port_le

theorem declared_pos {lines : List ServiceLine} {l : ServiceLine} (hl : l ∈ lines) :
    0 < declared lines l.proto l.name := by
  unfold declared
  split
  · rename_i hnone
    have hno := List.find?_eq_none.1 hnone l hl
    exact absurd (decide_eq_true ⟨rfl, rfl⟩) hno
  · rename_i l' _
    exact l'.port_pos

theorem declared_congr (lines : List ServiceLine) (proto : Proto) {name' : Bytes}
    (h : name.map lower = name'.map lower) :
    declared lines proto name = declared lines proto name' := by
  unfold declared
  rw [h]

/-- The ports of a name can be told apart neither by their protocol nor by a sign bit. -/
def Unharmed (lines : List ServiceLine) (name : Bytes) : Prop :=
  declared lines .tcp name = declared lines .udp name ∧
    (declared lines .udp name < 2 ^ 15 ∨ declared lines .udp name = 65535)

/-- Both halves are the declared ports. -/
def RightHalves (lines : List ServiceLine) (name : Bytes) (val : UInt32) : Prop :=
  val.toNat % 2 ^ 16 = declared lines .tcp name ∧ val.toNat / 2 ^ 16 = declared lines .udp name

theorem rightHalves_iff {lines : List ServiceLine} (hone : Once lines) (hnul : 0 ∉ name)
    (hshort : name.length < DNS_SVC_MAXNAME) :
    RightHalves lines name (marks (strOf (name.map lower)) lines) ↔ Unharmed lines name := by
  obtain ⟨hlow, hhigh⟩ := word_halves (declared_lt _ _ _) (declared_lt _ _ _)
  unfold RightHalves Unharmed
  rw [marks_eq hnul hshort _ hone, hhigh]
  split <;> omega

theorem foldlM_loadService (pl : Place) (texts : List Bytes) (svcs : Services) :
    (texts.filter fun l => (cutLine l).isSome).foldlM (loadService pl) svcs =
      texts.foldlM (loadService pl) svcs := by
  induction texts generalizing svcs with
  | nil => rfl
  | cons text texts ih =>
    rw [filter_cons, foldlM_cons]
    cases hcut : cutLine text with
    | none =>
      rw [loadService, hcut]
      exact ih svcs
    | some _ =>
      rw [if_pos (by rfl), foldlM_cons]
      congr 1
      funext svcs'
      exact ih svcs'

/-- For every file whose lines fit the buffer, however it is read, and in which no name is declared
twice for a protocol: the table gives every name its two ports exactly if there are no more than 192
names, and every name has less than 32 characters and the same port for both protocols, below 32768
or 65535. -/
theorem services_match_iff (pl : Place) (n : Nat) (chunks : List Bytes) (lines : List ServiceLine)
    (hfile : FileOf chunks lines) (hfit : LinesFit 1024 chunks.flatten)
    (hn : (fileLines chunks.flatten).length < n) :
    LoadsRight pl n chunks lines ↔ (svcKeys lines).card ≤ svcRoom ∧
        ∀ l ∈ lines, l.name.length < DNS_SVC_MAXNAME ∧ Unharmed lines l.name := by
  have hone := hfile.once
  obtain ⟨svcs, names, f, hrun, hload⟩ := (loaded_start pl).run lines
  rw [← hfile.texts, foldlM_loadService] at hrun
  replace hrun : initServices pl n (chunks.map .data) = some svcs := by
    rw [initServices, loopLines_fit (by decide) hfile.nonempty hfit hn]
    exact hrun
  have hword : ∀ name, name.length < DNS_SVC_MAXNAME → (svcKeys lines).card ≤ svcRoom →
      servicesGet pl svcs name = some (marks (strOf (name.map lower)) lines) := by
    intro name hshort hroom
    rw [hload.get hshort, hload.exact hroom, contentsOf, foldl_marked]
    exact congrArg some UInt32.zero_or
  constructor
  · rintro ⟨svcs', hrun', hmatch⟩
    obtain rfl : svcs = svcs' := Option.some.inj (hrun.symm.trans hrun')
    -- a declared port is not 0, so that every service is found
    have hval : ∀ l ∈ lines, servicesGet pl svcs l.name ≠ some 0 := by
      intro l hl hzero
      obtain ⟨val, hget, htcp, hudp⟩ := hmatch l.name l.name_text
      obtain rfl : 0 = val := Option.some.inj (hzero.symm.trans hget)
      have hpos := declared_pos hl
      cases hproto : l.proto with
      | tcp =>
        rw [hproto, ← htcp] at hpos
        exact absurd hpos (by decide)
      | udp =>
        rw [hproto, ← hudp] at hpos
        exact absurd hpos (by decide)
    have hshort : ∀ l ∈ lines, l.name.length < DNS_SVC_MAXNAME := by
      intro l hl
      refine not_le.1 fun hlong => ?_
      exact hval l hl (servicesGet_long pl _ hlong)
    have hroom : (svcKeys lines).card ≤ svcRoom := by
      refine le_trans (Finset.card_le_card fun s hs => ?_) hload.card_le
      unfold svcKeys at hs
      rw [mem_toFinset, mem_map] at hs
      obtain ⟨l, hl, rfl⟩ := hs
      have hl' := (mem_filter.1 hl).1
      rw [hload.holds.named]
      intro hnone
      refine hval l hl' ?_
      rw [hload.get (hshort l hl'), show f (strOf (l.name.map lower)) = none from hnone]
      rfl
    refine ⟨hroom, fun l hl => ⟨hshort l hl, ?_⟩⟩
    obtain ⟨val, hget, hhalves⟩ := hmatch l.name l.name_text
    rw [hword l.name (hshort l hl) hroom, Option.some.injEq] at hget
    rw [← rightHalves_iff hone l.name_text (hshort l hl), hget]
    exact hhalves
  · rintro ⟨hroom, hlines⟩
    refine ⟨svcs, hrun, fun name hnul => ?_⟩
    by_cases hdecl : ∃ l ∈ lines, l.name.map lower = name.map lower
    · obtain ⟨l, hl, hname⟩ := hdecl
      obtain ⟨hshort, hsame, hlow⟩ := hlines l hl
      have hlen := congrArg List.length hname
      rw [length_map, length_map] at hlen
      rw [hlen] at hshort
      refine ⟨_, hword _ hshort hroom, (rightHalves_iff hone hnul hshort).2 ?_⟩
      unfold Unharmed
      rw [← declared_congr _ _ hname, ← declared_congr _ _ hname]
      exact ⟨hsame, hlow⟩
    · push Not at hdecl
      have hnone : ∀ proto, declared lines proto name = 0 := fun proto =>
        declared_eq_zero fun l hl _ => hdecl l hl
      rw [hnone, hnone]
      rcases Nat.lt_or_ge _ _ with hshort | hlong
      · refine ⟨_, hword _ hshort hroom, ?_⟩
        rw [marks_eq hnul hshort _ hone, hnone, hnone]
        decide
      · exact ⟨0, servicesGet_long pl _ hlong, by decide, by decide⟩

def serviceLine (name digits : Bytes) (proto : Proto) (hname : IsWord name) (htext : 0 ∉ name)
    (hdigits : ∀ ch ∈ digits, isNumeral ch = true) (hpos : 1 ≤ decimal digits)
    (hle : decimal digits ≤ 65535) : ServiceLine :=
  { lead := [], name, gap := [32], digits, proto, rest := []
    lead_white := forall_mem_nil _
    name_word := hname
    name_text := htext
    gap_nonempty := cons_ne_nil _ _
    gap_blank := forall_mem_of_all (by decide)
    digits_numeral := hdigits
    port_pos := hpos
    port_le := hle
    rest_trails := nofun }

/-- `discard 9/tcp` or `discard 9/udp`. -/
def discardLine (proto : Proto) : ServiceLine :=
  serviceLine [100, 105, 115, 99, 97, 114, 100] [57] proto
    ⟨by decide, forall_mem_of_all (by decide)⟩ (by decide) (forall_mem_of_all (by decide))
    (by decide) (by decide)

/-- A service with one port for both protocols, behind a comment, in two reads. -/
theorem discard_loaded : LoadsRight samplePlace 4
    [35 :: 10 :: (discardLine .tcp).text, 10 :: (discardLine .udp).text]
    [discardLine .tcp, discardLine .udp] := by
  have hone : Once [discardLine .tcp, discardLine .udp] := by
    refine pairwise_cons.2 ⟨?_, pairwise_singleton _ _⟩
    intro l hl hproto
    rw [mem_singleton.1 hl] at hproto
    cases hproto
  refine (services_match_iff _ 4 _ _ ⟨by decide, by decide +kernel, hone⟩ ⟨by decide, by decide⟩
    (by decide)).2 ⟨by decide +kernel, ?_⟩
  intro l hl
  have hname : l.name = [100, 105, 115, 99, 97, 114, 100] := by
    rcases mem_pair.1 hl with rfl | rfl <;> rfl
  rw [hname]
  refine ⟨by decide, ?_, .inl ?_⟩ <;> decide +kernel

/-- `http 80/tcp`. -/
def httpLine : ServiceLine :=
  serviceLine [104, 116, 116, 112] [56, 48] .tcp ⟨by decide, forall_mem_of_all (by decide)⟩
    (by decide) (forall_mem_of_all (by decide)) (by decide) (by decide)

/-- `vnc 40000/udp`. -/
def vncLine : ServiceLine :=
  serviceLine [118, 110, 99] [52, 48, 48, 48, 48] .udp ⟨by decide, forall_mem_of_all (by decide)⟩
    (by decide) (forall_mem_of_all (by decide)) (by decide) (by decide)

/-- The port of `http` is given for the other protocol, and a large port fills both halves. -/
theorem ports_misplaced : ((initServices samplePlace 2 [.data httpLine.text]).bind
        fun svcs => servicesGet samplePlace svcs httpLine.name) = some 0x00500000 ∧
      ((initServices samplePlace 2 [.data vncLine.text]).bind
        fun svcs => servicesGet samplePlace svcs vncLine.name) = some 0xFFFF9C40 ∧
      declared [httpLine] .tcp httpLine.name = 80 ∧ FileOf [httpLine.text] [httpLine] ∧
      ¬ LoadsRight samplePlace 2 [httpLine.text] [httpLine] := by
  have hhttp : ((initServices samplePlace 2 [.data httpLine.text]).bind
      fun svcs => servicesGet samplePlace svcs httpLine.name) = some 0x00500000 := by
    decide +kernel
  have hdecl : declared [httpLine] .tcp httpLine.name = 80 := by decide +kernel
  refine ⟨hhttp, by decide +kernel, hdecl, ⟨by decide, by decide +kernel, pairwise_singleton _ _⟩, ?_⟩
  rintro ⟨svcs, hrun, hmatch⟩
  obtain ⟨val, hget, htcp, -⟩ := hmatch httpLine.name httpLine.name_text
  rw [map_singleton] at hrun
  rw [hrun, Option.bind_some, hget, Option.some.injEq] at hhttp
  rw [hhttp] at htcp
  exact absurd htcp (by decide)

end CDbK8s.Resolv
