import CDbK8s.Resolv.Query
import CDbK8s.Resolv.Services

/-!
# The names and the port of a lookup

`build_name` puts a host and a search suffix together in a buffer of fixed size, by two appends
that each leave out what does not fit; `query_search` asks for whatever comes of it. `try_port`
reads the port of a request, and a number wraps before it is checked.
-/

namespace CDbK8s.Resolv

open Base Dns List

/-! ## Search names -/

/-- `sbuf_putm` to a buffer of `DNS_HOSTS_MAXNAME` bytes: what does not fit is left out. -/
def sbufPutm (buf mem : Bytes) : Bytes :=
  if mem.length > DNS_HOSTS_MAXNAME - buf.length then buf else buf ++ mem

def sbufPutmc (buf mem : Bytes) (c : UInt8) : Bytes := sbufPutm buf (mem ++ [c])

def sliceStartswith (str : Bytes) (ch : UInt8) : Bool := str.head? = some ch

def sliceEndswith (str : Bytes) (ch : UInt8) : Bool := str.getLast? = some ch

/-- `build_name`: the dots that are missing are added. -/
def buildName (name suffix : Bytes) : Bytes :=
  let buf := if sliceStartswith suffix dot then sbufPutm [] name else sbufPutmc [] name dot
  if sliceEndswith suffix dot then sbufPutm buf suffix else sbufPutmc buf suffix dot

/-- The name with the dot before the suffix, unless the suffix has it. -/
def hostPart (name suffix : Bytes) : Bytes :=
  if sliceStartswith suffix dot then name else name ++ [dot]

/-- The suffix with the dot at the end, unless it has it. -/
def suffixPart (suffix : Bytes) : Bytes :=
  if sliceEndswith suffix dot then suffix else suffix ++ [dot]

/-- The name to be searched, when nothing is cut. -/
def searchName (name suffix : Bytes) : Bytes := hostPart name suffix ++ suffixPart suffix

/-- `build_name` gives the whole name, or nothing if that does not fit. -/
def AllOrNothing (name suffix : Bytes) : Prop :=
  buildName name suffix =
    if (searchName name suffix).length ≤ DNS_HOSTS_MAXNAME then searchName name suffix else []

section
variable {name suffix : Bytes}

theorem buildName_eq (name suffix : Bytes) :
    buildName name suffix = sbufPutm (sbufPutm [] (hostPart name suffix)) (suffixPart suffix) := by
  unfold buildName hostPart suffixPart
  cases sliceStartswith suffix dot <;> cases sliceEndswith suffix dot <;> rfl

theorem length_sbufPutm_le {buf : Bytes} (h : buf.length ≤ DNS_HOSTS_MAXNAME) (mem : Bytes) :
    (sbufPutm buf mem).length ≤ DNS_HOSTS_MAXNAME := by
  unfold sbufPutm
  split
  · exact h
  · rw [length_append]
    omega

theorem length_buildName_le (name suffix : Bytes) :
    (buildName name suffix).length ≤ DNS_HOSTS_MAXNAME := by
  rw [buildName_eq]
  exact length_sbufPutm_le (length_sbufPutm_le (Nat.zero_le _) _) _

theorem suffixPart_ne_nil (suffix : Bytes) : suffixPart suffix ≠ [] := by
  unfold suffixPart
  split
  · rintro rfl
    contradiction
  · simp

theorem buildName_eq_searchName_iff :
    buildName name suffix = searchName name suffix ↔
      (searchName name suffix).length ≤ DNS_HOSTS_MAXNAME := by
  refine ⟨fun h => h ▸ length_buildName_le _ _, fun h => ?_⟩
  rw [searchName, length_append] at h
  have hfst : sbufPutm [] (hostPart name suffix) = hostPart name suffix :=
    if_neg (by rw [length_nil]; omega)
  rw [buildName_eq, hfst, sbufPutm, if_neg (by omega), searchName]

theorem allOrNothing_iff (name suffix : Bytes) :
    AllOrNothing name suffix ↔ (searchName name suffix).length ≤ DNS_HOSTS_MAXNAME ∨
      (DNS_HOSTS_MAXNAME < (suffixPart suffix).length ∧
        (hostPart name suffix = [] ∨ DNS_HOSTS_MAXNAME < (hostPart name suffix).length)) := by
  unfold AllOrNothing
  by_cases hfit : (searchName name suffix).length ≤ DNS_HOSTS_MAXNAME
  · rw [if_pos hfit]
    exact iff_of_true (buildName_eq_searchName_iff.2 hfit) (.inl hfit)
  · rw [if_neg hfit, or_iff_right hfit, buildName_eq]
    rw [searchName, length_append] at hfit
    have hne := suffixPart_ne_nil suffix
    generalize hostPart name suffix = a, suffixPart suffix = b at hfit hne ⊢
    by_cases ha : a.length > DNS_HOSTS_MAXNAME
    · -- the host is left out, and the suffix is there if it fits
      have hfst : sbufPutm [] a = [] := if_pos ha
      rw [hfst, sbufPutm, length_nil, Nat.sub_zero]
      by_cases hb : b.length > DNS_HOSTS_MAXNAME
      · rw [if_pos hb]
        exact iff_of_true rfl ⟨hb, .inr ha⟩
      · rw [if_neg hb]
        exact iff_of_false hne fun h => hb h.1
    · -- the suffix is left out, and the host is there
      have hfst : sbufPutm [] a = a := if_neg ha
      rw [hfst, sbufPutm, if_pos (by omega)]
      constructor
      · rintro rfl
        exact ⟨by simpa using hfit, .inl rfl⟩
      · rintro ⟨-, hnil | hlong⟩
        · exact hnil
        · exact absurd hlong ha

end

/-- The results at which `query_search` ends. -/
def stopSearch (rc : Int) : Bool := rc = DNS_OK ∨ rc = DNS_NODATA

section
variable {C : Type} (api : CacheApi C) (ov : Overlay)

/-- `query_search` for the suffixes left, with the code so far. The names that it asks for come
first. -/
def querySearch (net : Nat → Script) (name : Bytes) (cfg : QueryCfg) :
    List Bytes → Int → Res → Glob C → List Bytes × Int × Res × Glob C
  | [], rc, res, glob => ([], rc, res, glob)
  | suffix :: search, _, res, glob =>
    let r := queryName api ov net (buildName name suffix) cfg res glob
    if stopSearch r.1 then ([buildName name suffix], r)
    else
      let rest := querySearch net name cfg search r.1 r.2.1 r.2.2
      (buildName name suffix :: rest.1, rest.2)

theorem querySearch_asks (net : Nat → Script) (name : Bytes) (cfg : QueryCfg)
    (search : List Bytes) (rc : Int) (res : Res) (glob : Glob C) :
    ∃ tried, tried <+: search ∧
      (querySearch api ov net name cfg search rc res glob).1 = tried.map (buildName name) := by
  induction search generalizing rc res glob with
  | nil => exact ⟨[], prefix_rfl, rfl⟩
  | cons suffix search ih =>
    rw [querySearch]
    split
    · exact ⟨[suffix], by simp, rfl⟩
    · obtain ⟨tried, hle, hasks⟩ := ih (queryName api ov net _ cfg res _).1
        (queryName api ov net _ cfg res _).2.1
        (queryName api ov net _ cfg res _).2.2
      exact ⟨suffix :: tried, cons_prefix_cons.2 ⟨rfl, hle⟩, congrArg _ hasks⟩

/-- `build_name` is all or nothing exactly if the name fits, or the suffix alone does not and
nothing fits before it; and `query_search` asks for host and suffix, for each of the suffixes
that it tries, exactly if they all fit. -/
theorem search_names_iff (name : Bytes) :
    (∀ suffix, AllOrNothing name suffix ↔ (searchName name suffix).length ≤ DNS_HOSTS_MAXNAME ∨
        (DNS_HOSTS_MAXNAME < (suffixPart suffix).length ∧
          (hostPart name suffix = [] ∨ DNS_HOSTS_MAXNAME < (hostPart name suffix).length))) ∧
    ∀ net cfg search rc res (glob : Glob C), ∃ tried, tried <+: search ∧
      (querySearch api ov net name cfg search rc res glob).1 = tried.map (buildName name) ∧
      (tried.map (buildName name) = tried.map (searchName name) ↔
        ∀ suffix ∈ tried, (searchName name suffix).length ≤ DNS_HOSTS_MAXNAME) := by
  refine ⟨allOrNothing_iff _, fun net cfg search rc res glob => ?_⟩
  obtain ⟨tried, hle, hasks⟩ := querySearch_asks api ov net _ cfg _ rc res _
  refine ⟨tried, hle, hasks, ?_⟩
  rw [map_inj_left]
  exact forall₂_congr fun _ _ => buildName_eq_searchName_iff

end

/-- A host of 250 bytes with a suffix of six is asked for without the suffix, and one of 256
bytes is left out. -/
theorem search_name_cut :
    buildName (replicate 250 97) [98, 98, 98, 98, 98, 98] = replicate 250 97 ++ [dot] ∧
      buildName (replicate 256 97) [98, 98, 98, 98, 98, 98] =
        [98, 98, 98, 98, 98, 98, dot] := by
  constructor <;> decide +kernel

/-! ## Ports -/

def sliceIsnumeric (str : Bytes) : Bool := !str.isEmpty && str.all isNumeral

/-- Without a socket type, both are meant. -/
def Flags.typed (flags : Flags) : Flags :=
  if flags.tcp || flags.udp then flags else { flags with tcp := true, udp := true }

/-- The ports of the types that are asked for. -/
def Res.setPorts (res : Res) (tcp udp : Bool) (tcpPort udpPort : Nat) : Res :=
  { res with
    tcpPort := if tcp then tcpPort else res.tcpPort
    udpPort := if udp then udpPort else res.udpPort }

/-- `try_port`: a port number, or the name of a service. -/
def tryPort (pl : Place) (svcs : Services) (res : Res) : Option (Int × Res) :=
  let any := !(res.flags.tcp || res.flags.udp)
  let res := { res with flags := res.flags.typed }
  if res.port.length = 0 then some (0, res)
  else if sliceIsnumeric res.port then
    let portno := sliceTou32 res.port
    if portno > 65535 then some (-1, res)
    else some (0, res.setPorts res.flags.tcp res.flags.udp portno.toNat portno.toNat)
  else if res.flags.numport then some (-1, res)
  else
    match servicesGet pl svcs res.port with
    | none => none
    | some pp =>
      let tcp := res.flags.tcp && (pp &&& 0xffff) != 0
      let udp := res.flags.udp && pp >>> 16 != 0
      let res := res.setPorts tcp udp (pp &&& 0xffff).toNat (pp >>> 16).toNat
      if !tcp && !udp then some (-1, res)
      else if !any && (res.flags.tcp != tcp || res.flags.udp != udp) then some (-1, res)
      else some (0, res)

/-- A number up to `65535` is the port of the protocols that are asked for, and any other is
an error that leaves the ports at 0. -/
def ReadsPort (pl : Place) (svcs : Services) (res : Res) : Prop :=
  if decimal res.port ≤ 65535 then
    tryPort pl svcs res = some (0, { res with
      flags := res.flags.typed
      tcpPort := if res.flags.typed.tcp then decimal res.port else 0
      udpPort := if res.flags.typed.udp then decimal res.port else 0 })
  else
    ∃ rc res', tryPort pl svcs res = some (rc, res') ∧ rc < 0 ∧ res'.tcpPort = 0 ∧ res'.udpPort = 0

theorem tryPort_numeric (pl : Place) (svcs : Services) {res : Res} (hport : res.port ≠ [])
    (hdigits : ∀ ch ∈ res.port, isNumeral ch = true) :
    tryPort pl svcs res =
      if 65535 < decimal res.port % 2 ^ 32 then some (-1, { res with flags := res.flags.typed })
      else some (0, Res.setPorts { res with flags := res.flags.typed } res.flags.typed.tcp
        res.flags.typed.udp (decimal res.port % 2 ^ 32) (decimal res.port % 2 ^ 32)) := by
  have hnum : sliceIsnumeric res.port = true := by
    simpa [sliceIsnumeric, hport] using hdigits
  rw [tryPort, if_neg (by simpa using hport), if_pos hnum, ← sliceTou32_numeral hdigits]
  rfl

/-- A port of digits is read as it should be exactly if it is up to `65535`, or above that in its
last 32 bits too. -/
theorem try_port_iff (pl : Place) (svcs : Services) (res : Res) (hport : res.port ≠ [])
    (hdigits : ∀ ch ∈ res.port, isNumeral ch = true) (htcp : res.tcpPort = 0)
    (hudp : res.udpPort = 0) :
    ReadsPort pl svcs res ↔ decimal res.port ≤ 65535 ∨ 65535 < decimal res.port % 2 ^ 32 := by
  have hrun := tryPort_numeric pl svcs hport hdigits
  unfold ReadsPort
  by_cases hle : decimal res.port ≤ 65535
  · have hmod : decimal res.port % 2 ^ 32 = decimal res.port := Nat.mod_eq_of_lt (by omega)
    rw [if_pos hle, hrun, hmod, if_neg (by omega), Res.setPorts]
    exact iff_of_true (by simp only [htcp, hudp]) (.inl hle)
  · rw [if_neg hle, hrun]
    constructor
    · rintro ⟨rc, res', h, hrc, -⟩
      by_contra hlow
      rw [if_neg (by omega)] at h
      cases h
      exact absurd hrc (lt_irrefl 0)
    · intro h
      exact ⟨-1, _, if_pos (h.resolve_left hle), by decide, htcp, hudp⟩

/-- A request for a port that is given as text, for both protocols. -/
def portReq (port : Bytes) : Res :=
  Res.start ⟨false, false, false, false, false, false, false, false⟩ [] port 0
    fun _ => SockAddr.zero

/-- The port `80`. -/
theorem try_port_eighty : ReadsPort samplePlace Services.start (portReq [56, 48]) :=
  (try_port_iff _ _ _ (cons_ne_nil _ _)
    (forall_mem_of_all (by decide)) rfl rfl).2 (.inl (by decide))

/-- The text `4294967376`, which is `2 ^ 32 + 80`, is taken for port `80`. -/
theorem try_port_wraps :
    decimal [52, 50, 57, 52, 57, 54, 55, 51, 55, 54] = 2 ^ 32 + 80 ∧
      (tryPort samplePlace Services.start (portReq [52, 50, 57, 52, 57, 54, 55, 51, 55, 54])).map
        (fun r => (r.1, r.2.tcpPort, r.2.udpPort)) = some (0, 80, 80) := by
  constructor
  · decide
  · decide

end CDbK8s.Resolv
