import CDbK8s.Dns.Build

/-!
# What `dns_add_rr` leaves in a slot

`addRr_slot` says what the slot of a record that was accepted holds, member by member. A name that
is needed was stored, or the call had failed; the second name of `DNS_TYPE_SOA` and the strings of
`DNS_TYPE_HINFO` are not checked, and null if the store did not take them.
-/

namespace CDbK8s.Dns

open Base Lib.Exits

/-- What `msg_store_str` returns. -/
def keptStr (names str : Bytes) : Option Bytes := if Storable names str then some str else none

/-- The store after `msg_store_str`. -/
def storeAfter (names str : Bytes) : Bytes :=
  if Storable names str then names ++ str ++ [0] else names

theorem msgStoreStr_eq (names str : Bytes) :
    msgStoreStr names str = (keptStr names str, storeAfter names str) := by
  unfold keptStr storeAfter
  by_cases h : Storable names str
  · simp [if_pos h, msgStoreStr_ok h]
  · simp [if_neg h, msgStoreStr_full h]

/-- The RDATA that is left in a slot with RDATA `old` for the record `src`, if the store is `names`
behind the owner's name. -/
def addedRdata (ov : Overlay) (names : Bytes) (old : Rdata) (src : Rr) : Rdata :=
  if src.type = DNS_TYPE_A then .a (ov.a src.rdata)
  else if src.type = DNS_TYPE_NS then .ns (some (cstring (ov.ns src.rdata)))
  else if src.type = DNS_TYPE_CNAME then .cname (some (cstring (ov.cname src.rdata)))
  else if src.type = DNS_TYPE_SOA then
    .soa { ov.soa src.rdata with
      mname := some (cstring (ov.soa src.rdata).mname)
      rname := keptStr (storeAfter names (cstring (ov.soa src.rdata).mname))
        (cstring (ov.soa src.rdata).rname) }
  else if src.type = DNS_TYPE_PTR then .ptr (some (cstring (ov.ptr src.rdata)))
  else if src.type = DNS_TYPE_HINFO then
    .hinfo ⟨keptStr names (cstring (ov.hinfo src.rdata).cpuStr),
        keptStr (storeAfter names (cstring (ov.hinfo src.rdata).cpuStr))
          (cstring (ov.hinfo src.rdata).osStr)⟩
  else if src.type = DNS_TYPE_MX then
    .mx ⟨(ov.mx src.rdata).pref, some (cstring (ov.mx src.rdata).name)⟩
  else if src.type = DNS_TYPE_TXT then
    if (ov.txt src.rdata).strs = [] then old
    else .txt ⟨(ov.txt old).strs ++ (ov.txt src.rdata).strs.map fun str => some (cstring str)⟩
  else if src.type = DNS_TYPE_AAAA then .aaaa (ov.aaaa src.rdata)
  else if src.type = DNS_TYPE_SRV then
    .srv { ov.srv src.rdata with name := some (cstring (ov.srv src.rdata).name) }
  else if src.type = DNS_TYPE_OPT then .opt { ov.opt src.rdata with zBits := (ov.opt old).zBits }
  else old

variable {ov : Overlay} {s s' : Adding}

theorem addName_eq (name : Option Bytes) (set : Option Bytes → Rr → Rr) (s : Adding) :
    addName name set s = .ok (keptStr s.names (cstring name))
      ⟨storeAfter s.names (cstring name), set (keptStr s.names (cstring name)) s.rr⟩ := by
  show EStateM.Result.ok (msgStoreStr s.names (cstring name)).1
    (⟨(msgStoreStr s.names (cstring name)).2, set (msgStoreStr s.names (cstring name)).1 s.rr⟩ :
      Adding) = _
  rw [msgStoreStr_eq]

theorem addNeeded_slot {name : Option Bytes} {set : Option Bytes → Rr → Rr}
    (h : addNeeded name set s = .ok () s') :
    Storable s.names (cstring name) ∧
      s' = ⟨s.names ++ cstring name ++ [0], set (some (cstring name)) s.rr⟩ := by
  have hrun := (bind_ok (addName_eq _ set s)).symm.trans h
  obtain ⟨hkept, rfl⟩ := addRequire_ok hrun
  have hstore : Storable s.names (cstring name) := by
    by_contra hfull
    exact hkept (if_neg hfull)
  refine ⟨hstore, ?_⟩
  simp [keptStr, storeAfter, if_pos hstore]

/-- The code `x` leaves the RDATA `d`, and the rest of the slot as it was. -/
def Leaves (s : Adding) (x : AddM Unit) (d : Rdata) : Prop :=
  ∀ s', x s = .ok () s' → s'.rr = { s.rr with rdata := d }

theorem leaves_ite {c : Prop} [Decidable c] {x y : AddM Unit} {d e : Rdata} (hx : Leaves s x d)
    (hy : Leaves s y e) : Leaves s (if c then x else y) (if c then d else e) := by
  by_cases hc : c
  · rw [if_pos hc, if_pos hc]
    exact hx
  · rw [if_neg hc, if_neg hc]
    exact hy

theorem leaves_set (d : Rdata → Rdata) :
    Leaves s (addSet fun rr => { rr with rdata := d rr.rdata }) (d s.rr.rdata) := by
  rintro s' h
  cases h
  rfl

theorem leaves_name (name : Option Bytes) (member : Option Bytes → Rdata) :
    Leaves s (addNeeded name fun str rr => { rr with rdata := member str })
      (member (some (cstring name))) := by
  intro _ h
  obtain ⟨-, rfl⟩ := addNeeded_slot h
  rfl

theorem leaves_soa (ov : Overlay) (v : Soa) : Leaves s (addSoa ov v)
      (.soa { v with
        mname := some (cstring v.mname)
        rname := keptStr (storeAfter s.names (cstring v.mname)) (cstring v.rname) }) := by
  intro _ h
  obtain ⟨_, s1, hm, h⟩ := of_bind_ok h
  obtain ⟨hstore, rfl⟩ := addNeeded_slot hm
  have hr := addName_eq v.rname (fun str rr =>
    { rr with rdata := .soa { ov.soa rr.rdata with rname := str } })
    ⟨s.names ++ cstring v.mname ++ [0],
      { s.rr with rdata := .soa { ov.soa s.rr.rdata with mname := some (cstring v.mname) } }⟩
  replace h := (bind_ok hr).symm.trans h
  obtain ⟨_, _, hget, h⟩ := of_bind_ok h
  cases hget
  obtain ⟨_, s2, hreq, h⟩ := of_bind_ok h
  obtain ⟨-, rfl⟩ := addRequire_ok hreq
  cases h
  simp [storeAfter, if_pos hstore]

theorem leaves_hinfo (ov : Overlay) (v : Hinfo) :
    Leaves s (do
      let _ ← addName v.cpuStr fun str rr =>
        { rr with rdata := .hinfo { ov.hinfo rr.rdata with cpuStr := str } }
      let _ ← addName v.osStr fun str rr =>
        { rr with rdata := .hinfo { ov.hinfo rr.rdata with osStr := str } })
      (.hinfo ⟨keptStr s.names (cstring v.cpuStr),
          keptStr (storeAfter s.names (cstring v.cpuStr)) (cstring v.osStr)⟩) := by
  intro _ h
  replace h := (bind_ok (addName_eq _ _ _)).symm.trans h
  replace h := (bind_ok (addName_eq _ _ _)).symm.trans h
  cases h
  simp

theorem leaves_txt (ov : Overlay) (strs : List (Option Bytes)) : Leaves s (addTxt ov strs)
      (if strs = [] then s.rr.rdata
        else .txt ⟨(ov.txt s.rr.rdata).strs ++ strs.map fun str => some (cstring str)⟩) := by
  induction strs generalizing s with
  | nil =>
    rintro s' h
    cases h
    rfl
  | cons str strs ih =>
    intro s' h
    obtain ⟨_, _, hget, h⟩ := of_bind_ok h
    cases hget
    obtain ⟨_, s1, hroom, h⟩ := of_bind_ok h
    obtain rfl : s1 = s := by
      unfold addStopIf at hroom
      split at hroom
      · cases hroom
      · cases hroom
        rfl
    obtain ⟨stored, s2, hname, h⟩ := of_bind_ok h
    cases hname.symm.trans (addName_eq _ _ _)
    obtain ⟨_, s3, hreq, h⟩ := of_bind_ok h
    obtain ⟨hkept, rfl⟩ := addRequire_ok hreq
    obtain ⟨_, s4, hset, hrest⟩ := of_bind_ok h
    cases hset
    have hstored : keptStr s1.names (cstring str) = some (cstring str) := by
      unfold keptStr at hkept ⊢
      split at hkept
      · rename_i hstore
        exact if_pos hstore
      · exact absurd rfl hkept
    have hleft := ih s' hrest
    simp only [ov.txt_txt, hstored] at hleft
    rw [hleft]
    split
    · rename_i hnil
      rw [hnil]
      rfl
    · rw [List.append_assoc]
      rfl

theorem addRr_slot {src : Rr} (h : addRr ov src s = .ok () s') :
    Storable s.names (cstring src.name) ∧
      s'.rr = ⟨some (cstring src.name), src.type, src.cls, src.ttl, s.rr.rdlen,
        addedRdata ov (s.names ++ cstring src.name ++ [0]) s.rr.rdata src⟩ := by
  obtain ⟨_, s1, hname, h⟩ := of_bind_ok h
  obtain ⟨hstore, rfl⟩ := addNeeded_slot hname
  obtain ⟨_, s2, hset, hrdata⟩ := of_bind_ok h
  cases hset
  refine ⟨hstore, ?_⟩
  let s1 : Adding := ⟨s.names ++ cstring src.name ++ [0],
      { s.rr with name := some (cstring src.name), type := src.type, cls := src.cls, ttl := src.ttl }⟩
  have hnone : Leaves s1 (pure ()) s.rr.rdata := by
    intro s' h
    cases h
    rfl
  have hleaves : Leaves s1 (addRdata ov src.type src.rdata)
      (addedRdata ov (s.names ++ cstring src.name ++ [0]) s.rr.rdata src) :=
    leaves_ite (leaves_set fun _ => .a _) <| leaves_ite (leaves_name _ _) <|
    leaves_ite (leaves_name _ _) <| leaves_ite (leaves_soa ov _) <| leaves_ite (leaves_name _ _) <|
    leaves_ite (leaves_hinfo ov _) <|
    leaves_ite (leaves_name _ fun str => .mx ⟨(ov.mx _).pref, str⟩) <|
    leaves_ite (leaves_txt ov _) <| leaves_ite (leaves_set fun _ => .aaaa _) <|
    leaves_ite (leaves_name _ fun str => .srv { ov.srv _ with name := str }) <|
    leaves_ite (leaves_set fun d => .opt { ov.opt _ with zBits := (ov.opt d).zBits }) hnone
  exact hleaves s' hrdata

end CDbK8s.Dns
