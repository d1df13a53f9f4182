import CDbK8s.Dns.Complete
import Mathlib.Logic.Relation

/-!
# The tables of a decoded message

The counts of the header are not bounds: a section of any count is decoded until its table is full.
The store of names changes by `msg_store_str` alone (`Stores`), which appends a string and a NUL or
nothing, so what it returned stays where it is.
-/

namespace CDbK8s.Dns

open Base Lib.Exits List Relation

/-! ## The store of names -/

/-- The store `names'` comes from `names` by calls of `msg_store_str`. -/
def Stores (names names' : Bytes) : Prop :=
  ReflTransGen (fun a b => ∃ str, b = (msgStoreStr a str).2) names names'

section
variable {names names' : Bytes}

theorem msgStoreStr_appends (names str : Bytes) : (msgStoreStr names str = (none, names)) ∨
      (msgStoreStr names str = (some str, names ++ str ++ [0]) ∧
        (names ++ str ++ [0]).length ≤ DNS_MAX_PDUSIZE) := by
  by_cases h : Storable names str
  · refine .inr ⟨msgStoreStr_ok h, ?_⟩
    rw [length_append, length_append]
    exact h.2
  · exact .inl (msgStoreStr_full h)

theorem Stores.one (names str : Bytes) : Stores names (msgStoreStr names str).2 := .single ⟨str, rfl⟩

theorem Stores.grows (h : Stores names names') :
    names <+: names' ∧ (names.length ≤ DNS_MAX_PDUSIZE → names'.length ≤ DNS_MAX_PDUSIZE) := by
  induction h with
  | refl => exact ⟨prefix_rfl, id⟩
  | tail _ hstep ih =>
    obtain ⟨str, rfl⟩ := hstep
    rcases msgStoreStr_appends _ str with hfull | ⟨hok, hfits⟩
    · rw [hfull]
      exact ih
    · rw [hok]
      refine ⟨ih.1.trans ?_, fun _ => hfits⟩
      rw [append_assoc]
      exact prefix_append _ _

/-- A string that was returned is in the store where it was put, with a NUL behind it. -/
theorem Stores.returned {str out : Bytes} (hout : (msgStoreStr names str).1 = some out)
    (h : Stores (msgStoreStr names str).2 names') : ∃ post, names' = names ++ out ++ [0] ++ post := by
  obtain ⟨post, hpost⟩ := h.grows.1
  rcases msgStoreStr_appends _ str with hfull | ⟨hok, -⟩
  · rw [hfull] at hout
    cases hout
  · rw [hok] at hout hpost
    cases hout
    exact ⟨post, hpost.symm⟩

end

/-! ## The code of a record -/

/-- The store changes by `msg_store_str`. -/
def StoresOnly (s s' : Entering) : Prop := Stores s.names s'.names

instance : Std.Refl StoresOnly := ⟨fun _ => .refl⟩

instance : IsTrans Entering StoresOnly := ⟨fun _ _ _ => ReflTransGen.trans⟩

/-- Code that changes the store by `msg_store_str` alone. It is a class, so that the instances of the
pieces make up that of a function along its text. -/
class Filing {α : Type} (x : EntryM α) : Prop where
  along : ∀ s, Along StoresOnly x s

section

set_option synthInstance.maxSize 1000

variable {α β : Type} {x y : EntryM α} {pkt : Pkt} {mode : Mode} {ov : Overlay} {rdEnd : Nat}

instance {f : α → EntryM β} [hx : Filing x] [hf : ∀ a, Filing (f a)] : Filing (x >>= f) :=
  ⟨fun s => (hx.along s).bind fun a s' _ => (hf a).along s'⟩

instance : Filing (get : EntryM Entering) := ⟨fun _ => .refl⟩

instance (a : α) : Filing (pure a) := ⟨fun _ => along_pure a⟩

instance (e : Exit) : Filing (throw e : EntryM α) := ⟨fun _ => along_throw e⟩

instance {c : Prop} [Decidable c] [hx : Filing x] [hy : Filing y] : Filing (if c then x else y) :=
  ⟨fun s => along_ite (fun _ => hx.along s) fun _ => hy.along s⟩

instance (idx n : Nat) : Filing (touch pkt idx n) := ⟨fun _ => .refl⟩

instance (n : Nat) : Filing (skip n) := ⟨fun _ => .refl⟩

instance (n : Nat) : Filing (advance n) := ⟨fun _ => .refl⟩

instance (f : Rr → Rr) : Filing (setRr f) := ⟨fun _ => .refl⟩

instance (udpSize offset : Nat) :
    Filing (modify fun s => { s with udpSize := udpSize, offset := offset } : EntryM Unit) :=
  ⟨fun _ => .refl⟩

instance (str : Bytes) : Filing (storeStr str) := ⟨fun s => .one s.names str⟩

instance (field : Location) : Filing (nameField pkt field) := by
  refine ⟨fun s => ?_⟩
  unfold Along nameField
  dsimp only
  split
  · exact .refl
  · split_ifs <;> exact .refl

instance (idx : Nat) : Filing (describeIp4 pkt mode idx) := by
  refine ⟨fun s => ?_⟩
  unfold Along describeIp4
  split_ifs <;> exact .refl

instance (c : Prop) [Decidable c] (e : Exit) : Filing (stopIf c e) :=
  inferInstanceAs (Filing (if c then throw e else pure ()))

instance (str : Option Bytes) : Filing (require str) := inferInstanceAs (Filing (stopIf _ _))

instance {x : EntryM Unit} [Filing x] : Filing (whenLoad mode x) :=
  inferInstanceAs (Filing (if mode = .load then x else pure ()))

instance (n : Nat) : Filing (describe mode n) :=
  inferInstanceAs (Filing (if mode = .validate then advance n else pure ()))

instance (text : Bytes) (set : Option Bytes → Rr → Rr) : Filing (keepName mode text set) := by
  unfold keepName storeName
  infer_instance

instance (field : Location) (set : Option Bytes → Rr → Rr) : Filing (nameRdata pkt mode field set) := by
  unfold nameRdata
  infer_instance

instance {field : Location} {n : Nat} {keep : Bytes → EntryM Unit} [∀ bs, Filing (keep bs)] :
    Filing (charString pkt mode field rdEnd n keep) := by
  unfold charString
  dsimp only
  infer_instance

instance (bs : Bytes) : Filing (keepTxt ov bs) := by
  unfold keepTxt
  dsimp only
  infer_instance

instance (fuel : Nat) : Filing (decodeTxtLoop pkt mode ov rdEnd fuel) := by
  induction fuel with
  | zero => exact inferInstanceAs (Filing (pure ()))
  | succ fuel ih =>
    unfold decodeTxtLoop
    infer_instance

instance : Filing (decodeSoaVals pkt mode ov rdEnd) := by
  unfold decodeSoaVals
  dsimp only
  infer_instance

instance : Filing (decodeSoa pkt mode ov rdEnd) := by
  unfold decodeSoa storeName
  dsimp only
  infer_instance

instance (rdlen : Nat) : Filing (decodeHinfo pkt mode ov rdlen rdEnd) := by
  unfold decodeHinfo keepHinfo
  infer_instance

instance (sc : Sc) (type : UInt16) (name : Bytes) (cls : UInt16) (ttl : UInt32) (rdlen rc : Nat) :
    Filing (decodeRdata pkt mode sc ov type name cls ttl rdlen rdEnd rc) := by
  unfold decodeRdata decodeOneName decodeA decodeAaaa decodeMx decodeSrv decodeOpt
  dsimp only
  infer_instance

theorem filing_rrBody (sc : Sc) : Filing (rrBody pkt mode sc ov) := by
  unfold rrBody rrName rrFields rrRdata
  infer_instance

end

/-! ## The decoder -/

/-- A step of `dns_msg_decode`: the header, a question, a record of any section, or an error. -/
inductive DecStep (pkt : Pkt) (ov : Overlay) (d : Dec) : Dec → Prop where
  | hdr : DecStep pkt ov d (decodeHdr pkt .load (fun _ => true) d).2
  | qd : DecStep pkt ov d (dnsQdDecode pkt .load (fun _ => true) d).2
  | rr (sc : Sc) : DecStep pkt ov d (dnsRrDecode pkt .load ov (fun _ => true) sc d).2
  | err (group field : Location) (ec : Int) : DecStep pkt ov d (dnsDecErr group field ec d).2

/-- The tables are within their bounds. -/
def Msg.InTables (m : Msg) : Prop :=
  m.qdLen ≤ DNS_MAX_QD ∧ ∀ sc, (m.sect sc).count ≤ DNS_MAX_RR

section
variable {pkt : Pkt} {ov : Overlay} {d d' : Dec}

theorem DecStep.spec (h : DecStep pkt ov d d') :
    Stores d.msg.names d'.msg.names ∧ (d.msg.InTables → d'.msg.InTables) := by
  have hsame : ∀ {d' : Dec}, d'.msg = d.msg →
      Stores d.msg.names d'.msg.names ∧ (d.msg.InTables → d'.msg.InTables) := by
    intro d' hmsg
    rw [hmsg]
    exact ⟨.refl, id⟩
  cases h with
  | hdr =>
    unfold decodeHdr
    split
    · exact hsame (dnsDecErr_msg _ _ _ _)
    · exact ⟨.refl, id⟩
  | qd =>
    by_cases hfull : d.msg.qdLen ≥ DNS_MAX_QD
    · rw [dnsQdDecode, if_pos ⟨rfl, hfull⟩]
      exact hsame rfl
    · rw [dnsQdDecode_load pkt _ hfull]
      split
      · exact hsame (dnsDecErr_msg _ _ _ _)
      · rename_i name rc _
        split
        · exact hsame (dnsDecErr_msg _ _ _ _)
        · have hstore := Stores.one d.msg.names (cstr name)
          split
          · rename_i hcall
            rw [show msgStoreStr _ _ = _ from hcall] at hstore
            exact ⟨hstore, id⟩
          · rename_i hcall
            rw [show msgStoreStr _ _ = _ from hcall] at hstore
            exact ⟨hstore, fun ht => ⟨not_le.1 hfull, ht.2⟩⟩
  | rr sc =>
    unfold dnsRrDecode
    split
    · exact hsame rfl
    · rename_i hroom
      have hadds := (@filing_rrBody pkt .load ov sc).along (d.enter sc)
      unfold Along at hadds
      have hleave : ∀ r s used, Stores d.msg.names s.names → used ≤ 1 →
          Stores d.msg.names (d.leave sc r s used).msg.names ∧
            (d.msg.InTables → (d.leave sc r s used).msg.InTables) := by
        intro r s used hstore _
        obtain ⟨-, hqd, hcount⟩ := leave_counts d sc r s _
        refine ⟨by cases sc <;> exact hstore, fun ht => ⟨hqd.le.trans ht.1, fun sc' => ?_⟩⟩
        rw [hcount]
        split
        · rename_i heq
          rw [heq]
          simp at hroom
          omega
        · exact ht.2 sc'
      split
      · rename_i s hrun
        rw [hrun] at hadds
        exact hleave _ _ _ hadds zero_le
      · rename_i s hrun
        rw [hrun] at hadds
        rw [dnsDecErr_msg _ _ _ _]
        exact hleave _ _ _ hadds zero_le
      · rename_i s hrun
        rw [hrun] at hadds
        exact hleave _ _ _ hadds le_rfl
  | err _ _ _ => exact hsame (dnsDecErr_msg _ _ _ _)

theorem steps_spec (h : ReflTransGen (DecStep pkt ov) d d') :
    Stores d.msg.names d'.msg.names ∧ (d.msg.InTables → d'.msg.InTables) := by
  induction h with
  | refl => exact ⟨.refl, id⟩
  | tail _ hstep ih =>
    exact ⟨ih.1.trans hstep.spec.1, fun ht => hstep.spec.2 (ih.2 ht)⟩

theorem decodeEntries_steps {entry : Dec → Int × Dec} (hentry : ∀ d, DecStep pkt ov d (entry d).2)
    (loc : Location) : ∀ (n i : Nat) (d : Dec),
    ReflTransGen (DecStep pkt ov) d (decodeEntries entry loc n i d).2 := by
  intro n
  induction n with
  | zero => exact fun i d => .refl
  | succ n ih =>
    intro i d
    rw [decodeEntries]
    split
    · exact .tail (.single (hentry d)) (.err _ _ _)
    · exact .head (hentry d) (ih _ _)

theorem onOk_steps {next : Dec → Int × Dec} {r : Int × Dec}
    (hr : ReflTransGen (DecStep pkt ov) d r.2)
    (hnext : ∀ d, ReflTransGen (DecStep pkt ov) d (next d).2) :
    ReflTransGen (DecStep pkt ov) d (onOk next r).2 := by
  unfold onOk
  split
  · exact hr
  · exact hr.trans (hnext _)

end

/-- For every packet, from the start of `dns_msg_decode` with a zeroed message to its end, whatever
entries it decodes: the tables and the store stay within their bounds, the store changes by
`msg_store_str` alone, and what that returned is in the store with a NUL behind it, unchanged. -/
theorem decoder_tables (pkt : Pkt) (ov : Overlay) :
    ReflTransGen (DecStep pkt ov) (Dec.start Msg.zero) (dnsMsgDecode pkt ov Msg.zero).2 ∧
      ∀ d d', ReflTransGen (DecStep pkt ov) (Dec.start Msg.zero) d →
        ReflTransGen (DecStep pkt ov) d d' →
        d.msg.InTables ∧ d.msg.names.length ≤ DNS_MAX_PDUSIZE ∧ Stores d.msg.names d'.msg.names ∧
        ∀ names str out, (msgStoreStr names str).1 = some out →
          Stores (msgStoreStr names str).2 d.msg.names →
          ∃ post post', d.msg.names = names ++ out ++ [0] ++ post ∧
            d'.msg.names = names ++ out ++ [0] ++ post' := by
  refine ⟨?_, fun d _ hd hd' => ?_⟩
  · have hrr : ∀ sc n d, ReflTransGen (DecStep pkt ov) d
        (dnsSectDecode pkt .load ov (fun _ => true) sc n d).2 :=
      fun sc n => decodeEntries_steps (fun _ => .rr sc) _ n 0
    refine onOk_steps ?_ fun d => .refl
    exact onOk_steps (onOk_steps (onOk_steps (onOk_steps (.single .hdr)
      fun d => decodeEntries_steps (fun _ => .qd) _ _ 0 d) fun d => hrr _ _ d) fun d => hrr _ _ d)
      fun d => hrr _ _ d
  · obtain ⟨hstores, htables⟩ := steps_spec hd
    obtain ⟨hstores', -⟩ := steps_spec hd'
    refine ⟨htables ⟨zero_le, fun sc => by cases sc <;> exact zero_le⟩, hstores.grows.2 zero_le,
      hstores', fun _ _ _ hout hstore => ?_⟩
    obtain ⟨post, hpost⟩ := Stores.returned hout hstore
    obtain ⟨post', hpost'⟩ := Stores.returned hout (hstore.trans hstores')
    exact ⟨post, post', hpost, hpost'⟩

end CDbK8s.Dns
