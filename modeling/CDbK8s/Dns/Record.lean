import CDbK8s.Dns.Decode
import CDbK8s.Dns.NameDecode

/-!
# The parts of a record in front of its RDATA

What `rrName` and `rrFields` do, as equations: the decoder comes to the RDATA of a record if
its name can be read and kept and the ten bytes behind it are there.
-/

namespace CDbK8s.Dns

open Base Lib.Exits

variable {str text : Bytes}

/-! ## The store -/

/-- `msg_store_str` takes the string. -/
def Storable (names str : Bytes) : Prop :=
  str.length ≤ DNS_NAME_MAXSTR ∧ names.length + str.length + 1 ≤ DNS_MAX_PDUSIZE

instance (names str : Bytes) : Decidable (Storable names str) := inferInstanceAs (Decidable (_ ∧ _))

theorem msgStoreStr_ok {names : Bytes} (h : Storable names str) :
    msgStoreStr names str = (some str, names ++ str ++ [0]) := by
  obtain ⟨hshort, hroom⟩ := h
  unfold msgStoreStr
  rw [if_neg (by omega), if_neg (by omega)]

theorem msgStoreStr_full {names : Bytes} (h : ¬ Storable names str) :
    msgStoreStr names str = (none, names) := by
  unfold msgStoreStr
  unfold Storable at h
  split_ifs
  · rfl
  · rfl
  · omega

variable {pkt : Pkt} {mode : Mode} {s : Entering}

theorem storeStr_ok {str : Bytes} (h : Storable s.names str) :
    storeStr str s = .ok (some str) { s with names := s.names ++ str ++ [0] } := by
  show EStateM.Result.ok (msgStoreStr s.names str).1 { s with names := (msgStoreStr s.names str).2 } = _
  rw [msgStoreStr_ok h]

theorem storeStr_full (h : ¬ Storable s.names str) : storeStr str s = .ok none s := by
  show EStateM.Result.ok (msgStoreStr s.names str).1 { s with names := (msgStoreStr s.names str).2 } = _
  rw [msgStoreStr_full h]

/-- The entry after a string was kept. -/
def Entering.kept (s : Entering) (mode : Mode) (text : Bytes) (set : Option Bytes → Rr → Rr) :
    Entering :=
  match mode with
  | .load => { s with names := s.names ++ cstr text ++ [0], rr := set (some (cstr text)) s.rr }
  | .validate => s

theorem keepName_ok {text : Bytes} {set : Option Bytes → Rr → Rr}
    (h : mode = .load → Storable s.names (cstr text)) :
    keepName mode text set s = .ok () (s.kept mode text set) := by
  cases mode with
  | load => exact bind_ok (storeStr_ok (h rfl))
  | validate => rfl

theorem keepName_full {set : Option Bytes → Rr → Rr} (h : ¬ Storable s.names (cstr text)) :
    keepName .load text set s = .error .fail { s with rr := set none s.rr } :=
  bind_ok (storeStr_full h)

/-! ## The name of a record -/

/-- The position behind the name at `offset`. -/
def nameEnd (pkt : Pkt) (offset : Nat) : Nat := (decodeName pkt offset DNS_MSG_SIZE).offset

/-- The name at `offset` as the decoder keeps it, with a dot for the root. -/
def ownerText (pkt : Pkt) (offset : Nat) : Option Bytes :=
  match (decodeName pkt offset DNS_MSG_SIZE).res with
  | .ok (name, _) => some (if name = [] then [dot] else name)
  | .error _ => none

/-- An owner that can be read and, when loading, stored. -/
def Named (pkt : Pkt) (mode : Mode) (s : Entering) (text : Bytes) : Prop :=
  ownerText pkt s.offset = some text ∧ (mode = .load → Storable s.names (cstr text))

/-- The entry behind its owner. -/
def Entering.named (s : Entering) (pkt : Pkt) (mode : Mode) (text : Bytes) : Entering :=
  { s with offset := nameEnd pkt s.offset, wptr := text.length + 1 }.kept mode text
    fun str rr => { rr with name := str }

section
variable (hwptr : s.wptr = 0)
include hwptr

theorem nameField_error {field : Location} {ec : DnsError}
    (h : (decodeName pkt s.offset DNS_MSG_SIZE).res = .error ec) :
    nameField pkt field s = .error (.refuse .rr field ec.code)
      { s with offset := nameEnd pkt s.offset } := by
  have hnlen : sizeSub DNS_MSG_SIZE s.wptr = DNS_MSG_SIZE := by
    rw [hwptr]
    rfl
  unfold nameField
  dsimp only
  rw [hnlen, h, decodeName_overread, Bool.or_false]
  rfl

theorem nameField_ok {field : Location} (h : ownerText pkt s.offset = some text) :
    nameField pkt field s = .ok ⟨text, text.length⟩ { s with offset := nameEnd pkt s.offset } := by
  have hnlen : sizeSub DNS_MSG_SIZE s.wptr = DNS_MSG_SIZE := by
    rw [hwptr]
    rfl
  unfold ownerText at h
  unfold nameField
  dsimp only
  rw [hnlen, decodeName_overread, Bool.or_false]
  cases hres : (decodeName pkt s.offset DNS_MSG_SIZE).res with
  | error _ =>
    rw [hres] at h
    cases h
  | ok r =>
    obtain ⟨name, rc⟩ := r
    rw [hres] at h
    obtain ⟨rfl, -⟩ := decodeName_count hres
    obtain rfl : _ = text := Option.some.inj h
    by_cases hroot : name = []
    · subst hroot
      rfl
    · have hlen : ¬ name.length = 0 := fun hzero => hroot (List.length_eq_zero_iff.1 hzero)
      simp only [hroot]
      rw [if_pos (by omega)]
      rfl

theorem rrName_ok (h : Named pkt mode s text) :
    rrName pkt mode s = .ok ⟨text, text.length⟩ (s.named pkt mode text) := by
  have hmove : advance (text.length + 1) { s with offset := nameEnd pkt s.offset } =
      .ok () { s with offset := nameEnd pkt s.offset, wptr := text.length + 1 } := by
    show EStateM.Result.ok () { s with
      offset := nameEnd pkt s.offset, wptr := s.wptr + (text.length + 1) } = _
    rw [hwptr, zero_add]
  unfold rrName
  rw [bind_ok (nameField_ok hwptr h.1)]
  rw [bind_ok hmove, bind_ok (keepName_ok
    (s := { s with offset := nameEnd pkt s.offset, wptr := text.length + 1 }) h.2)]
  rfl

theorem rrName_exit (h : ∀ text, ¬ Named pkt mode s text) :
    ∃ e s', rrName pkt mode s = .error e s' := by
  unfold rrName
  cases hres : (decodeName pkt s.offset DNS_MSG_SIZE).res with
  | error _ => exact ⟨_, _, bind_exit (nameField_error hwptr hres)⟩
  | ok r =>
    obtain ⟨text, htext⟩ : ∃ text, ownerText pkt s.offset = some text := by
      unfold ownerText
      rw [hres]
      exact ⟨_, rfl⟩
    have hnot := h text
    cases mode with
    | validate => exact absurd ⟨htext, fun hmode => by cases hmode⟩ hnot
    | load =>
      have hfull : ¬ Storable s.names (cstr text) := fun hroom => hnot ⟨htext, fun _ => hroom⟩
      rw [bind_ok (nameField_ok hwptr htext)]
      exact ⟨.fail, _, (bind_ok rfl).trans (bind_exit (keepName_full hfull))⟩

end

/-- The entry behind its fixed fields. -/
def Entering.fielded (s : Entering) (pkt : Pkt) (mode : Mode) : Entering :=
  let f := rrFieldsAt pkt s.offset
  let s := { s with offset := s.offset + 10 }
  match mode with
  | .load => { s with rr := { s.rr with type := f.type, cls := f.cls, ttl := f.ttl, rdlen := f.rdlen } }
  | .validate => s

theorem rrFields_ok (mode : Mode) (h : s.offset + 10 ≤ pkt.len) :
    rrFields pkt mode s = .ok (rrFieldsAt pkt s.offset) (s.fielded pkt mode) := by
  have hread : touch pkt s.offset 10 s = .ok () s := by
    show EStateM.Result.ok () { s with past := s.past || pkt.beyond s.offset 10 } = _
    simp [Pkt.beyond_eq_false h]
  refine (bind_ok (stopIf_pass (by omega) _ s)).trans ((bind_ok hread).trans ?_)
  cases mode with
  | load => rfl
  | validate => rfl

theorem rrFields_short (mode : Mode) (h : pkt.len < s.offset + 10) :
    rrFields pkt mode s = .error (.refuse .rr .hdr DnsError.etrunc.code) s :=
  (bind_ok rfl).trans (bind_exit (stopIf_stop h _ s))

/-- The entry in front of its RDATA. -/
def Entering.atRdata (s : Entering) (pkt : Pkt) (mode : Mode) (text : Bytes) : Entering :=
  (s.named pkt mode text).fielded pkt mode

theorem named_offset (text : Bytes) : (s.named pkt mode text).offset = nameEnd pkt s.offset := by
  cases mode <;> rfl

theorem atRdata_offset (text : Bytes) :
    (s.atRdata pkt mode text).offset = nameEnd pkt s.offset + 10 := by
  cases mode <;> rfl

theorem atRdata_past (text : Bytes) : (s.atRdata pkt mode text).past = s.past := by
  cases mode <;> rfl

theorem atRdata_wptr (text : Bytes) : (s.atRdata pkt mode text).wptr = text.length + 1 := by
  cases mode <;> rfl

theorem atRdata_names (text : Bytes) :
    (s.atRdata pkt .load text).names = s.names ++ cstr text ++ [0] := rfl

theorem rrBody_of_named {sc : Sc} {ov : Overlay} {text : Bytes} (hwptr : s.wptr = 0)
    (h : Named pkt mode s text) (hfit : nameEnd pkt s.offset + 10 ≤ pkt.len) :
    rrBody pkt mode sc ov s =
      rrRdata pkt mode sc ov ⟨text, text.length⟩ (rrFieldsAt pkt (nameEnd pkt s.offset))
        (s.atRdata pkt mode text) := by
  have hfields := rrFields_ok mode (s := s.named pkt mode text) (by rw [named_offset]; exact hfit)
  rw [named_offset] at hfields
  exact (bind_ok (rrName_ok hwptr h)).trans (bind_ok hfields)

end CDbK8s.Dns
