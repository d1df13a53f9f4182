import CDbK8s.Inet.Text

/-!
# IPv4 addresses as text

`ip4Loop_outcome` says for every string how the scanner can end: it returns 0, or -1 at the fourth
digit of a number, or stops with what it has read.
-/

namespace CDbK8s.Inet

open Base Lib.Block List

variable {str : Bytes}

/-! ## Dotted quads -/

def IsDec (ch : UInt8) : Prop := 48 ≤ ch ∧ ch ≤ 57

instance (ch : UInt8) : Decidable (IsDec ch) := inferInstanceAs (Decidable (_ ∧ _))

/-- The value of decimal digits behind those of `acc`. -/
def decFrom (acc : Nat) (ds : Bytes) : Nat := ds.foldl (fun acc ch => acc * 10 + (ch.toNat - 48)) acc

/-- The number that some digits write. -/
def decValue (ds : Bytes) : Nat := decFrom 0 ds

/-- One to three digits, at most 255. -/
structure IsOctet (ds : Bytes) : Prop where
  digits : ∀ ch ∈ ds, IsDec ch
  nonempty : ds ≠ []
  short : ds.length ≤ 3
  small : decValue ds ≤ 255

def dottedOctets (os : List Bytes) : Bytes := os.flatMap fun ds => ds ++ [46]

/-- The bytes that some octets write. -/
def octetBytes (os : List Bytes) : Bytes := os.map fun ds => UInt8.ofNat (decValue ds)

/-- The string begins with four octets with dots between them, and `addr` is what they stand for. -/
def BeginsQuad (str addr : Bytes) : Prop :=
  ∃ os ds rest, os.length = 3 ∧ (∀ o ∈ os, IsOctet o) ∧ IsOctet ds ∧
    str = dottedOctets os ++ ds ++ rest ∧ addr = octetBytes (os ++ [ds])

/-- The string begins with at most three octets with a dot behind each, and then has an octet of
three digits with a fourth digit behind it. -/
def LongOctet (str : Bytes) : Prop :=
  ∃ os ds ch rest, os.length ≤ 3 ∧ (∀ o ∈ os, IsOctet o) ∧ IsOctet ds ∧ ds.length = 3 ∧ IsDec ch ∧
    str = dottedOctets os ++ ds ++ ch :: rest

/-! ## The scanner -/

theorem le_decFrom (acc : Nat) (ds : Bytes) : acc ≤ decFrom acc ds := by
  induction ds generalizing acc with
  | nil => exact Nat.le_refl acc
  | cons ch ds ih =>
    have hnext := ih (acc * 10 + (ch.toNat - 48))
    exact le_trans (by omega) hnext

theorem decFrom_append (acc : Nat) (ds ds' : Bytes) :
    decFrom acc (ds ++ ds') = decFrom (decFrom acc ds) ds' := foldl_append

theorem shift_ten (acc : Nat) : (acc <<< 3) + (acc <<< 1) = acc * 10 := by
  omega

section
variable {s : Ip4State} {ch : UInt8} {rest : Bytes}

theorem ip4Loop_digit (hch : IsDec ch) (hnum : s.numDigit < 3)
    (hacc : s.acc * 10 + (ch.toNat - 48) ≤ 255) :
    ip4Loop (ch :: rest) s =
      ip4Loop rest { s with
        numRead := s.numRead + 1, numDigit := s.numDigit + 1
        acc := s.acc * 10 + (ch.toNat - 48) } := by
  rw [ip4Loop, if_pos (show 48 ≤ ch ∧ ch ≤ 57 from hch), if_neg (by omega)]
  rw [shift_ten, if_neg (by omega)]

theorem ip4Loop_long (hch : IsDec ch) (hnum : 3 ≤ s.numDigit) :
    ip4Loop (ch :: rest) s = .inl (2 ^ 64 - 1, s.wr) := by
  rw [ip4Loop, if_pos (show 48 ≤ ch ∧ ch ≤ 57 from hch), if_pos (by omega)]

theorem ip4Loop_large (hch : IsDec ch) (hnum : s.numDigit < 3)
    (hacc : ¬ s.acc * 10 + (ch.toNat - 48) ≤ 255) : ip4Loop (ch :: rest) s = .inl (0, s.wr) := by
  rw [ip4Loop, if_pos (show 48 ≤ ch ∧ ch ≤ 57 from hch), if_neg (by omega)]
  rw [if_pos (by omega)]

theorem ip4Loop_dot (hnum : s.numDigit ≠ 0) (hdot : s.numDot < 3) : ip4Loop (46 :: rest) s =
      ip4Loop rest ⟨s.numRead + 1, 0, s.numDot + 1, 0, s.wr ++ [UInt8.ofNat s.acc]⟩ := by
  rw [ip4Loop, if_neg (by decide), if_pos rfl, if_neg (by omega)]

theorem ip4Loop_dot_stray (h : s.numDigit = 0 ∨ 3 ≤ s.numDot) :
    ip4Loop (46 :: rest) s = .inl (0, s.wr) := by
  rw [ip4Loop, if_neg (by decide), if_pos rfl, if_pos h]

theorem ip4Loop_other (hch : ¬ IsDec ch) (hdot : ch ≠ 46) :
    ip4Loop (ch :: rest) s = .inr { s with numRead := s.numRead + 1 } := by
  rw [ip4Loop, if_neg (show ¬(48 ≤ ch ∧ ch ≤ 57) from hch), if_neg hdot]

theorem ip4Loop_digits {ds : Bytes} (hds : ∀ ch ∈ ds, IsDec ch) (hnum : s.numDigit + ds.length ≤ 3)
    (hacc : decFrom s.acc ds ≤ 255) :
    ip4Loop (ds ++ rest) s =
      ip4Loop rest { s with
        numRead := s.numRead + ds.length, numDigit := s.numDigit + ds.length
        acc := decFrom s.acc ds } := by
  induction ds generalizing s with
  | nil => rfl
  | cons ch ds ih =>
    rw [length_cons] at hnum
    have hnext : decFrom (s.acc * 10 + (ch.toNat - 48)) ds ≤ 255 := hacc
    have hsmall := le_trans (le_decFrom _ ds) hnext
    rw [cons_append, ip4Loop_digit (hds ch mem_cons_self) (by omega) hsmall,
      ih (fun c hc => hds c (.tail _ hc)) (by dsimp only; omega) hnext]
    rw [add_right_comm _, add_right_comm s.numDigit]
    rfl

end

/-! ## How the scanner ends -/

/-- The scanner behind the octets `os`, each with a dot, and the digits `ds` of the next one. -/
structure Scanned4 (os : List Bytes) (ds : Bytes) (s : Ip4State) : Prop where
  octets : ∀ o ∈ os, IsOctet o
  few : os.length ≤ 3
  next : ds = [] ∨ IsOctet ds
  numDot : s.numDot = os.length
  numDigit : s.numDigit = ds.length
  acc : s.acc = decValue ds
  wr : s.wr = octetBytes os

/-- The string that is left when the scanner is behind `os` and `ds` leads to one of these ends. -/
inductive End4 (os : List Bytes) (ds str : Bytes) (n : Nat) : (Nat × Bytes) ⊕ Ip4State → Prop where
  | zero (wr : Bytes) : End4 os ds str n (.inl (0, wr))
  | long (wr : Bytes) (hwr : wr.length ≤ 3) (hlong : LongOctet (dottedOctets os ++ ds ++ str)) :
      End4 os ds str n (.inl (2 ^ 64 - 1, wr))
  | stop (os' : List Bytes) (ds' rest : Bytes) (s : Ip4State) (hscan : Scanned4 os' ds' s)
      (hread : s.numRead ≤ n + str.length)
      (hstr : dottedOctets os ++ ds ++ str = dottedOctets os' ++ ds' ++ rest) :
      End4 os ds str n (.inr s)

section
variable {os : List Bytes} {ds str : Bytes} {s : Ip4State}

theorem isOctet_concat {ch : UInt8} (hds : ds = [] ∨ IsOctet ds) (hch : IsDec ch)
    (hlen : ds.length < 3) (hsmall : decValue ds * 10 + (ch.toNat - 48) ≤ 255) :
    IsOctet (ds ++ [ch]) := by
  refine ⟨fun c hc => ?_, append_ne_nil_of_right_ne_nil _ (cons_ne_nil _ _), ?_, ?_⟩
  · rcases mem_append.1 hc with hc | hc
    · rcases hds with rfl | hds
      · cases hc
      · exact hds.digits c hc
    · rw [mem_singleton.1 hc]
      exact hch
  · simp
    omega
  · rw [decValue, decFrom_append]
    exact hsmall

theorem dottedOctets_concat (os : List Bytes) (ds : Bytes) :
    dottedOctets (os ++ [ds]) = dottedOctets os ++ ds ++ [46] := by
  rw [dottedOctets, flatMap_append, flatMap_singleton, ← append_assoc]
  rfl

theorem Scanned4.digit (h : Scanned4 os ds s) {ch : UInt8} (hch : IsDec ch) (hlen : ds.length < 3)
    (hsmall : decValue ds * 10 + (ch.toNat - 48) ≤ 255) :
    Scanned4 os (ds ++ [ch])
      { s with
        numRead := s.numRead + 1, numDigit := s.numDigit + 1
        acc := s.acc * 10 + (ch.toNat - 48) } := by
  refine ⟨h.octets, h.few, .inr (isOctet_concat h.next hch hlen hsmall), h.numDot, ?_, ?_, h.wr⟩
  · simp [← h.numDigit]
  · rw [decValue, decFrom_append, h.acc]
    rfl

theorem Scanned4.dot (h : Scanned4 os ds s) (hds : IsOctet ds) (hdot : os.length < 3) :
    Scanned4 (os ++ [ds]) [] ⟨s.numRead + 1, 0, s.numDot + 1, 0, s.wr ++ [UInt8.ofNat s.acc]⟩ := by
  refine ⟨fun o ho => ?_, ?_, .inl rfl, ?_, rfl, rfl, ?_⟩
  · rcases mem_append.1 ho with ho | ho
    · exact h.octets o ho
    · rw [mem_singleton.1 ho]
      exact hds
  · simp
    omega
  · simp [← h.numDot]
  · rw [octetBytes, map_append, map_singleton, ← octetBytes, ← h.wr, h.acc]

theorem End4.cons {os' : List Bytes} {ds' : Bytes} {ch : UInt8} {n : Nat}
    {r : (Nat × Bytes) ⊕ Ip4State} (h : End4 os' ds' str (n + 1) r)
    (hstr : dottedOctets os' ++ ds' = dottedOctets os ++ ds ++ [ch]) :
    End4 os ds (ch :: str) n r := by
  have hall : dottedOctets os ++ ds ++ ch :: str = dottedOctets os' ++ ds' ++ str := by
    rw [hstr, append_assoc _ [ch]]
    rfl
  cases h with
  | zero wr => exact .zero wr
  | long wr hwr hlong => exact .long wr hwr (hall ▸ hlong)
  | stop os'' ds'' rest s hscan _ hrest =>
    refine .stop os'' ds'' rest s hscan ?_ (hall.trans hrest)
    rw [length_cons]
    omega

theorem ip4Loop_outcome (h : Scanned4 os ds s) : End4 os ds str s.numRead (ip4Loop str s) := by
  induction str generalizing os ds s with
  | nil => exact .stop os ds [] s h le_rfl rfl
  | cons ch str ih =>
    by_cases hch : IsDec ch
    · by_cases hlen : ds.length < 3
      · have hnum : s.numDigit < 3 := h.numDigit ▸ hlen
        by_cases hsmall : decValue ds * 10 + (ch.toNat - 48) ≤ 255
        · have hacc : s.acc * 10 + (ch.toNat - 48) ≤ 255 := h.acc ▸ hsmall
          rw [ip4Loop_digit hch hnum hacc]
          exact (ih (h.digit hch hlen hsmall)).cons (append_assoc _ _ _).symm
        · rw [ip4Loop_large hch hnum (h.acc ▸ hsmall)]
          exact .zero _
      · -- the fourth digit
        have hds : IsOctet ds := by
          rcases h.next with rfl | hds
          · exact absurd (Nat.zero_lt_succ 2) hlen
          · exact hds
        rw [ip4Loop_long hch (by rw [h.numDigit]; omega)]
        refine .long _ ?_ ⟨os, ds, ch, str, h.few, h.octets, hds, ?_, hch, rfl⟩
        · rw [h.wr, octetBytes, length_map]
          exact h.few
        · have hshort := hds.short
          omega
    · by_cases hdot : ch = 46
      · subst hdot
        rcases h.next with rfl | hds
        · rw [ip4Loop_dot_stray (.inl h.numDigit)]
          exact .zero _
        · by_cases hfew : os.length < 3
          · have hnum : s.numDigit ≠ 0 := by
              rw [h.numDigit]
              exact fun hzero => hds.nonempty (length_eq_zero_iff.1 hzero)
            rw [ip4Loop_dot hnum (h.numDot ▸ hfew)]
            refine (ih (h.dot hds hfew)).cons ?_
            simp [dottedOctets_concat]
          · rw [ip4Loop_dot_stray (.inr (by rw [h.numDot]; omega))]
            exact .zero _
      · rw [ip4Loop_other hch hdot]
        refine .stop os ds _ _ ⟨h.octets, h.few, h.next, h.numDot, h.numDigit, h.acc, h.wr⟩ ?_ rfl
        show s.numRead + 1 ≤ s.numRead + (str.length + 1)
        omega

theorem scanned4_start : Scanned4 [] [] ⟨0, 0, 0, 0, []⟩ :=
  ⟨forall_mem_nil _, zero_le, .inl rfl, rfl, rfl, rfl, rfl⟩

theorem Scanned4.octet (h : Scanned4 os [] s) (hds : IsOctet ds) :
    ∃ s', Scanned4 os ds s' ∧ s'.numRead = s.numRead + ds.length ∧
      ∀ rest, ip4Loop (ds ++ rest) s = ip4Loop rest s' := by
  have hnum : s.numDigit = 0 := h.numDigit
  have hacc : s.acc = 0 := h.acc
  have hshort := hds.short
  refine ⟨{ s with numRead := s.numRead + ds.length, numDigit := s.numDigit + ds.length
                   acc := decFrom s.acc ds }, ?_, rfl, fun _ => ?_⟩
  · refine ⟨h.octets, h.few, .inr hds, h.numDot, ?_, ?_, h.wr⟩
    · show s.numDigit + ds.length = ds.length
      omega
    · show decFrom s.acc ds = decFrom 0 ds
      rw [hacc]
  · refine ip4Loop_digits hds.digits (by omega) ?_
    rw [hacc]
    exact hds.small

theorem Scanned4.octets_read {os' : List Bytes} (h : Scanned4 os [] s) (hos : ∀ o ∈ os', IsOctet o)
    (hfew : os.length + os'.length ≤ 3) :
    ∃ s', Scanned4 (os ++ os') [] s' ∧ s'.numRead = s.numRead + (dottedOctets os').length ∧
      ∀ rest, ip4Loop (dottedOctets os' ++ rest) s = ip4Loop rest s' := by
  induction os' generalizing os s with
  | nil =>
    refine ⟨s, ?_, rfl, fun rest => rfl⟩
    rw [append_nil]
    exact h
  | cons o os' ih =>
    rw [length_cons] at hfew
    have ho := hos o mem_cons_self
    obtain ⟨s1, hscan, hread, hloop⟩ := h.octet ho
    have hnum : s1.numDigit ≠ 0 := by
      rw [hscan.numDigit]
      exact fun hzero => ho.nonempty (length_eq_zero_iff.1 hzero)
    obtain ⟨s2, hscan2, hread2, hloop2⟩ := ih (hscan.dot ho (by omega))
      (fun o' ho' => hos o' (.tail _ ho'))
      (by rw [length_append, length_singleton]; omega)
    have hcons : dottedOctets (o :: os') = o ++ 46 :: dottedOctets os' := by
      rw [dottedOctets, flatMap_cons, append_assoc]
      rfl
    refine ⟨s2, ?_, ?_, fun rest => ?_⟩
    · rw [append_assoc] at hscan2
      exact hscan2
    · rw [hread2, hcons, length_append, length_cons]
      dsimp only
      omega
    · simp [hcons, hloop, ip4Loop_dot hnum (by rw [hscan.numDot]; omega), hloop2]

/-! ## The decoder -/

/-- Whatever is returned that is neither 0 nor -1 stands for a quad at the start of the string. -/
theorem ip4StrDecode_cases (str : Bytes) : (ip4StrDecode str).1 = 0 ∨
      ((ip4StrDecode str).1 = 2 ^ 64 - 1 ∧ (ip4StrDecode str).2.length ≤ 3 ∧ LongOctet str) ∨
      ((ip4StrDecode str).1 ≤ str.length ∧ BeginsQuad str (ip4StrDecode str).2) := by
  have hend := @ip4Loop_outcome [] [] str _ scanned4_start
  unfold ip4StrDecode
  cases hr : ip4Loop str ⟨0, 0, 0, 0, []⟩ with
  | inl r =>
    rw [hr] at hend
    cases hend with
    | zero wr => exact .inl rfl
    | long wr hwr hlong => exact .inr (.inl ⟨rfl, hwr, hlong⟩)
  | inr s =>
    rw [hr] at hend
    cases hend with
    | stop os ds rest s hscan hread hstr =>
      have hread' : s.numRead ≤ 0 + str.length := hread
      dsimp only
      by_cases hbad : s.numDot ≠ 3 ∨ s.numDigit = 0
      · rw [if_pos hbad]
        exact .inl rfl
      · rw [if_neg hbad]
        obtain ⟨hdots, hdigits⟩ := not_or.1 hbad
        refine .inr (.inr ⟨by omega, os, ds, rest, ?_, hscan.octets, ?_, hstr, ?_⟩)
        · rw [← hscan.numDot]
          exact not_not.1 hdots
        · rcases hscan.next with rfl | hds
          · exact absurd hscan.numDigit hdigits
          · exact hds
        · rw [hscan.wr, hscan.acc, octetBytes, octetBytes, map_append]
          rfl

theorem ip4StrDecode_quad {os : List Bytes} {ds : Bytes} (hlen : os.length = 3)
    (hos : ∀ o ∈ os, IsOctet o) (hds : IsOctet ds) :
    ip4StrDecode (dottedOctets os ++ ds) =
      ((dottedOctets os ++ ds).length, octetBytes (os ++ [ds])) := by
  obtain ⟨s1, hscan1, hread1, hloop1⟩ := scanned4_start.octets_read hos (by rw [hlen]; exact le_rfl)
  obtain ⟨s2, hscan2, hread2, hloop2⟩ := hscan1.octet hds
  have hend := hloop2 []
  rw [append_nil] at hend
  rw [nil_append] at hscan2
  have hdigits : s2.numDigit ≠ 0 := by
    rw [hscan2.numDigit]
    exact fun hzero => hds.nonempty (length_eq_zero_iff.1 hzero)
  rw [ip4StrDecode, hloop1, hend, ip4Loop]
  dsimp only
  rw [if_neg (by rw [hscan2.numDot]; omega), hread2, hread1, hscan2.wr, hscan2.acc,
    length_append, octetBytes, octetBytes, map_append, zero_add]
  rfl

theorem ip4StrDecode_long (h : LongOctet str) :
    (ip4StrDecode str).1 = 2 ^ 64 - 1 ∧ (ip4StrDecode str).2.length ≤ 3 := by
  obtain ⟨os, ds, ch, -, hlen, hos, hds, hthree, hch, rfl⟩ := h
  obtain ⟨s1, hscan1, -, hloop1⟩ := scanned4_start.octets_read hos (by rw [length_nil]; omega)
  obtain ⟨s2, hscan2, -, hloop2⟩ := hscan1.octet hds
  rw [ip4StrDecode, append_assoc, hloop1, hloop2,
    ip4Loop_long hch (by rw [hscan2.numDigit, hthree])]
  refine ⟨rfl, ?_⟩
  rw [hscan2.wr, octetBytes, length_map]
  exact hlen

end

/-! ## Recognition -/

/-- What `ipstr_decode` tells apart. -/
inductive IpKind where
  | v4
  | v6
deriving DecidableEq

/-- `ipstr_decode` into the 16 bytes `dst`: what the string is taken for, if for an address, and the
bytes. `sock_ipstr_decode` does the same with a destination for each kind. -/
def ipstrDecode (str : Bytes) (under : UInt8) (dst : Bytes) : Option IpKind × Bytes :=
  let r := ip4StrDecode str
  let dst := blit dst 0 r.2
  if r.1 ≠ 0 then (some .v4, dst)
  else
    let r := ip6StrDecode str under dst
    (if r.1 ≠ 0 then some .v6 else none, r.2)

theorem ipstrDecode_v4 {under : UInt8} {dst : Bytes} :
    (ipstrDecode str under dst).1 = some .v4 ↔ (ip4StrDecode str).1 ≠ 0 := by
  unfold ipstrDecode
  dsimp only
  by_cases hzero : (ip4StrDecode str).1 = 0
  · rw [if_neg (not_not.2 hzero)]
    refine iff_of_false ?_ (not_not.2 hzero)
    split <;> simp
  · rw [if_pos hzero]
    exact iff_of_true rfl hzero

theorem not_beginsQuad {addr : Bytes} (hshort : addr.length ≤ 3) : ¬ BeginsQuad str addr := by
  rintro ⟨os, ds, -, hlen, -, -, -, rfl⟩
  rw [octetBytes, length_map, length_append, hlen, length_singleton] at hshort
  exact absurd hshort (by decide)

theorem BeginsQuad.dot_mem {addr : Bytes} (h : BeginsQuad str addr) : 46 ∈ str := by
  obtain ⟨os, -, -, hlen, -, -, rfl, -⟩ := h
  cases os with
  | nil => cases hlen
  | cons o os => simp [dottedOctets]

/-- For every string: a result other than 0 is at most the length of the string, the string begins
with the quad that was decoded, and it is not taken for an IPv4 address without one, exactly if no
fourth digit is read. -/
theorem ip4_recognition_iff (str : Bytes) : (((ip4StrDecode str).1 ≠ 0 →
        (ip4StrDecode str).1 ≤ str.length ∧ BeginsQuad str (ip4StrDecode str).2) ∧
      ∀ under dst, (ipstrDecode str under dst).1 = some .v4 → ∃ addr, BeginsQuad str addr) ↔
    ¬ LongOctet str := by
  constructor
  · rintro ⟨hquad, -⟩ hlong
    obtain ⟨hret, hshort⟩ := ip4StrDecode_long hlong
    exact not_beginsQuad hshort (hquad (by rw [hret]; decide)).2
  · intro hlong
    have hquad : (ip4StrDecode str).1 ≠ 0 →
        (ip4StrDecode str).1 ≤ str.length ∧ BeginsQuad str (ip4StrDecode str).2 := by
      intro hne
      rcases ip4StrDecode_cases str with hzero | ⟨-, -, hbad⟩ | hquad
      · exact absurd hzero hne
      · exact absurd hbad hlong
      · exact hquad
    exact ⟨hquad, fun _ _ hv4 => ⟨_, (hquad (ipstrDecode_v4.1 hv4)).2⟩⟩

def hexAddress : Bytes := [50, 48, 48, 49, 58, 100, 98, 56, 58, 58, 55]

/-- An IPv6 address is taken for an IPv4 address of which nothing was read. -/
theorem hex_address_taken_for_v4 :
    (ip4StrDecode hexAddress).1 = 2 ^ 64 - 1 ∧ hexAddress.length = 11 ∧
      (ipstrDecode hexAddress 0 (replicate 16 0)).1 = some .v4 ∧
      ¬ ∃ addr, BeginsQuad hexAddress addr := by
  refine ⟨by decide +kernel, rfl, by decide +kernel, ?_⟩
  rintro ⟨addr, hquad⟩
  exact absurd hquad.dot_mem (by decide)

/-- "10.0.0.1" is what it is taken for. -/
theorem quad_taken_for_v4 :
    let str : Bytes := [49, 48, 46, 48, 46, 48, 46, 49]
    (ip4StrDecode str).1 = 8 ∧ BeginsQuad str (ip4StrDecode str).2 := by
  have hlen : (ip4StrDecode [49, 48, 46, 48, 46, 48, 46, 49]).1 = 8 := by decide +kernel
  have hshort : ¬ LongOctet [49, 48, 46, 48, 46, 48, 46, 49] := by
    intro hlong
    exact absurd (hlen.symm.trans (ip4StrDecode_long hlong).1) (by decide)
  exact ⟨hlen, (((ip4_recognition_iff _).2 hshort).1 (by rw [hlen]; decide)).2⟩

/-! ## The round trip -/

theorem uint8Toa_octet (v : UInt8) : IsOctet (uint8Toa v) ∧ decValue (uint8Toa v) = v.toNat := by
  have hall : ∀ n : Fin 256, (uint8Toa (UInt8.ofNat n)).all (fun ch => decide (IsDec ch)) = true ∧
      uint8Toa (UInt8.ofNat n) ≠ [] ∧ (uint8Toa (UInt8.ofNat n)).length ≤ 3 ∧
      decValue (uint8Toa (UInt8.ofNat n)) = n := by
    decide +kernel
  have hv : v = UInt8.ofNat v.toNat := UInt8.ofNat_toNat.symm
  obtain ⟨hdigits, hne, hshort, hvalue⟩ := hall ⟨v.toNat, v.toNat_lt⟩
  rw [← hv] at hdigits hne hshort hvalue
  have hlt := v.toNat_lt
  exact ⟨⟨forall_mem_of_all hdigits, hne, hshort, by rw [hvalue]; exact Nat.le_of_lt_succ hlt⟩,
    hvalue⟩

theorem ip4StrEncode_quad {a b c d : UInt8} {len : Nat} (hlen : IP4_ADDR_STRLEN ≤ len) :
    ip4StrEncode [a, b, c, d] len =
      ((dottedOctets [uint8Toa a, uint8Toa b, uint8Toa c] ++ uint8Toa d).length,
        dottedOctets [uint8Toa a, uint8Toa b, uint8Toa c] ++ uint8Toa d) := by
  unfold ip4StrEncode
  rw [if_neg (not_lt.2 hlen)]
  simp [dottedOctets]

/-- For every address and every buffer: at most `IP4_ADDR_STRLEN` bytes are written, with the NUL
behind the text; and if the buffer has as many, the text, read with the length that was returned,
gives that length and the address. -/
theorem ip4_text_round_trip {addr : Bytes} (haddr : addr.length = 4) (len : Nat) :
    (ip4StrEncode addr len).2.length + 1 ≤ IP4_ADDR_STRLEN ∧ (IP4_ADDR_STRLEN ≤ len →
        ip4StrDecode ((ip4StrEncode addr len).2.take (ip4StrEncode addr len).1) =
          ((ip4StrEncode addr len).1, addr)) := by
  by_cases hlen : IP4_ADDR_STRLEN ≤ len
  · match addr, haddr with
    | [a, b, c, d], _ =>
      obtain ⟨ha, hav⟩ := uint8Toa_octet a
      obtain ⟨hb, hbv⟩ := uint8Toa_octet b
      obtain ⟨hc, hcv⟩ := uint8Toa_octet c
      obtain ⟨hd, hdv⟩ := uint8Toa_octet d
      rw [ip4StrEncode_quad hlen, take_length]
      refine ⟨?_, fun _ => ?_⟩
      · have hsa := ha.short
        have hsb := hb.short
        have hsc := hc.short
        have hsd := hd.short
        simp only [dottedOctets, flatMap_cons, flatMap_nil, length_append,
          length_singleton, length_nil]
        show _ ≤ 16
        omega
      · rw [ip4StrDecode_quad rfl (by simp [ha, hb, hc]) hd]
        simp [octetBytes, hav, hbv, hcv, hdv]
  · refine ⟨?_, fun hle => absurd hle hlen⟩
    rw [ip4StrEncode, if_pos (not_le.1 hlen)]
    decide

theorem quad_round_trip :
    ip4StrEncode [10, 0, 0, 255] 16 = (10, [49, 48, 46, 48, 46, 48, 46, 50, 53, 53]) ∧
      ip4StrDecode [49, 48, 46, 48, 46, 48, 46, 50, 53, 53] = (10, [10, 0, 0, 255]) := by
  have htext : ip4StrEncode [10, 0, 0, 255] 16 =
      (10, [49, 48, 46, 48, 46, 48, 46, 50, 53, 53]) := by
    decide +kernel
  have htrip := (@ip4_text_round_trip [10, 0, 0, 255] rfl 16).2 le_rfl
  exact ⟨htext, htrip⟩

end CDbK8s.Inet
