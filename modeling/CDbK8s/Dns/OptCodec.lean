import CDbK8s.Dns.Stages

/-!
# `DNS_TYPE_OPT` there and back

The extended response code and the version of `DNS_TYPE_OPT` stand in the upper half of the TTL,
and the flag for DNSSEC in the lower half. The encoder puts its 16 bits of flags in the upper
half, never writes the response code and the version, and leaves the TTL of the record in the
lower half.
-/

namespace CDbK8s.Dns

open Base Lib.ByteMem Lib.Exits List

/-! ## The fields -/

/-- A message without records: reset, with a header, and perhaps with a question. -/
inductive Asked : Msg → Prop where
  | reset (m : Msg) : Asked (dnsMsgReset m)
  | init {m : Msg} (id flags : UInt16) (h : Asked m) : Asked (dnsMsgInit m id flags)
  | addQd {m m' : Msg} {qname : Option Bytes} {qtype qclass : UInt16} (h : Asked m)
      (hadd : dnsAddQd m qname qtype qclass = (0, m')) : Asked m'

theorem Asked.stored {m : Msg} (h : Asked m) (ov : Overlay) :
    m.Stored ov ∧ ∀ sc, (m.sect sc).count = 0 := by
  induction h with
  | reset m => exact ⟨stored_reset ov m, fun sc => by cases sc <;> rfl⟩
  | @init m id flags _ ih =>
    obtain ⟨hstored, hnone⟩ := ih
    have hsame : ∀ sc, (dnsMsgInit m id flags).sect sc = m.sect sc := fun sc => by cases sc <;> rfl
    exact ⟨⟨hstored.qdLen, fun sc => hsame sc ▸ hstored.count sc, hstored.quests,
      fun sc => hsame sc ▸ hstored.recs sc, hstored.names, hstored.store⟩,
      fun sc => hsame sc ▸ hnone sc⟩
  | addQd _ hadd ih =>
    obtain ⟨hstored, hsame⟩ := ih.1.addQd hadd
    exact ⟨hstored, fun sc => (hsame sc).symm ▸ ih.2 sc⟩

end CDbK8s.Dns
