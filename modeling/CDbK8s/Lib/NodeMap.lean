import Mathlib.Tactic

/-!
# Partial maps held in nodes, one entry each
-/

namespace CDbK8s.Lib.NodeMap

open Function

universe u v w

variable {N : Type u} {K : Type v} {V : Type w}

/-- The nodes `S` with the entries `ent` represent the map `f`. -/
structure Represents (S : N → Prop) (ent : N → K × V) (f : K → Option V) : Prop where
  unique : ∀ a, S a → ∀ b, S b → (ent a).1 = (ent b).1 → a = b
  live : ∀ k v, f k = some v ↔ ∃ a, S a ∧ ent a = (k, v)

variable {S S' : N → Prop} {ent ent' : N → K × V} {f : K → Option V} {k : K} {v : V}

theorem represents_empty (h : ∀ a, ¬ S a) : Represents S ent fun _ => none :=
  ⟨fun a ha => absurd ha (h a), fun k v => by simpa using fun a ha => absurd ha (h a)⟩

section
variable (h : Represents S ent f)
include h

theorem Represents.congr (hS : ∀ a, S' a ↔ S a) (hent : ∀ a, S a → ent' a = ent a) :
    Represents S' ent' f := by
  refine ⟨fun a ha b hb hab => ?_, fun k v => (h.live k v).trans ?_⟩
  · rw [hS] at ha hb
    rw [hent a ha, hent b hb] at hab
    exact h.unique a ha b hb hab
  · refine exists_congr fun a => ?_
    rw [hS]
    exact and_congr_right fun ha => by rw [hent a ha]

theorem Represents.eq_none (hk : ∀ a, S a → (ent a).1 ≠ k) : f k = none := by
  rw [Option.eq_none_iff_forall_ne_some]
  intro v hv
  obtain ⟨a, ha, hent⟩ := (h.live k v).1 hv
  exact hk a ha (by rw [hent])

theorem Represents.eq_some {a : N} (ha : S a) (hk : (ent a).1 = k) : f k = some (ent a).2 :=
  (h.live k (ent a).2).2 ⟨a, ha, by rw [← hk]⟩

theorem Represents.ext {g : K → Option V} (hg : Represents S ent g) : f = g := by
  funext k
  refine Option.ext fun v => ?_
  rw [h.live, hg.live]

theorem Represents.erase [DecidableEq K] (hS : ∀ a, S' a ↔ S a ∧ (ent a).1 ≠ k) :
    Represents S' ent (update f k none) := by
  refine ⟨fun a ha b hb hab => h.unique a ((hS a).1 ha).1 b ((hS b).1 hb).1 hab, fun k' v => ?_⟩
  by_cases hk : k' = k
  · subst hk
    refine ⟨fun hnone => by simp at hnone, ?_⟩
    rintro ⟨a, ha, hent⟩
    exact absurd (by rw [hent]) ((hS a).1 ha).2
  · rw [update_of_ne hk, h.live]
    refine exists_congr fun a => ⟨fun ⟨ha, hent⟩ => ⟨(hS a).2 ⟨ha, ?_⟩, hent⟩,
      fun ⟨ha, hent⟩ => ⟨((hS a).1 ha).1, hent⟩⟩
    rw [hent]
    exact hk

theorem Represents.insert [DecidableEq K] [DecidableEq N] {b : N} (hfree : S b → (ent b).1 = k)
    (hS : ∀ a, S' a ↔ a = b ∨ (a ≠ b ∧ S a ∧ (ent a).1 ≠ k)) :
    Represents S' (update ent b (k, v)) (update f k (some v)) := by
  have hb : update ent b (k, v) b = (k, v) := update_self ..
  have hne : ∀ a, a ≠ b → update ent b (k, v) a = ent a := fun a ha =>
    update_of_ne ha ..
  refine ⟨fun a ha c hc hac => ?_, fun k' _ => ?_⟩
  · rcases (hS a).1 ha with rfl | ⟨hab, hSa, hka⟩
    · rcases (hS c).1 hc with rfl | ⟨hcb, hSc, hkc⟩
      · rfl
      · rw [hb, hne c hcb] at hac
        exact absurd hac.symm hkc
    · rw [hne a hab] at hac
      rcases (hS c).1 hc with rfl | ⟨hcb, hSc, hkc⟩
      · rw [hb] at hac
        exact absurd hac hka
      · rw [hne c hcb] at hac
        exact h.unique a hSa c hSc hac
  · by_cases hk : k' = k
    · subst hk
      rw [update_self]
      refine ⟨fun hv => ⟨b, (hS b).2 (.inl rfl), by rw [hb, Option.some.inj hv]⟩, ?_⟩
      rintro ⟨a, ha, hent⟩
      rcases (hS a).1 ha with rfl | ⟨hab, hSa, hka⟩
      · rw [hb, Prod.mk.injEq] at hent
        rw [hent.2]
      · rw [hne a hab] at hent
        exact absurd (by rw [hent]) hka
    · rw [update_of_ne hk, h.live]
      refine exists_congr fun a => ⟨fun ⟨ha, hent⟩ => ?_, fun ⟨ha, hent⟩ => ?_⟩
      · have hka : (ent a).1 ≠ k := by
          rw [hent]
          exact hk
        have hab : a ≠ b := by
          rintro rfl
          exact hka (hfree ha)
        exact ⟨(hS a).2 (.inr ⟨hab, ha, hka⟩), by rw [hne a hab, hent]⟩
      · rcases (hS a).1 ha with rfl | ⟨hab, hSa, hka⟩
        · rw [hb, Prod.mk.injEq] at hent
          exact absurd hent.1.symm hk
        · rw [hne a hab] at hent
          exact ⟨hSa, hent⟩

theorem Represents.add [DecidableEq K] [DecidableEq N] {b : N} (hb : ¬ S b)
    (hnew : ∀ a, S a → (ent a).1 ≠ (ent b).1) (hS : ∀ a, S' a ↔ a = b ∨ S a) :
    Represents S' ent (update f (ent b).1 (some (ent b).2)) := by
  have hins : Represents S' (update ent b ((ent b).1, (ent b).2))
      (update f (ent b).1 (some (ent b).2)) := by
    refine h.insert (fun hSb => absurd hSb hb) fun a => ?_
    rw [hS]
    refine or_congr_right ⟨fun ha => ⟨?_, ha, hnew a ha⟩, fun ha => ha.2.1⟩
    rintro rfl
    exact hb ha
  rwa [Prod.mk.eta, update_eq_self] at hins

theorem Represents.move [DecidableEq N] {a b : N} (ha : S a) (hb : ¬ S b)
    (hS : ∀ c, S' c ↔ c = b ∨ (S c ∧ c ≠ a)) : Represents S' (update ent b (ent a)) f := by
  have hself : update ent b (ent a) b = ent a := update_self ..
  have hne : ∀ c, S c → update ent b (ent a) c = ent c := fun c hc =>
    update_of_ne (by rintro rfl; exact hb hc) ..
  refine ⟨fun c hc d hd hcd => ?_, fun k v => (h.live k v).trans ⟨?_, ?_⟩⟩
  · rcases (hS c).1 hc with rfl | ⟨hSc, hca⟩
    · rcases (hS d).1 hd with rfl | ⟨hSd, hda⟩
      · rfl
      · rw [hself, hne d hSd] at hcd
        exact absurd (h.unique a ha d hSd hcd).symm hda
    · rw [hne c hSc] at hcd
      rcases (hS d).1 hd with rfl | ⟨hSd, hda⟩
      · rw [hself] at hcd
        exact absurd (h.unique c hSc a ha hcd) hca
      · rw [hne d hSd] at hcd
        exact h.unique c hSc d hSd hcd
  · rintro ⟨c, hc, hent⟩
    by_cases hca : c = a
    · exact ⟨b, (hS b).2 (.inl rfl), by rw [hself, ← hca, hent]⟩
    · exact ⟨c, (hS c).2 (.inr ⟨hc, hca⟩), by rw [hne c hc, hent]⟩
  · rintro ⟨c, hc, hent⟩
    rcases (hS c).1 hc with rfl | ⟨hSc, -⟩
    · exact ⟨a, ha, by rw [← hself, hent]⟩
    · exact ⟨c, hSc, by rw [← hne c hSc, hent]⟩

/-- The keys that are bound. -/
def liveKeys (f : K → Option V) : Set K := {k | f k ≠ none}

theorem Represents.liveKeys_eq : liveKeys f = Set.image (fun a => (ent a).1) {a | S a} := by
  ext k
  simp only [liveKeys, Set.mem_image, Option.ne_none_iff_exists']
  refine ⟨?_, ?_⟩
  · rintro ⟨v, hv⟩
    obtain ⟨a, ha, hent⟩ := (h.live k v).1 hv
    exact ⟨a, ha, by rw [hent]⟩
  · rintro ⟨a, ha, rfl⟩
    exact ⟨_, h.eq_some ha rfl⟩

theorem Represents.ncard_liveKeys : (liveKeys f).ncard = {a | S a}.ncard := by
  rw [h.liveKeys_eq]
  exact Set.InjOn.ncard_image fun a ha b hb hab => h.unique a ha b hb hab

theorem Represents.finite_liveKeys (hfin : {a | S a}.Finite) : (liveKeys f).Finite := by
  rw [h.liveKeys_eq]
  exact hfin.image _

end

theorem ncard_liveKeys_insert [DecidableEq K] (hfin : (liveKeys f).Finite) (hk : f k = none) :
    (liveKeys (update f k (some v))).ncard = (liveKeys f).ncard + 1 := by
  have hset : liveKeys (update f k (some v)) = insert k (liveKeys f) := by
    ext k'
    by_cases hkk : k' = k
    · simp [liveKeys, hkk]
    · simp [liveKeys, hkk]
  rw [hset, Set.ncard_insert_of_notMem (by simp [liveKeys, hk]) hfin]

theorem liveKeys_update_of_live [DecidableEq K] (hk : f k ≠ none) :
    liveKeys (update f k (some v)) = liveKeys f := by
  ext k'
  by_cases hkk : k' = k
  · simp [liveKeys, hkk, hk]
  · simp [liveKeys, update_of_ne hkk]

theorem ncard_liveKeys_erase [DecidableEq K] (hk : f k ≠ none) :
    (liveKeys (update f k none)).ncard = (liveKeys f).ncard - 1 := by
  have hset : liveKeys (update f k none) = liveKeys f \ {k} := by
    ext k'
    by_cases hkk : k' = k
    · simp [liveKeys, hkk]
    · simp [liveKeys, hkk]
  rw [hset]
  exact Set.ncard_sdiff_singleton_of_mem hk

end CDbK8s.Lib.NodeMap
