import CDbK8s.Hashmap.Refine

/-!
# The stored keys

The keys of a string map are pointers, and the map keeps the pointers it was given: growing
and inserting store no other (`mapPut_keys`). A change of the memory that leaves the strings at
the stored pointers leaves the contents (`Holds.remember`).
-/

namespace CDbK8s.Hashmap

open Function

section
variable {Key Val : Type} {T : Instance Key Val} {P : Key → Prop}

/-- The keys of the live entries satisfy `P`. -/
def Map.Keys (T : Instance Key Val) (P : Key → Prop) (m : Map Key Val) : Prop :=
  ∀ i, m.Live T i → P (m.buckets i).key

theorem key_update {buckets : Nat → Entry Key Val} {idx i : Nat} {e : Entry Key Val}
    (h : i ≠ idx → (buckets i).key ≠ T.zero → P (buckets i).key) (he : P e.key)
    (hne : (update buckets idx e i).key ≠ T.zero) :
    P (update buckets idx e i).key := by
  by_cases hi : i = idx
  · subst hi
    rw [update_self]
    exact he
  · rw [update_of_ne hi] at hne ⊢
    exact h hi hne

variable [DecidableEq Key]

theorem rehash_keys {old : Nat → Entry Key Val} {nbits mask : Nat} :
    ∀ (n i : Nat) (buckets : Nat → Entry Key Val) (size : Nat) {r : (Nat → Entry Key Val) × Nat},
      (∀ j < i + n, (old j).key ≠ T.zero → P (old j).key) →
      (∀ j, (buckets j).key ≠ T.zero → P (buckets j).key) →
      rehash T old nbits mask n i buckets size = some r →
      ∀ j, (r.1 j).key ≠ T.zero → P (r.1 j).key := by
  intro n
  induction n with
  | zero =>
    intro i buckets size r _ hb hrun
    rw [rehash, Option.some.injEq] at hrun
    exact hrun ▸ hb
  | succ n ih =>
    intro i buckets size r hold hb hrun
    have hrest : ∀ j < i + 1 + n, (old j).key ≠ T.zero → P (old j).key :=
      fun j _ => hold j (by omega)
    rw [rehash] at hrun
    by_cases hzero : (old i).key = T.zero
    · rw [if_pos hzero] at hrun
      exact ih _ _ _ hrest hb hrun
    · rw [if_neg hzero] at hrun
      cases hfree : freeSlot T buckets mask _ _ with
      | none =>
        rw [hfree] at hrun
        exact absurd hrun (by simp)
      | some _ =>
        rw [hfree] at hrun
        exact ih _ _ _ hrest (fun j => key_update (fun _ => hb j) (hold i (by omega) hzero)) hrun

variable {m : Map Key Val} {key : Key} {val : Val} {callocOk : Bool} {r : Nat × Map Key Val}

theorem mapResize_cases {capacity : Nat} {r : Bool × Map Key Val}
    (hrun : mapResize T m capacity callocOk = some r) :
    r.2 = m ∨ (∃ b, rehash T m.buckets (newBits capacity) (2 ^ newBits capacity - 1) m.capacity 0
      (fun _ => T.zeroEntry) 0 = some b ∧ r.2.buckets = b.1) ∧ r.2.isFixed = m.isFixed := by
  unfold mapResize at hrun
  by_cases hfix : m.isFixed = true
  · rw [if_pos hfix, Option.some.injEq] at hrun
    exact .inl (hrun ▸ rfl)
  · rw [if_neg hfix] at hrun
    dsimp only at hrun
    cases callocOk with
    | false =>
      rw [if_neg (by decide), Option.some.injEq] at hrun
      exact .inl (hrun ▸ rfl)
    | true =>
      rw [if_pos rfl] at hrun
      cases hre : rehash T m.buckets _ _ _ 0 (fun _ => T.zeroEntry) 0 with
      | none =>
        rw [hre] at hrun
        exact absurd hrun (by simp)
      | some b =>
        rw [hre, Option.some.injEq] at hrun
        exact .inr (hrun ▸ ⟨⟨b, rfl, rfl⟩, rfl⟩)

theorem mapResize_keys (h : m.Keys T P) {capacity : Nat} {r : Bool × Map Key Val}
    (hrun : mapResize T m capacity callocOk = some r) : r.2.Keys T P := by
  rcases mapResize_cases hrun with hsame | ⟨⟨b, hre, hb⟩, -⟩
  · rw [hsame]
    exact h
  · have hkeys := rehash_keys _ _ _ _ (fun j hj hne => h j ⟨by omega, hne⟩)
      (fun j hne => absurd rfl hne) hre
    intro j hj
    rw [hb]
    exact hkeys j (hb ▸ hj.2)

theorem putEntry_cases (hrun : putEntry T m key val = some r) :
    r = (mapEnd m, m) ∨ ∃ idx size, r = (idx, { m with
      size, buckets := update m.buckets idx ⟨sanitize T key, val⟩ }) := by
  unfold putEntry at hrun
  by_cases htop : key = T.top
  · rw [if_pos htop, Option.some.injEq] at hrun
    exact .inl hrun.symm
  · rw [if_neg htop] at hrun
    cases hp : probeKey T m _ with
    | none =>
      rw [hp] at hrun
      exact absurd hrun (by simp)
    | some at? =>
      rw [hp] at hrun
      cases at? with
      | none => exact .inl (Option.some.inj hrun).symm
      | some idx => exact .inr ⟨idx, _, (Option.some.inj hrun).symm⟩

theorem putEntry_keys (h : m.Keys T P) (hkey : P (sanitize T key))
    (hrun : putEntry T m key val = some r) : r.2.Keys T P := by
  rcases putEntry_cases hrun with rfl | ⟨-, -, rfl⟩
  · exact h
  · exact fun i hi => key_update (fun _ hne => h i ⟨hi.1, hne⟩) hkey hi.2

theorem mapPut_cases (hrun : mapPut T m key val callocOk = some r) :
    (m.size < m.threshold ∧ putEntry T m key val = some r) ∨
      m.threshold ≤ m.size ∧ ∃ ok m1, mapResize T m ((m.capacity + 1) % 2 ^ 32) callocOk =
        some (ok, m1) ∧ (r = (mapEnd m1, m1) ∨ putEntry T m1 key val = some r) := by
  unfold mapPut at hrun
  by_cases hfull : m.size ≥ m.threshold
  · rw [if_pos hfull] at hrun
    refine .inr ⟨hfull, ?_⟩
    cases hres : mapResize T m _ _ with
    | none =>
      rw [hres] at hrun
      exact absurd hrun (by simp)
    | some res =>
      rw [hres] at hrun
      obtain ⟨ok, m1⟩ := res
      cases ok with
      | false => exact ⟨false, m1, rfl, .inl (Option.some.inj hrun).symm⟩
      | true => exact ⟨true, m1, rfl, .inr hrun⟩
  · rw [if_neg hfull] at hrun
    exact .inl ⟨not_le.1 hfull, hrun⟩

/-- `MAP_FN(put)` returns the index of its entry, or the end. It never changes who owns the
buckets, and a map with room does not grow. -/
theorem mapPut_entry {m' : Map Key Val} {idx : Nat}
    (hrun : mapPut T m key val callocOk = some (idx, m')) :
    (idx = mapEnd m' ∨ m'.buckets idx = ⟨sanitize T key, val⟩) ∧ m'.isFixed = m.isFixed ∧
      (m.size < m.threshold → m'.threshold = m.threshold) := by
  have hput : ∀ {m1 : Map Key Val}, putEntry T m1 key val = some (idx, m') →
      (idx = mapEnd m' ∨ m'.buckets idx = ⟨sanitize T key, val⟩) ∧ m'.isFixed = m1.isFixed ∧
        m'.threshold = m1.threshold := by
    intro m1 hrun
    rcases putEntry_cases hrun with h | ⟨i, size, h⟩
    · cases h
      exact ⟨.inl rfl, rfl, rfl⟩
    · cases h
      exact ⟨.inr (update_self _ _ _), rfl, rfl⟩
  rcases mapPut_cases hrun with ⟨-, hentry⟩ | ⟨hfull, ok, m1, hres, hrest⟩
  · exact ⟨(hput hentry).1, (hput hentry).2.1, fun _ => (hput hentry).2.2⟩
  · have hfix : m1.isFixed = m.isFixed := by
      rcases mapResize_cases hres with hsame | ⟨-, hsame⟩
      · exact congrArg Map.isFixed hsame
      · exact hsame
    refine ⟨?_, ?_, fun hlt => absurd hfull (not_le.2 hlt)⟩
    · rcases hrest with h | hentry
      · cases h
        exact .inl rfl
      · exact (hput hentry).1
    · rcases hrest with h | hentry
      · cases h
        exact hfix
      · exact (hput hentry).2.1.trans hfix

theorem mapPut_keys (h : m.Keys T P) (hkey : P (sanitize T key))
    (hrun : mapPut T m key val callocOk = some r) : r.2.Keys T P := by
  rcases mapPut_cases hrun with ⟨-, hentry⟩ | ⟨-, ok, m1, hres, rfl | hentry⟩
  · exact putEntry_keys h hkey hentry
  · exact mapResize_keys h hres
  · exact putEntry_keys (mapResize_keys h hres) hkey hentry

end

theorem Holds.remember {Val : Type} {zeroVal : Val} {mem mem' : Ptr → CString}
    {m : Map Ptr Val} {f : CString → Option Val}
    (h : Holds (mapStr Val zeroVal mem) mem m f)
    (hkeys : m.Keys (mapStr Val zeroVal mem) fun p => mem' p = mem p) :
    Holds (mapStr Val zeroVal mem') mem' m f := by
  have hgood : State.Good (t := strTemplate Val zeroVal) ⟨mem, m, f⟩ := h
  exact hgood.change fun i hi => hkeys i ⟨hi.1, hi.2⟩

end CDbK8s.Hashmap
