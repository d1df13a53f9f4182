import Mathlib.Tactic

/-!
# Loops that may not end

`body a` is one pass of a loop in the state `a`: it leaves the loop with a result, or goes on in
another state.
-/

namespace CDbK8s.Lib.Loops

variable {n : Nat}

universe u v

variable {A : Type u} {B : Type v}

/-- At most `n` passes from the state `a`; `none` when they do not reach a result. -/
def loop (body : A → B ⊕ A) : Nat → A → Option B
  | 0, _ => none
  | n + 1, a =>
    match body a with
    | .inl r => some r
    | .inr b => loop body n b

/-- One pass goes on from `a` to `b`. -/
def Next (body : A → B ⊕ A) (a b : A) : Prop := body a = .inr b

/-- The loop from `a` leaves with the result `r`. -/
def Returns (body : A → B ⊕ A) (a : A) (r : B) : Prop :=
  ∃ b, Relation.ReflTransGen (Next body) a b ∧ body b = .inl r

/-- The loop from `a` reaches a state to which it comes back. -/
def Circles (body : A → B ⊕ A) (a : A) : Prop :=
  ∃ b, Relation.ReflTransGen (Next body) a b ∧ Relation.TransGen (Next body) b b

variable {body : A → B ⊕ A}

theorem loop_inl {a : A} {r : B} (h : body a = .inl r) (n : Nat) :
    loop body (n + 1) a = some r := by
  rw [loop, h]

theorem loop_inr {a b : A} (h : body a = .inr b) (n : Nat) :
    loop body (n + 1) a = loop body n b := by
  rw [loop, h]

/-! ## Results -/

theorem returns_of_loop {a : A} {r : B} (h : loop body n a = some r) : Returns body a r := by
  induction n generalizing a with
  | zero => exact absurd h (by simp [loop])
  | succ n ih =>
    cases hb : body a with
    | inl _ =>
      rw [loop_inl hb, Option.some.injEq] at h
      exact ⟨a, .refl, by rw [hb, h]⟩
    | inr b =>
      rw [loop_inr hb] at h
      obtain ⟨c, hc, hr⟩ := ih h
      exact ⟨c, hc.head hb, hr⟩

theorem Circles.next {a : A} (h : Circles body a) : ∃ b, body a = .inr b ∧ Circles body b := by
  obtain ⟨c, hac, hcc⟩ := h
  rcases Relation.ReflTransGen.cases_head hac with rfl | ⟨b, hab, hbc⟩
  · obtain ⟨b, hab, hbc⟩ := Relation.TransGen.head'_iff.1 hcc
    exact ⟨b, hab, a, hbc, hcc⟩
  · exact ⟨b, hab, c, hbc, hcc⟩

theorem Circles.loop_eq_none {a : A} (h : Circles body a) (n : Nat) : loop body n a = none := by
  induction n generalizing a with
  | zero => rfl
  | succ n ih =>
    obtain ⟨b, hab, hb⟩ := h.next
    rw [loop_inr hab]
    exact ih hb

theorem Returns.unique {a : A} {r r' : B} (h : Returns body a r) (h' : Returns body a r') :
    r = r' := by
  obtain ⟨b, hab, hr⟩ := h
  obtain ⟨c, hac, hr'⟩ := h'
  induction hab using Relation.ReflTransGen.head_induction_on with
  | refl =>
    rcases Relation.ReflTransGen.cases_head hac with rfl | ⟨d, hd, -⟩
    · rw [hr, Sum.inl.injEq] at hr'
      exact hr'
    · rw [Next, hr] at hd
      exact absurd hd (by simp)
  | head hnext _ ih =>
    rcases Relation.ReflTransGen.cases_head hac with rfl | ⟨d, hd, hdc⟩
    · rw [Next, hr'] at hnext
      exact absurd hnext (by simp)
    · rw [Next, hnext, Sum.inr.injEq] at hd
      exact ih (hd ▸ hdc)

/-! ## Finitely many states -/

theorem exists_trace {a : A} (h : loop body n a = none) :
    ∃ f : Nat → A, f 0 = a ∧ ∀ k < n, Next body (f k) (f (k + 1)) := by
  induction n generalizing a with
  | zero => exact ⟨fun _ => a, rfl, fun k hk => absurd hk (Nat.not_lt_zero k)⟩
  | succ n ih =>
    cases hb : body a with
    | inl r =>
      rw [loop_inl hb] at h
      exact absurd h (by simp)
    | inr b =>
      rw [loop_inr hb] at h
      obtain ⟨f, hf, hnext⟩ := ih h
      refine ⟨fun k => k.casesOn a f, rfl, fun k hk => ?_⟩
      cases k with
      | zero => exact hb.trans (by rw [← hf])
      | succ k => exact hnext k (by omega)

theorem trace_leads {f : Nat → A} (hf : ∀ k < n, Next body (f k) (f (k + 1))) {i : Nat} (hi : i ≤ n) :
    Relation.ReflTransGen (Next body) (f 0) (f i) := by
  induction i with
  | zero => exact .refl
  | succ i ih => exact (ih (by omega)).tail (hf i (by omega))

theorem trace_passes {f : Nat → A} (hf : ∀ k < n, Next body (f k) (f (k + 1))) {i j : Nat}
    (hij : i < j) (hj : j ≤ n) : Relation.TransGen (Next body) (f i) (f j) := by
  induction j with
  | zero => omega
  | succ j ih =>
    have hlast := hf j (by omega)
    by_cases hji : i = j
    · rw [hji]
      exact .single hlast
    · exact (ih (by omega) (by omega)).tail hlast

theorem circles_of_loop_eq_none {a : A} {s : Finset A}
    (hs : ∀ b c, Relation.ReflTransGen (Next body) a b → Next body b c → b ∈ s) (hn : s.card < n)
    (h : loop body n a = none) : Circles body a := by
  classical
  obtain ⟨f, rfl, hf⟩ := exists_trace h
  have hmaps : ∀ k ∈ Finset.range n, f k ∈ s := fun k hk => by
    have hk' := Finset.mem_range.1 hk
    exact hs _ _ (trace_leads hf hk'.le) (hf k hk')
  -- two of the passes start in one state
  obtain ⟨i, hi, j, hj, hij, heq⟩ :=
    Finset.exists_ne_map_eq_of_card_lt_of_maps_to (by rwa [Finset.card_range]) hmaps
  rw [Finset.mem_range] at hi hj
  rcases Nat.lt_or_gt_of_ne hij with hlt | hlt
  · have hround := trace_passes hf hlt hj.le
    rw [← heq] at hround
    exact ⟨f i, trace_leads hf hi.le, hround⟩
  · have hround := trace_passes hf hlt hi.le
    rw [heq] at hround
    exact ⟨f j, trace_leads hf hj.le, hround⟩

theorem loop_eq_none_iff {a : A} {s : Finset A}
    (hs : ∀ b c, Relation.ReflTransGen (Next body) a b → Next body b c → b ∈ s) (hn : s.card < n) :
    loop body n a = none ↔ Circles body a :=
  ⟨circles_of_loop_eq_none hs hn, fun h => h.loop_eq_none n⟩

theorem Circles.not_returns {a : A} (h : Circles body a) (r : B) : ¬ Returns body a r := by
  rintro ⟨b, hab, hr⟩
  induction hab using Relation.ReflTransGen.head_induction_on with
  | refl =>
    obtain ⟨c, hc, -⟩ := h.next
    rw [hr] at hc
    exact absurd hc (by simp)
  | head hnext _ ih =>
    obtain ⟨c, hc, hcirc⟩ := h.next
    rw [Next, hc, Sum.inr.injEq] at hnext
    exact ih (hnext ▸ hcirc)

theorem loop_eq_some_iff {a : A} {s : Finset A}
    (hs : ∀ b c, Relation.ReflTransGen (Next body) a b → Next body b c → b ∈ s) (hn : s.card < n)
    {r : B} : loop body n a = some r ↔ Returns body a r := by
  refine ⟨returns_of_loop, fun hr => ?_⟩
  cases h : loop body n a with
  | none => exact absurd hr (((loop_eq_none_iff hs hn).1 h).not_returns r)
  | some _ => rw [(returns_of_loop h).unique hr]

end CDbK8s.Lib.Loops
