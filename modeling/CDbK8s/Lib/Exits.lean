import Mathlib.Tactic

/-!
# Straight-line code with early exits

A function of the program that works on a state and may return from its middle is a term of
`EStateM`: it ends with a value or with an exit, and keeps its state in both cases (`after`). For a
reflexive and transitive `R` there is one rule of `Along R` for each way of composing code, so that
a fact about every path through a function is proved along its text. `InStep R` compares two runs
so.
-/

namespace CDbK8s.Lib.Exits

universe u

variable {ε σ α β : Type u}

/-- The state at the end, by a value or by an exit. -/
def after : EStateM.Result ε σ α → σ
  | .ok _ s => s
  | .error _ s => s

/-- The code came to its end. -/
def ended : EStateM.Result ε σ α → Bool
  | .ok _ _ => true
  | .error _ _ => false

theorem eq_ok_of_ended {r : EStateM.Result ε σ PUnit} (h : ended r = true) :
    r = .ok ⟨⟩ (after r) := by
  cases r with
  | ok a s => rfl
  | error e s => cases h

section
variable {x : EStateM ε σ α} {f : α → EStateM ε σ β} {s s' : σ}

theorem bind_ok {a : α} (h : x s = .ok a s') : (x >>= f) s = f a s' := by
  show EStateM.bind x f s = f a s'
  unfold EStateM.bind
  rw [h]

theorem bind_exit {e : ε} (h : x s = .error e s') : (x >>= f) s = .error e s' := by
  show EStateM.bind x f s = .error e s'
  unfold EStateM.bind
  rw [h]

theorem of_bind_ok {b : β} (h : (x >>= f) s = .ok b s') :
    ∃ a t, x s = .ok a t ∧ f a t = .ok b s' := by
  cases hx : x s with
  | ok a t =>
    rw [bind_ok hx] at h
    exact ⟨a, t, rfl, h⟩
  | error e t =>
    rw [bind_exit hx] at h
    cases h

end

/-- What `x` does to the state `s`, on every path. -/
def Along (R : σ → σ → Prop) (x : EStateM ε σ α) (s : σ) : Prop := R s (after (x s))

section
variable {R : σ → σ → Prop} {x : EStateM ε σ α} {f : α → EStateM ε σ β} {s : σ}

theorem Along.bind [IsTrans σ R] (hx : Along R x s)
    (hf : ∀ a s', x s = .ok a s' → Along R (f a) s') : Along R (x >>= f) s := by
  unfold Along at *
  cases hr : x s with
  | ok a s' =>
    rw [hr] at hx
    rw [bind_ok hr]
    exact IsTrans.trans _ _ _ hx (hf a s' hr)
  | error e s' =>
    rw [hr] at hx
    rw [bind_exit hr]
    exact hx

theorem along_pure [Std.Refl R] (a : α) : Along R (pure a : EStateM ε σ α) s := refl s

theorem along_throw [Std.Refl R] (e : ε) : Along R (throw e : EStateM ε σ α) s := refl s

theorem along_ite {c : Prop} [Decidable c] {x y : EStateM ε σ α} (hx : c → Along R x s)
    (hy : ¬ c → Along R y s) : Along R (if c then x else y) s := by
  by_cases hc : c
  · rw [if_pos hc]
    exact hx hc
  · rw [if_neg hc]
    exact hy hc

theorem along_get {f : σ → EStateM ε σ β} (h : Along R (f s) s) : Along R (get >>= f) s := h

end

/-! ## Values -/

/-- Every value that `x` ends with has the property `P`. -/
structure Returns (P : α → Prop) (x : EStateM ε σ α) : Prop where
  value : ∀ s a s', x s = .ok a s' → P a

section
variable {P : α → Prop} {Q : β → Prop}

theorem returns_pure {a : α} (h : P a) : Returns P (pure a : EStateM ε σ α) := by
  refine ⟨?_⟩
  intro s _ _ heq
  cases heq
  exact h

theorem Returns.bind {x : EStateM ε σ α} {f : α → EStateM ε σ β} (hx : Returns P x)
    (hf : ∀ a, P a → Returns Q (f a)) : Returns Q (x >>= f) := by
  refine ⟨?_⟩
  intro s b s' heq
  obtain ⟨a, t, hxa, hfb⟩ := of_bind_ok heq
  exact (hf a (hx.value s a t hxa)).value t b s' hfb

theorem returns_ite {c : Prop} [Decidable c] {x y : EStateM ε σ α} (hx : Returns P x)
    (hy : Returns P y) : Returns P (if c then x else y) := by
  split
  · exact hx
  · exact hy

theorem returns_bind {x : EStateM ε σ α} {f : α → EStateM ε σ β} (hf : ∀ a, Returns Q (f a)) :
    Returns Q (x >>= f) :=
  Returns.bind ⟨fun _ _ _ _ => trivial⟩ fun a _ => hf a

end

/-! ## Two runs -/

/-- Both end with one value, in states that `Q` relates, or by one exit, in states that `E`
relates. -/
def Meet (Q E : σ → σ → Prop) : EStateM.Result ε σ α → EStateM.Result ε σ α → Prop
  | .ok a s, .ok b t => a = b ∧ Q s t
  | .error e s, .error f t => e = f ∧ E s t
  | _, _ => False

/-- States that `P` relates are led to such ends. -/
def Leads (P Q E : σ → σ → Prop) (x y : EStateM ε σ α) : Prop :=
  ∀ s t, P s t → Meet Q E (x s) (y t)

section
variable {P Q R E : σ → σ → Prop}

theorem Leads.bind {x y : EStateM ε σ α} {f g : α → EStateM ε σ β} (hxy : Leads P Q E x y)
    (hfg : ∀ a, Leads Q R E (f a) (g a)) : Leads P R E (x >>= f) (y >>= g) := by
  intro s t hst
  have h := hxy s t hst
  cases hx : x s with
  | ok a s' =>
    cases hy : y t with
    | ok b t' =>
      rw [hx, hy] at h
      obtain ⟨rfl, hst'⟩ := h
      rw [bind_ok hx, bind_ok hy]
      exact hfg a s' t' hst'
    | error e t' =>
      rw [hx, hy] at h
      cases h
  | error e s' =>
    cases hy : y t with
    | ok b t' =>
      rw [hx, hy] at h
      cases h
    | error _ t' =>
      rw [hx, hy] at h
      rw [bind_exit hx, bind_exit hy]
      exact h

theorem Leads.mono {x y : EStateM ε σ α} (h : Leads P Q E x y) (hQR : ∀ s t, Q s t → R s t) :
    Leads P R E x y := by
  intro s t hst
  have hmeet := h s t hst
  cases hx : x s with
  | ok a s' =>
    cases hy : y t with
    | ok b t' =>
      rw [hx, hy] at hmeet
      exact ⟨hmeet.1, hQR _ _ hmeet.2⟩
    | error e t' =>
      rw [hx, hy] at hmeet
      cases hmeet
  | error e s' =>
    cases hy : y t with
    | ok b t' =>
      rw [hx, hy] at hmeet
      cases hmeet
    | error _ t' =>
      rw [hx, hy] at hmeet
      exact hmeet

theorem Meet.of_exit {e : ε} {s : σ} {r : EStateM.Result ε σ α} (h : Meet Q E (.error e s) r) :
    ∃ t, r = .error e t ∧ E s t := by
  cases r with
  | ok a t => cases h
  | error _ t =>
    obtain ⟨rfl, hst⟩ := h
    exact ⟨t, rfl, hst⟩

theorem leads_pure (a : α) : Leads P P E (pure a : EStateM ε σ α) (pure a) := fun _ _ h => ⟨rfl, h⟩

theorem leads_get {f g : σ → EStateM ε σ β} (hfg : ∀ s t, P s t → Leads P Q E (f s) (g t)) :
    Leads P Q E (get >>= f) (get >>= g) := fun s t hst => hfg s t hst s t hst

theorem leads_modify {f g : σ → σ} (hfg : ∀ s t, P s t → Q (f s) (g t)) :
    Leads P Q E (modify f : EStateM ε σ PUnit) (modify g) := fun s t h => ⟨rfl, hfg s t h⟩

end

/-- Related states stay related. -/
abbrev InStep (R : σ → σ → Prop) (x y : EStateM ε σ α) : Prop := Leads R R R x y

end CDbK8s.Lib.Exits
