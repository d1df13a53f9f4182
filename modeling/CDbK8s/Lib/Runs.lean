import Mathlib.Tactic

/-!
# Runs of a deterministic machine
-/

namespace CDbK8s.Lib.Runs

open List

universe u v w

variable {S : Type u} {E : Type v}

/-- `P` holds in every state of the run. -/
def EveryState (step : S → E → S) (P : S → Prop) : S → List E → Prop
  | s, [] => P s
  | s, e :: es => P s ∧ EveryState step P (step s e) es

/-- `Q` holds of every event of the run and the state it comes in. -/
def EveryStep (step : S → E → S) (Q : S → E → Prop) : S → List E → Prop
  | _, [] => True
  | s, e :: es => Q s e ∧ EveryStep step Q (step s e) es

/-- What the steps of a run put out, one behind the other. -/
def outputs {O : Type w} (step : S → E → S) (out : S → E → List O) : S → List E → List O
  | _, [] => []
  | s, e :: es => out s e ++ outputs step out (step s e) es

section
variable {O : Type w} {step : S → E → S} {out : S → E → List O}

theorem outputs_append (es fs : List E) (s : S) : outputs step out s (es ++ fs) =
      outputs step out s es ++ outputs step out (es.foldl step s) fs := by
  induction es generalizing s with
  | nil => rfl
  | cons e es ih =>
    rw [cons_append, outputs, outputs, ih, append_assoc]
    rfl

theorem everyStep_append {Q : S → E → Prop} (es fs : List E) (s : S) :
    EveryStep step Q s (es ++ fs) ↔
      EveryStep step Q s es ∧ EveryStep step Q (es.foldl step s) fs := by
  induction es generalizing s with
  | nil => exact ⟨fun h => ⟨trivial, h⟩, fun h => h.2⟩
  | cons e es ih =>
    rw [cons_append, EveryStep, EveryStep, ih, and_assoc]
    rfl

theorem outputs_stopped {s : S} (hstep : ∀ e, step s e = s) (hout : ∀ e, out s e = [])
    (es : List E) : outputs step out s es = [] := by
  induction es with
  | nil => rfl
  | cons e es ih => rw [outputs, hstep, hout, ih, nil_append]

theorem outputs_conserved {inp : S → E → List O} {held : S → List O} {Q : S → E → Prop}
    (h : ∀ s e, Q s e → held s ++ inp s e = out s e ++ held (step s e)) :
    ∀ (es : List E) (s : S), EveryStep step Q s es →
      held s ++ outputs step inp s es = outputs step out s es ++ held (es.foldl step s) := by
  intro es
  induction es with
  | nil => exact fun s _ => append_nil _
  | cons e es ih =>
    intro s hes
    have hrest := ih _ hes.2
    rw [outputs, outputs, ← append_assoc, h s e hes.1, append_assoc, hrest, append_assoc]
    rfl

end

variable {step : S → E → S} {P : S → Prop} {I : S → Prop} {Q R : S → E → Prop}

theorem EveryState.head {s : S} {es : List E} (h : EveryState step P s es) : P s := by
  cases es with
  | nil => exact h
  | cons e es => exact h.1

theorem everyStep_of_forall : ∀ {es : List E}, (∀ e ∈ es, ∀ s, Q s e) → ∀ s, EveryStep step Q s es
  | [], _, _ => trivial
  | e :: _, h, s => ⟨h e mem_cons_self s, everyStep_of_forall (fun e' he' => h e' (.tail _ he')) _⟩

theorem everyStep_of_invariant (hstep : ∀ s e, I s → I (step s e)) (hQ : ∀ s e, I s → Q s e) :
    ∀ (es : List E) (s : S), I s → EveryStep step Q s es := by
  intro es
  induction es with
  | nil => exact fun _ _ => trivial
  | cons e es ih =>
    intro s hs
    exact ⟨hQ s e hs, ih _ (hstep s e hs)⟩

theorem everyStep_of_step (hstep : ∀ s e, I s → Q s e → I (step s e))
    (hR : ∀ s e, I s → Q s e → R s e) :
    ∀ (es : List E) (s : S), I s → EveryStep step Q s es → EveryStep step R s es := by
  intro es
  induction es with
  | nil => exact fun _ _ _ => trivial
  | cons e es ih =>
    intro s hs hes
    exact ⟨hR s e hs hes.1, ih _ (hstep s e hs hes.1) hes.2⟩

theorem everyStep_iff {P : S → E → Prop} (hI : ∀ s e, I s → R s e → Q s e → I (step s e))
    (hexact : ∀ s e, I s → R s e → (P s e ↔ Q s e)) :
    ∀ (es : List E) (s : S), I s → EveryStep step R s es →
      (EveryStep step P s es ↔ EveryStep step Q s es) := by
  intro es
  induction es with
  | nil => exact fun _ _ _ => Iff.rfl
  | cons e es ih =>
    intro s hs hes
    have hnow := hexact s e hs hes.1
    rw [EveryStep, hnow]
    exact and_congr_right fun hq => ih _ (hI s e hs hes.1 hq) hes.2

theorem everyState_of_step (hstep : ∀ s e, I s → Q s e → I (step s e)) (hI : ∀ s, I s → P s) :
    ∀ (es : List E) (s : S), I s → EveryStep step Q s es → EveryState step P s es := by
  intro es
  induction es with
  | nil => exact fun s hs _ => hI s hs
  | cons e es ih =>
    intro s hs hes
    exact ⟨hI s hs, ih _ (hstep s e hs hes.1) hes.2⟩

/-- Where `Q` is exact for the steps that meet `R`, it is exact for the runs whose
steps all do. The invariant is needed as long as the property holds only. -/
theorem everyState_iff_everyStep (hI : ∀ s e, I s → R s e → P s → Q s e → I (step s e))
    (hexact : ∀ s e, I s → R s e → P s → (P (step s e) ↔ Q s e)) :
    ∀ (es : List E) (s : S), I s → EveryStep step R s es → P s →
      (EveryState step P s es ↔ EveryStep step Q s es) := by
  intro es
  induction es with
  | nil => exact fun s _ _ hs => ⟨fun _ => trivial, fun _ => hs⟩
  | cons e es ih =>
    intro s hi hes hs
    have hnext := hexact s e hi hes.1 hs
    have hrest : Q s e → P (step s e) →
        (EveryState step P (step s e) es ↔ EveryStep step Q (step s e) es) :=
      fun hq => ih _ (hI s e hi hes.1 hs hq) hes.2
    constructor
    · intro h
      have hs' := h.2.head
      have hq := hnext.1 hs'
      exact ⟨hq, (hrest hq hs').1 h.2⟩
    · intro h
      exact ⟨hs, (hrest h.1 (hnext.2 h.1)).2 h.2⟩

end CDbK8s.Lib.Runs
