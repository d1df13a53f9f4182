import Mathlib.Tactic

/-!
# Traces in causal order

`needs e` are the events that have to come before the event `e`. A trace is `Causal` when they
do, at every place of it.
-/

namespace CDbK8s.Lib.Causality

open List

universe u

variable {E : Type u} {needs : E → List E}

/-- Every event of the trace stands behind those it needs. -/
def Causal (needs : E → List E) (trace : List E) : Prop :=
  ∀ front e rest, trace = front ++ e :: rest → ∀ d ∈ needs e, d ∈ front

theorem causal_nil : Causal needs [] := by
  intro _ e _ h
  exact absurd h.symm (by simp)

theorem Causal.snoc {trace : List E} (h : Causal needs trace) {e : E}
    (hneeds : ∀ d ∈ needs e, d ∈ trace) : Causal needs (trace ++ [e]) := by
  intro front e' rest heq
  rcases append_eq_append_iff.1 heq with ⟨mid, rfl, hmid⟩ | ⟨mid, rfl, hmid⟩
  · -- the event is the new one
    cases mid with
    | nil =>
      obtain ⟨rfl, -⟩ : e = e' ∧ [] = rest := by simpa using hmid
      simpa using hneeds
    | cons a mid => simp at hmid
  · cases mid with
    | nil =>
      obtain ⟨rfl, -⟩ : e' = e ∧ rest = [] := by simpa using hmid
      simpa using hneeds
    | cons a mid =>
      obtain ⟨rfl, -⟩ : e' = a ∧ rest = mid ++ [e] := by simpa using hmid
      exact h front e' mid rfl

theorem Causal.front {front rest : List E} (h : Causal needs (front ++ rest)) :
    Causal needs front := by
  intro a e b heq
  exact h a e _ (by rw [heq, append_assoc, cons_append])

theorem Causal.mem {trace : List E} (h : Causal needs trace) {e d : E} (he : e ∈ trace)
    (hd : d ∈ needs e) : d ∈ trace := by
  obtain ⟨front, rest, rfl⟩ := append_of_mem he
  exact mem_append_left _ (h _ e _ rfl d hd)

theorem Causal.before {front rest : List E} {e d c : E} (h : Causal needs (front ++ e :: rest))
    (hd : d ∈ front) (hc : c ∈ needs d) : c ∈ front :=
  h.front.mem hd hc

end CDbK8s.Lib.Causality
