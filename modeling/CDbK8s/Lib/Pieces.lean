import Mathlib.Tactic

/-!
# Cutting a stream at a separator

A stream that arrives in parts is cut in the same places: `pieces_append` continues with what the
first part left.
-/

namespace CDbK8s.Lib.Pieces

open List

universe u

variable {α : Type u} [DecidableEq α]

/-- The parts that end in `sep`, and the rest. -/
def pieces (sep : α) : List α → List (List α) × List α
  | [] => ([], [])
  | b :: bs =>
    if b = sep then ([] :: (pieces sep bs).1, (pieces sep bs).2)
    else
      match (pieces sep bs).1 with
      | [] => ([], b :: (pieces sep bs).2)
      | l :: ls => ((b :: l) :: ls, (pieces sep bs).2)

variable {sep : α}

theorem pieces_free {x : List α} (h : sep ∉ x) : pieces sep x = ([], x) := by
  induction x with
  | nil => rfl
  | cons b _ ih =>
    rw [mem_cons, not_or] at h
    rw [pieces, if_neg (Ne.symm h.1), ih h.2]

theorem pieces_sep {l : List α} (h : sep ∉ l) (r : List α) :
    pieces sep (l ++ sep :: r) = (l :: (pieces sep r).1, (pieces sep r).2) := by
  induction l with
  | nil => rw [nil_append, pieces, if_pos rfl]
  | cons b _ ih =>
    rw [mem_cons, not_or] at h
    simp [pieces, if_neg (Ne.symm h.1), ih h.2]

theorem free_or_sep (sep : α) (x : List α) : sep ∉ x ∨ ∃ l r, sep ∉ l ∧ x = l ++ sep :: r := by
  by_cases h : sep ∈ x
  · right
    induction x with
    | nil => cases h
    | cons b bs ih =>
      by_cases hb : b = sep
      · exact ⟨[], bs, not_mem_nil, by rw [hb]; rfl⟩
      · obtain ⟨l, r, hl, rfl⟩ := ih ((mem_cons.1 h).resolve_left (Ne.symm hb))
        refine ⟨b :: l, r, ?_, rfl⟩
        rw [mem_cons, not_or]
        exact ⟨Ne.symm hb, hl⟩
  · exact .inl h

theorem sep_notMem_rest (sep : α) (x : List α) : sep ∉ (pieces sep x).2 := by
  induction x with
  | nil => exact not_mem_nil
  | cons b _ ih =>
    rw [pieces]
    split
    · exact ih
    · rename_i hb
      split
      · rw [mem_cons, not_or]
        exact ⟨Ne.symm hb, ih⟩
      · exact ih

theorem exists_front (sep : α) (x : List α) :
    ∃ front, x = front ++ (pieces sep x).2 ∧ (pieces sep front).2 = [] := by
  induction hn : x.length using Nat.strong_induction_on generalizing x with
  | _ n ih =>
    rcases free_or_sep sep x with hfree | ⟨l, r, hl, rfl⟩
    · exact ⟨[], by rw [pieces_free hfree, nil_append], rfl⟩
    · rw [length_append, length_cons] at hn
      obtain ⟨front, hr, hrest⟩ := ih r.length (by omega) r rfl
      refine ⟨l ++ sep :: front, ?_, by rw [pieces_sep hl, hrest]⟩
      simp [pieces_sep hl, ← hr]

theorem pieces_append (x y : List α) : pieces sep (x ++ y) =
      ((pieces sep x).1 ++ (pieces sep ((pieces sep x).2 ++ y)).1,
        (pieces sep ((pieces sep x).2 ++ y)).2) := by
  induction x with
  | nil => rfl
  | cons b bs ih =>
    rw [cons_append, pieces, ih]
    by_cases hb : b = sep
    · rw [if_pos hb, pieces, if_pos hb]
      rfl
    · rw [if_neg hb, pieces, if_neg hb]
      cases hls : (pieces sep bs).1 with
      | nil => rw [nil_append, nil_append, cons_append, pieces, if_neg hb]
      | cons l _ => rfl

theorem length_rest_le {n : Nat} {x y : List α} (hpieces : ∀ l ∈ (pieces sep (x ++ y)).1, l.length ≤ n)
    (hrest : (pieces sep (x ++ y)).2.length ≤ n) : (pieces sep x).2.length ≤ n := by
  have hfree := sep_notMem_rest sep x
  rw [pieces_append] at hpieces hrest
  rcases free_or_sep sep y with hy | ⟨l, r, hl, rfl⟩
  · have hall : sep ∉ (pieces sep x).2 ++ y := by
      rw [mem_append, not_or]
      exact ⟨hfree, hy⟩
    simp [pieces_free hall] at hrest
    omega
  · have hall : sep ∉ (pieces sep x).2 ++ l := by
      rw [mem_append, not_or]
      exact ⟨hfree, hl⟩
    have hmem : (pieces sep x).2 ++ l ∈
        (pieces sep x).1 ++ (pieces sep ((pieces sep x).2 ++ (l ++ sep :: r))).1 := by
      rw [← append_assoc, pieces_sep hall]
      exact mem_append_right _ mem_cons_self
    have hle := hpieces _ hmem
    simp at hle
    omega

theorem pieces_map {f : α → α} (hf : ∀ b, f b = sep ↔ b = sep) (x : List α) :
    pieces sep (x.map f) = ((pieces sep x).1.map (List.map f), (pieces sep x).2.map f) := by
  induction x with
  | nil => rfl
  | cons b bs ih =>
    rw [map_cons, pieces, pieces, ih]
    by_cases hb : b = sep
    · rw [if_pos ((hf b).2 hb), if_pos hb]
      rfl
    · rw [if_neg fun h => hb ((hf b).1 h), if_neg hb]
      cases (pieces sep bs).1 <;> rfl

end CDbK8s.Lib.Pieces
