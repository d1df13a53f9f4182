import Mathlib.Tactic

/-!
# Null-terminated chains of link cells

A store of links is a function `cell` from addresses to addresses, `0` for the null link.
-/

namespace CDbK8s.Lib.LinkedCells

open List Function

variable {l : List Nat} {p : Nat}

/-- The links from the cell at `p` visit the nodes `l` and end in the null link. -/
def Path (cell : Nat → Nat) : Nat → List Nat → Prop
  | p, [] => cell p = 0
  | p, a :: l => cell p = a ∧ a ≠ 0 ∧ Path cell a l

/-- The last cell on the way: `p` itself, or the last node visited. -/
def endOf : Nat → List Nat → Nat
  | p, [] => p
  | _, a :: l => endOf a l

/-- Follow the links from the cell at `p` until the null link or a link to an
accepted node; the answer is the address of that link, `none` when the fuel runs
out. -/
def walk (cell : Nat → Nat) (accept : Nat → Bool) : Nat → Nat → Option Nat
  | 0, _ => none
  | fuel + 1, p =>
    if cell p = 0 then some p
    else if accept (cell p) then some p
    else walk cell accept fuel (cell p)

variable {cell cell' : Nat → Nat}

theorem endOf_mem (p : Nat) (l : List Nat) : endOf p l ∈ p :: l := by
  induction l generalizing p with
  | nil => simp [endOf]
  | cons a l ih => exact mem_cons_of_mem p (ih a)

theorem Path.congr (h : Path cell p l) (heq : ∀ x ∈ p :: l, cell' x = cell x) : Path cell' p l := by
  induction l generalizing p with
  | nil => exact (heq p (by simp)).trans h
  | cons a l ih =>
    obtain ⟨hp, ha, htail⟩ := h
    refine ⟨(heq p (by simp)).trans hp, ha, ih htail ?_⟩
    intro x hx
    exact heq x (mem_cons_of_mem p hx)

theorem Path.suffix {l1 l2 : List Nat} (h : Path cell p (l1 ++ l2)) :
    Path cell (endOf p l1) l2 := by
  induction l1 generalizing p with
  | nil => exact h
  | cons a l1 ih => exact ih h.2.2

/-- Overwriting the link at the end of the first nodes exchanges what follows
them, provided the cells before that link keep their links. -/
theorem Path.redirect {l1 l2 l3 : List Nat} (h : Path cell p (l1 ++ l2)) (hnodup : (p :: l1).Nodup)
    (hkeep : ∀ x ∈ p :: l1, x ≠ endOf p l1 → cell' x = cell x) (hnew : Path cell' (endOf p l1) l3) :
    Path cell' p (l1 ++ l3) := by
  induction l1 generalizing p with
  | nil => exact hnew
  | cons a l1 ih =>
    obtain ⟨hp, ha, htail⟩ := h
    rw [nodup_cons] at hnodup
    have hne : p ≠ endOf a l1 := by
      rintro rfl
      exact hnodup.1 (endOf_mem a _)
    refine ⟨(hkeep p (by simp) hne).trans hp, ha, ih htail hnodup.2 ?_ hnew⟩
    intro x hx hxe
    exact hkeep x (mem_cons_of_mem p hx) hxe

theorem Path.of_link_eq {q : Nat} (h : Path cell p l) (heq : cell q = cell p) : Path cell q l := by
  cases l with
  | nil => exact heq.trans h
  | cons a l => exact ⟨heq.trans h.1, h.2⟩

theorem Path.update {q : Nat} (h : Path cell p l) (hq : q ∉ l) :
    Path (Function.update cell q (cell p)) q l := by
  have hlink : Function.update cell q (cell p) q = cell p := update_self ..
  cases l with
  | nil => exact hlink.trans h
  | cons a l =>
    refine ⟨hlink.trans h.1, h.2.1, h.2.2.congr ?_⟩
    intro x hx
    have hxq : x ≠ q := by
      rintro rfl
      exact hq hx
    exact update_of_ne hxq ..

theorem walk_path (accept : Nat → Bool) (h : Path cell p l) : ∀ fuel, l.length < fuel →
      walk cell accept fuel p = some (endOf p (l.takeWhile fun a => !accept a)) := by
  induction l generalizing p with
  | nil =>
    intro fuel hfuel
    obtain ⟨n, rfl⟩ : ∃ n, fuel = n + 1 := ⟨fuel - 1, by omega⟩
    have hp : cell p = 0 := h
    simp [walk, hp, endOf]
  | cons a l ih =>
    intro fuel hfuel
    obtain ⟨hp, ha, htail⟩ := h
    rw [length_cons] at hfuel
    obtain ⟨n, rfl⟩ : ∃ n, fuel = n + 1 := ⟨fuel - 1, by omega⟩
    cases hacc : accept a with
    | true => simp [walk, hp, hacc, endOf]
    | false =>
      have hrec := ih htail n (by omega)
      simpa [walk, hp, ha, hacc, endOf] using hrec

theorem cell_endOf_takeWhile (accept : Nat → Bool) (h : Path cell p l) :
    cell (endOf p (l.takeWhile fun a => !accept a)) = (l.find? accept).getD 0 := by
  induction l generalizing p with
  | nil => exact h
  | cons a l ih =>
    obtain ⟨hp, -, htail⟩ := h
    cases hacc : accept a with
    | true => simp [hacc, endOf, hp]
    | false => simpa [hacc, endOf] using ih htail

end CDbK8s.Lib.LinkedCells
