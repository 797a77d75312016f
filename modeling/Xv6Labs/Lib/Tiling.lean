/-
  Xv6Labs.Lib.Tiling — intervals laid end to end.

  `Tiles lo len a bs b`: the intervals of `bs`, each `[lo x, lo x + len x)`, fill `[a, b)` in
  order, with no gap and no overlap.
-/

import Mathlib.Data.List.Basic

namespace Xv6Labs.Lib

variable {β : Type} {lo len : β → Nat} {a b m : Nat} {x : β} {xs ys : List β}

variable (lo len) in
def Tiles (a : Nat) : List β → Nat → Prop
  | [], b => a = b
  | x :: xs, b => lo x = a ∧ Tiles (a + len x) xs b

theorem tiles_append : Tiles lo len a (xs ++ ys) b ↔ ∃ m, Tiles lo len a xs m ∧ Tiles lo len m ys b := by
  induction xs generalizing a with
  | nil => exact ⟨fun h => ⟨a, rfl, h⟩, fun ⟨_, e, h⟩ => e ▸ h⟩
  | cons x xs ih =>
    constructor
    · intro ⟨e, h⟩
      obtain ⟨m, h1, h2⟩ := ih.mp h
      exact ⟨m, ⟨e, h1⟩, h2⟩
    · intro ⟨m, ⟨e, h1⟩, h2⟩
      exact ⟨e, ih.mpr ⟨m, h1, h2⟩⟩

theorem Tiles.le (h : Tiles lo len a xs b) : a ≤ b := by
  induction xs generalizing a with
  | nil => exact Nat.le_of_eq h
  | cons x xs ih =>
    have := ih h.2
    omega

theorem Tiles.bounds (h : Tiles lo len a xs b) (hx : x ∈ xs) : a ≤ lo x ∧ lo x + len x ≤ b := by
  obtain ⟨l, r, rfl⟩ := List.append_of_mem hx
  obtain ⟨m, h1, rfl, h2⟩ := tiles_append.mp h
  exact ⟨h1.le, h2.le⟩

/-- Each one ends before those behind it. -/
theorem Tiles.apart (h : Tiles lo len a xs b) : xs.Pairwise fun x y => lo x + len x ≤ lo y := by
  induction xs generalizing a with
  | nil => exact .nil
  | cons x xs ih =>
    refine .cons (fun y hy => ?_) (ih h.2)
    rw [h.1]
    exact (h.2.bounds hy).1

/-- Nothing between `a` and `b` is left out. -/
theorem Tiles.covers (h : Tiles lo len a xs b) (v : Nat) : a ≤ v ∧ v < b ↔ ∃ x ∈ xs, lo x ≤ v ∧ v < lo x + len x := by
  constructor
  · intro ⟨h1, h2⟩
    induction xs generalizing a with
    | nil =>
      obtain rfl : a = b := h
      omega
    | cons x xs ih =>
      obtain ⟨e, h⟩ := h
      by_cases hv : v < a + len x
      · exact ⟨x, List.mem_cons_self .., by omega, by omega⟩
      · obtain ⟨y, hy, hv'⟩ := ih h (by omega)
        exact ⟨y, List.mem_cons_of_mem _ hy, hv'⟩
  · intro ⟨x, hx, h1, h2⟩
    have := h.bounds hx
    omega

/-- Two of them do not meet. -/
theorem Tiles.disjoint (h : Tiles lo len a xs b) {y : β} (hx : x ∈ xs) (hy : y ∈ xs) (hne : y ≠ x) :
    lo x + len x ≤ lo y ∨ lo y + len y ≤ lo x := by
  obtain ⟨l, r, rfl⟩ := List.append_of_mem hx
  obtain ⟨m, h1, rfl, h2⟩ := tiles_append.mp h
  rcases List.mem_append.mp hy with hy | hy
  · exact Or.inr (h1.bounds hy).2
  · exact Or.inl (h2.bounds ((List.mem_cons.mp hy).resolve_left hne)).1

/-- The starts rise strictly when no interval is empty. -/
theorem Tiles.rises (h : Tiles lo len a xs b) (hpos : ∀ x ∈ xs, 0 < len x) : (xs.map lo).Pairwise (· < ·) := by
  rw [List.pairwise_map]
  exact h.apart.imp_of_mem fun hx _ hle => by
    have := hpos _ hx
    omega

end Xv6Labs.Lib
