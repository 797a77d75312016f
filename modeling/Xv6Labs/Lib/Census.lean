/-
  Xv6Labs.Lib.Census — how many entries of tables of slots have a property.

  `count`: the slots of one table. `census`: those of a family, in which a number has a table or
  none. Filling a hole, emptying a slot and exchanging one table of the family change them by what
  is put in and taken out.
-/

import Xv6Labs.Lib.Slots
import Mathlib.Algebra.BigOperators.Group.Finset.Basic
import Mathlib.Algebra.Order.BigOperators.Group.Finset

namespace Xv6Labs.Lib

namespace Slots

variable {κ ν : Type} {t t' : Slots κ ν} {i : Nat} {x : κ × ν} {q q' : κ × ν → Bool}

/-- The slots whose entry has `q`. -/
def hits (t : Slots κ ν) (q : κ × ν → Bool) : Finset Nat := (Finset.range t.size).filter fun i => (t.entry i).any q

def count (t : Slots κ ν) (q : κ × ν → Bool) : Nat := (t.hits q).card

theorem mem_hits : i ∈ t.hits q ↔ ∃ x, t.entry i = some x ∧ q x = true := by
  unfold hits
  rw [Finset.mem_filter, Finset.mem_range, Option.any_eq_true]
  exact ⟨fun h => h.2, fun h => ⟨lt_of_entry h.choose_spec.1, h⟩⟩

theorem count_fill (h : t.entry i = none) (x : κ × ν) (q : κ × ν → Bool) :
    (t.put i (some x)).count q = t.count q + (q x).toNat := by
  have hmem : ∀ j, j ∈ (t.put i (some x)).hits q ↔ (j = i ∧ q x = true) ∨ j ∈ t.hits q := by
    intro j
    rw [mem_hits, mem_hits]
    by_cases hj : j = i
    · subst hj
      rw [put_self, h]
      simp
    · rw [put_ne hj]
      simp [hj]
  have hnot : i ∉ t.hits q := fun hi => by
    obtain ⟨y, hy, -⟩ := mem_hits.mp hi
    rw [h] at hy
    cases hy
  unfold count
  cases hq : q x with
  | true =>
    have : (t.put i (some x)).hits q = insert i (t.hits q) := by
      ext j
      rw [hmem, Finset.mem_insert]
      simp [hq]
    rw [this, Finset.card_insert_of_notMem hnot]
    rfl
  | false =>
    have : (t.put i (some x)).hits q = t.hits q := by
      ext j
      rw [hmem]
      simp [hq]
    rw [this]
    rfl

theorem count_clear (h : t.entry i = some x) (q : κ × ν → Bool) :
    (t.put i none).count q + (q x).toNat = t.count q := by
  have hback : (t.put i none).put i (some x) = t := by
    refine ext_entry ?_ fun j _ => ?_
    · have := lt_of_entry h
      show max (max t.size (i + 1)) (i + 1) = t.size
      omega
    · by_cases hj : j = i
      · rw [hj, put_self, h]
      · rw [put_ne hj, put_ne hj]
  rw [← count_fill (put_self t i none) x q, hback]

theorem count_congr (h : ∀ i x, t.entry i = some x → q x = q' x) : t.count q = t.count q' := by
  unfold count
  congr 1
  ext i
  rw [mem_hits, mem_hits]
  exact exists_congr fun x => and_congr_right fun hx => by rw [h i x hx]

theorem count_le {S : Finset Nat} (h : ∀ i x, t.entry i = some x → q x = true → i ∈ S) : t.count q ≤ S.card :=
  Finset.card_le_card fun i hi => by
    obtain ⟨x, hx, hq⟩ := mem_hits.mp hi
    exact h i x hx hq

theorem count_zero : t.count q = 0 ↔ ∀ i x, t.entry i = some x → q x = false := by
  unfold count
  rw [Finset.card_eq_zero, Finset.eq_empty_iff_forall_notMem]
  constructor
  · intro h i x hx
    by_contra hq
    exact h i (mem_hits.mpr ⟨x, hx, by simpa using hq⟩)
  · intro h i hi
    obtain ⟨x, hx, hq⟩ := mem_hits.mp hi
    rw [h i x hx] at hq
    cases hq

end Slots

variable {κ ν : Type} {T : Nat → Option (Slots κ ν)} {N a : Nat} {q : κ × ν → Bool}

/-- The entries of a table, if there is one. -/
def tally (o : Option (Slots κ ν)) (q : κ × ν → Bool) : Nat := o.elim 0 (·.count q)

/-- The entries of all tables below `N`. -/
def census (N : Nat) (T : Nat → Option (Slots κ ν)) (q : κ × ν → Bool) : Nat := ∑ j ∈ Finset.range N, tally (T j) q

theorem census_update (ha : a < N) (o : Option (Slots κ ν)) (q : κ × ν → Bool) :
    census N (Function.update T a o) q + tally (T a) q = census N T q + tally o q := by
  have hmem : a ∈ Finset.range N := Finset.mem_range.mpr ha
  unfold census
  rw [← Finset.sum_erase_add _ _ hmem, ← Finset.sum_erase_add (Finset.range N) (fun j => tally (T j) q) hmem,
    Function.update_self]
  have : ∑ j ∈ (Finset.range N).erase a, tally (Function.update T a o j) q = ∑ j ∈ (Finset.range N).erase a,
    tally (T j) q :=
    Finset.sum_congr rfl fun j hj => by rw [Function.update_of_ne (Finset.ne_of_mem_erase hj)]
  omega

theorem census_le {b : Nat → Nat} (h : ∀ j < N, tally (T j) q ≤ b j) : census N T q ≤ ∑ j ∈ Finset.range N, b j :=
  Finset.sum_le_sum fun j hj => h j (Finset.mem_range.mp hj)

theorem census_zero : census N T q = 0 ↔ ∀ j < N, tally (T j) q = 0 := by
  unfold census
  rw [Finset.sum_eq_zero_iff]
  exact forall_congr' fun j => by rw [Finset.mem_range]

end Xv6Labs.Lib
