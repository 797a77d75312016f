/-
  Xv6Labs.Lib.Lists — counting along a list without repetitions, lists of values of a
  function, lists of which a stretch is overwritten, and the first numbers with a property.
-/

import Mathlib.Data.List.Nodup
import Mathlib.Data.Nat.Count

namespace Xv6Labs.Lib

variable {α : Type}

/-- Two tests that differ only at `t`, an element of `l`: the counts differ by one. -/
theorem countP_flip {p q : α → Bool} {l : List α} (hn : l.Nodup) {t : α} (ht : t ∈ l) (hp : p t = false)
    (hq : q t = true) (h : ∀ x ∈ l, x ≠ t → q x = p x) : l.countP q = l.countP p + 1 := by
  induction l with
  | nil => cases ht
  | cons a l ih =>
    obtain ⟨ha, hn⟩ := List.nodup_cons.mp hn
    rw [List.countP_cons, List.countP_cons]
    rcases List.mem_cons.mp ht with rfl | ht
    · rw [List.countP_congr (q := p)]
      · simp [hp, hq]
      · intro x hx
        rw [h x (List.mem_cons_of_mem _ hx) (by rintro rfl; exact ha hx)]
    · have hne : a ≠ t := by rintro rfl; exact ha ht
      rw [ih hn ht (fun x hx => h x (List.mem_cons_of_mem _ hx)), h a (List.mem_cons_self ..) hne]
      omega

/-- The first `m` values and the others. -/
theorem map_range_split (f : Nat → α) {m n : Nat} (h : m ≤ n) :
    (List.range m).map f ++ (List.range (n - m)).map (fun i => f (m + i)) = (List.range n).map f := by
  obtain ⟨d, rfl⟩ := Nat.exists_eq_add_of_le h
  rw [Nat.add_sub_cancel_left, List.range_add, List.map_append, List.map_map]
  rfl

/-! ## Overwriting -/

variable {l bs : List α} {off : Nat}

/-- `bs` in place of the elements from `off` on; the list grows if `bs` ends behind it. -/
def overwrite (l bs : List α) (off : Nat) : List α := l.take off ++ bs ++ l.drop (off + bs.length)

theorem length_overwrite (h : off ≤ l.length) : (overwrite l bs off).length = max l.length (off + bs.length) := by
  unfold overwrite
  rw [List.length_append, List.length_append, List.length_take, List.length_drop]
  omega

theorem getElem?_overwrite (h : off ≤ l.length) (i : Nat) : (overwrite l bs off)[i]? = if off ≤ i ∧
    i < off + bs.length then bs[i - off]? else l[i]? := by
  have htake : (l.take off).length = off := by rw [List.length_take, Nat.min_eq_left h]
  unfold overwrite
  rw [List.append_assoc]
  by_cases h1 : i < off
  · rw [if_neg (by omega), List.getElem?_append_left (by rw [htake]; exact h1), List.getElem?_take_of_lt h1]
  rw [List.getElem?_append_right (by rw [htake]; omega), htake]
  by_cases h2 : i < off + bs.length
  · rw [if_pos ⟨by omega, h2⟩, List.getElem?_append_left (by omega)]
  · rw [if_neg (by omega), List.getElem?_append_right (by omega), List.getElem?_drop]
    congr 1
    omega

theorem overwrite_nil (l : List α) (off : Nat) : overwrite l [] off = l := by
  unfold overwrite
  rw [List.append_nil, List.length_nil, Nat.add_zero, List.take_append_drop]

/-- One stretch behind the other. -/
theorem overwrite_append {a b : List α} (h : off ≤ l.length) :
    overwrite (overwrite l a off) b (off + a.length) = overwrite l (a ++ b) off := by
  refine List.ext_getElem? fun i => ?_
  rw [getElem?_overwrite (by rw [length_overwrite h]; omega), getElem?_overwrite h, getElem?_overwrite h,
    List.length_append]
  by_cases h1 : off + a.length ≤ i ∧ i < off + a.length + b.length
  · rw [if_pos h1, if_pos (by omega), List.getElem?_append_right (by omega)]
    congr 1
    omega
  · rw [if_neg h1]
    by_cases h2 : off ≤ i ∧ i < off + a.length
    · rw [if_pos h2, if_pos (by omega), List.getElem?_append_left (by omega)]
    · rw [if_neg h2, if_neg (by omega)]

/-! ## The first numbers with a property -/

section

variable {p : Nat → Prop} [DecidablePred p] {n : Nat} {S : Finset Nat}

variable (p) in
/-- The first `k` numbers with `p`, of those below `n`. -/
def first (k n : Nat) : Finset Nat := (Finset.range n).filter fun c => p c ∧ Nat.count p c < k

/-- Numbers that have it, and of which none was passed over, are the first ones. -/
theorem eq_first (hp : ∀ c ∈ S, c < n ∧ p c) (hdown : ∀ c ∈ S, ∀ d < c, p d → d ∈ S) : S = first p S.card n := by
  refine Finset.ext fun c => ?_
  unfold first
  rw [Finset.mem_filter, Finset.mem_range, Nat.count_eq_card_filter_range]
  constructor
  · intro hc
    refine ⟨(hp c hc).1, (hp c hc).2, Finset.card_lt_card
      (Finset.ssubset_iff_subset_ne.mpr ⟨fun d hd => ?_, fun e => ?_⟩)⟩
    · rw [Finset.mem_filter, Finset.mem_range] at hd
      exact hdown c hc d hd.1 hd.2
    · rw [← e, Finset.mem_filter, Finset.mem_range] at hc
      exact Nat.lt_irrefl _ hc.1
  · intro hc
    by_contra hn
    -- all of `S` lies below `c`
    refine absurd hc.2.2 (Nat.not_lt.mpr (Finset.card_le_card fun d hd => ?_))
    rw [Finset.mem_filter, Finset.mem_range]
    refine ⟨?_, (hp d hd).2⟩
    by_contra hlt
    rcases Nat.lt_or_eq_of_le (Nat.not_lt.mp hlt) with h | h
    · exact hn (hdown d hd c h hc.2.1)
    · exact hn (h ▸ hd)

end

end Xv6Labs.Lib
