/-
  Xv6Labs.Lib.Chain — singly linked lists through memory.

  `Chain m h l`: from the pointer `h`, following the 8-byte word at the start of each
  cell, the cells are exactly `l`, ending in a null pointer.
-/

import Xv6Labs.Lib.Bytes
import Mathlib.Data.List.Nodup

namespace Xv6Labs.Lib

def Chain (m : Mem) : Nat → List Nat → Prop
  | h, [] => h = 0
  | h, p :: l => h = p ∧ Chain m (m.loadLE p 8) l

variable {m m' : Mem} {h p : Nat} {l : List Nat}

/-- A list depends on the first word of its cells only. -/
theorem Chain.agree (hc : Chain m h l) (hm : ∀ p ∈ l, Mem.Agree m m' p 8) : Chain m' h l := by
  induction l generalizing h with
  | nil => exact hc
  | cons p l ih =>
    refine ⟨hc.1, ?_⟩
    rw [Mem.loadLE_agree (hm p (by simp))]
    exact ih hc.2 fun q hq => hm q (by simp [hq])

/-- The cells are determined by where the list starts. -/
theorem Chain.unique {l' : List Nat} (hc : Chain m h l) (hc' : Chain m h l') (hz : ∀ p ∈ l, p ≠ 0)
    (hz' : ∀ p ∈ l', p ≠ 0) :
    l = l' := by
  induction l generalizing h l' with
  | nil =>
    cases l' with
    | nil => rfl
    | cons p l' => exact absurd (hc'.1 ▸ hc) (hz' p (by simp))
  | cons p l ih =>
    cases l' with
    | nil => exact absurd (hc.1 ▸ hc') (hz p (by simp))
    | cons p' l' =>
      obtain ⟨rfl, hc⟩ := hc
      obtain ⟨rfl, hc'⟩ := hc'
      rw [ih hc hc' (fun q hq => hz q (by simp [hq])) (fun q hq => hz' q (by simp [hq]))]

theorem Chain.null (hc : Chain m 0 l) (hz : ∀ p ∈ l, p ≠ 0) : l = [] := by
  cases l with
  | nil => rfl
  | cons p l => exact absurd hc.1.symm (hz p (by simp))

/-- A non-null list has a first cell. -/
theorem Chain.pop (hc : Chain m h l) (hn : h ≠ 0) : ∃ l', l = h :: l' ∧ Chain m (m.loadLE h 8) l' := by
  cases l with
  | nil => exact absurd hc hn
  | cons p l =>
    obtain ⟨rfl, hc⟩ := hc
    exact ⟨l, rfl, hc⟩

/-- A new first cell, pointing at the old one. -/
theorem Chain.push (hc : Chain m h l) (hm : ∀ q ∈ l, Mem.Agree m m' q 8) (hp : m'.loadLE p 8 = h) :
    Chain m' p (p :: l) :=
  ⟨rfl, by rw [hp]; exact hc.agree hm⟩

end Xv6Labs.Lib
