/-
  Xv6Labs.Lib.Slots — a table of slots that is searched from the front: a slot has a key and a
  value, or is a hole.

  `lookup` stops at the first slot with the key, `free` at the first hole or behind the last
  slot. With no key in two slots the table is a map (`names`): filling the free slot binds a new
  key, emptying a slot takes its key out, and nothing else changes.
-/

import Mathlib.Logic.Function.Basic

namespace Xv6Labs.Lib

structure Slots (κ ν : Type) where
  size : Nat
  entry : Nat → Option (κ × ν)
  beyond : ∀ i, size ≤ i → entry i = none

namespace Slots

variable {κ ν : Type} {t t' : Slots κ ν} {k k' : κ} {v v' : ν} {i j n : Nat}

theorem ext_entry (hs : t.size = t'.size) (he : ∀ i < t.size, t.entry i = t'.entry i) : t = t' := by
  obtain ⟨size, entry, hb⟩ := t
  obtain ⟨size', entry', hb'⟩ := t'
  obtain rfl : size = size' := hs
  have : entry = entry' := funext fun i => by
    rcases Nat.lt_or_ge i size with h | h
    · exact he i h
    · rw [hb i h, hb' i h]
  subst this
  rfl

theorem lt_of_entry {x : κ × ν} (h : t.entry i = some x) : i < t.size := by
  by_contra hn
  rw [t.beyond i (Nat.not_lt.mp hn)] at h
  cases h

/-- Slot `i` becomes `x`. -/
def put (t : Slots κ ν) (i : Nat) (x : Option (κ × ν)) : Slots κ ν :=
  ⟨max t.size (i + 1), Function.update t.entry i x, fun j hj => by
    rw [Function.update_of_ne (by omega)]
    exact t.beyond j (by omega)⟩

@[simp] theorem put_self (t : Slots κ ν) (i : Nat) (x : Option (κ × ν)) : (t.put i x).entry i = x :=
  Function.update_self ..

theorem put_ne (h : j ≠ i) (x : Option (κ × ν)) : (t.put i x).entry j = t.entry j := Function.update_of_ne h ..

/-- No key is in two slots. -/
def Unique (t : Slots κ ν) : Prop := ∀ i j k v v', t.entry i = some (k, v) → t.entry j = some (k, v') → i = j

/-- The loop that looks for an empty slot, with the rounds left and the slot. -/
def hole (t : Slots κ ν) : Nat → Nat → Nat
  | 0, i => i
  | n + 1, i => if i < t.size ∧ (t.entry i).isSome then t.hole n (i + 1) else i

/-- The first hole, or the end. -/
def free (t : Slots κ ν) : Nat := t.hole (t.size + 1) 0

theorem hole_spec : ∀ {n i}, i ≤ t.size → t.size < i + n →
    t.hole n i ≤ t.size ∧ t.entry (t.hole n i) = none ∧ ∀ j, i ≤ j → j < t.hole n i → t.entry j ≠ none := by
  intro n
  induction n with
  | zero => exact fun h1 h2 => absurd h2 (Nat.not_lt.mpr h1)
  | succ n ih =>
    intro i h1 h2
    unfold hole
    split
    · rename_i h
      obtain ⟨h3, h4, h5⟩ := ih (i := i + 1) h.1 (by omega)
      refine ⟨h3, h4, fun j hj hlt => ?_⟩
      rcases Nat.eq_or_lt_of_le hj with e | hij
      · exact e ▸ Option.isSome_iff_ne_none.mp h.2
      · exact h5 j hij hlt
    · rename_i h
      refine ⟨h1, ?_, fun j hj hlt => absurd hj (Nat.not_le.mpr hlt)⟩
      rcases Nat.lt_or_ge i t.size with hi | hi
      · exact Option.not_isSome_iff_eq_none.mp fun hs => h ⟨hi, hs⟩
      · exact t.beyond i hi

variable (t) in
theorem free_le : t.free ≤ t.size := (hole_spec (Nat.zero_le _) (by omega)).1

variable (t) in
theorem entry_free : t.entry t.free = none := (hole_spec (Nat.zero_le _) (by omega)).2.1

theorem full_of_free (h : t.free = t.size) (hi : i < t.size) : t.entry i ≠ none :=
  (hole_spec (n := t.size + 1) (Nat.zero_le _) (by omega)).2.2 i (Nat.zero_le _) (Nat.lt_of_lt_of_eq hi h.symm)

theorem Unique.empty (hu : t.Unique) : (t.put i none).Unique := by
  have hold : ∀ a x, (t.put i none).entry a = some x → t.entry a = some x := fun a x h => by
    by_cases e : a = i
    · rw [e, put_self] at h
      cases h
    · rwa [put_ne e] at h
  exact fun a b k v v' ha hb => hu a b k v v' (hold a _ ha) (hold b _ hb)

variable [DecidableEq κ]

/-- The loop that looks for a key, with the rounds left and the slot. -/
def find (t : Slots κ ν) (k : κ) : Nat → Nat → Option (ν × Nat)
  | 0, _ => none
  | n + 1, i =>
    if i < t.size then
      match t.entry i with
      | none => t.find k n (i + 1)
      | some (k', v) => if k = k' then some (v, i) else t.find k n (i + 1)
    else none

def lookup (t : Slots κ ν) (k : κ) : Option (ν × Nat) := t.find k (t.size + 1) 0

theorem find_some : ∀ {n i}, t.find k n i = some (v, j) → t.entry j = some (k, v) := by
  intro n
  induction n with
  | zero =>
    intro i e
    cases e
  | succ n ih =>
    intro i e
    unfold find at e
    split at e
    · split at e
      · exact ih e
      · rename_i h
        split at e
        · rename_i hk
          cases e
          rw [h, hk]
        · exact ih e
    · cases e

theorem find_none : ∀ {n i}, t.size < i + n → t.find k n i = none → ∀ j v, i ≤ j → t.entry j ≠ some (k, v) := by
  intro n
  induction n with
  | zero =>
    intro i hn _ j v hj h
    have := lt_of_entry h
    omega
  | succ n ih =>
    intro i hn e j v hj h
    have hlt := lt_of_entry h
    unfold find at e
    rw [if_pos (by omega)] at e
    rcases Nat.eq_or_lt_of_le hj with rfl | hij
    · rw [h] at e
      dsimp only at e
      rw [if_pos rfl] at e
      cases e
    · split at e
      · exact ih (by omega) e j v hij h
      · split at e
        · cases e
        · exact ih (by omega) e j v hij h

theorem lookup_none : t.lookup k = none ↔ ∀ i v, t.entry i ≠ some (k, v) := by
  constructor
  · exact fun e i v => find_none (by omega) e i v (Nat.zero_le i)
  · intro h
    cases e : t.lookup k with
    | none => rfl
    | some x => exact absurd (find_some e) (h x.2 x.1)

/-- With unique keys it does not matter where the search starts. -/
theorem Unique.lookup_some (hu : t.Unique) : t.lookup k = some (v, i) ↔ t.entry i = some (k, v) := by
  constructor
  · exact find_some
  · intro h
    cases e : t.lookup k with
    | none => exact absurd h (lookup_none.mp e i v)
    | some x =>
      have hx := find_some e
      obtain rfl := hu i x.2 k v x.1 h hx
      rw [h] at hx
      cases hx
      rfl

/-- The table as a map. -/
def names (t : Slots κ ν) (k : κ) : Option ν := (t.lookup k).map (·.1)

theorem names_none : t.names k = none ↔ ∀ i v, t.entry i ≠ some (k, v) := Option.map_eq_none_iff.trans lookup_none

theorem Unique.names_some (hu : t.Unique) : t.names k = some v ↔ ∃ i, t.entry i = some (k, v) := by
  unfold names
  rw [Option.map_eq_some_iff]
  constructor
  · intro ⟨⟨v', i⟩, h, e⟩
    exact ⟨i, hu.lookup_some.mp (e ▸ h)⟩
  · intro ⟨i, h⟩
    exact ⟨(v, i), hu.lookup_some.mpr h, rfl⟩

/-! ## Filling and emptying a slot -/

/-- A slot that has the key neither before nor after. -/
theorem names_put_ne (hu : t.Unique) {x : Option (κ × ν)} (hu' : (t.put i x).Unique)
    (hold : ∀ v, t.entry i ≠ some (k, v)) (hnew : ∀ v, x ≠ some (k, v)) :
    (t.put i x).names k = t.names k := by
  refine Option.ext fun v => ?_
  rw [hu'.names_some, hu.names_some]
  constructor
  · intro ⟨j, hj⟩
    have hij : j ≠ i := fun e => hnew v (by rwa [e, put_self] at hj)
    exact ⟨j, by rwa [put_ne hij] at hj⟩
  · intro ⟨j, hj⟩
    have hij : j ≠ i := fun e => hold v (e ▸ hj)
    exact ⟨j, by rwa [put_ne hij]⟩

theorem Unique.fill (hu : t.Unique) (hk : t.names k = none) : (t.put i (some (k, v))).Unique := by
  have hno := names_none.mp hk
  intro a b k1 v1 v2 ha hb
  by_cases ea : a = i <;> by_cases eb : b = i
  · exact ea.trans eb.symm
  · rw [ea, put_self] at ha
    rw [put_ne eb] at hb
    cases ha
    exact absurd hb (hno b v2)
  · rw [eb, put_self] at hb
    rw [put_ne ea] at ha
    cases hb
    exact absurd ha (hno a v1)
  · rw [put_ne ea] at ha
    rw [put_ne eb] at hb
    exact hu a b k1 v1 v2 ha hb

/-- Which slot a new key is in. -/
theorem lookup_fill (hk : t.lookup k = none) : (t.put i (some (k, v))).lookup k = some (v, i) := by
  cases e : (t.put i (some (k, v))).lookup k with
  | none => exact absurd (put_self ..) (lookup_none.mp e i v)
  | some x =>
    have hx := find_some e
    by_cases hi : x.2 = i
    · rw [hi, put_self] at hx
      cases hx
      exact congrArg some (Prod.ext rfl hi)
    · rw [put_ne hi] at hx
      exact absurd hx (lookup_none.mp hk x.2 x.1)

theorem Unique.names_fill (hu : t.Unique) (hi : t.entry i = none) (hk : t.names k = none) :
    (t.put i (some (k, v))).names = Function.update t.names k (some v) := by
  have hu' := hu.fill (i := i) (v := v) hk
  refine funext fun k1 => ?_
  by_cases hk1 : k1 = k
  · rw [hk1, Function.update_self]
    exact hu'.names_some.mpr ⟨i, put_self ..⟩
  · rw [Function.update_of_ne hk1]
    refine names_put_ne hu hu' (fun v1 h => ?_) fun v1 h => ?_
    · rw [hi] at h
      cases h
    · cases h
      exact hk1 rfl

theorem Unique.names_empty (hu : t.Unique) (hi : t.entry i = some (k, v)) :
    (t.put i none).names = Function.update t.names k none := by
  refine funext fun k1 => ?_
  by_cases hk1 : k1 = k
  · rw [hk1, Function.update_self, names_none]
    intro j v1 hj
    by_cases hij : j = i
    · rw [hij, put_self] at hj
      cases hj
    · rw [put_ne hij] at hj
      exact hij (hu j i k v1 v hj hi)
  · rw [Function.update_of_ne hk1]
    refine names_put_ne hu hu.empty (fun v1 h => ?_) fun v1 h => by cases h
    rw [hi] at h
    cases h
    exact hk1 rfl

end Slots

end Xv6Labs.Lib
