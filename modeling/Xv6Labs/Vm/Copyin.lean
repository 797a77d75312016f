/-
  Xv6Labs.Vm.Copyin — copyin byte by byte.

  - `userByte`: the byte that copyin moves from an address, if it can.
  - `readable`: how many bytes of a range come before the first that it cannot.
  - `copyinLoop_spec`: copyin moves exactly these and fails if they are not all.
-/

import Xv6Labs.Lib.Lists
import Xv6Labs.Vm.Space

namespace Xv6Labs.Vm

open Lib

variable {κ : Type} {A : Lab κ} {t : Nat} {s : Mach κ}

/-- The user's page at `va`, 0 if there is none. -/
def upage (m : Mem) (t va : Nat) : Nat :=
  if va < MAXVA then
    match lookup m t (va / 4096) with
    | none => 0
    | some w => if w.testBit 4 then PTE2PA w else 0
  else 0

def userByte (m : Mem) (t va : Nat) : Option UInt8 :=
  if upage m t (PGROUNDDOWN va) = 0 then none else some (m (upage m t (PGROUNDDOWN va) + (va - PGROUNDDOWN va)))

def readable (m : Mem) (t src : Nat) : Nat → Nat
  | 0 => 0
  | n + 1 => if readable m t src n = n ∧ (userByte m t (u64 (src + n))).isSome then n + 1 else readable m t src n

theorem readable_le (m : Mem) (t src n : Nat) : readable m t src n ≤ n := by
  induction n with
  | zero => exact Nat.le_refl 0
  | succ n ih =>
    unfold readable
    split
    · exact Nat.le_refl _
    · omega

theorem readable_some {m : Mem} {src n : Nat} : ∀ i < readable m t src n,
    (userByte m t (u64 (src + i))).isSome = true := by
  induction n with
  | zero => exact fun i hi => absurd hi (Nat.not_lt_zero i)
  | succ n ih =>
    intro i hi
    unfold readable at hi
    split at hi
    · rename_i h
      by_cases hn : i = n
      · rw [hn]
        exact h.2
      · exact ih i (by omega)
    · exact ih i hi

theorem readable_none {m : Mem} {src n : Nat} (h : readable m t src n < n) :
    userByte m t (u64 (src + readable m t src n)) = none := by
  induction n with
  | zero => exact absurd h (Nat.not_lt_zero _)
  | succ n ih =>
    have hle := readable_le m t src n
    unfold readable at h ⊢
    split at h
    · exact absurd h (Nat.lt_irrefl _)
    · rename_i hc
      rw [if_neg hc]
      by_cases hn : readable m t src n = n
      · rw [hn] at hc ⊢
        simpa using hc
      · exact ih (by omega)

/-- The bytes of one page, from `va` on. -/
theorem userByte_page {m : Mem} {va i : Nat} (hva : va < 2 ^ 64) (hi : i < PGSIZE - (va - PGROUNDDOWN va)) :
    userByte m t (u64 (va + i)) =
      if upage m t (PGROUNDDOWN va) = 0 then none
      else some (m (upage m t (PGROUNDDOWN va) + (va - PGROUNDDOWN va) + i)) := by
  have hdown : PGROUNDDOWN va = va / 4096 * 4096 := rfl
  rw [hdown] at hi
  unfold PGSIZE at hi
  have hu : u64 (va + i) = va + i := Nat.mod_eq_of_lt (by omega)
  have hp : PGROUNDDOWN (va + i) = PGROUNDDOWN va := by
    unfold PGROUNDDOWN PGSIZE
    omega
  unfold userByte
  rw [hu, hp]
  split
  · rfl
  · congr 2
    omega

/-- From `r` readable bytes, `f` from `va` on, copyin moves all and fails if more were asked for. -/
theorem copyinLoop_spec : ∀ {rounds va len r} {f : Nat → UInt8}, len ≤ rounds → va < 2 ^ 64 → r ≤ len →
    (∀ i < r, userByte s.mem t (u64 (va + i)) = some (f i)) → (r < len → userByte s.mem t (u64 (va + r)) = none) →
    copyinLoop A t rounds va len s = .ok (if r = len then 0 else -1, (List.range r).map f) := by
  intro rounds
  induction rounds with
  | zero =>
    intro va len r f hn _ hr _ _
    obtain rfl : len = 0 := Nat.le_zero.mp hn
    obtain rfl : r = 0 := Nat.le_zero.mp hr
    rfl
  | succ rounds ih =>
    intro va len r f hn hva hr hsome hnone
    unfold copyinLoop
    by_cases h0 : len = 0
    · obtain rfl : r = 0 := by omega
      rw [if_pos h0, if_pos h0.symm]
      rfl
    have hdown : PGROUNDDOWN va = va / 4096 * 4096 := rfl
    have hwalk : walkaddr A t (PGROUNDDOWN va) s = .ok (upage s.mem t (PGROUNDDOWN va), s) :=
      walkaddr_eq t (PGROUNDDOWN va) s
    have hbyte := fun i => userByte_page (m := s.mem) (t := t) (i := i) hva
    rw [if_neg h0]
    dsimp only
    rw [hwalk, ok_bind]
    by_cases hz : upage s.mem t (PGROUNDDOWN va) = 0
    · -- nothing can be read
      obtain rfl : r = 0 := by
        by_contra hne
        have := hsome 0 (by omega)
        rw [hbyte 0 (by unfold PGSIZE; omega), if_pos hz] at this
        cases this
      rw [if_pos hz, if_neg (fun e => h0 e.symm)]
      rfl
    · rw [if_neg hz]
      generalize hm : min (PGSIZE - (va - PGROUNDDOWN va)) len = m
      have hpos : PGSIZE - (va - PGROUNDDOWN va) > 0 := by unfold PGSIZE; omega
      have hmr : m ≤ r := by
        by_contra hlt
        have := hnone (by omega)
        rw [hbyte r (by omega), if_neg hz] at this
        cases this
      have hshift : len - m = 0 ∨ ∀ i, u64 (u64 (PGROUNDDOWN va + PGSIZE) + i) = u64 (va + (m + i)) := by
        by_cases hl : len - m = 0
        · exact Or.inl hl
        · refine Or.inr fun i => ?_
          have : PGROUNDDOWN va + PGSIZE = va + m := by unfold PGSIZE at *; omega
          rw [this]
          unfold u64
          omega
      have hrest : copyinLoop A t rounds (u64 (PGROUNDDOWN va + PGSIZE)) (len - m) s =
          .ok (if r - m = len - m then 0 else -1, (List.range (r - m)).map fun i => f (m + i)) :=
            ih (by omega) (Nat.mod_lt _ (by decide)) (by omega)
        (fun i hi => by rw [(hshift.resolve_left (by omega)) i]; exact hsome (m + i) (by omega))
        (fun hlt => by rw [(hshift.resolve_left (by omega)) (r - m), show m + (r - m) = r by omega]; exact hnone (by omega))
      rw [hrest, ok_bind]
      have hfirst : (List.range m).map (fun i => s.mem (upage s.mem t (PGROUNDDOWN va) + (va - PGROUNDDOWN va) + i)) =
        (List.range m).map f := by
        refine List.map_congr_left fun i hi => ?_
        have hi := List.mem_range.mp hi
        have := hsome i (by omega)
        rw [hbyte i (by omega), if_neg hz] at this
        exact Option.some.inj this
      dsimp only
      rw [hfirst, map_range_split f hmr]
      congr 2
      exact if_congr (by omega) rfl rfl

end Xv6Labs.Vm
