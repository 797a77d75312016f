/-
  Xv6Labs.Riscv — the Sv39 macros of `riscv.h` and `memlayout.h`.

  Addresses and page-table entries are 64-bit words kept as naturals. Shifts by a
  constant are written as division and multiplication; flag words stay bitwise.
  What the proofs use: an entry made from a page-aligned address below 2^56 and flags
  below 2^10 gives both back (`pte2pa_mkpte`, `mkpte_mod`, `mkpte_testBit`).
-/

import Xv6Labs.Lib.Word

namespace Xv6Labs

open Lib

abbrev PGSIZE : Nat := 4096

def PGROUNDUP (sz : Nat) : Nat := u64 (sz + PGSIZE - 1) / PGSIZE * PGSIZE
def PGROUNDDOWN (a : Nat) : Nat := a / PGSIZE * PGSIZE

abbrev PTE_V : Nat := 1
abbrev PTE_R : Nat := 2
abbrev PTE_W : Nat := 4
abbrev PTE_X : Nat := 8
abbrev PTE_U : Nat := 16
/-- The copy-on-write mark of the cow lab. -/
abbrev PTE_COW : Nat := 256

def PA2PTE (pa : Nat) : Nat := pa / 4096 * 1024
def PTE2PA (pte : Nat) : Nat := u64 (pte / 1024 * 4096)
def PTE_FLAGS (pte : Nat) : Nat := pte % 1024

/-- The index of `va` in a table of level `level` (0, 1 or 2). -/
def PX (level va : Nat) : Nat := va / 2 ^ (12 + 9 * level) % 512

abbrev MAXVA : Nat := 2 ^ 38
abbrev KERNBASE : Nat := 0x80000000
abbrev PHYSTOP : Nat := KERNBASE + 128 * 1024 * 1024
abbrev TRAMPOLINE : Nat := MAXVA - PGSIZE
abbrev TRAPFRAME : Nat := TRAMPOLINE - PGSIZE

/-- A page address that fits an entry. -/
def IsPage (p : Nat) : Prop := p % 4096 = 0 ∧ 0 < p ∧ p < 2 ^ 56

/-- What `mappages` stores: `PA2PTE(pa) | perm | PTE_V`. -/
def mkpte (pa perm : Nat) : Nat := PA2PTE pa ||| perm ||| PTE_V

/-! ## Entries -/

theorem flags_lt {perm : Nat} (h : perm < 1024) : perm ||| PTE_V < 1024 := Nat.or_lt_two_pow (n := 10) h (by decide)

theorem mkpte_eq {pa perm : Nat} (h : perm < 1024) : mkpte pa perm = pa / 4096 * 1024 + (perm ||| PTE_V) := by
  unfold mkpte PA2PTE
  rw [Nat.or_assoc]
  exact mul_or_of_lt (i := 10) (flags_lt h) _

theorem mkpte_lt_of_lt {pa perm : Nat} (hlt : pa < 2 ^ 64) (h : perm < 1024) : mkpte pa perm < 256 ^ 8 := by
  have := flags_lt h
  rw [mkpte_eq h]; omega

theorem mkpte_lt {pa perm : Nat} (hp : IsPage pa) (h : perm < 1024) : mkpte pa perm < 256 ^ 8 :=
  mkpte_lt_of_lt (Nat.lt_trans hp.2.2 (by decide)) h

theorem mkpte_mod {pa perm : Nat} (h : perm < 1024) : mkpte pa perm % 1024 = perm ||| PTE_V := by
  have := flags_lt h
  rw [mkpte_eq h]; omega

/-- The macros keep all 64 bits of a page address. -/
theorem pte2pa_mkpte_of_lt {pa perm : Nat} (hal : pa % 4096 = 0) (hlt : pa < 2 ^ 64) (h : perm < 1024) :
    PTE2PA (mkpte pa perm) = pa := by
  have := flags_lt h
  unfold PTE2PA u64
  rw [mkpte_eq h]; omega

theorem pte2pa_mkpte {pa perm : Nat} (hp : IsPage pa) (h : perm < 1024) : PTE2PA (mkpte pa perm) = pa :=
  pte2pa_mkpte_of_lt hp.1 (Nat.lt_trans hp.2.2 (by decide)) h

theorem testBit_mod {w i : Nat} (h : i < 10) : (w % 1024).testBit i = w.testBit i := by
  rw [show (1024 : Nat) = 2 ^ 10 by rfl, Nat.testBit_mod_two_pow]
  simp [h]

theorem mkpte_testBit {pa perm i : Nat} (h : perm < 1024) (hi : i < 10) :
    (mkpte pa perm).testBit i = (perm.testBit i || (1 : Nat).testBit i) := by
  rw [← testBit_mod hi, mkpte_mod h, Nat.testBit_or]

/-- The valid bit. -/
def vbit (w : Nat) : Bool := w.testBit 0

theorem vbit_eq (w : Nat) : (w &&& PTE_V ≠ 0) ↔ vbit w = true := and_bit_ne_zero w 0

theorem vbit_zero : vbit 0 = false := rfl

theorem vbit_mkpte {pa perm : Nat} (h : perm < 1024) : vbit (mkpte pa perm) = true := by
  rw [vbit, mkpte_testBit h (by decide)]; simp

/-- A pointer to a table has none of the flags of a leaf. -/
theorem mkpte_table (p : Nat) : mkpte p 0 &&& (PTE_R ||| PTE_W ||| PTE_X) = 0 := by
  apply Nat.eq_of_testBit_eq
  intro i
  rw [Nat.testBit_and, Nat.zero_testBit]
  by_cases hi : i < 10
  · rw [mkpte_testBit (by decide) hi]
    revert i
    decide
  · have : (PTE_R ||| PTE_W ||| PTE_X).testBit i = false :=
      Nat.testBit_lt_two_pow (Nat.lt_of_lt_of_le (by decide : (14 : Nat) < 2 ^ 10)
        (Nat.pow_le_pow_right (by decide) (by omega)))
    rw [this, Bool.and_false]

/-- An entry with one of R, W, X has a flag besides V. -/
theorem flags_of_rwx {w : Nat} (h : w &&& (PTE_R ||| PTE_W ||| PTE_X) ≠ 0) : PTE_FLAGS w ≠ PTE_V := by
  intro e
  have hlt : w &&& (PTE_R ||| PTE_W ||| PTE_X) < 2 ^ 10 := Nat.and_lt_two_pow w (by decide)
  rw [← Nat.mod_eq_of_lt hlt, Nat.and_mod_two_pow] at h
  simp only [PTE_FLAGS] at e
  simp [e] at h

/-- mappages keeps the permissions it is given. -/
theorem mkpte_rwx {pa perm : Nat} (hp : perm < 1024) (h : perm &&& (PTE_R ||| PTE_W ||| PTE_X) ≠ 0) :
    mkpte pa perm &&& (PTE_R ||| PTE_W ||| PTE_X) ≠ 0 := by
  intro e
  have e1 : (mkpte pa perm &&& (PTE_R ||| PTE_W ||| PTE_X)) % 2 ^ 10 = 0 := by rw [e]; rfl
  rw [Nat.and_mod_two_pow, show (2 : Nat) ^ 10 = 1024 from rfl, mkpte_mod hp, Nat.and_or_distrib_right] at e1
  exact h (Nat.or_eq_zero_iff.mp e1).1

/-! ## Rounding -/

theorem pgrounddown_le (a : Nat) : PGROUNDDOWN a ≤ a := Nat.div_mul_le_self a 4096

theorem px_succ (l va : Nat) : PX l va = va / 4096 / 512 ^ l % 512 := by
  unfold PX
  rw [Nat.div_div_eq_div_mul]
  congr 2
  rw [Nat.pow_add, Nat.pow_mul]

end Xv6Labs
