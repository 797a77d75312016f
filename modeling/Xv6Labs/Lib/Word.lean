/-
  Xv6Labs.Lib.Word — fixed-width words as naturals.

  `u64`/`u32` reduce to the width, `i32` is what an int keeps of a number, `clear w m` is `w & ~m` on 64 bits and `has w i`
  tests the flag `1 << i`. Flag words are reasoned about bit by bit (`Nat.testBit`).
-/

import Mathlib.Data.Nat.Basic
import Mathlib.Data.Nat.Bitwise

namespace Xv6Labs.Lib

def u64 (n : Nat) : Nat := n % 2 ^ 64

def u32 (n : Nat) : Nat := n % 2 ^ 32

/-- A 32-bit int converted to a 64-bit unsigned word. -/
def sext32 (n : Nat) : Nat := if u32 n < 2 ^ 31 then u32 n else u32 n + (2 ^ 64 - 2 ^ 32)

/-- A number kept in an int. -/
def i32 (n : Int) : Int := (n + 2 ^ 31) % 2 ^ 32 - 2 ^ 31

/-- An int or a long converted to a 64-bit unsigned word. -/
def toU64 (n : Int) : Nat := (n % 2 ^ 64).toNat

theorem i32_of_range {n : Int} (h1 : -2 ^ 31 ≤ n) (h2 : n < 2 ^ 31) : i32 n = n := by
  unfold i32
  omega

theorem toU64_of_range {n : Int} (h1 : 0 ≤ n) (h2 : n < 2 ^ 64) : (toU64 n : Int) = n := by
  unfold toU64
  omega

theorem sext32_of_lt {n : Nat} (h : n < 2 ^ 31) : sext32 n = n := by
  unfold sext32 u32
  rw [Nat.mod_eq_of_lt (by omega), if_pos h]

theorem u64_of_lt {n : Nat} (h : n < 2 ^ 64) : u64 n = n := Nat.mod_eq_of_lt h

theorem u64_lt (n : Nat) : u64 n < 2 ^ 64 := Nat.mod_lt _ (by decide)

/-- `w & ~m`. -/
def clear (w m : Nat) : Nat := w &&& ((2 ^ 64 - 1) ^^^ m)

theorem testBit_clear (w m i : Nat) : (clear w m).testBit i = (w.testBit i && (decide (i < 64) ^^ m.testBit i)) := by
  simp only [clear, Nat.testBit_and, Nat.testBit_xor, Nat.testBit_two_pow_sub_one]

theorem clear_le (w m : Nat) : clear w m ≤ w := Nat.and_le_left

/-- `w & (1 << i)` is set exactly when bit `i` is. -/
theorem and_bit_ne_zero (w i : Nat) : (w &&& 2 ^ i ≠ 0) ↔ w.testBit i = true := by
  rw [Nat.testBit_eq_decide_div_mod_eq, Nat.and_two_pow]
  simp only [decide_eq_true_eq]
  cases h : w.testBit i <;> simp [Nat.testBit_eq_decide_div_mod_eq] at h ⊢ <;> omega

theorem and_bit_eq_zero (w i : Nat) : (w &&& 2 ^ i = 0) ↔ w.testBit i = false := by
  rw [← Bool.not_eq_true, ← and_bit_ne_zero, not_not]

/-- Disjoint parts of a word: a multiple of `2 ^ i` and something below it. -/
theorem mul_or_of_lt {i b : Nat} (h : b < 2 ^ i) (a : Nat) : a * 2 ^ i ||| b = a * 2 ^ i + b := by
  rw [← Nat.shiftLeft_eq, Nat.shiftLeft_add_eq_or_of_lt h]

end Xv6Labs.Lib
