/-
  Xv6Labs.Lib.Bytes — byte memories with little-endian words.

  A memory gives every address a byte. `set` and `move` are C's memset and memmove,
  `loadLE`/`storeLE` read and write a `k`-byte little-endian word. `Agree m m' a n`:
  the two memories have the same bytes in `[a, a+n)`. Every write has one lemma for
  what it puts in place and one frame lemma; a load only depends on its own bytes
  (`loadLE_agree`).
-/

import Mathlib.Data.Nat.Basic
import Mathlib.Tactic.Ring

namespace Xv6Labs.Lib

/-- A byte for every address. -/
abbrev Mem := Nat → UInt8

namespace Mem

/-- memset: `n` bytes from `a` become `c`. -/
def set (m : Mem) (a : Nat) (c : UInt8) (n : Nat) : Mem := fun x => if a ≤ x ∧ x < a + n then c else m x

/-- memmove: `n` bytes from `src` are copied to `dst`. -/
def move (m : Mem) (dst src n : Nat) : Mem := fun x => if dst ≤ x ∧ x < dst + n then m (src + (x - dst)) else m x

/-- The bytes of a list, stored from `a` on. -/
def put (m : Mem) (a : Nat) (bs : List UInt8) : Mem :=
  fun x => if a ≤ x ∧ x < a + bs.length then bs.getD (x - a) 0 else m x

def loadLE (m : Mem) : Nat → Nat → Nat
  | _, 0 => 0
  | a, k + 1 => (m a).toNat + 256 * loadLE m (a + 1) k

def storeLE (m : Mem) (a k w : Nat) : Mem :=
  fun x => if a ≤ x ∧ x < a + k then UInt8.ofNat (w / 256 ^ (x - a)) else m x

/-- `n` 4-byte words from `a` on. -/
def storeWords (m : Mem) (a n : Nat) (f : Nat → Nat) : Mem :=
  fun x => if a ≤ x ∧ x < a + 4 * n then UInt8.ofNat (f ((x - a) / 4) / 256 ^ ((x - a) % 4)) else m x

/-- The same bytes in `[a, a+n)`. -/
def Agree (m m' : Mem) (a n : Nat) : Prop := ∀ x, a ≤ x → x < a + n → m' x = m x

variable {m m' m'' : Mem} {a b n k w x : Nat}

theorem Agree.refl (m : Mem) (a n : Nat) : Agree m m a n := fun _ _ _ => rfl

theorem Agree.trans (h : Agree m m' a n) (h' : Agree m' m'' a n) : Agree m m'' a n :=
  fun x hx hy => (h' x hx hy).trans (h x hx hy)

theorem Agree.mono (h : Agree m m' a n) (h1 : a ≤ b) (h2 : b + k ≤ a + n) : Agree m m' b k :=
  fun x hx hy => h x (by omega) (by omega)

/-! ## Loads -/

theorem loadLE_agree (h : Agree m m' a k) : loadLE m' a k = loadLE m a k := by
  induction k generalizing a with
  | zero => rfl
  | succ k ih =>
    simp only [loadLE]
    rw [h a (by omega) (by omega), ih (fun x hx hy => h x (by omega) (by omega))]

theorem loadLE_lt (m : Mem) (a k : Nat) : loadLE m a k < 256 ^ k := by
  induction k generalizing a with
  | zero => simp [loadLE]
  | succ k ih =>
    have hb := (m a).toNat_lt
    have := ih (a + 1)
    simp only [loadLE, Nat.pow_succ]
    omega

theorem loadLE_zero (h : ∀ x, a ≤ x → x < a + k → m x = 0) : loadLE m a k = 0 := by
  induction k generalizing a with
  | zero => rfl
  | succ k ih =>
    simp only [loadLE]
    rw [h a (by omega) (by omega), ih (fun x hx hy => h x (by omega) (by omega))]
    rfl

/-! ## Stores -/

theorem storeLE_ne (h : x < a ∨ a + k ≤ x) : storeLE m a k w x = m x := by
  simp only [storeLE]
  rw [if_neg (by omega)]

theorem loadLE_storeLE (m : Mem) (a k w : Nat) : loadLE (storeLE m a k w) a k = w % 256 ^ k := by
  induction k generalizing m a w with
  | zero => simp [loadLE, Nat.mod_one]
  | succ k ih =>
    simp only [loadLE]
    have hb : (storeLE m a (k + 1) w a).toNat = w % 256 := by
      simp [storeLE]
    -- the tail of the word is the word one byte further, of `w / 256`
    have ht : Agree (storeLE m (a + 1) k (w / 256)) (storeLE m a (k + 1) w) (a + 1) k := by
      intro x hx hy
      simp only [storeLE]
      rw [if_pos (by omega), if_pos (by omega), Nat.div_div_eq_div_mul]
      congr 2
      rw [show x - a = (x - (a + 1)) + 1 by omega, Nat.pow_succ, Nat.mul_comm]
    rw [hb, loadLE_agree ht, ih, Nat.pow_succ, Nat.mul_comm (256 ^ k) 256, Nat.mod_mul]

theorem loadLE_storeLE_of_lt (m : Mem) (a k w : Nat) (h : w < 256 ^ k) : loadLE (storeLE m a k w) a k = w := by
  rw [loadLE_storeLE, Nat.mod_eq_of_lt h]

theorem agree_storeLE (m : Mem) (h : b + n ≤ a ∨ a + k ≤ b) : Agree m (storeLE m a k w) b n :=
  fun _ hx hy => storeLE_ne (by omega)

theorem agree_set (m : Mem) (c : UInt8) (h : b + n ≤ a ∨ a + k ≤ b) : Agree m (set m a c k) b n := by
  intro x hx hy
  simp only [set]
  rw [if_neg (by omega)]

theorem set_in (m : Mem) (c : UInt8) (h : a ≤ x) (h' : x < a + k) : set m a c k x = c := by
  simp only [set]
  rw [if_pos ⟨h, h'⟩]

theorem agree_move (m : Mem) (src : Nat) (h : b + n ≤ a ∨ a + k ≤ b) : Agree m (move m a src k) b n := by
  intro x hx hy
  simp only [move]
  rw [if_neg (by omega)]

theorem move_in (m : Mem) (src : Nat) (h : a ≤ x) (h' : x < a + k) : move m a src k x = m (src + (x - a)) := by
  simp only [move]
  rw [if_pos ⟨h, h'⟩]

/-- A word inside the copied bytes is the word it was copied from. -/
theorem loadLE_move (m : Mem) (dst src : Nat) {n o : Nat} (h : o + k ≤ n) :
    loadLE (move m dst src n) (dst + o) k = loadLE m (src + o) k := by
  induction k generalizing o with
  | zero => rfl
  | succ k ih =>
    have hb : move m dst src n (dst + o) = m (src + o) := by
      rw [move_in m src (by omega) (by omega), Nat.add_sub_cancel_left]
    have ht : loadLE (move m dst src n) (dst + (o + 1)) k = loadLE m (src + (o + 1)) k := ih (by omega)
    simp only [loadLE]
    rw [hb, Nat.add_assoc, Nat.add_assoc, ht]

theorem agree_storeWords (m : Mem) (f : Nat → Nat) (h : b + k ≤ a ∨ a + 4 * n ≤ b) :
    Agree m (storeWords m a n f) b k := by
  intro x hx hy
  simp only [storeWords]
  rw [if_neg (by omega)]

theorem loadLE_storeWords (m : Mem) (a : Nat) (f : Nat → Nat) {i : Nat} (hi : i < n) :
    loadLE (storeWords m a n f) (a + 4 * i) 4 = f i % 2 ^ 32 := by
  have h : Agree (storeLE m (a + 4 * i) 4 (f i)) (storeWords m a n f) (a + 4 * i) 4 := by
    intro x hx hy
    simp only [storeWords, storeLE]
    rw [if_pos (by omega), if_pos (by omega), show (x - a) / 4 = i by omega,
      show (x - a) % 4 = x - (a + 4 * i) by omega]
  rw [loadLE_agree h, loadLE_storeLE]
  rfl

theorem agree_put (m : Mem) (bs : List UInt8) (h : b + n ≤ a ∨ a + bs.length ≤ b) : Agree m (put m a bs) b n := by
  intro x hx hy
  simp only [put]
  rw [if_neg (by omega)]

end Mem

end Xv6Labs.Lib
