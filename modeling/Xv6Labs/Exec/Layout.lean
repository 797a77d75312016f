/-
  Xv6Labs.Exec.Layout — where exec puts the argument strings.

  From an aligned stack pointer down: each string with its NUL in a block of a multiple of 16
  bytes, then the array of pointers. `total` is what the strings take and `pointers` their
  addresses; the code arrives at them by subtracting and aligning (`push_eq`).
-/

import Xv6Labs.Exec.Code

namespace Xv6Labs.Exec

open Lib Vm

/-- What pushing `n` bytes takes. -/
def room (n : Nat) : Nat := (n + 15) / 16 * 16

def total : List (List UInt8) → Nat
  | [] => 0
  | arg :: argv => room (arg.length + 1) + total argv

def pointers (sp : Nat) : List (List UInt8) → List Nat
  | [] => []
  | arg :: argv => (sp - room (arg.length + 1)) :: pointers (sp - room (arg.length + 1)) argv

/-- The strings and the array of pointers fit in the stack page. -/
def Fits (argv : List (List UInt8)) : Prop := total argv + room ((argv.length + 1) * 8) ≤ PGSIZE

instance (argv : List (List UInt8)) : Decidable (Fits argv) := inferInstanceAs (Decidable (_ ≤ _))

variable {sp n : Nat} {arg : List UInt8} {argv : List (List UInt8)}

theorem le_room (n : Nat) : n ≤ room n := by
  unfold room
  omega

theorem room_mod (n : Nat) : room n % 16 = 0 := Nat.mul_mod_left _ _

theorem room_lt (n : Nat) : room n < n + 16 := by
  unfold room
  omega

/-- From an aligned sp the alignment rounds the length up. -/
theorem push_eq (h : sp % 16 = 0) (hn : n ≤ sp) (hlt : sp < 2 ^ 64) : push sp n = sp - room n := by
  unfold push room u64
  dsimp only
  omega

theorem total_mod (argv : List (List UInt8)) : total argv % 16 = 0 := by
  induction argv with
  | nil => rfl
  | cons arg argv ih =>
    have := room_mod (arg.length + 1)
    rw [total]
    omega

theorem pointers_length (sp : Nat) (argv : List (List UInt8)) : (pointers sp argv).length = argv.length := by
  induction argv generalizing sp with
  | nil => rfl
  | cons arg argv ih => rw [pointers, List.length_cons, List.length_cons, ih]

/-- Every block lies above the stack pointer the pushes end with, and below the one they
    start with. -/
theorem pointer_bounds (ht : total argv ≤ sp) : ∀ {i ptr : Nat}, (pointers sp argv)[i]? = some ptr →
    argv[i]? = some arg →
    sp - total argv ≤ ptr ∧ ptr + (arg.length + 1) ≤ sp := by
  induction argv generalizing sp with
  | nil => exact fun _ h => nomatch h
  | cons a argv ih =>
    intro i ptr hp ha
    rw [total] at ht ⊢
    cases i with
    | zero =>
      obtain rfl := Option.some.inj ha
      obtain rfl := Option.some.inj hp
      have := le_room (a.length + 1)
      omega
    | succ i =>
      have hrest : total argv ≤ sp - room (a.length + 1) := by omega
      have := ih hrest hp ha
      omega

theorem pointer_mod (h : sp % 16 = 0) (ht : total argv ≤ sp) : ∀ {i ptr : Nat}, (pointers sp argv)[i]? = some ptr →
    ptr % 16 = 0 := by
  induction argv generalizing sp with
  | nil => exact fun h => nomatch h
  | cons a argv ih =>
    intro i ptr hp
    have hr := room_mod (a.length + 1)
    rw [total] at ht
    cases i with
    | zero =>
      obtain rfl := Option.some.inj hp
      omega
    | succ i =>
      have hrest : total argv ≤ sp - room (a.length + 1) := by omega
      exact ih (by omega) hrest hp

/-- Of two strings the later one lies below the earlier. -/
theorem pointer_order (ht : total argv ≤ sp) : ∀ {i j p q : Nat} {b : List UInt8}, i < j →
    (pointers sp argv)[i]? = some p → (pointers sp argv)[j]? = some q →
    argv[j]? = some b → q + (b.length + 1) ≤ p := by
  induction argv generalizing sp with
  | nil => exact fun _ h => nomatch h
  | cons a argv ih =>
    intro i j p q b hij hp hq hb
    rw [total] at ht
    have hrest : total argv ≤ sp - room (a.length + 1) := by omega
    obtain ⟨j, rfl⟩ := Nat.exists_eq_succ_of_ne_zero (Nat.ne_zero_of_lt hij)
    cases i with
    | zero =>
      obtain rfl := Option.some.inj hp
      exact (pointer_bounds hrest hq hb).2
    | succ i => exact ih hrest (by omega) hp hq hb

/-! ## The array of pointers -/

theorem words_length (ws : List Nat) : (words ws).length = ws.length * 8 := by
  induction ws with
  | nil => rfl
  | cons w ws ih =>
    unfold words at ih ⊢
    rw [List.flatMap_cons, List.length_append, ih, List.length_map, List.length_range, List.length_cons]
    omega

end Xv6Labs.Exec
