/-
  Xv6Labs.Traps.Printf — `printf.c`, and `atoi` of ulib.c, which reads what %d writes.

  The text goes to the console a byte at a time; here it is the result. A string ends before its
  first NUL. `fill` is the do loop of printint, with the room that is left in `buf`; the lock and
  panic are left out.

  - `printf_reads`: what %d, %x and %p write can be read back, whatever the number, and `buf` is
    large enough for it.
-/

import Xv6Labs.Riscv
import Xv6Labs.Lib.Bytes
import Xv6Labs.Lib.Codes
import Mathlib.Data.Bool.AllAny

namespace Xv6Labs.Printf

open Lib

def chars (s : String) : List UInt8 := s.toList.map Char.toUInt8

/-! ## The code -/

def digits : List UInt8 := chars "0123456789abcdef"

def fill (base : Nat) : Nat → Nat → Option (List UInt8)
  | 0, _ => none
  | room + 1, x => do
    let rest ← (if x / base ≠ 0 then fill base room (x / base) else some [])
    some (digits.getD (x % base) 0 :: rest)

def printint (xx : Int) (base : Nat) (sign : Bool) : Except String (List UInt8) :=
  let sign := sign && decide (xx < 0)
  let x := ((if sign then -xx else xx) % 2 ^ 32).toNat
  match fill base 16 x with
  | none => .error "buf"
  | some buf =>
    if sign then if buf.length < 16 then .ok (buf ++ [45]).reverse else .error "buf"
    else .ok buf.reverse

def printptr (x : Nat) : List UInt8 :=
  chars "0x" ++ (List.range 16).map fun i => digits.getD (x * 16 ^ i % 2 ^ 64 / 2 ^ 60) 0

inductive Arg where
  | int (xx : Int)
  | ptr (x : Nat)
  | str (s : Option (List UInt8))

/-- The character after a `%`. An argument of another type, or none, is no C. -/
def convert (c : UInt8) (ap : List Arg) : Except String (List UInt8 × List Arg) :=
  if c = 100 then
    match ap with
    | .int xx :: ap => do .ok (← printint xx 10 true, ap)
    | _ => .error "va_arg"
  else if c = 120 then
    match ap with
    | .int xx :: ap => do .ok (← printint xx 16 true, ap)
    | _ => .error "va_arg"
  else if c = 112 then
    match ap with
    | .ptr x :: ap => .ok (printptr x, ap)
    | _ => .error "va_arg"
  else if c = 115 then
    match ap with
    | .str s :: ap => .ok ((s.getD (chars "(null)")).takeWhile (· ≠ 0), ap)
    | _ => .error "va_arg"
  else if c = 37 then .ok ([37], ap)
  else .ok ([37, c], ap)

def printfLoop : List UInt8 → List Arg → Except String (List UInt8)
  | [], _ => .ok []
  | [c], _ => if c = 0 ∨ c = 37 then .ok [] else .ok [c]
  | c :: d :: fmt, ap =>
    if c = 0 then .ok []
    else if c ≠ 37 then do .ok (c :: (← printfLoop (d :: fmt) ap))
    else if d = 0 then .ok []
    else do
      let (out, ap) ← convert d ap
      .ok (out ++ (← printfLoop fmt ap))

def printf (fmt : Option (List UInt8)) (ap : List Arg) : Except String (List UInt8) :=
  match fmt with
  | none => .error "null fmt"
  | some fmt => printfLoop fmt ap

def isDigit (c : UInt8) : Bool := 48 ≤ c && c ≤ 57

def atoiLoop (n : Int) : List UInt8 → Int
  | [] => n
  | c :: s => if isDigit c then atoiLoop (i32 (n * 10 + c.toNat - 48)) s else n

def atoi (s : List UInt8) : Int := atoiLoop 0 s

/-! ## Numerals -/

/-- What digits stand for, the lowest first. -/
def value (base : Nat) (ds : List UInt8) : Nat := ds.foldr (fun c v => digits.idxOf c + base * v) 0

theorem value_cons (base : Nat) (c : UInt8) (ds : List UInt8) :
    value base (c :: ds) = digits.idxOf c + base * value base ds := rfl

theorem value_append (base : Nat) (ds es : List UInt8) :
    value base (ds ++ es) = value base ds + base ^ ds.length * value base es := by
  induction ds with
  | nil => simp [value]
  | cons c ds ih =>
    rw [List.cons_append, value_cons, value_cons, ih, List.length_cons, Nat.pow_succ, Nat.mul_add, ← Nat.mul_assoc,
      Nat.mul_comm base (base ^ _), Nat.add_assoc]

theorem idxOf_digit {k : Nat} (hk : k < 16) : digits.idxOf (digits.getD k 0) = k :=
  (by decide : ∀ k < 16, digits.idxOf (digits.getD k 0) = k) k hk

theorem digit_mem {base k : Nat} (h16 : base ≤ 16) (hk : k < base) : digits.getD k 0 ∈ digits.take base := by
  have hlen : digits.length = 16 := rfl
  rw [List.getD_eq_getElem _ _ (by omega), List.mem_take_iff_getElem]
  exact ⟨k, by omega, rfl⟩

/-- `k` digits are enough for a number below `base ^ k`. -/
theorem fill_spec {base : Nat} (h2 : 2 ≤ base) (h16 : base ≤ 16) : ∀ k room x, 0 < k → k ≤ room → x < base ^ k →
    ∃ ds, fill base room x = some ds ∧ ds ≠ [] ∧ ds.length ≤ k ∧ (∀ c ∈ ds, c ∈ digits.take base) ∧
      value base ds = x := by
  intro k
  induction k with
  | zero =>
    intro room x h
    omega
  | succ k ih =>
    intro room x _ hroom hx
    obtain ⟨r, rfl⟩ : ∃ r, room = r + 1 := ⟨room - 1, by omega⟩
    have hmod : x % base < base := Nat.mod_lt _ (by omega)
    have hidx := idxOf_digit (Nat.lt_of_lt_of_le hmod h16)
    have hmem := digit_mem h16 hmod
    have hdiv := Nat.mod_add_div x base
    unfold fill
    by_cases h0 : x / base ≠ 0
    · have hk : 0 < k := by
        by_contra hk
        have hk0 : k = 0 := by omega
        rw [hk0, Nat.pow_one] at hx
        exact h0 (Nat.div_eq_of_lt hx)
      obtain ⟨ds, e, hne, hlen, hin, hv⟩ := ih r (x / base) hk (by omega)
        (Nat.div_lt_of_lt_mul (by rw [Nat.mul_comm, ← Nat.pow_succ]; exact hx))
      rw [if_pos h0, e]
      refine ⟨_, rfl, List.cons_ne_nil _ _, by rw [List.length_cons]; omega, fun c hc => ?_, ?_⟩
      · rcases List.mem_cons.mp hc with rfl | hc
        · exact hmem
        · exact hin c hc
      · rw [value_cons, hidx, hv, hdiv]
    · rw [if_neg h0]
      refine ⟨_, rfl, List.cons_ne_nil _ _, by simp, fun c hc => ?_, ?_⟩
      · rw [List.mem_singleton.mp hc]
        exact hmem
      · have h0 : x / base = 0 := by omega
        rw [h0] at hdiv
        rw [value_cons, hidx]
        show x % base + base * 0 = x
        omega

/-- The digits of a number in base 10 or 16, the highest first. -/
def Numeral (base : Nat) (text : List UInt8) (x : Nat) : Prop :=
  text ≠ [] ∧ (∀ c ∈ text, c ∈ digits.take base) ∧ value base text.reverse = x

theorem Numeral.head {base x : Nat} {text : List UInt8} (h : Numeral base text x) : ∀ c ∈ text.head?, c ≠ 45 :=
  fun c hc => by
  have hin := List.mem_of_mem_take (h.2.1 c (List.mem_of_mem_head? hc))
  exact (List.all_iff_forall_prop.mp (by decide) : ∀ c ∈ digits, c ≠ 45) c hin

/-- What printint leaves in `buf`, backwards. -/
def numeral (base x : Nat) : List UInt8 := ((fill base 16 x).getD []).reverse

theorem numeral_numeral {base x : Nat} (hb : base = 10 ∨ base = 16) (hx : x < 2 ^ 32) :
    Numeral base (numeral base x) x := by
  have hlt : x < base ^ 10 := Nat.lt_of_lt_of_le (Nat.lt_of_lt_of_le hx (by decide : 2 ^ 32 ≤ 10 ^ 10))
    (Nat.pow_le_pow_left (by omega) 10)
  obtain ⟨ds, e, hne, -, hin, hv⟩ := fill_spec (by omega) (by omega) 10 16 x (by decide) (by decide) hlt
  unfold numeral
  rw [e]
  exact ⟨List.reverse_ne_nil_iff.mpr hne, fun c hc =>
    hin c (List.mem_reverse.mp hc), by rw [Option.getD_some, List.reverse_reverse, hv]⟩

theorem printint_numeral {base : Nat} (hb : base = 10 ∨ base = 16) {xx : Int} (h1 : -2 ^ 31 ≤ xx) (h2 : xx < 2 ^ 31) :
    printint xx base true = .ok (if xx < 0 then 45 :: numeral base xx.natAbs else numeral base xx.natAbs) := by
  have hx : ((if xx < 0 then -xx else xx) % 2 ^ 32).toNat = xx.natAbs := by
    split <;> omega
  have hlt : xx.natAbs < base ^ 10 := by
    have : 10 ^ 10 ≤ base ^ 10 := Nat.pow_le_pow_left (by omega) 10
    omega
  obtain ⟨ds, e, -, hlen, -, -⟩ := fill_spec (by omega) (by omega) 10 16 xx.natAbs (by decide) (by decide) hlt
  unfold printint numeral
  simp only [Bool.true_and, decide_eq_true_eq, hx, e]
  split
  · rw [if_pos (by omega), List.reverse_append]
    rfl
  · rfl

/-- A number with its sign. -/
def readInt (base : Nat) : List UInt8 → Int
  | [] => 0
  | c :: s => if c = 45 then -(value base s.reverse : Int) else value base (c :: s).reverse

theorem Numeral.reads {base x : Nat} {text : List UInt8} (h : Numeral base text x) :
    readInt base text = x ∧ readInt base (45 :: text) = -(x : Int) := by
  have hv := h.2.2
  constructor
  · cases text with
    | nil => exact absurd rfl h.1
    | cons c s =>
      unfold readInt
      dsimp only
      rw [if_neg (h.head c rfl), hv]
  · unfold readInt
    dsimp only
    rw [if_pos rfl, hv]

theorem printint_reads {base : Nat} (hb : base = 10 ∨ base = 16) {xx : Int} (h1 : -2 ^ 31 ≤ xx) (h2 : xx < 2 ^ 31) :
    ∃ text, printint xx base true = .ok text ∧ readInt base text = xx := by
  have hn : Numeral base (numeral base xx.natAbs) xx.natAbs := numeral_numeral hb (by omega)
  refine ⟨_, printint_numeral hb h1 h2, ?_⟩
  split
  · rw [hn.reads.2]
    omega
  · rw [hn.reads.1]
    omega

/-- The sixteen digits of printptr, for `n`. -/
def nibbles (n x : Nat) : List UInt8 := (List.range n).map fun i => digits.getD (x * 16 ^ i % 16 ^ n / 16 ^ (n - 1)) 0

theorem printptr_eq (x : Nat) : printptr x = chars "0x" ++ nibbles 16 x := rfl

theorem length_nibbles (n x : Nat) : (nibbles n x).length = n := by
  unfold nibbles
  rw [List.length_map, List.length_range]

/-- The first digit, and the digits of the rest. -/
theorem nibbles_succ {n x : Nat} (hx : x < 16 ^ (n + 1)) :
    nibbles (n + 1) x = digits.getD (x / 16 ^ n) 0 :: nibbles n (x % 16 ^ n) := by
  unfold nibbles
  rw [List.range_succ_eq_map, List.map_cons, List.map_map, Nat.pow_zero, Nat.mul_one, Nat.mod_eq_of_lt hx,
    Nat.add_sub_cancel]
  congr 1
  refine List.map_congr_left fun i hi => ?_
  obtain ⟨k, rfl⟩ : ∃ k, n = k + 1 := ⟨n - 1, by have := List.mem_range.mp hi; omega⟩
  show digits.getD (x * 16 ^ (i + 1) % 16 ^ (k + 1 + 1) / 16 ^ (k + 1)) 0 = _
  rw [Nat.pow_succ 16 i, Nat.pow_succ 16 (k + 1), ← Nat.mul_assoc, Nat.mul_mod_mul_right, Nat.pow_succ 16 k,
    Nat.mul_div_mul_right _ _ (by decide),
    ← Nat.pow_succ, Nat.add_sub_cancel, Nat.mod_mul_mod]

theorem value_nibbles : ∀ n x, x < 16 ^ n → value 16 (nibbles n x).reverse = x := by
  intro n
  induction n with
  | zero =>
    intro x hx
    have : x = 0 := by omega
    rw [this]
    rfl
  | succ n ih =>
    intro x hx
    have hdiv : x / 16 ^ n < 16 := Nat.div_lt_of_lt_mul (by rw [← Nat.pow_succ]; exact hx)
    rw [nibbles_succ hx, List.reverse_cons, value_append, ih _ (Nat.mod_lt _ (Nat.pow_pos (by decide))),
      List.length_reverse, length_nibbles, value_cons, idxOf_digit hdiv]
    exact Nat.mod_add_div x (16 ^ n)

theorem nibbles_numeral {x : Nat} (hx : x < 2 ^ 64) : Numeral 16 (nibbles 16 x) x := by
  refine ⟨fun e => ?_, fun c hc => ?_, value_nibbles 16 x hx⟩
  · have h := length_nibbles 16 x
    rw [e] at h
    cases h
  · obtain ⟨i, -, rfl⟩ := List.mem_map.mp hc
    refine digit_mem (Nat.le_refl 16) (Nat.div_lt_of_lt_mul ?_)
    exact Nat.lt_of_lt_of_le (Nat.mod_lt _ (by decide)) (by decide)

/-! ## atoi -/

theorem digit_isDigit {c : UInt8} (h : c ∈ digits.take 10) :
    isDigit c = true ∧ (c.toNat : Int) - 48 = digits.idxOf c :=
  (List.all_iff_forall_prop.mp (by decide) : ∀ c ∈ digits.take 10, isDigit c = true ∧
    (c.toNat : Int) - 48 = digits.idxOf c) c h

/-- Digits are taken up, the highest first, as long as the number is an int. -/
theorem atoiLoop_digits : ∀ (ds r : List UInt8) (n : Nat), (∀ c ∈ ds, c ∈ digits.take 10) →
    n * 10 ^ ds.length + value 10 ds < 2 ^ 31 →
    atoiLoop n (ds.reverse ++ r) = atoiLoop ((n * 10 ^ ds.length + value 10 ds : Nat) : Int) r := by
  intro ds
  induction ds with
  | nil =>
    intro r n _ _
    rw [List.reverse_nil, List.nil_append, List.length_nil, Nat.pow_zero, Nat.mul_one]
    rfl
  | cons c ds ih =>
    intro r n hds hlt
    obtain ⟨hdigit, hval⟩ := digit_isDigit (hds c (List.mem_cons_self ..))
    have htotal : n * 10 ^ (c :: ds).length + value 10 (c :: ds) =
      10 * (n * 10 ^ ds.length + value 10 ds) + digits.idxOf c := by
      rw [value_cons, List.length_cons, Nat.pow_succ, ← Nat.mul_assoc]
      omega
    rw [htotal] at hlt ⊢
    have hstep : ∀ m : Nat, 10 * m + digits.idxOf c < 2 ^ 31 →
      atoiLoop m (c :: r) = atoiLoop ((10 * m + digits.idxOf c : Nat) : Int) r := fun m hm => by
      show (if isDigit c = true then atoiLoop (i32 ((m : Int) * 10 + c.toNat - 48)) r else (m : Int)) = _
      rw [if_pos hdigit, i32_of_range (by omega) (by omega)]
      congr 1
      omega
    rw [List.reverse_cons, List.append_assoc, List.singleton_append,
      ih (c :: r) n (fun d hd => hds d (List.mem_cons_of_mem c hd)) (by omega)]
    exact hstep _ hlt

theorem atoi_numeral {text r : List UInt8} {x : Nat} (h : Numeral 10 text x) (hx : x < 2 ^ 31)
    (hr : ∀ c ∈ r.head?, isDigit c = false) : atoi (text ++ r) = x := by
  obtain ⟨-, hin, hv⟩ := h
  have e := atoiLoop_digits text.reverse r 0 (fun c hc => hin c (List.mem_reverse.mp hc)) (by omega)
  rw [List.reverse_reverse, hv, Nat.zero_mul, Nat.zero_add] at e
  have hstop : atoiLoop (x : Int) r = x := by
    cases r with
    | nil => rfl
    | cons c r =>
      unfold atoiLoop
      rw [if_neg (by rw [hr c rfl]; exact Bool.false_ne_true)]
  exact e.trans hstop

theorem convert_d {xx : Int} {text : List UInt8} {ap : List Arg} (e : printint xx 10 true = .ok text) :
    convert 100 (.int xx :: ap) = .ok (text, ap) := by
  show (do .ok (← printint xx 10 true, ap) : Except String (List UInt8 × List Arg)) = _
  rw [e]
  rfl

theorem convert_x {xx : Int} {text : List UInt8} {ap : List Arg} (e : printint xx 16 true = .ok text) :
    convert 120 (.int xx :: ap) = .ok (text, ap) := by
  show (do .ok (← printint xx 16 true, ap) : Except String (List UInt8 × List Arg)) = _
  rw [e]
  rfl

/-- A conversion, and the rest of the format. -/
theorem printfLoop_convert {d : UInt8} {fmt out : List UInt8} {ap rest : List Arg} (hd : d ≠ 0)
    (e : convert d ap = .ok (out, rest)) :
    printfLoop (37 :: d :: fmt) ap = (printfLoop fmt rest).map (out ++ ·) := by
  conv_lhs => unfold printfLoop
  rw [if_neg (by decide), if_neg (by decide), if_neg hd, e]
  cases h : printfLoop fmt rest with
  | error m =>
    show (do .ok (out ++ (← printfLoop fmt rest)) : Except String (List UInt8)) = _
    rw [h]
    rfl
  | ok text =>
    show (do .ok (out ++ (← printfLoop fmt rest)) : Except String (List UInt8)) = _
    rw [h]
    rfl

theorem printfLoop_char {c : UInt8} (h0 : c ≠ 0) (h37 : c ≠ 37) (fmt : List UInt8) (ap : List Arg) :
    printfLoop (c :: fmt) ap = (printfLoop fmt ap).map (c :: ·) := by
  cases fmt with
  | nil =>
    unfold printfLoop
    rw [if_neg fun h => h.elim h0 h37]
    rfl
  | cons d fmt =>
    conv_lhs => unfold printfLoop
    rw [if_neg h0, if_pos h37]
    cases printfLoop (d :: fmt) ap <;> rfl

/-- Text without conversions. -/
theorem printfLoop_text (fmt : List UInt8) (ap : List Arg) : ∀ text : List UInt8, (∀ c ∈ text, c ≠ 0 ∧ c ≠ 37) →
    printfLoop (text ++ fmt) ap = (printfLoop fmt ap).map (text ++ ·) := by
  intro text
  induction text with
  | nil =>
    intro _
    show printfLoop fmt ap = (printfLoop fmt ap).map fun l => l
    cases printfLoop fmt ap <;> rfl
  | cons c text ih =>
    intro h
    obtain ⟨h0, h37⟩ := h c (List.mem_cons_self ..)
    rw [List.cons_append, printfLoop_char h0 h37, ih fun d hd => h d (List.mem_cons_of_mem c hd)]
    cases printfLoop fmt ap <;> rfl

/-- Every number printed is read back: %d and %x with the sign, %d by atoi if there is none, and a
    pointer by its sixteen digits. -/
theorem printf_reads {xx : Int} (h1 : -2 ^ 31 ≤ xx) (h2 : xx < 2 ^ 31) {x : Nat} (hx : x < 2 ^ 64) :
    (∃ text, printf (some (chars "%d")) [.int xx] = .ok text ∧ readInt 10 text = xx ∧
      (0 ≤ xx → ∀ r, (∀ c ∈ r.head?, isDigit c = false) → atoi (text ++ r) = xx)) ∧
    (∃ text, printf (some (chars "%x")) [.int xx] = .ok text ∧ readInt 16 text = xx) ∧
    ∃ text, printf (some (chars "%p")) [.ptr x] = .ok (chars "0x" ++ text) ∧ text.length = 16 ∧
      readInt 16 text = x := by
  refine ⟨?_, ?_, nibbles 16 x, ?_, length_nibbles 16 x, (nibbles_numeral hx).reads.1⟩
  · obtain ⟨text, e, hr⟩ := printint_reads (Or.inl rfl) h1 h2
    refine ⟨text, (printfLoop_convert (by decide) (convert_d e)).trans (congrArg Except.ok (List.append_nil text)),
      hr, fun hpos r hdigit => ?_⟩
    rw [printint_numeral (Or.inl rfl) h1 h2, if_neg (by omega)] at e
    cases e
    rw [atoi_numeral (numeral_numeral (Or.inl rfl) (by omega)) (by omega) hdigit]
    omega
  · obtain ⟨text, e, hr⟩ := printint_reads (Or.inr rfl) h1 h2
    exact ⟨text, (printfLoop_convert (by decide) (convert_x e)).trans (congrArg Except.ok (List.append_nil text)), hr⟩
  · exact (printfLoop_convert (by decide) rfl).trans (congrArg Except.ok (List.append_nil (printptr x)))

/-- The least int, and the largest pointer. -/
theorem printf_reads_least : (∃ text, printf (some (chars "%d")) [.int (-2147483648)] = .ok text ∧
    readInt 10 text = -2147483648 ∧
      (0 ≤ (-2147483648 : Int) → ∀ r, (∀ c ∈ r.head?, isDigit c = false) → atoi (text ++ r) = -2147483648)) ∧
    (∃ text, printf (some (chars "%x")) [.int (-2147483648)] = .ok text ∧ readInt 16 text = -2147483648) ∧
    ∃ text, printf (some (chars "%p")) [.ptr 18446744073709551615] = .ok (chars "0x" ++ text) ∧ text.length = 16 ∧
      readInt 16 text = (18446744073709551615 : Nat) :=
  printf_reads (by decide) (by decide) (by decide)

/-! ## backtrace -/

/-- The loop, for `n` rounds at most. -/
def backtraceLoop (m : Mem) (KernelTop : Nat) : Nat → Nat → Except String (List UInt8)
  | 0, _ => .error "fuel"
  | n + 1, FramePointer =>
    if FramePointer < KernelTop then do
      let ReturnAddr := m.loadLE (u64 (FramePointer + 2 ^ 64 - 8)) 8
      let out ← printf (some (chars "%p\n")) [.ptr ReturnAddr]
      .ok (out ++ (← backtraceLoop m KernelTop n (m.loadLE (u64 (FramePointer + 2 ^ 64 - 16)) 8)))
    else .ok []

/-- `fp`: what r_fp reads. -/
def backtrace (m : Mem) (fp : Nat) : Except String (List UInt8) := do
  let KernelTop := PGROUNDDOWN fp + PGSIZE
  let out ← printf (some (chars "backtrace:\n")) []
  .ok (out ++ (← backtraceLoop m KernelTop (PGSIZE / 16) fp))

/-- The frames from `fp` up, below `top`: the frame pointer that is saved in a frame is that of the
    caller, whose frame is above. -/
inductive Frames (m : Mem) (top : Nat) : Nat → List Nat → Prop
  | done {fp : Nat} : top ≤ fp → Frames m top fp []
  | frame {fp : Nat} {l : List Nat} : 16 ≤ fp → fp < top → fp + 16 ≤ m.loadLE (fp - 16) 8 →
      Frames m top (m.loadLE (fp - 16) 8) l →
      Frames m top fp (m.loadLE (fp - 8) 8 :: l)

def frameText (ra : Nat) : List UInt8 := printptr ra ++ [10]

theorem printf_frame (ra : Nat) : printf (some (chars "%p\n")) [.ptr ra] = .ok (frameText ra) :=
  (printfLoop_convert (by decide) rfl).trans rfl

theorem printf_title : printf (some (chars "backtrace:\n")) [] = .ok (chars "backtrace:\n") := by
  have h := printfLoop_text [] [] (chars "backtrace:\n") (List.all_iff_forall_prop.mp (by decide))
  rw [List.append_nil] at h
  exact h.trans (congrArg Except.ok (List.append_nil _))

theorem Frames.loop {m : Mem} {top fp : Nat} {l : List Nat} (htop : top < 2 ^ 64) (h : Frames m top fp l) :
    ∀ n, 0 < n → top ≤ fp + 16 * (n - 1) →
    backtraceLoop m top n fp = .ok (l.flatMap frameText) := by
  induction h with
  | done hle =>
    intro n hn _
    obtain ⟨n, rfl⟩ : ∃ k, n = k + 1 := ⟨n - 1, by omega⟩
    exact if_neg (Nat.not_lt.mpr hle)
  | @frame fp l h16 hlt hup _ ih =>
    intro n hn hroom
    obtain ⟨n, rfl⟩ : ∃ k, n = k + 1 := ⟨n - 1, by omega⟩
    have e8 : u64 (fp + 2 ^ 64 - 8) = fp - 8 := by unfold u64; omega
    have e16 : u64 (fp + 2 ^ 64 - 16) = fp - 16 := by unfold u64; omega
    unfold backtraceLoop
    dsimp only
    rw [if_pos hlt, e8, e16, printf_frame, ih n (by omega) (by omega)]
    rfl

theorem printptr_delimits : Delimits (· < 2 ^ 64) printptr := by
  intro x y hx hy r r' e
  rw [printptr_eq, printptr_eq, List.append_assoc, List.append_assoc] at e
  obtain ⟨e1, e2⟩ := List.append_inj (List.append_cancel_left e) (by rw [length_nibbles, length_nibbles])
  refine ⟨?_, e2⟩
  rw [← value_nibbles 16 x hx, e1, value_nibbles 16 y hy]

theorem frameText_delimits : Delimits (· < 2 ^ 64) frameText := by
  intro ra ra' h h' r r' e
  unfold frameText at e
  rw [List.append_assoc, List.append_assoc] at e
  obtain ⟨e1, e2⟩ := printptr_delimits ra ra' h h' _ _ e
  exact ⟨e1, List.append_cancel_left e2⟩

theorem Frames.lt {m : Mem} {top fp : Nat} {l : List Nat} (h : Frames m top fp l) : ∀ ra ∈ l, ra < 2 ^ 64 := by
  induction h with
  | done => exact fun _ h => absurd h List.not_mem_nil
  | frame _ _ _ _ ih =>
    intro ra hra
    rcases List.mem_cons.mp hra with e | hra
    · rw [e]
      exact Nat.lt_of_lt_of_eq (Mem.loadLE_lt m _ 8) (by decide)
    · exact ih ra hra

/-- Where every frame is below its caller's, in the page of the kernel stack, the return addresses are
    printed from the innermost out, and the text tells them. -/
theorem backtrace_tells {m : Mem} {fp : Nat} {l : List Nat} (hfp : PGROUNDDOWN fp + 16 ≤ fp)
    (htop : fp + PGSIZE < 2 ^ 64) (h : Frames m (PGROUNDDOWN fp + PGSIZE) fp l) :
    backtrace m fp = .ok (chars "backtrace:\n" ++ l.flatMap frameText) ∧
      ∀ m' fp' l' top', Frames m' top' fp' l' → l'.flatMap frameText = l.flatMap frameText → l' = l := by
  have hdown : PGROUNDDOWN fp ≤ fp := by
    unfold PGROUNDDOWN PGSIZE
    omega
  constructor
  · have hpage : PGSIZE = 4096 := rfl
    have hloop := h.loop (by omega) (PGSIZE / 16) (by decide) (by omega)
    unfold backtrace
    rw [printf_title]
    dsimp only
    show (do Except.ok (chars "backtrace:\n" ++ (← backtraceLoop m (PGROUNDDOWN fp + PGSIZE) (PGSIZE / 16) fp)) :
      Except String (List UInt8)) = _
    rw [hloop]
    rfl
  · exact fun m' fp' l' top' h' e => frameText_delimits.flatMap_inj (fun ra e => by cases e) l' l h'.lt h.lt e

/-- Two frames in the page at 0x1000; the outer one has the top of the page for a caller. -/
def twoFrames : Mem :=
  (((Mem.storeLE
    (fun _ => 0) 0x1f70 8 0x1fd0).storeLE 0x1f78 8 0x80001234).storeLE 0x1fc0 8 0x2000).storeLE 0x1fc8 8 0x80002cda

theorem backtrace_tells_two : backtrace twoFrames 0x1f80 =
    .ok (chars "backtrace:\n" ++ [0x80001234, 0x80002cda].flatMap frameText) ∧
    ∀ m' fp' l' top', Frames m' top' fp' l' → l'.flatMap frameText = [0x80001234, 0x80002cda].flatMap frameText →
      l' = [0x80001234, 0x80002cda] := by
  have e1 : twoFrames.loadLE (0x1f80 - 16) 8 = 0x1fd0 ∧ twoFrames.loadLE (0x1f80 - 8) 8 = 0x80001234 := by decide
  have e2 : twoFrames.loadLE (0x1fd0 - 16) 8 = 0x2000 ∧ twoFrames.loadLE (0x1fd0 - 8) 8 = 0x80002cda := by decide
  have h2 : Frames twoFrames 0x2000 0x1fd0 [0x80002cda] := by
    have h := Frames.frame (m := twoFrames) (by decide : 16 ≤ 0x1fd0) (by decide : 0x1fd0 < 0x2000)
      (by rw [e2.1]; decide) (by rw [e2.1]; exact .done (Nat.le_refl _))
    rw [e2.2] at h
    exact h
  have h1 : Frames twoFrames 0x2000 0x1f80 [0x80001234, 0x80002cda] := by
    have h := Frames.frame (m := twoFrames) (by decide : 16 ≤ 0x1f80) (by decide : 0x1f80 < 0x2000)
      (by rw [e1.1]; decide) (by rw [e1.1]; exact h2)
    rw [e1.2] at h
    exact h
  exact backtrace_tells (by decide) (by decide) h1

end Xv6Labs.Printf
