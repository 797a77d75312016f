/-
  Xv6Labs.Vm.Pgaccess — sys_pgaccess of the pagetables lab.

  It changes entries by their bit PTE_A only, which walk does not look at: `Alike` memories
  have the same tables but for it. `accessed`: the bit of a page of the range. argint and
  argaddr do not fail.

  - `pgaccessLoop_ok`: the mask and the entries after the loop; `pgaccessLoop_error`: when it
    panics.
-/

import Xv6Labs.Vm.Exact

namespace Xv6Labs.Vm

open Lib

abbrev PTE_A : Nat := 64
abbrev MAXSCAN : Int := 32

variable {κ : Type} (A : Lab κ)

/-- The bytes of a number, the lowest first. -/
def leBytes (k w : Nat) : List UInt8 := (List.range k).map fun i => UInt8.ofNat (w / 256 ^ i)

/-- With the rounds left, `i`, `StartVA` and `BitMask`. `1 << i` is an int. -/
def pgaccessLoop (pagetable : Nat) : Nat → Nat → Nat → Nat → Mach κ → Except String (Nat × Mach κ)
  | 0, _, _, BitMask, s => .ok (BitMask, s)
  | n + 1, i, StartVA, BitMask, s => do
    let (pte, s) ← walk A pagetable StartVA false s
    match pte with
    | none => .error "pgaccess : walk failed"
    | some pte =>
      let w := s.mem.loadLE pte 8
      if w &&& PTE_A ≠ 0 then
        pgaccessLoop pagetable n (i + 1) (u64 (StartVA + PGSIZE)) (BitMask ||| sext32 (2 ^ i))
          { s with mem := s.mem.storeLE pte 8 (clear w PTE_A) }
      else pgaccessLoop pagetable n (i + 1) (u64 (StartVA + PGSIZE)) BitMask s

def sys_pgaccess (pagetable StartVA : Nat) (NumberOfPages : Int) (BitMaskVA : Nat) (s : Mach κ) :
    Except String (Int × Mach κ) :=
  if NumberOfPages > MAXSCAN then .ok (-1, s)
  else do
    let (BitMask, s) ← pgaccessLoop A pagetable NumberOfPages.toNat 0 StartVA 0 s
    let (_, s) ← copyout A pagetable BitMaskVA (leBytes 8 BitMask) s
    .ok (0, s)

variable {A} {t va mask : Nat} {m m' m'' : Mem} {s s' : Mach κ}

/-! ## Tables that differ in PTE_A -/

def Alike (m m' : Mem) : Prop := ∀ a, a % 8 = 0 → clear (m'.loadLE a 8) PTE_A = clear (m.loadLE a 8) PTE_A

theorem Alike.refl (m : Mem) : Alike m m := fun _ _ => rfl

theorem Alike.trans (h : Alike m m') (h' : Alike m' m'') : Alike m m'' := fun a ha => (h' a ha).trans (h a ha)

theorem bit_of_clear {w w' i : Nat} (h : clear w' PTE_A = clear w PTE_A) (hw : w < 2 ^ 64) (hw' : w' < 2 ^ 64)
    (hi : i ≠ 6) :
    w'.testBit i = w.testBit i := by
  by_cases h64 : i < 64
  · have hb := congrArg (fun x => x.testBit i) h
    have hA : PTE_A.testBit i = false := by
      rw [show PTE_A = 2 ^ 6 from rfl, Nat.testBit_two_pow]
      exact decide_eq_false fun e => hi e.symm
    simpa [testBit_clear, hA, h64] using hb
  · have hle : 2 ^ 64 ≤ 2 ^ i := Nat.pow_le_pow_right (by decide) (Nat.not_lt.mp h64)
    rw [Nat.testBit_lt_two_pow (Nat.lt_of_lt_of_le hw' hle), Nat.testBit_lt_two_pow (Nat.lt_of_lt_of_le hw hle)]

/-- What walk and walkaddr look at. -/
theorem Alike.word (h : Alike m m') {a : Nat} (ha : a % 8 = 0) :
    vbit (m'.loadLE a 8) = vbit (m.loadLE a 8) ∧ PTE2PA (m'.loadLE a 8) = PTE2PA (m.loadLE a 8) ∧
      (m'.loadLE a 8).testBit 4 = (m.loadLE a 8).testBit 4 := by
  have hbit := fun i => bit_of_clear (i := i) (h a ha) (Mem.loadLE_lt m a 8) (Mem.loadLE_lt m' a 8)
  refine ⟨hbit 0 (by decide), ?_, hbit 4 (by decide)⟩
  have hdiv : m'.loadLE a 8 / 2 ^ 10 = m.loadLE a 8 / 2 ^ 10 := by
    refine Nat.eq_of_testBit_eq fun i => ?_
    rw [Nat.testBit_div_two_pow, Nat.testBit_div_two_pow]
    exact hbit _ (by omega)
  unfold PTE2PA
  rw [show 1024 = 2 ^ 10 from rfl, hdiv]

theorem slotFrom_alike (h : Alike m m') (v : Nat) : ∀ {l q}, q % 8 = 0 → slotFrom m' v l q = slotFrom m v l q := by
  intro l
  induction l with
  | zero => exact fun _ => rfl
  | succ l ih =>
    intro q hq
    obtain ⟨hv, hpa, -⟩ := h.word (a := q + 8 * (v / 512 ^ (l + 1) % 512)) (by omega)
    unfold slotFrom pte
    rw [hv, hpa, ih (by unfold PTE2PA u64; omega)]

theorem slotFrom_aligned {v a : Nat} : ∀ {l q}, q % 8 = 0 → slotFrom m v l q = some a → a % 8 = 0 := by
  intro l
  induction l with
  | zero =>
    intro q hq e
    cases e
    omega
  | succ l ih =>
    intro q hq e
    unfold slotFrom at e
    split at e
    · exact ih (by unfold PTE2PA u64; omega) e
    · cases e

theorem leaf_alike (h : Alike m m') (ht : t % 4096 = 0) (v : Nat) :
    vbit (leaf m' t v) = vbit (leaf m t v) ∧ PTE2PA (leaf m' t v) = PTE2PA (leaf m t v) ∧
      (leaf m' t v).testBit 4 = (leaf m t v).testBit 4 := by
  unfold leaf
  rw [slotFrom_alike h v (by omega : t % 8 = 0)]
  cases e : slotFrom m v 2 t with
  | none =>
    rw [Option.map_none, Option.map_none]
    exact ⟨rfl, rfl, rfl⟩
  | some a => exact h.word (slotFrom_aligned (by omega : t % 8 = 0) e)

theorem accessible_iff (m : Mem) (t va : Nat) : Accessible m t va ↔ va < MAXVA ∧ vbit (leaf m t (va / 4096)) = true ∧
    (leaf m t (va / 4096)).testBit 4 = true := by
  constructor
  · exact fun h => ⟨h.1, h.leaf⟩
  · exact fun h => ⟨h.1, _, lookup_some.mpr ⟨rfl, h.2.1⟩, h.2.2⟩

theorem accessible_alike (h : Alike m m') (ht : t % 4096 = 0) (va : Nat) : Accessible m' t va ↔
    Accessible m t va := by
  rw [accessible_iff, accessible_iff, (leaf_alike h ht _).1, (leaf_alike h ht _).2.2]

theorem frame_alike (h : Alike m m') (ht : t % 4096 = 0) (va : Nat) : frame m' t va = frame m t va :=
  (leaf_alike h ht _).2.1

theorem Node.alike (h : Alike m m') (ht : t % 4096 = 0) {l q : Nat} (hq : Node m' t l q) : Node m t l q := by
  induction hq with
  | root => exact .root
  | @child l q j _ hj hv ih =>
    have hal := ih.aligned ht
    obtain ⟨hv', hpa, -⟩ := h.word (a := q + 8 * j) (by omega)
    unfold pte at hv ⊢
    rw [hv'] at hv
    rw [hpa]
    exact .child ih hj hv

/-! ## The loop -/

/-- `StartVA` in round `i`. -/
def page (va i : Nat) : Nat := u64 (va + i * PGSIZE)

/-- The leaf entry that walk finds for it. -/
def slotAt (m : Mem) (t va i : Nat) : Option Nat :=
  if page va i < MAXVA then slotFrom m (page va i / 4096) 2 t else none

theorem page_succ (va i : Nat) : u64 (page va i + PGSIZE) = page va (i + 1) := by
  unfold page u64 PGSIZE
  omega

theorem page_zero (h : va < 2 ^ 64) : page va 0 = va := by
  unfold page
  rw [Nat.zero_mul]
  exact u64_of_lt h

theorem slotAt_alike (h : Alike m m') (ht : t % 4096 = 0) (va i : Nat) : slotAt m' t va i = slotAt m t va i := by
  unfold slotAt
  rw [slotFrom_alike h _ (by omega)]

theorem slotAt_aligned (ht : t % 4096 = 0) {i a : Nat} (e : slotAt m t va i = some a) : a % 8 = 0 := by
  unfold slotAt at e
  split at e
  · exact slotFrom_aligned (by omega) e
  · cases e

/-- walk in round `i`. -/
theorem walk_page {i a : Nat} (e : slotAt s.mem t va i = some a) :
    walk A t (page va i) false s = .ok (some a, s) := by
  unfold slotAt at e
  split at e
  · rename_i h
    rw [walk_false h, e]
  · cases e

theorem walk_page_none {i : Nat} (e : slotAt s.mem t va i = none) : (∃ e, walk A t (page va i) false s = .error e) ∨
    walk A t (page va i) false s = .ok (none, s) := by
  unfold slotAt at e
  split at e
  · rename_i h
    rw [walk_false h, e]
    exact Or.inr rfl
  · rename_i h
    unfold walk
    rw [if_pos (Nat.not_lt.mp h)]
    exact Or.inl ⟨_, rfl⟩

theorem clear_clear (w : Nat) : clear (clear w PTE_A) PTE_A = clear w PTE_A := by
  refine Nat.eq_of_testBit_eq fun i => ?_
  rw [testBit_clear, testBit_clear, Bool.and_assoc, Bool.and_self]

theorem clear_of_not {w : Nat} (hw : w < 2 ^ 64) (h : w.testBit 6 = false) : clear w PTE_A = w := by
  refine Nat.eq_of_testBit_eq fun i => ?_
  rw [testBit_clear, show PTE_A = 2 ^ 6 from rfl, Nat.testBit_two_pow]
  by_cases hi : i = 6
  · rw [hi, h, Bool.false_and]
  by_cases h64 : i < 64
  · rw [decide_eq_true h64, decide_eq_false fun e => hi e.symm, Bool.true_xor, Bool.not_false, Bool.and_true]
  · rw [Nat.testBit_lt_two_pow (Nat.lt_of_lt_of_le hw (Nat.pow_le_pow_right (by decide) (Nat.not_lt.mp h64))),
      Bool.false_and]

theorem clear_bit (w : Nat) : (clear w PTE_A).testBit 6 = false := by
  rw [testBit_clear, show (decide (6 < 64) ^^ PTE_A.testBit 6) = false by decide, Bool.and_false]

theorem clear_lt {w : Nat} (hw : w < 2 ^ 64) : clear w PTE_A < 256 ^ 8 := Nat.lt_of_le_of_lt (clear_le w PTE_A) hw

/-- `m'` is `m` with the bit PTE_A cleared in the words of `L`. -/
def Swept (L : List Nat) (m m' : Mem) : Prop :=
  ∀ a, a % 8 = 0 → m'.loadLE a 8 = if a ∈ L then clear (m.loadLE a 8) PTE_A else m.loadLE a 8

theorem Swept.alike {L : List Nat} (h : Swept L m m') : Alike m m' := fun a ha => by
  rw [h a ha]
  split
  · exact clear_clear _
  · rfl

/-- One more word, written or with the bit clear before. -/
theorem Swept.step {L : List Nat} {b : Nat} (h : Swept L m m') (hb : b % 8 = 0) :
    Swept (L ++ [b]) m (if m'.loadLE b 8 &&& PTE_A ≠ 0 then m'.storeLE b 8
      (clear (m'.loadLE b 8) PTE_A) else m') := by
  intro a ha
  have hmem : a ∈ L ++ [b] ↔ a ∈ L ∨ a = b := by rw [List.mem_append, List.mem_singleton]
  have hab := h a ha
  by_cases hab' : a = b
  · subst hab'
    rw [if_pos (hmem.mpr (Or.inr rfl))]
    have hclear : clear (m'.loadLE a 8) PTE_A = clear (m.loadLE a 8) PTE_A := h.alike a ha
    split
    · rw [Mem.loadLE_storeLE_of_lt _ _ _ _ (clear_lt (Mem.loadLE_lt m' a 8)), hclear]
    · rename_i hz
      rw [← hclear, clear_of_not (Mem.loadLE_lt m' a 8) ((and_bit_eq_zero _ 6).mp (not_not.mp hz))]
  · have hsame :
      (if m'.loadLE b 8 &&& PTE_A ≠ 0 then m'.storeLE b 8 (clear (m'.loadLE b 8) PTE_A) else m').loadLE a 8 =
      m'.loadLE a 8 := by
      split
      · exact Mem.loadLE_agree (Mem.agree_storeLE m' (by omega))
      · rfl
    rw [hsame, hab]
    exact if_congr (by rw [hmem]; exact ⟨Or.inl, fun h => h.resolve_right hab'⟩) rfl rfl

/-- Round `i` finds the bit set: it was, and no round before had the same entry. -/
def Fresh (m : Mem) (slot : Nat → Nat) (i : Nat) : Prop :=
  (m.loadLE (slot i) 8).testBit 6 = true ∧ ∀ k < i, slot k ≠ slot i

/-- The mask after `i` rounds. -/
structure Mask (m : Mem) (slot : Nat → Nat) (i W : Nat) : Prop where
  lt : W < 2 ^ 64
  bit : ∀ j, W.testBit j = true ↔ ∃ k < i, Fresh m slot k ∧ (sext32 (2 ^ k)).testBit j = true

theorem sext32_lt (n : Nat) : sext32 n < 2 ^ 64 := by
  unfold sext32 u32
  split <;> omega

theorem pgaccessLoop_ok (ht : t % 4096 = 0) {N : Nat} {slot : Nat → Nat}
    (hslot : ∀ i < N, slotAt m t va i = some (slot i)) : ∀ {n i W s},
    i + n = N → Swept ((List.range i).map slot) m s.mem → Mask m slot i W →
    ∃ W' s', pgaccessLoop A t n i (page va i) W s = .ok (W', s') ∧ s'.kmem = s.kmem ∧
      Swept ((List.range N).map slot) m s'.mem ∧ Mask m slot N W' := by
  intro n
  induction n with
  | zero =>
    intro i W s hi hs hW
    obtain rfl : i = N := hi
    exact ⟨W, s, rfl, rfl, hs, hW⟩
  | succ n ih =>
    intro i W s hi hs hW
    have hsl := hslot i (by omega)
    have hal := slotAt_aligned ht hsl
    have hnext : (List.range (i + 1)).map slot = (List.range i).map slot ++ [slot i] := by
      rw [List.range_succ, List.map_append, List.map_singleton]
    have hstep := hs.step hal
    rw [← hnext] at hstep
    have hin : slot i ∈ (List.range i).map slot ↔ ∃ k < i, slot k = slot i := by simp
    -- the word in the entry, with the bit as it was if this is its first round
    have hfresh : s.mem.loadLE (slot i) 8 &&& PTE_A ≠ 0 ↔ Fresh m slot i := by
      rw [show PTE_A = 2 ^ 6 from rfl, and_bit_ne_zero, hs _ hal]
      unfold Fresh
      split
      · rename_i hmem
        rw [clear_bit]
        obtain ⟨k, hk, e⟩ := hin.mp hmem
        exact ⟨fun h => absurd h Bool.false_ne_true, fun h => absurd e (h.2 k hk)⟩
      · rename_i hmem
        exact ⟨fun h => ⟨h, fun k hk e => hmem (hin.mpr ⟨k, hk, e⟩)⟩, fun h => h.1⟩
    have hlast : ∀ (P : Nat → Prop), (∃ k < i + 1, P k) ↔ (∃ k < i, P k) ∨ P i := fun P => by
      constructor
      · rintro ⟨k, hk, h⟩
        rcases Nat.lt_or_eq_of_le (Nat.le_of_lt_succ hk) with hlt | rfl
        · exact Or.inl ⟨k, hlt, h⟩
        · exact Or.inr h
      · rintro (⟨k, hk, h⟩ | h)
        · exact ⟨k, by omega, h⟩
        · exact ⟨i, Nat.lt_succ_self i, h⟩
    unfold pgaccessLoop
    rw [walk_page (by rw [slotAt_alike hs.alike ht]; exact hsl), ok_bind]
    dsimp only
    rw [page_succ]
    by_cases hbit : s.mem.loadLE (slot i) 8 &&& PTE_A ≠ 0
    · rw [if_pos hbit] at hstep ⊢
      have hW' : Mask m slot (i + 1) (W ||| sext32 (2 ^ i)) := by
        refine ⟨Nat.or_lt_two_pow hW.lt (sext32_lt _), fun j => ?_⟩
        rw [Nat.testBit_or, Bool.or_eq_true, hW.bit j, hlast]
        exact or_congr Iff.rfl ⟨fun h => ⟨hfresh.mp hbit, h⟩, fun h => h.2⟩
      exact ih (s := { s with mem := s.mem.storeLE (slot i) 8 (clear (s.mem.loadLE (slot i) 8) PTE_A) })
        (by omega) hstep hW'
    · rw [if_neg hbit] at hstep ⊢
      have hW' : Mask m slot (i + 1) W := by
        refine ⟨hW.lt, fun j => ?_⟩
        rw [hW.bit j, hlast]
        exact ⟨Or.inl, fun h => h.resolve_right fun h => hbit (hfresh.mpr h.1)⟩
      exact ih (by omega) hstep hW'

theorem swept_nil (m : Mem) : Swept [] m m := fun _ _ => rfl

theorem pgaccessLoop_error (ht : t % 4096 = 0) : ∀ {n i W s}, Alike m s.mem →
    (∃ k < n, slotAt m t va (i + k) = none) →
    ∃ e, pgaccessLoop A t n i (page va i) W s = .error e := by
  intro n
  induction n with
  | zero => exact fun _ ⟨k, hk, _⟩ => absurd hk (Nat.not_lt_zero k)
  | succ n ih =>
    intro i W s hs ⟨k, hk, hno⟩
    unfold pgaccessLoop
    cases e : slotAt s.mem t va i with
    | none =>
      rcases walk_page_none (A := A) e with ⟨e', he⟩ | he
      · exact ⟨e', by rw [he]; rfl⟩
      · exact ⟨_, by rw [he]; rfl⟩
    | some a =>
      have hk0 : k ≠ 0 := fun h0 => by
        rw [h0, Nat.add_zero, ← slotAt_alike hs ht, e] at hno
        cases hno
      have hrest : ∃ k < n, slotAt m t va (i + 1 + k) = none :=
        ⟨k - 1, by omega, by rw [show i + 1 + (k - 1) = i + k by omega]; exact hno⟩
      rw [walk_page e, ok_bind]
      dsimp only
      rw [page_succ]
      split
      · rename_i hbit
        refine ih (s := { s with mem := s.mem.storeLE a 8 (clear (s.mem.loadLE a 8) PTE_A) }) (hs.trans ?_) hrest
        have hsw := (swept_nil s.mem).step (slotAt_aligned ht e)
        rw [if_pos hbit] at hsw
        exact hsw.alike
      · exact ih hs hrest

theorem mask_zero (m : Mem) (slot : Nat → Nat) : Mask m slot 0 0 :=
  ⟨by decide, fun j => by
    rw [Nat.zero_testBit]
    exact ⟨fun h => absurd h Bool.false_ne_true, fun ⟨k, hk, _⟩ => absurd hk (Nat.not_lt_zero k)⟩⟩

/-! ## Panics -/

/-- walkaddr finds the pages of the mask. -/
def Storable (m : Mem) (t mask : Nat) : Prop := ∀ i < 8, Accessible m t (mask + i) ∧ frame m t (mask + i) ≠ 0

/-- It returns without a panic, and -1 if the mask cannot be stored. -/
def Survives (A : Lab κ) (t va : Nat) (n : Int) (mask : Nat) (s : Mach κ) : Prop :=
  ∃ r s', sys_pgaccess A t va n mask s = .ok (r, s') ∧ (r = 0 ∨ r = -1) ∧ (¬ Storable s.mem t mask → r = -1)

variable (A t) in
theorem copyoutLoop_returns : ∀ rounds va src (s : Mach κ), ∃ r s',
    copyoutLoop (walkaddr A t) rounds va src s = .ok (r, s') := by
  intro rounds
  induction rounds with
  | zero => exact fun _ _ s => ⟨0, s, rfl⟩
  | succ rounds ih =>
    intro va src s
    by_cases h0 : src.length = 0
    · rw [List.length_eq_zero_iff.mp h0, copyoutLoop_nil]
      exact ⟨0, s, rfl⟩
    · have hwalk : walkaddr A t (PGROUNDDOWN va) s = .ok (upage s.mem t (PGROUNDDOWN va), s) :=
        walkaddr_eq t (PGROUNDDOWN va) s
      rw [copyoutLoop_round h0 hwalk]
      split
      · exact ⟨-1, s, rfl⟩
      · exact ih _ _ _

theorem slots_of_isSome {n : Nat} (h : ∀ i < n, (slotAt m t va i).isSome = true) : ∃ slot :
    Nat → Nat, ∀ i < n, slotAt m t va i = some (slot i) :=
  ⟨fun i => (slotAt m t va i).getD 0, fun i hi => by
    obtain ⟨a, e⟩ := Option.isSome_iff_exists.mp (h i hi)
    show slotAt m t va i = some ((slotAt m t va i).getD 0)
    rw [e]
    rfl⟩

theorem pgaccess_survives (ht : t % 4096 = 0) (hva : va < 2 ^ 64) (n : Int) (mask : Nat) :
    Survives A t va n mask s ↔ n > MAXSCAN ∨ (∀ i < n.toNat, (slotAt s.mem t va i).isSome = true) ∧
      Storable s.mem t mask := by
  unfold Survives sys_pgaccess
  by_cases hn : n > MAXSCAN
  · rw [if_pos hn]
    exact ⟨fun _ => Or.inl hn, fun _ => ⟨-1, s, rfl, Or.inr rfl, fun _ => rfl⟩⟩
  rw [if_neg hn]
  by_cases hwalk : ∀ i < n.toNat, (slotAt s.mem t va i).isSome = true
  · obtain ⟨slot, hslot⟩ := slots_of_isSome hwalk
    obtain ⟨W, s1, e1, -⟩ := pgaccessLoop_ok (A := A) ht hslot (n := n.toNat) (i := 0) (s := s) (Nat.zero_add _)
      (swept_nil s.mem) (mask_zero s.mem slot)
    rw [page_zero hva] at e1
    obtain ⟨r, s2, e2⟩ := copyoutLoop_returns A t (leBytes 8 W).length mask (leBytes 8 W) s1
    rw [e1, ok_bind]
    dsimp only
    unfold copyout
    rw [e2, ok_bind]
    constructor
    · rintro ⟨r', s', e, -, hr⟩
      cases e
      refine Or.inr ⟨hwalk, ?_⟩
      by_contra hst
      exact absurd (hr hst) (by decide)
    · rintro (h | ⟨-, hst⟩)
      · exact absurd h hn
      · exact ⟨0, s2, rfl, Or.inl rfl, fun h => absurd hst h⟩
  · have hno : ∃ k < n.toNat, slotAt s.mem t va (0 + k) = none := by
      by_contra hall
      refine hwalk fun i hi => ?_
      rw [← Option.ne_none_iff_isSome]
      intro e
      exact hall ⟨i, hi, by rw [Nat.zero_add, e]⟩
    obtain ⟨e, he⟩ := pgaccessLoop_error (A := A) ht (i := 0) (W := 0) (Alike.refl s.mem) hno
    rw [page_zero hva] at he
    rw [he]
    constructor
    · rintro ⟨r, s', e', -⟩
      cases e'
    · rintro (h | ⟨h, -⟩)
      · exact absurd h hn
      · exact absurd h hwalk

/-! ## The mask -/

/-- The bit PTE_A of page `i`. -/
def accessed (m : Mem) (t va i : Nat) : Bool := (leaf m t (page va i / 4096)).testBit 6

/-- The 64-bit value at an address of the user. -/
def userWord (m : Mem) (t va : Nat) : Nat := Mem.loadLE (fun i => m (phys m t (va + i))) 0 8

/-- The mask can be stored, on pages that are no page-table pages. -/
structure MaskOk (m : Mem) (t mask : Nat) : Prop where
  storable : Storable m t mask
  tables : ∀ i < 8, ∀ l q, Node m t l q → frame m t (mask + i) ≠ q

/-- The mask reports the bits of `n` pages, which are cleared, and nothing else is; called
    again, it reports 0. -/
structure Reports (A : Lab κ) (t va : Nat) (n : Int) (mask : Nat) (s s' : Mach κ) : Prop where
  run : sys_pgaccess A t va n mask s = .ok (0, s')
  report : ∀ i < 64, (userWord s'.mem t mask).testBit i = (decide (i < n.toNat) && accessed s.mem t va i)
  entries : ∀ l q, Node s.mem t l q → ∀ j < 512, pte s'.mem q j =
    if ∃ i < n.toNat, slotAt s.mem t va i = some (q + 8 * j) then clear (pte s.mem q j) PTE_A else pte s.mem q j
  again : ∃ s'', sys_pgaccess A t va n mask s' = .ok (0, s'') ∧ userWord s''.mem t mask = 0

theorem slotAt_leaf {i a : Nat} (e : slotAt m t va i = some a) : accessed m t va i = (m.loadLE a 8).testBit 6 := by
  unfold slotAt at e
  split at e
  · unfold accessed leaf
    rw [e]
    rfl
  · cases e

theorem MaskOk.alike (hm : MaskOk m t mask) (h : Alike m m') (ht : t % 4096 = 0) : MaskOk m' t mask := by
  refine ⟨fun i hi => ?_, fun i hi l q hq => ?_⟩
  · rw [accessible_alike h ht, frame_alike h ht]
    exact hm.storable i hi
  · rw [frame_alike h ht]
    exact hm.tables i hi l q (hq.alike h ht)

theorem MaskOk.apart (hm : MaskOk m t mask) : Apart m t mask 8 := by
  refine ⟨fun i hi _ => (hm.storable i hi).2, fun i hi _ => hm.tables i hi, fun i hi j hj _ _ e => ?_⟩
  have h1 : frame m t (mask + i) % 4096 = 0 := pte2pa_mod _
  have h2 : frame m t (mask + j) % 4096 = 0 := pte2pa_mod _
  unfold phys at e
  omega

theorem leBytes_length (k w : Nat) : (leBytes k w).length = k := by
  unfold leBytes
  rw [List.length_map, List.length_range]

/-- copyout of the mask. -/
theorem MaskOk.copyout (hm : MaskOk s.mem t mask) (ht : t % 4096 = 0) {W : Nat} (hW : W < 2 ^ 64) :
    ∃ s', Vm.copyout A t mask (leBytes 8 W) s = .ok (0, s') ∧ s'.kmem = s.kmem ∧ userWord s'.mem t mask = W ∧
      ∀ l q, Node s.mem t l q → Mem.Agree s.mem s'.mem q 4096 := by
  have hlen := leBytes_length 8 W
  have hn : Reaches s.mem t mask (leBytes 8 W).length 8 := by
    rw [hlen]
    exact ⟨Nat.le_refl 8, fun i hi => (hm.storable i hi).1, fun h => absurd h (by decide)⟩
  obtain ⟨s', e, hs⟩ := copyoutLoop_exact (A := A) ht (Nat.le_refl _) (by rw [hlen]; exact hm.apart) hn
  rw [hlen, if_pos rfl] at e
  have htake : (leBytes 8 W).take 8 = leBytes 8 W := List.take_of_length_le (by rw [hlen])
  rw [htake] at hs
  refine ⟨s', by rw [Vm.copyout, hlen]; exact e, hs.kmem, ?_, hs.node⟩
  have hag : Mem.Agree (Mem.storeLE (fun _ => 0) 0 8 W) (fun i => s'.mem (phys s'.mem t (mask + i))) 0 8 :=
    fun i _ hi => by
    rw [Nat.zero_add] at hi
    dsimp only
    rw [phys_congr (leaf_agree hs.node), hs.here i (by rw [hlen]; exact hi)]
    unfold Mem.storeLE leBytes
    rw [if_pos (by omega), List.getD_eq_getElem _ _ (by rw [List.length_map, List.length_range]; exact hi),
      List.getElem_map, List.getElem_range, Nat.sub_zero]
  unfold userWord
  rw [Mem.loadLE_agree hag, Mem.loadLE_storeLE_of_lt _ _ _ _ hW]

/-- A call with pages that walk finds. -/
theorem sys_pgaccess_ok (ht : t % 4096 = 0) (hva : va < 2 ^ 64) {n : Int} (hn : n ≤ MAXSCAN) {slot : Nat → Nat}
    (hslot : ∀ i < n.toNat, slotAt s.mem t va i = some (slot i)) (hm : MaskOk s.mem t mask) :
    ∃ s', sys_pgaccess A t va n mask s = .ok (0, s') ∧ Mask s.mem slot n.toNat (userWord s'.mem t mask) ∧
      ∃ m1, Swept ((List.range n.toNat).map slot) s.mem m1 ∧ ∀ l q, Node s.mem t l q →
        Mem.Agree m1 s'.mem q 4096 := by
  obtain ⟨W, s1, e1, -, hsw, hW⟩ :=
    pgaccessLoop_ok (A := A) ht hslot (n := n.toNat) (i := 0) (s := s) (Nat.zero_add _) (swept_nil s.mem)
      (mask_zero s.mem slot)
  rw [page_zero hva] at e1
  obtain ⟨s2, e2, -, hword, hnode⟩ := (hm.alike hsw.alike ht).copyout (A := A) ht hW.lt
  refine ⟨s2, ?_, by rw [hword]; exact hW, s1.mem, hsw,
    fun l q hq => hnode l q (hq.alike (fun a ha => (hsw.alike a ha).symm) ht)⟩
  unfold sys_pgaccess
  rw [if_neg (Int.not_lt.mpr hn), e1, ok_bind]
  dsimp only
  rw [e2]
  rfl

theorem MaskOk.agree (hm : MaskOk m t mask) (h : ∀ l q, Node m t l q → Mem.Agree m m' q 4096) : MaskOk m' t mask := by
  have hf : ∀ va, frame m' t va = frame m t va := fun va => congrArg PTE2PA (leaf_agree h _)
  refine ⟨fun i hi => ?_, fun i hi l q hq => ?_⟩
  · rw [accessible_congr (leaf_agree h), hf]
    exact hm.storable i hi
  · rw [hf]
    exact hm.tables i hi l q (hq.of_agree h)

theorem slotAt_node {i a : Nat} (e : slotAt m t va i = some a) : ∃ p j, Node m t 0 p ∧ j < 512 ∧ a = p + 8 * j := by
  unfold slotAt at e
  split at e
  · obtain ⟨p, hp, rfl⟩ := slotFrom_node .root e
    exact ⟨p, _, hp, Nat.mod_lt _ (by decide), rfl⟩
  · cases e

/-- After a call, a second one finds no bit set. -/
theorem pgaccess_again (ht : t % 4096 = 0) (hva : va < 2 ^ 64) {n : Int} (hn : n ≤ MAXSCAN) {slot : Nat → Nat}
    (hslot : ∀ i < n.toNat, slotAt s.mem t va i = some (slot i)) (hm : MaskOk s.mem t mask) {m1 : Mem}
    (hsw : Swept ((List.range n.toNat).map slot) s.mem m1)
    (hnode : ∀ l q, Node s.mem t l q → Mem.Agree m1 s'.mem q 4096) :
    ∃ s'', sys_pgaccess A t va n mask s' = .ok (0, s'') ∧ userWord s''.mem t mask = 0 := by
  have hnode1 : ∀ l q, Node m1 t l q → Mem.Agree m1 s'.mem q 4096 := fun l q hq => hnode l q (hq.alike hsw.alike ht)
  have hslot' : ∀ i < n.toNat, slotAt s'.mem t va i = some (slot i) := fun i hi => by
    rw [← hslot i hi, ← slotAt_alike hsw.alike ht]
    unfold slotAt
    rw [slotFrom_agree hnode1 _ .root]
  obtain ⟨s'', e, hW, -⟩ := sys_pgaccess_ok (A := A) ht hva hn hslot' ((hm.alike hsw.alike ht).agree hnode1)
  refine ⟨s'', e, Nat.zero_of_testBit_eq_false fun j => ?_⟩
  by_contra hj
  obtain ⟨k, hk, hfresh, -⟩ := (hW.bit j).mp (Bool.not_eq_false _ ▸ hj)
  obtain ⟨p, j, hp, hj, e⟩ := slotAt_node (hslot k hk)
  have hword : s'.mem.loadLE (slot k) 8 = clear (s.mem.loadLE (slot k) 8) PTE_A := by
    have hmem : slot k ∈ (List.range n.toNat).map slot := List.mem_map.mpr ⟨k, List.mem_range.mpr hk, rfl⟩
    rw [e, ← e, ← if_pos (c := slot k ∈ (List.range n.toNat).map slot) (t := clear (s.mem.loadLE (slot k) 8) PTE_A)
      (e := s.mem.loadLE (slot k) 8) hmem,
      ← hsw (slot k) (slotAt_aligned ht (hslot k hk)), e]
    exact pte_agree (hnode 0 p hp) hj
  have := hfresh.1
  rw [hword, clear_bit] at this
  cases this

theorem sext32_bit {k j : Nat} (hk : k < 32) (hj : j < 64) : (sext32 (2 ^ k)).testBit j = true ↔
    j = k ∨ k = 31 ∧ 31 ≤ j := by
  by_cases h31 : k = 31
  · subst h31
    have hall : ∀ j < 64, (sext32 (2 ^ 31)).testBit j = decide (31 ≤ j) := by decide
    rw [hall j hj, decide_eq_true_iff]
    omega
  · rw [sext32_of_lt (Nat.pow_lt_pow_right (by decide) (by omega : k < 31)), Nat.testBit_two_pow, decide_eq_true_iff]
    omega

/-- The sign of `1 << 31` is in the mask of 32 pages, and an entry that two pages share is
    reported once. -/
theorem pgaccess_reports (ht : t % 4096 = 0) (hva : va < 2 ^ 64) {n : Int} (hn : n ≤ MAXSCAN)
    (hwalk : ∀ i < n.toNat, (slotAt s.mem t va i).isSome = true)
    (hm : MaskOk s.mem t mask) : (∃ s', Reports A t va n mask s s') ↔
      (n = 32 → accessed s.mem t va 31 = false) ∧
        ∀ i j, i < j → j < n.toNat → slotAt s.mem t va i = slotAt s.mem t va j → accessed s.mem t va i = false := by
  obtain ⟨slot, hslot⟩ := slots_of_isSome hwalk
  obtain ⟨s1, e1, hW, m1, hsw, hnode⟩ := sys_pgaccess_ok (A := A) ht hva hn hslot hm
  have hacc : ∀ i < n.toNat, accessed s.mem t va i = (s.mem.loadLE (slot i) 8).testBit 6 :=
    fun i hi => slotAt_leaf (hslot i hi)
  have hn32 : n.toNat ≤ 32 := by unfold MAXSCAN at hn; omega
  have hbit : ∀ j < 64, (userWord s1.mem t mask).testBit j = true ↔ ∃ k < n.toNat, Fresh s.mem slot k ∧
    (j = k ∨ k = 31 ∧ 31 ≤ j) := fun j hj => by
    rw [hW.bit j]
    exact exists_congr fun k => and_congr_right fun hk => and_congr_right fun _ => sext32_bit (by omega) hj
  constructor
  · rintro ⟨s', hrep⟩
    obtain rfl : s1 = s' := by
      have := e1.symm.trans hrep.run
      cases this
      rfl
    -- bit 32 is no page's
    have hhigh : ¬ (31 < n.toNat ∧ Fresh s.mem slot 31) := fun ⟨h31, hf⟩ => by
      have h1 := (hbit 32 (by decide)).mpr ⟨31, h31, hf, Or.inr ⟨rfl, by decide⟩⟩
      rw [hrep.report 32 (by decide), decide_eq_false (by omega)] at h1
      cases h1
    have hfresh : ∀ j < n.toNat, accessed s.mem t va j = true → Fresh s.mem slot j := fun j hj ha => by
      have h1 := hrep.report j (by omega)
      rw [decide_eq_true hj, ha] at h1
      obtain ⟨k, hk, hf, rfl | ⟨rfl, -⟩⟩ := (hbit j (by omega)).mp h1
      · exact hf
      · exact absurd ⟨hk, hf⟩ hhigh
    constructor
    · intro hn'
      by_contra ha
      have h31 : 31 < n.toNat := by omega
      exact hhigh ⟨h31, hfresh 31 h31 (Bool.not_eq_false _ ▸ ha)⟩
    · intro i j hij hj hsame
      by_contra ha
      have hs : slot i = slot j := by
        rw [hslot i (by omega), hslot j hj] at hsame
        exact Option.some.inj hsame
      have haj : accessed s.mem t va j = true := by
        rw [hacc j hj, ← hs, ← hacc i (by omega)]
        exact Bool.not_eq_false _ ▸ ha
      exact (hfresh j hj haj).2 i hij hs
  · rintro ⟨hlast, hshare⟩
    have hfresh : ∀ k < n.toNat, Fresh s.mem slot k ↔ accessed s.mem t va k = true := fun k hk => by
      unfold Fresh
      rw [← hacc k hk]
      refine ⟨fun h => h.1, fun ha => ⟨ha, fun i hi e => ?_⟩⟩
      have hno := hshare i k hi hk (by rw [hslot i (by omega), hslot k hk, e])
      rw [hacc i (by omega), e, ← hacc k hk, ha] at hno
      cases hno
    refine ⟨s1, e1, fun j hj => Bool.eq_iff_iff.mpr ?_, fun l q hq j hj => ?_,
      pgaccess_again ht hva hn hslot hm hsw hnode⟩
    · rw [hbit j hj, Bool.and_eq_true, decide_eq_true_iff]
      constructor
      · rintro ⟨k, hk, hf, rfl | ⟨rfl, -⟩⟩
        · exact ⟨hk, (hfresh j hk).mp hf⟩
        · have := hlast (by omega)
          rw [(hfresh 31 hk).mp hf] at this
          cases this
      · rintro ⟨hjn, ha⟩
        exact ⟨j, hjn, (hfresh j hjn).mpr ha, Or.inl rfl⟩
    · have hal := hq.aligned ht
      have hmem : q + 8 * j ∈ (List.range n.toNat).map slot ↔
        ∃ i < n.toNat, slotAt s.mem t va i = some (q + 8 * j) := by
        rw [List.mem_map]
        constructor
        · rintro ⟨i, hi, e⟩
          have hi := List.mem_range.mp hi
          exact ⟨i, hi, by rw [hslot i hi, e]⟩
        · rintro ⟨i, hi, e⟩
          rw [hslot i hi] at e
          exact ⟨i, List.mem_range.mpr hi, Option.some.inj e⟩
      rw [pte_agree (hnode l q hq) hj]
      unfold pte
      rw [hsw _ (by omega)]
      exact if_congr hmem rfl rfl

/-! ## Runs -/

theorem slotAt_oneTable {e : Nat → Nat} {i : Nat} (hi : i < 512) :
    slotAt (oneTable e) 4096 0 i = some (12288 + 8 * i) := by
  have hp : page 0 i = i * 4096 := by
    unfold page PGSIZE u64
    omega
  unfold slotAt
  rw [hp, if_pos (by unfold MAXVA; omega), Nat.mul_div_cancel i (by decide), oneTable_slot (by unfold VPN; omega),
    if_pos hi]

theorem storable_twoPages : Storable twoPages 4096 0 := fun i hi =>
  ⟨twoPages_first _ (by omega), twoPages_scattered.nonNull _ (twoPages_first _ (by omega))⟩

/-- Two pages, and the mask on the first. -/
theorem pgaccess_survives_twoPages : Survives someLab 4096 0 2 0 ⟨twoPages, ⟨0, 0⟩⟩ :=
  (pgaccess_survives (A := someLab) (s := ⟨twoPages, ⟨0, 0⟩⟩) (by decide : 4096 % 4096 = 0)
    (by decide : 0 < 2 ^ 64) 2 0).mpr
    (Or.inr ⟨fun i hi => by
      have hi : i < 2 := hi
      unfold twoPages
      rw [slotAt_oneTable (by omega)]
      rfl, storable_twoPages⟩)

/-- An address past MAXVA, a region without page tables, and a mask that is not stored. -/
theorem pgaccess_crashes : sys_pgaccess someLab 4096 MAXVA 1 0 ⟨twoPages, ⟨0, 0⟩⟩ = .error "walk" ∧
    sys_pgaccess someLab 4096 0x40000000 1 0 ⟨twoPages, ⟨0, 0⟩⟩ = .error "pgaccess : walk failed" ∧
    ¬ Survives someLab 4096 0 0 8192 ⟨twoPages, ⟨0, 0⟩⟩ := by
  refine ⟨rfl, error_of_message (by decide +kernel) (by decide), ?_⟩
  rintro ⟨r, s', e, -, hr⟩
  have hno : ¬ Storable twoPages 4096 8192 := fun h => by
    rcases twoPages_accessible (h 0 (by decide)).1 with ⟨e, -⟩ | ⟨e, -⟩ <;> exact absurd e (by decide)
  have hrun : (sys_pgaccess someLab 4096 0 0 8192 ⟨twoPages, ⟨0, 0⟩⟩).toOption.map (·.1) = some 0 := by decide +kernel
  rw [e, hr hno] at hrun
  have hrun : (-1 : Int) = 0 := Option.some.inj hrun
  exact absurd hrun (by decide)

theorem pgaccess_reports_twoPages : ∃ s', Reports someLab 4096 0 2 0 ⟨twoPages, ⟨0, 0⟩⟩ s' := by
  have hslot : ∀ i < 2, slotAt twoPages 4096 0 i = some (12288 + 8 * i) := fun i hi => slotAt_oneTable (by omega)
  refine (pgaccess_reports (A := someLab) (s := ⟨twoPages, ⟨0, 0⟩⟩) (by decide : 4096 % 4096 = 0)
    (by decide : 0 < 2 ^ 64) (by decide : (2 : Int) ≤ MAXSCAN)
    (fun i hi => by rw [hslot i hi]; rfl) ⟨storable_twoPages,
      fun i hi l q hq => twoPages_scattered.tables _ (twoPages_first _ (by omega)) l q hq⟩).mpr
    ⟨fun h => absurd h (by decide), fun i j hij hj e => ?_⟩
  rw [hslot i (Nat.lt_trans hij hj), hslot j hj] at e
  have := Option.some.inj e
  omega

/-- 32 pages of the user, all accessed. -/
def thirtyTwo : Mem := oneTable fun j => if j < 32 then (6 + j) * 1024 + 87 else 0

/-- Bit 32 of the mask is set. -/
theorem pgaccess_sign : ∃ s', sys_pgaccess someLab 4096 0 32 0 ⟨thirtyTwo, ⟨0, 0⟩⟩ = .ok (0, s') ∧
    (userWord s'.mem 4096 0).testBit 32 = true ∧
    ¬ Reports someLab 4096 0 32 0 ⟨thirtyTwo, ⟨0, 0⟩⟩ s' := by
  have hlt : ∀ j < 512, (if j < 32 then (6 + j) * 1024 + 87 else 0) < 2 ^ 64 := fun j _ => by split <;> omega
  have hleaf : leaf thirtyTwo 4096 0 = 6231 := by
    unfold thirtyTwo
    rw [leaf_oneTable (by decide) hlt]
    rfl
  have hframe : ∀ i < 8, frame thirtyTwo 4096 (0 + i) = 24576 := fun i hi => by
    unfold frame
    rw [show (0 + i) / 4096 = 0 by omega, hleaf]
    decide
  have hm : MaskOk thirtyTwo 4096 0 := by
    refine ⟨fun i hi => ⟨?_, by rw [hframe i hi]; decide⟩, fun i hi l q hq => ?_⟩
    · rw [accessible_iff, show (0 + i) / 4096 = 0 by omega, hleaf]
      exact ⟨by unfold MAXVA; omega, by decide, by decide⟩
    · rw [hframe i hi]
      rcases oneTable_node hq with ⟨-, rfl⟩ | ⟨-, rfl⟩ | ⟨-, rfl⟩ <;> decide
  have hslot : ∀ i < (32 : Int).toNat, slotAt thirtyTwo 4096 0 i = some (12288 + 8 * i) := fun i hi => by
    have hi : i < 32 := hi
    exact slotAt_oneTable (by omega)
  obtain ⟨s', e, hW, -⟩ := sys_pgaccess_ok (A := someLab) (s := ⟨thirtyTwo, ⟨0, 0⟩⟩) (by decide : 4096 % 4096 = 0)
    (by decide : 0 < 2 ^ 64)
    (by decide : (32 : Int) ≤ MAXSCAN) hslot hm
  have hfresh : Fresh thirtyTwo (fun i => 12288 + 8 * i) 31 := by
    refine ⟨?_, fun k hk h => ?_⟩
    · unfold thirtyTwo
      rw [oneTable_leaf (by decide) (by decide)]
      decide
    · have h : 12288 + 8 * k = 12288 + 8 * 31 := h
      omega
  have h32 : (userWord s'.mem 4096 0).testBit 32 = true := (hW.bit 32).mpr ⟨31, by decide, hfresh, by decide⟩
  refine ⟨s', e, h32, fun h => ?_⟩
  rw [h.report 32 (by decide)] at h32
  exact absurd h32 (by decide)

end Xv6Labs.Vm
