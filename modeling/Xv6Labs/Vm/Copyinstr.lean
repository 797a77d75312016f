/-
  Xv6Labs.Vm.Copyinstr — copyinstr of the pagetables lab, and fetchstr of its syscall.c.

  The buffer they copy to is a byte list: what was written is its beginning. `IsString`: the
  user has a string of length `k` at an address.

  - `copyinstr_exact`: copyinstr moves the strings that fit into `max` bytes with their NUL.
-/

import Xv6Labs.Vm.Exact

namespace Xv6Labs.Vm

open Lib

variable {κ : Type} (A : Lab κ)

/-- The inner loop, with the bytes left and `p`: whether it got a NUL, and what it wrote. -/
def copyChars (m : Mem) : Nat → Nat → Bool × List UInt8
  | 0, _ => (false, [])
  | n + 1, p =>
    if m p = 0 then (true, [0])
    else
      let (got_null, bs) := copyChars m n (p + 1)
      (got_null, m p :: bs)

/-- A round with a page takes at least one byte off `max`, or ends the loop. -/
def copyinstrLoop (pagetable : Nat) : Nat → Nat → Nat → Mach κ → Except String (Int × List UInt8)
  | 0, _, _, _ => .ok (-1, [])
  | rounds + 1, srcva, max, s =>
    if max = 0 then .ok (-1, [])
    else do
      let va0 := PGROUNDDOWN srcva
      let (pa0, s) ← walkaddr A pagetable va0 s
      if pa0 = 0 then .ok (-1, [])
      else
        let n := min (PGSIZE - (srcva - va0)) max
        let (got_null, bs) := copyChars s.mem n (pa0 + (srcva - va0))
        if got_null then .ok (0, bs)
        else do
          let (r, bs') ← copyinstrLoop pagetable rounds (u64 (va0 + PGSIZE)) (max - n) s
          .ok (r, bs ++ bs')

def copyinstr (pagetable srcva max : Nat) (s : Mach κ) : Except String (Int × List UInt8) :=
  copyinstrLoop A pagetable max srcva max s

def strlen (bs : List UInt8) : Int := i32 (bs.takeWhile (· ≠ 0)).length

/-- `buf` is what the buffer holds before. -/
def fetchstr (pagetable addr : Nat) (buf : List UInt8) (max : Int) (s : Mach κ) : Except String Int := do
  let (err, bs) ← copyinstr A pagetable addr (toU64 max) s
  if err < 0 then .ok err else .ok (strlen (bs ++ buf.drop bs.length))

/-- The bytes of the user's string of length `k` at `va`, its NUL included. -/
def chars (m : Mem) (t va k : Nat) : List UInt8 := (List.range (k + 1)).map fun i => m (phys m t (va + i))

structure IsString (m : Mem) (t va k : Nat) : Prop where
  accessible : ∀ i ≤ k, Accessible m t (va + i)
  chars : ∀ i < k, m (phys m t (va + i)) ≠ 0
  null : m (phys m t (va + k)) = 0

variable {A} {t va max k : Nat} {m : Mem} {s : Mach κ}

/-! ## One page -/

theorem bytes_succ (m : Mem) (p n : Nat) : (List.range (n + 1)).map (fun i => m (p + i)) = m p :: (List.range n).map
    fun i => m (p + 1 + i) := by
  rw [List.range_succ_eq_map, List.map_cons, List.map_map]
  refine congrArg (m p :: ·) (List.map_congr_left fun i _ => ?_)
  show m (p + (i + 1)) = m (p + 1 + i)
  rw [Nat.add_assoc, Nat.add_comm 1 i]

theorem copyChars_null : ∀ {n k p}, k < n → (∀ i < k, m (p + i) ≠ 0) → m (p + k) = 0 →
    copyChars m n p = (true, (List.range (k + 1)).map fun i => m (p + i)) := by
  intro n
  induction n with
  | zero => exact fun hk => absurd hk (Nat.not_lt_zero _)
  | succ n ih =>
    intro k p hk hne h0
    unfold copyChars
    rw [bytes_succ]
    cases k with
    | zero =>
      rw [if_pos (show m p = 0 from h0), show m p = 0 from h0]
      rfl
    | succ k =>
      have hshift : ∀ i, p + 1 + i = p + (i + 1) := fun i => by omega
      have hrest := ih (k := k) (p := p + 1) (by omega) (fun i hi => by rw [hshift]; exact hne (i + 1) (by omega))
        (by rw [hshift]; exact h0)
      rw [if_neg (show m p ≠ 0 from hne 0 (Nat.succ_pos k)), hrest]

theorem copyChars_none : ∀ {n p}, (∀ i < n, m (p + i) ≠ 0) →
    copyChars m n p = (false, (List.range n).map fun i => m (p + i)) := by
  intro n
  induction n with
  | zero => exact fun _ => rfl
  | succ n ih =>
    intro p hne
    have hshift : ∀ i, p + 1 + i = p + (i + 1) := fun i => by omega
    have hrest := ih (p := p + 1) fun i hi => by rw [hshift]; exact hne (i + 1) (by omega)
    unfold copyChars
    rw [bytes_succ, if_neg (show m p ≠ 0 from hne 0 (Nat.succ_pos n)), hrest]

theorem copyinstrLoop_zero (rounds va : Nat) : copyinstrLoop A t rounds va 0 s = .ok (-1, []) := by
  cases rounds with
  | zero => rfl
  | succ rounds =>
    unfold copyinstrLoop
    exact if_pos rfl

theorem copyinstrLoop_lost {rounds : Nat} (ha : ¬ Accessible s.mem t va) :
    copyinstrLoop A t rounds va max s = .ok (-1, []) := by
  cases rounds with
  | zero => rfl
  | succ rounds =>
    have hz : upage s.mem t (PGROUNDDOWN va) = 0 := by
      by_contra hz
      exact ha ((upage_accessible s.mem t va).mp hz).1
    have hwalk : walkaddr A t (PGROUNDDOWN va) s = .ok (0, s) := hz ▸ walkaddr_eq t (PGROUNDDOWN va) s
    unfold copyinstrLoop
    split
    · rfl
    · dsimp only
      rw [hwalk, ok_bind]
      rfl

/-- One round on a page that the user may touch. -/
theorem copyinstrLoop_page {rounds : Nat} (ha : Accessible s.mem t va) (h0 : frame s.mem t va ≠ 0) (hmax : max ≠ 0) :
    copyinstrLoop A t (rounds + 1) va max s =
      if (copyChars s.mem (min (4096 - va % 4096) max) (phys s.mem t va)).1 then .ok
        (0, (copyChars s.mem (min (4096 - va % 4096) max) (phys s.mem t va)).2)
      else (copyinstrLoop A t rounds (va + min (4096 - va % 4096) max) (max - min (4096 - va % 4096) max) s).map
        fun x =>
        (x.1, (copyChars s.mem (min (4096 - va % 4096) max) (phys s.mem t va)).2 ++ x.2) := by
  have hz : upage s.mem t (PGROUNDDOWN va) ≠ 0 := (upage_accessible s.mem t va).mpr ⟨ha, h0⟩
  have hwalk : walkaddr A t (PGROUNDDOWN va) s = .ok (upage s.mem t (PGROUNDDOWN va), s) :=
    walkaddr_eq t (PGROUNDDOWN va) s
  have hphys : upage s.mem t (PGROUNDDOWN va) + (va - PGROUNDDOWN va) = phys s.mem t va := by
    rw [upage_eq ha]
    unfold phys PGROUNDDOWN PGSIZE
    omega
  have hoff : PGSIZE - (va - PGROUNDDOWN va) = 4096 - va % 4096 := by unfold PGROUNDDOWN PGSIZE; omega
  have hnext : copyinstrLoop A t rounds (u64 (PGROUNDDOWN va + PGSIZE)) (max - min (4096 - va % 4096) max) s =
      copyinstrLoop A t rounds (va + min (4096 - va % 4096) max) (max - min (4096 - va % 4096) max) s := by
    by_cases hend : max - min (4096 - va % 4096) max = 0
    · rw [hend, copyinstrLoop_zero, copyinstrLoop_zero]
    · have hva := ha.1
      have : u64 (PGROUNDDOWN va + PGSIZE) = va + min (4096 - va % 4096) max := by
        unfold MAXVA at hva
        unfold u64 PGROUNDDOWN PGSIZE
        omega
      rw [this]
  conv_lhs => unfold copyinstrLoop
  rw [if_neg hmax]
  dsimp only
  rw [hwalk, ok_bind]
  dsimp only
  rw [if_neg hz, hphys, hoff, hnext]
  rfl

/-! ## The whole string -/

theorem IsString.unique {k k' : Nat} (h : IsString m t va k) (h' : IsString m t va k') : k = k' := by
  rcases Nat.lt_trichotomy k k' with hlt | e | hlt
  · exact absurd h.null (h'.chars k hlt)
  · exact e
  · exact absurd h'.null (h.chars k' hlt)

theorem copyinstrLoop_string (hnull : ∀ va, Accessible s.mem t va → frame s.mem t va ≠ 0) :
    ∀ {rounds va max k}, max ≤ rounds → k < max →
    IsString s.mem t va k → copyinstrLoop A t rounds va max s = .ok (0, chars s.mem t va k) := by
  intro rounds
  induction rounds with
  | zero => exact fun hr hk => absurd (Nat.lt_of_lt_of_le hk hr) (Nat.not_lt_zero _)
  | succ rounds ih =>
    intro va max k hr hk h
    have ha : Accessible s.mem t va := h.accessible 0 (Nat.zero_le k)
    rw [copyinstrLoop_page ha (hnull va ha) (by omega)]
    generalize hn : min (4096 - va % 4096) max = n
    have hbyte : ∀ i, i < n → phys s.mem t va + i = phys s.mem t (va + i) := fun i hi => (phys_page (by omega)).symm
    by_cases hkn : k < n
    · rw [copyChars_null hkn (fun i hi => by rw [hbyte i (by omega)]; exact h.chars i hi)
        (by rw [hbyte k hkn]; exact h.null), if_pos rfl]
      refine congrArg (fun bs => Except.ok ((0 : Int), bs)) (List.map_congr_left fun i hi => ?_)
      have := List.mem_range.mp hi
      rw [hbyte i (by omega)]
    · have hrest : IsString s.mem t (va + n) (k - n) := by
        refine ⟨fun i hi => ?_, fun i hi => ?_, ?_⟩
        · rw [Nat.add_assoc]
          exact h.accessible (n + i) (by omega)
        · rw [Nat.add_assoc]
          exact h.chars (n + i) (by omega)
        · rw [Nat.add_assoc, Nat.add_sub_cancel' (Nat.not_lt.mp hkn)]
          exact h.null
      rw [copyChars_none fun i hi => by rw [hbyte i hi]; exact h.chars i (by omega), if_neg Bool.false_ne_true,
        ih (by omega) (by omega) hrest]
      refine congrArg (fun bs => Except.ok ((0 : Int), bs)) ?_
      unfold chars
      rw [← map_range_split (fun i => s.mem (phys s.mem t (va + i))) (by omega : n ≤ k + 1),
        show k - n + 1 = k + 1 - n by omega]
      refine congrArg₂ (· ++ ·) (List.map_congr_left fun i hi => ?_) (List.map_congr_left fun i _ => ?_)
      · rw [hbyte i (List.mem_range.mp hi)]
      · rw [Nat.add_assoc]

theorem copyinstrLoop_none (hnull : ∀ va, Accessible s.mem t va → frame s.mem t va ≠ 0) :
    ∀ {rounds va max}, max ≤ rounds → (∀ k < max, ¬ IsString s.mem t va k) →
    ∃ bs, copyinstrLoop A t rounds va max s = .ok (-1, bs) ∧ bs.length ≤ max := by
  intro rounds
  induction rounds with
  | zero => exact fun _ _ => ⟨[], rfl, Nat.zero_le _⟩
  | succ rounds ih =>
    intro va max hr hno
    by_cases hmax : max = 0
    · rw [hmax]
      exact ⟨[], copyinstrLoop_zero _ _, Nat.zero_le _⟩
    by_cases ha : Accessible s.mem t va
    · rw [copyinstrLoop_page ha (hnull va ha) hmax]
      generalize hn : min (4096 - va % 4096) max = n
      have hbyte : ∀ i, i < n → phys s.mem t va + i = phys s.mem t (va + i) := fun i hi => (phys_page (by omega)).symm
      have hacc : ∀ i < n, Accessible s.mem t (va + i) := fun i hi => (accessible_page (by omega)).mpr ha
      have hne : ∀ i < n, s.mem (phys s.mem t (va + i)) ≠ 0 := by
        intro i
        induction i using Nat.strongRecOn with
        | ind i ihi => exact fun hi h0 => hno i (by omega) ⟨fun j hj => hacc j (by omega),
            fun j hj => ihi j hj (by omega), h0⟩
      obtain ⟨bs, e, hlen⟩ := @ih (va + n) (max - n) (by omega) fun k hk h => by
        refine hno (n + k) (by omega) ⟨fun i hi => ?_, fun i hi => ?_, by rw [← Nat.add_assoc]; exact h.null⟩
        · by_cases hin : i < n
          · exact hacc i hin
          · have := h.accessible (i - n) (by omega)
            rwa [Nat.add_assoc, Nat.add_sub_cancel' (Nat.not_lt.mp hin)] at this
        · by_cases hin : i < n
          · exact hne i hin
          · have := h.chars (i - n) (by omega)
            rwa [Nat.add_assoc, Nat.add_sub_cancel' (Nat.not_lt.mp hin)] at this
      rw [copyChars_none fun i hi => by rw [hbyte i hi]; exact hne i hi, if_neg Bool.false_ne_true, e]
      refine ⟨(List.range n).map (fun i => s.mem (phys s.mem t va + i)) ++ bs, rfl, ?_⟩
      rw [List.length_append, List.length_map, List.length_range]
      omega
    · exact ⟨[], copyinstrLoop_lost ha, Nat.zero_le _⟩

/-- strlen of a buffer that begins with the string. -/
theorem strlen_chars (h : IsString m t va k) (rest : List UInt8) : strlen (chars m t va k ++ rest) = i32 k := by
  have hsplit : chars m t va k = (List.range k).map (fun i => m (phys m t (va + i))) ++ [0] := by
    unfold chars
    rw [List.range_succ, List.map_append, List.map_singleton, h.null]
  have hall : ∀ b ∈ (List.range k).map (fun i => m (phys m t (va + i))), (decide (b ≠ 0)) = true := fun b hb => by
    obtain ⟨i, hi, rfl⟩ := List.mem_map.mp hb
    exact decide_eq_true (h.chars i (List.mem_range.mp hi))
  unfold strlen
  rw [hsplit, List.append_assoc, List.takeWhile_append_of_pos hall]
  show i32 (((List.range k).map (fun i => m (phys m t (va + i))) ++ ([] : List UInt8)).length : Nat) = i32 k
  rw [List.append_nil, List.length_map, List.length_range]

/-- With `buf`, of `max` bytes, where fetchstr copies to. -/
theorem copyinstr_exact (hnull : ∀ va, Accessible s.mem t va → frame s.mem t va ≠ 0) (va max : Nat) :
    ∃ r bs, copyinstr A t va max s = .ok (r, bs) ∧ bs.length ≤ max ∧ (r = 0 ∨ r = -1) ∧
      (r = 0 ↔ ∃ k < max, IsString s.mem t va k) ∧
      (∀ k < max, IsString s.mem t va k → bs = chars s.mem t va k) ∧
      ∀ buf : List UInt8, buf.length = max → max < 2 ^ 31 →
        (∀ k < max, IsString s.mem t va k → fetchstr A t va buf max s = .ok (k : Int)) ∧
          ((¬ ∃ k < max, IsString s.mem t va k) → fetchstr A t va buf max s = .ok (-1)) := by
  have hfetch : ∀ {r bs} (buf : List UInt8), max < 2 ^ 31 → copyinstr A t va max s = .ok (r, bs) →
      fetchstr A t va buf max s = if r < 0 then .ok r else .ok (strlen (bs ++ buf.drop bs.length)) := by
    intro r bs buf hmax e
    have hu : toU64 (max : Int) = max := by unfold toU64; omega
    unfold fetchstr
    rw [hu, e]
    rfl
  by_cases hs : ∃ k < max, IsString s.mem t va k
  · obtain ⟨k, hk, h⟩ := hs
    have e : copyinstr A t va max s = .ok (0, chars s.mem t va k) := copyinstrLoop_string hnull (Nat.le_refl max) hk h
    have hlen : (chars s.mem t va k).length = k + 1 := by
      unfold chars
      rw [List.length_map, List.length_range]
    refine ⟨0, chars s.mem t va k, e, by omega, Or.inl rfl, ⟨fun _ => ⟨k, hk, h⟩, fun _ => rfl⟩,
      fun k' _ h' => by rw [h.unique h'],
      fun buf _ hmax => ⟨fun k' _ h' => ?_, fun hno => absurd ⟨k, hk, h⟩ hno⟩⟩
    rw [hfetch buf hmax e, if_neg (by decide), strlen_chars h, h.unique h', i32_of_range (by omega) (by omega)]
  · obtain ⟨bs, e, hlen⟩ := copyinstrLoop_none (A := A) hnull (Nat.le_refl max) fun k hk h => hs ⟨k, hk, h⟩
    refine ⟨-1, bs, e, hlen, Or.inr rfl, ⟨fun h => absurd h (by decide), fun h => absurd h hs⟩,
      fun k hk h => absurd ⟨k, hk, h⟩ hs,
      fun buf _ hmax => ⟨fun k hk h => absurd ⟨k, hk, h⟩ hs, fun _ => ?_⟩⟩
    rw [hfetch buf hmax e, if_pos (by decide)]

/-- A letter at the end of the first page; the second is zero. -/
def oneChar : Mem := fun x => if x = 28671 then 97 else twoPages x

theorem oneChar_leaf (v : Nat) : leaf oneChar 4096 v = leaf twoPages 4096 v := by
  refine leaf_agree (fun l q hq x h1 h2 => ?_) v
  have hlow : q ≤ 12288 := by rcases oneTable_node hq with ⟨-, rfl⟩ | ⟨-, rfl⟩ | ⟨-, rfl⟩ <;> decide
  exact if_neg (by omega)

/-- The NUL is the first byte of the second page. -/
theorem copyinstr_exact_oneChar : ∃ r bs, copyinstr someLab 4096 4095 2 ⟨oneChar, ⟨0, 0⟩⟩ = .ok (r, bs) ∧
    r = 0 ∧ bs = [97, 0] ∧ fetchstr someLab 4096 4095 [5, 5] 2 ⟨oneChar, ⟨0, 0⟩⟩ = .ok 1 := by
  have hnull : ∀ va, Accessible oneChar 4096 va → frame oneChar 4096 va ≠ 0 := fun va h => by
    have := twoPages_scattered.nonNull va ((accessible_congr oneChar_leaf va).mp h)
    unfold frame at this ⊢
    rw [oneChar_leaf]
    exact this
  obtain ⟨r, bs, e, -, -, hr, hbs, hf⟩ := copyinstr_exact (A := someLab) (s := ⟨oneChar, ⟨0, 0⟩⟩) hnull 4095 2
  have hs : IsString oneChar 4096 4095 1 := by
    refine ⟨fun i hi => ?_, fun i hi => ?_, by decide⟩
    · exact (accessible_congr oneChar_leaf _).mpr (twoPages_first _ (by omega))
    · obtain rfl : i = 0 := by omega
      decide
  exact ⟨r, bs, e, hr.mpr ⟨1, by decide, hs⟩, (hbs 1 (by decide) hs).trans (by decide),
    (hf [5, 5] rfl (by decide)).1 1 (by decide) hs⟩

end Xv6Labs.Vm
