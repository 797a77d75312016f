/-
  Xv6Labs.Vm.Exact — copyout and copyin on any page table.

  `Accessible`: below MAXVA, mapped and the user's. `phys`: where the byte of an address lies.
  `Apart`: a range on pages that are no table pages, no byte of it in two places. Kernel
  buffers are byte lists, so they overlap nothing.

  - `copyoutLoop_exact`: copyout stores what comes before the first address it may not
    touch, and fails if that is not all.
  - `copyout_copyin_exact`: copyin of what copyout stored.
-/

import Xv6Labs.Vm.Copyin
import Xv6Labs.Vm.Kalloc

namespace Xv6Labs.Vm

open Lib

variable {κ : Type} {A : Lab κ} {t va : Nat} {m m' : Mem} {s s' : Mach κ}

/-- The page-table pages, by level. -/
inductive Node (m : Mem) (t : Nat) : Nat → Nat → Prop
  | root : Node m t 2 t
  | child {l q j : Nat} : Node m t (l + 1) q → j < 512 → vbit (pte m q j) = true → Node m t l (PTE2PA (pte m q j))

def Accessible (m : Mem) (t va : Nat) : Prop := va < MAXVA ∧ ∃ w, lookup m t (va / 4096) = some w ∧ w.testBit 4 = true

/-- The physical page of `va`. -/
def frame (m : Mem) (t va : Nat) : Nat := PTE2PA (leaf m t (va / 4096))

def phys (m : Mem) (t va : Nat) : Nat := frame m t va + va % 4096

structure Apart (m : Mem) (t va n : Nat) : Prop where
  nonNull : ∀ i < n, Accessible m t (va + i) → frame m t (va + i) ≠ 0
  tables : ∀ i < n, Accessible m t (va + i) → ∀ l q, Node m t l q → frame m t (va + i) ≠ q
  inj : ∀ i < n, ∀ j < n, Accessible m t (va + i) → Accessible m t (va + j) → phys m t (va + i) = phys m t (va + j) →
    i = j

/-- `s'` is `s` with `bs` stored from the address `va` on. -/
structure Stored (s s' : Mach κ) (t va : Nat) (bs : List UInt8) : Prop where
  kmem : s'.kmem = s.kmem
  here : ∀ i < bs.length, s'.mem (phys s.mem t (va + i)) = bs.getD i 0
  off : ∀ x, (∀ i < bs.length, x ≠ phys s.mem t (va + i)) → s'.mem x = s.mem x
  node : ∀ l q, Node s.mem t l q → Mem.Agree s.mem s'.mem q 4096

/-! ## Reading a table -/

theorem Node.aligned (ht : t % 4096 = 0) {l q : Nat} (h : Node m t l q) : q % 4096 = 0 := by
  cases h with
  | root => exact ht
  | child => exact pte2pa_mod _

theorem slotFrom_agree (h : ∀ l q, Node m t l q → Mem.Agree m m' q 4096) (v : Nat) :
    ∀ {l q}, Node m t l q → slotFrom m' v l q = slotFrom m v l q := by
  intro l
  induction l with
  | zero => exact fun _ => rfl
  | succ l ih =>
    intro q hq
    have hj : v / 512 ^ (l + 1) % 512 < 512 := Nat.mod_lt _ (by decide)
    unfold slotFrom
    rw [pte_agree (h _ _ hq) hj]
    by_cases hv : vbit (pte m q (v / 512 ^ (l + 1) % 512)) = true
    · rw [if_pos hv, if_pos hv, ih (.child hq hj hv)]
    · rw [if_neg hv, if_neg hv]

/-- The leaf slot is an entry of a table of level 0. -/
theorem slotFrom_node {v a : Nat} : ∀ {l q}, Node m t l q → slotFrom m v l q = some a → ∃ p, Node m t 0 p ∧
    a = p + 8 * (v % 512) := by
  intro l
  induction l with
  | zero =>
    intro q hq e
    cases e
    exact ⟨q, hq, rfl⟩
  | succ l ih =>
    intro q hq e
    unfold slotFrom at e
    split at e
    · rename_i hv
      exact ih (.child hq (Nat.mod_lt _ (by decide)) hv) e
    · cases e

theorem leaf_agree (h : ∀ l q, Node m t l q → Mem.Agree m m' q 4096) (v : Nat) : leaf m' t v = leaf m t v := by
  unfold leaf
  rw [slotFrom_agree h v .root]
  cases e : slotFrom m v 2 t with
  | none => rw [Option.map_none, Option.map_none]
  | some a =>
    obtain ⟨p, hp, rfl⟩ := slotFrom_node .root e
    exact pte_agree (h 0 p hp) (Nat.mod_lt _ (by decide))

theorem Node.of_agree (h : ∀ l q, Node m t l q → Mem.Agree m m' q 4096) {l q : Nat} (hq : Node m' t l q) :
    Node m t l q := by
  induction hq with
  | root => exact .root
  | child _ hj hv ih =>
    rw [pte_agree (h _ _ ih) hj] at hv ⊢
    exact .child ih hj hv

theorem Accessible.leaf (h : Accessible m t va) : vbit (leaf m t (va / 4096)) = true ∧
    (Vm.leaf m t (va / 4096)).testBit 4 = true := by
  obtain ⟨-, w, hl, hu⟩ := h
  obtain ⟨rfl, hv⟩ := lookup_some.mp hl
  exact ⟨hv, hu⟩

theorem accessible_congr (h : ∀ v, leaf m' t v = leaf m t v) (va : Nat) : Accessible m' t va ↔ Accessible m t va := by
  unfold Accessible
  rw [lookup_congr (h _)]

theorem phys_congr (h : ∀ v, leaf m' t v = leaf m t v) (va : Nat) : phys m' t va = phys m t va := by
  unfold phys frame
  rw [h]

/-- A page is accessible or it is not. -/
theorem accessible_page {i : Nat} (hi : va % 4096 + i < 4096) : Accessible m t (va + i) ↔ Accessible m t va := by
  have hp : (va + i) / 4096 = va / 4096 := by omega
  unfold Accessible
  rw [hp]
  refine and_congr_left fun _ => ?_
  unfold MAXVA
  omega

theorem phys_page {i : Nat} (hi : va % 4096 + i < 4096) : phys m t (va + i) = phys m t va + i := by
  have hp : (va + i) / 4096 = va / 4096 := by omega
  have hm : (va + i) % 4096 = va % 4096 + i := by omega
  unfold phys frame
  rw [hp, hm, Nat.add_assoc]

/-- What walkaddr answers for a page. -/
theorem upage_accessible (m : Mem) (t va : Nat) : upage m t (PGROUNDDOWN va) ≠ 0 ↔
    Accessible m t va ∧ frame m t va ≠ 0 := by
  have hdown : PGROUNDDOWN va / 4096 = va / 4096 := by unfold PGROUNDDOWN PGSIZE; omega
  have hlt : PGROUNDDOWN va < MAXVA ↔ va < MAXVA := by unfold PGROUNDDOWN PGSIZE MAXVA; omega
  unfold upage Accessible frame
  rw [hdown]
  by_cases hva : va < MAXVA
  · rw [if_pos (hlt.mpr hva)]
    cases hl : lookup m t (va / 4096) with
    | none => simp
    | some w =>
      rw [(lookup_some.mp hl).1]
      cases hu : w.testBit 4 <;> simp [hva, hu]
  · rw [if_neg fun h => hva (hlt.mp h)]
    exact ⟨fun h => absurd rfl h, fun h => absurd h.1.1 hva⟩

theorem upage_eq (h : Accessible m t va) : upage m t (PGROUNDDOWN va) = frame m t va := by
  have hdown : PGROUNDDOWN va / 4096 = va / 4096 := by unfold PGROUNDDOWN PGSIZE; omega
  obtain ⟨hva, w, hl, hu⟩ := h
  have hlt : PGROUNDDOWN va < MAXVA := Nat.lt_of_le_of_lt (pgrounddown_le va) hva
  unfold upage frame
  rw [if_pos hlt, hdown, hl, (lookup_some.mp hl).1]
  exact if_pos hu

/-! ## copyout -/

theorem Apart.drop {n k : Nat} (h : Apart m t va n) (hk : k ≤ n) : Apart m t (va + k) (n - k) := by
  refine ⟨fun i hi => ?_, fun i hi => ?_, fun i hi j hj h1 h2 e => ?_⟩
  · rw [Nat.add_assoc]
    exact h.nonNull (k + i) (by omega)
  · rw [Nat.add_assoc]
    exact h.tables (k + i) (by omega)
  · rw [Nat.add_assoc] at h1 h2 e
    rw [Nat.add_assoc] at e
    have := h.inj (k + i) (by omega) (k + j) (by omega) h1 h2 e
    omega

/-- A table that reads the same, with the same table pages. -/
theorem Apart.congr {n : Nat} (h : Apart m t va n) (hm : ∀ l q, Node m t l q → Mem.Agree m m' q 4096) :
    Apart m' t va n := by
  have hl := leaf_agree hm
  have hf : ∀ va, frame m' t va = frame m t va := fun va => congrArg PTE2PA (hl _)
  refine ⟨fun i hi ha => ?_, fun i hi ha l q hq => ?_, fun i hi j hj h1 h2 e => ?_⟩
  · rw [hf]
    exact h.nonNull i hi ((accessible_congr hl _).mp ha)
  · rw [hf]
    exact h.tables i hi ((accessible_congr hl _).mp ha) l q (hq.of_agree hm)
  · rw [phys_congr hl, phys_congr hl] at e
    exact h.inj i hi j hj ((accessible_congr hl _).mp h1) ((accessible_congr hl _).mp h2) e

/-- Bytes within one page. -/
theorem stored_page {n : Nat} (ht : t % 4096 = 0) (h : Apart s.mem t va n) (h0 : 0 < n) (ha : Accessible s.mem t va)
    (bs : List UInt8)
    (hlen : va % 4096 + bs.length ≤ 4096) : Stored s { s with mem := s.mem.put (phys s.mem t va) bs } t va bs := by
  refine ⟨rfl, fun i hi => ?_, fun x hx => ?_, fun l q hq => ?_⟩
  · rw [phys_page (by omega)]
    unfold Mem.put
    dsimp only
    rw [if_pos (by omega), Nat.add_sub_cancel_left]
  · refine if_neg fun hin => hx (x - phys s.mem t va) (by omega) ?_
    rw [phys_page (by omega)]
    omega
  · have hne : frame s.mem t va ≠ q := h.tables 0 h0 ha l q hq
    have h1 := hq.aligned ht
    have h2 : frame s.mem t va % 4096 = 0 := pte2pa_mod _
    refine Mem.agree_put s.mem bs ?_
    unfold phys
    omega

/-- One range after the other. -/
theorem Stored.append {s1 : Mach κ} {bs cs : List UInt8} {n : Nat} (h : Stored s s1 t va bs)
    (h' : Stored s1 s' t (va + bs.length) cs) (ha : Apart s.mem t va n) (hn : bs.length + cs.length ≤ n)
    (hacc : ∀ i < bs.length + cs.length, Accessible s.mem t (va + i)) : Stored s s' t va (bs ++ cs) := by
  have hphys := phys_congr (leaf_agree h.node)
  have hnext : ∀ x, (∀ i < cs.length, x ≠ phys s.mem t (va + (bs.length + i))) → s'.mem x = s1.mem x :=
    fun x hx => h'.off x fun i hi => by
    rw [hphys, Nat.add_assoc]
    exact hx i hi
  have hlen : (bs ++ cs).length = bs.length + cs.length := List.length_append
  refine ⟨h'.kmem.trans h.kmem, fun i hi => ?_, fun x hx => ?_, fun l q hq => ?_⟩
  · by_cases hb : i < bs.length
    · rw [hnext _ fun j hj e => ?_, h.here i hb, List.getD_append _ _ _ _ hb]
      -- the second range does not have it again
      have := ha.inj i (by omega) (bs.length + j) (by omega) (hacc i (by omega)) (hacc _ (by omega)) e
      omega
    · have := h'.here (i - bs.length) (by omega)
      rw [hphys, Nat.add_assoc, Nat.add_sub_cancel' (Nat.not_lt.mp hb)] at this
      rw [this, List.getD_append_right _ _ _ _ (Nat.not_lt.mp hb)]
  · rw [hnext x fun i hi => hx (bs.length + i) (by omega)]
    exact h.off x fun i hi => hx i (by omega)
  · refine (h.node l q hq).trans (h'.node l q ?_)
    exact Node.of_agree (fun l q hq x h1 h2 => (h.node l q (hq.of_agree h.node) x h1 h2).symm) hq

/-- The accessible addresses from `va` on, of `len`. -/
structure Reaches (m : Mem) (t va len n : Nat) : Prop where
  le : n ≤ len
  below : ∀ i < n, Accessible m t (va + i)
  stop : n < len → ¬ Accessible m t (va + n)

theorem reaches_exists (m : Mem) (t va len : Nat) : ∃ n, Reaches m t va len n := by
  induction len with
  | zero => exact ⟨0, Nat.le_refl 0, fun i hi => absurd hi (Nat.not_lt_zero i), fun h => absurd h (Nat.lt_irrefl 0)⟩
  | succ len ih =>
    obtain ⟨n, hle, hbelow, hstop⟩ := ih
    by_cases hn : n = len ∧ Accessible m t (va + n)
    · refine ⟨n + 1, by omega, fun i hi => ?_, fun h => absurd h (by omega)⟩
      rcases Nat.lt_or_eq_of_le (Nat.le_of_lt_succ hi) with h | h
      · exact hbelow i h
      · rw [h]
        exact hn.2
    · refine ⟨n, by omega, hbelow, fun _ => ?_⟩
      by_cases hlt : n < len
      · exact hstop hlt
      · exact fun ha => hn ⟨by omega, ha⟩

/-- All of the range is accessible, or the first address that is not stops it. -/
theorem Reaches.all {len n : Nat} (h : Reaches m t va len n) : n = len ↔ ∀ i < len, Accessible m t (va + i) := by
  constructor
  · intro e
    exact e ▸ h.below
  · intro hall
    by_contra hne
    have hlt := Nat.lt_of_le_of_ne h.le hne
    exact h.stop hlt (hall n hlt)

theorem Reaches.before {len n i : Nat} (h : Reaches m t va len n) (hi : i < len) : i < n ↔
    ∀ j ≤ i, Accessible m t (va + j) := by
  constructor
  · exact fun hin j hj => h.below j (by omega)
  · intro hall
    by_contra hge
    exact h.stop (by omega) (hall n (by omega))

/-- It stops where a page begins. -/
theorem Reaches.page {len n : Nat} (h : Reaches m t va len n) (ha : Accessible m t va) :
    min (4096 - va % 4096) len ≤ n := by
  by_contra hlt
  exact h.stop (by omega) ((accessible_page (by omega)).mpr ha)

theorem Reaches.drop {len n k : Nat} (h : Reaches m t va len n) (hk : k ≤ n) :
    Reaches m t (va + k) (len - k) (n - k) := by
  have := h.le
  refine ⟨by omega, fun i hi => ?_, fun hlt => ?_⟩
  · rw [Nat.add_assoc]
    exact h.below (k + i) (by omega)
  · rw [Nat.add_assoc, Nat.add_sub_cancel' hk]
    exact h.stop (by omega)

theorem copyoutLoop_exact (ht : t % 4096 = 0) : ∀ {rounds va src n} {s : Mach κ}, src.length ≤ rounds →
    Apart s.mem t va src.length →
    Reaches s.mem t va src.length n →
    ∃ s', copyoutLoop (walkaddr A t) rounds va src s = .ok (if n = src.length then 0 else -1, s') ∧
      Stored s s' t va (src.take n) := by
  intro rounds
  induction rounds with
  | zero =>
    intro va src n s hr _ hn
    obtain rfl : src = [] := List.length_eq_zero_iff.mp (Nat.le_zero.mp hr)
    obtain rfl : n = 0 := Nat.le_zero.mp hn.le
    exact ⟨s, rfl, rfl, fun i hi => absurd hi (Nat.not_lt_zero i), fun _ _ => rfl, fun _ q _ => .refl _ q _⟩
  | succ rounds ih =>
    intro va src n s hr hap hn
    have hnone : Stored s s t va (src.take 0) :=
      ⟨rfl, fun i hi => absurd hi (Nat.not_lt_zero i), fun _ _ => rfl, fun _ q _ => .refl _ q _⟩
    by_cases h0 : src.length = 0
    · obtain rfl : n = 0 := by have := hn.le; omega
      refine ⟨s, ?_, hnone⟩
      unfold copyoutLoop
      rw [if_pos h0, if_pos h0.symm]
    have hle := hn.le
    have hwalk : walkaddr A t (PGROUNDDOWN va) s = .ok (upage s.mem t (PGROUNDDOWN va), s) :=
      walkaddr_eq t (PGROUNDDOWN va) s
    rw [copyoutLoop_round h0 hwalk]
    by_cases ha : Accessible s.mem t va
    · have hz : upage s.mem t (PGROUNDDOWN va) ≠ 0 :=
        (upage_accessible s.mem t va).mpr ⟨ha, hap.nonNull 0 (by omega) ha⟩
      have hphys : upage s.mem t (PGROUNDDOWN va) + (va - PGROUNDDOWN va) = phys s.mem t va := by
        rw [upage_eq ha]
        unfold phys PGROUNDDOWN PGSIZE
        omega
      have hoff : PGSIZE - (va - PGROUNDDOWN va) = 4096 - va % 4096 := by unfold PGROUNDDOWN PGSIZE; omega
      have hkn := hn.page ha
      rw [if_neg hz, hphys, hoff]
      generalize hk : min (4096 - va % 4096) src.length = k at hkn
      have hklen : (src.take k).length = k := by rw [List.length_take]; omega
      have h1 := stored_page ht hap (by omega) ha (src.take k) (by omega)
      generalize hs1 : (⟨s.mem.put (phys s.mem t va) (src.take k), s.kmem⟩ : Mach κ) = s1 at h1
      have hleaf := leaf_agree h1.node
      have hap1 : Apart s1.mem t (va + k) (src.drop k).length := by
        rw [List.length_drop]
        exact (hap.drop (by omega)).congr h1.node
      have hn1 : Reaches s1.mem t (va + k) (src.drop k).length (n - k) := by
        rw [List.length_drop]
        have hd := hn.drop hkn
        exact ⟨hd.le, fun i hi => (accessible_congr hleaf _).mpr (hd.below i hi),
          fun hlt hacc => hd.stop hlt ((accessible_congr hleaf _).mp hacc)⟩
      -- the next page, unless nothing is left
      have hnext : copyoutLoop (walkaddr A t) rounds (u64 (PGROUNDDOWN va + PGSIZE)) (src.drop k) s1 =
          copyoutLoop (walkaddr A t) rounds (va + k) (src.drop k) s1 := by
        by_cases hend : (src.drop k).length = 0
        · rw [List.length_eq_zero_iff.mp hend, copyoutLoop_nil, copyoutLoop_nil]
        · rw [List.length_drop] at hend
          have hva := ha.1
          have : u64 (PGROUNDDOWN va + PGSIZE) = va + k := by
            unfold MAXVA at hva
            unfold u64 PGROUNDDOWN PGSIZE
            omega
          rw [this]
      obtain ⟨s', e', h'⟩ := ih (by rw [List.length_drop]; omega) hap1 hn1
      rw [hnext, e']
      refine ⟨s', ?_, ?_⟩
      · rw [List.length_drop]
        exact congrArg Except.ok (Prod.ext (if_congr (by omega) rfl rfl) rfl)
      · have hsplit : src.take n = src.take k ++ (src.drop k).take (n - k) := by
          rw [show n = k + (n - k) by omega, List.take_add, Nat.add_sub_cancel_left]
        have hlen2 : ((src.drop k).take (n - k)).length = n - k := by
          rw [List.length_take, List.length_drop]
          omega
        rw [hsplit]
        exact h1.append (by rw [hklen]; exact h') hap (by omega) fun i hi => hn.below i (by omega)
    · obtain rfl : n = 0 := by
        by_contra hne
        exact ha (hn.below 0 (by omega))
      have hz : upage s.mem t (PGROUNDDOWN va) = 0 := by
        by_contra hz
        exact ha ((upage_accessible s.mem t va).mp hz).1
      rw [if_pos hz, if_neg fun e => h0 e.symm]
      exact ⟨s, rfl, hnone⟩

/-! ## copyin -/

theorem userByte_accessible (h : Accessible m t va) (h0 : frame m t va ≠ 0) :
    userByte m t va = some (m (phys m t va)) := by
  unfold userByte
  rw [upage_eq h, if_neg h0]
  unfold phys PGROUNDDOWN PGSIZE
  congr 2
  omega

theorem copyin_exact {len n : Nat} (hva : va < 2 ^ 64)
    (hnull : ∀ i < len, Accessible s.mem t (va + i) → frame s.mem t (va + i) ≠ 0)
    (hn : Reaches s.mem t va len n) :
    copyin A t va len s = .ok (if n = len then 0 else -1, (List.range n).map fun i =>
      s.mem (phys s.mem t (va + i))) := by
  have hlt : ∀ i < n, va + i < MAXVA := fun i hi => (hn.below i hi).1
  have hu : ∀ i < n, u64 (va + i) = va + i := fun i hi => u64_of_lt (by have := hlt i hi; unfold MAXVA at this; omega)
  have hle := hn.le
  refine copyinLoop_spec (Nat.le_refl len) hva hle (fun i hi => ?_) fun hstop => ?_
  · rw [hu i hi]
    exact userByte_accessible (hn.below i hi) (hnull i (by omega) (hn.below i hi))
  · have hun : u64 (va + n) = va + n := by
      refine u64_of_lt ?_
      by_cases h0 : n = 0
      · omega
      · have := hlt (n - 1) (by omega)
        unfold MAXVA at this
        omega
    rw [hun]
    unfold userByte
    rw [if_pos]
    by_contra hz
    exact hn.stop hstop ((upage_accessible s.mem t (va + n)).mp hz).1

/-! ## Both -/

/-- The user pages lie on distinct physical pages, none of them 0 or a table page. -/
structure Scattered (m : Mem) (t : Nat) : Prop where
  root : t % 4096 = 0
  nonNull : ∀ va, Accessible m t va → frame m t va ≠ 0
  distinct : ∀ va va', Accessible m t va → Accessible m t va' → frame m t va = frame m t va' → va / 4096 = va' / 4096
  tables : ∀ va, Accessible m t va → ∀ l q, Node m t l q → frame m t va ≠ q

theorem Scattered.apart (h : Scattered m t) (va n : Nat) : Apart m t va n := by
  refine ⟨fun i _ => h.nonNull _, fun i _ => h.tables _, fun i _ j _ h1 h2 e => ?_⟩
  have hf1 : frame m t (va + i) % 4096 = 0 := pte2pa_mod _
  have hf2 : frame m t (va + j) % 4096 = 0 := pte2pa_mod _
  unfold phys at e
  have := h.distinct _ _ h1 h2 (by omega)
  omega

theorem copyout_copyin_exact (h : Scattered s.mem t) (hva : va < 2 ^ 64) (src : List UInt8) :
    ∃ r s', copyout A t va src s = .ok (r, s') ∧ (r = 0 ∨ r = -1) ∧
      (r = 0 ↔ ∀ i < src.length, Accessible s.mem t (va + i)) ∧
      (∃ r' bs, copyin A t va src.length s = .ok (r', bs) ∧ (r' = 0 ∨ r' = -1) ∧
        (r' = 0 ↔ ∀ i < src.length, Accessible s.mem t (va + i))) ∧
      (r = 0 → copyin A t va src.length s' = .ok (0, src)) ∧
      (∀ i < src.length, (∀ j ≤ i, Accessible s.mem t (va + j)) → s'.mem (phys s.mem t (va + i)) = src.getD i 0) ∧
      (∀ x, (∀ i < src.length, (∀ j ≤ i, Accessible s.mem t (va + j)) → x ≠ phys s.mem t (va + i)) →
        s'.mem x = s.mem x) ∧ s'.kmem = s.kmem := by
  obtain ⟨n, hn⟩ := reaches_exists s.mem t va src.length
  obtain ⟨s', e, hs⟩ := copyoutLoop_exact (A := A) h.root (Nat.le_refl _) (h.apart va src.length) hn
  have hle := hn.le
  have hlen : (src.take n).length = n := by rw [List.length_take]; omega
  have hres : ((if n = src.length then 0 else -1 : Int) = 0 ∨ (if n = src.length then 0 else -1 : Int) = -1) ∧
      ((if n = src.length then 0 else -1 : Int) = 0 ↔ ∀ i < src.length, Accessible s.mem t (va + i)) := by
    rw [← hn.all]
    split <;> simp_all
  have hleaf := leaf_agree hs.node
  refine ⟨_, s', e, hres.1, hres.2, ⟨_, _, copyin_exact hva (fun i _ => h.nonNull _) hn, hres⟩, fun h0 => ?_,
    fun i hi hall => ?_, fun x hx => ?_, hs.kmem⟩
  · have hall := hn.all.mpr (hres.2.mp h0)
    subst hall
    have hn' : Reaches s'.mem t va src.length src.length :=
      ⟨Nat.le_refl _, fun i hi => (accessible_congr hleaf _).mpr (hn.below i hi),
        fun hlt => absurd hlt (Nat.lt_irrefl _)⟩
    rw [copyin_exact hva (fun i hi ha => ?_) hn', if_pos rfl]
    · refine congrArg (fun bs => Except.ok ((0 : Int), bs)) (List.ext_getElem (by simp) fun i h1 h2 => ?_)
      rw [List.getElem_map, List.getElem_range, phys_congr hleaf, hs.here i (by rw [hlen]; exact h2),
        List.take_length, List.getD_eq_getElem _ _ h2]
    · have hf : frame s'.mem t (va + i) = frame s.mem t (va + i) := congrArg PTE2PA (hleaf _)
      rw [hf]
      exact h.nonNull _ ((accessible_congr hleaf _).mp ha)
  · have hin := (hn.before hi).mpr hall
    rw [hs.here i (by omega), List.getD_eq_getElem _ _ (by omega), List.getElem_take, List.getD_eq_getElem _ _ hi]
  · exact hs.off x fun i hi => hx i (by omega) ((hn.before (by omega)).mp (by omega))

/-! ## A small table -/

/-- Tables at 4096, 8192 and 12288, the last one with the entries `e`. -/
def oneTable (e : Nat → Nat) : Mem := fun x =>
  if 12288 ≤ x ∧ x < 16384 then UInt8.ofNat (e ((x - 12288) / 8) / 256 ^ ((x - 12288) % 8))
  else if x = 4096 then 1 else if x = 4097 then 8 else if x = 8192 then 1 else if x = 8193 then 12 else 0

variable {e : Nat → Nat}

theorem oneTable_leaf {j : Nat} (hj : j < 512) (he : e j < 2 ^ 64) : (oneTable e).loadLE (12288 + 8 * j) 8 = e j := by
  have hag : Mem.Agree (Mem.storeLE (fun _ => 0) (12288 + 8 * j) 8 (e j)) (oneTable e) (12288 + 8 * j) 8 :=
    fun x h1 h2 => by
    unfold Mem.storeLE oneTable
    rw [if_pos (by omega), if_pos (by omega), show (x - 12288) / 8 = j by omega,
      show (x - 12288) % 8 = x - (12288 + 8 * j) by omega]
  rw [Mem.loadLE_agree hag, Mem.loadLE_storeLE_of_lt _ _ _ _ he]

theorem oneTable_zero {a : Nat} (h8 : a % 8 = 0) (h1 : a ≠ 4096) (h2 : a ≠ 8192) (h3 : a < 12288) :
    (oneTable e).loadLE a 8 = 0 :=
  Mem.loadLE_zero fun x _ _ => by
    unfold oneTable
    rw [if_neg (by omega), if_neg (by omega), if_neg (by omega), if_neg (by omega), if_neg (by omega)]

/-- The upper tables do not depend on the entries. -/
theorem oneTable_low {a : Nat} (h : a + 8 ≤ 12288) : (oneTable e).loadLE a 8 = (oneTable fun _ => 0).loadLE a 8 :=
  Mem.loadLE_agree fun x h1 h2 => by
    have hn : ¬ (12288 ≤ x ∧ x < 16384) := by omega
    unfold oneTable
    rw [if_neg hn, if_neg hn]

theorem oneTable_root : (oneTable e).loadLE 4096 8 = 2049 := by
  rw [oneTable_low (by decide)]
  decide

theorem oneTable_middle : (oneTable e).loadLE 8192 8 = 3073 := by
  rw [oneTable_low (by decide)]
  decide

theorem oneTable_node {l q : Nat} (h : Node (oneTable e) 4096 l q) : (l = 2 ∧ q = 4096) ∨ (l = 1 ∧ q = 8192) ∨
    (l = 0 ∧ q = 12288) := by
  induction h with
  | root => exact Or.inl ⟨rfl, rfl⟩
  | @child l q j _ hj hv ih =>
    have h0 : l + 1 ≠ 0 := Nat.succ_ne_zero l
    have hzero : q < 12288 → q % 4096 = 0 → j = 0 := fun hq hal => by
      by_contra hne
      unfold pte at hv
      rw [oneTable_zero (by omega) (by omega) (by omega) (by omega)] at hv
      cases hv
    unfold pte
    rcases ih with ⟨hl, rfl⟩ | ⟨hl, rfl⟩ | ⟨hl, -⟩
    · rw [hzero (by decide) (by decide), oneTable_root]
      exact Or.inr (Or.inl ⟨by omega, by decide⟩)
    · rw [hzero (by decide) (by decide), oneTable_middle]
      exact Or.inr (Or.inr ⟨by omega, by decide⟩)
    · omega

theorem oneTable_slot {v : Nat} (hv : v < VPN) :
    slotFrom (oneTable e) v 2 4096 = if v < 512 then some (12288 + 8 * v) else none := by
  have hlt : v < 512 ^ 3 := hv
  have hne : ∀ q j, q % 4096 = 0 → q < 12288 → 0 < j → j < 512 → ¬ vbit (pte (oneTable e) q j) = true :=
    fun q j hq hlow h0 hj => by
    unfold pte
    rw [oneTable_zero (by omega) (by omega) (by omega) (by omega)]
    decide
  have h1 : pte (oneTable e) 4096 0 = 2049 := oneTable_root
  have h2 : pte (oneTable e) 8192 0 = 3073 := oneTable_middle
  unfold slotFrom
  by_cases hi : v / 512 ^ 2 % 512 = 0
  · rw [hi, h1, if_pos (by decide), show PTE2PA 2049 = 8192 by decide]
    unfold slotFrom
    by_cases hi1 : v / 512 ^ 1 % 512 = 0
    · rw [hi1, h2, if_pos (by decide), show PTE2PA 3073 = 12288 by decide, if_pos (by omega)]
      unfold slotFrom
      rw [Nat.mod_eq_of_lt (by omega : v < 512)]
    · rw [if_neg (hne _ _ (by decide) (by decide) (Nat.pos_of_ne_zero hi1) (Nat.mod_lt _ (by decide))),
        if_neg fun h => hi1 (by rw [Nat.pow_one, Nat.div_eq_of_lt h])]
  · rw [if_neg (hne _ _ (by decide) (by decide) (Nat.pos_of_ne_zero hi) (Nat.mod_lt _ (by decide))),
      if_neg fun h => hi (by rw [Nat.div_eq_of_lt (Nat.lt_trans h (by decide))])]

theorem leaf_oneTable {v : Nat} (hv : v < VPN) (he : ∀ j < 512, e j < 2 ^ 64) :
    leaf (oneTable e) 4096 v = if v < 512 then e v else 0 := by
  unfold leaf
  rw [oneTable_slot hv]
  by_cases h : v < 512
  · rw [if_pos h, if_pos h]
    exact oneTable_leaf h (he v h)
  · rw [if_neg h, if_neg h]
    rfl

/-- Two pages for the user, the second below the first. -/
def twoPages : Mem := oneTable fun j => if j = 0 then 6167 else if j = 1 then 5143 else 0

theorem twoPages_accessible (h : Accessible twoPages 4096 va) : (va / 4096 = 0 ∧ frame twoPages 4096 va = 24576) ∨
    (va / 4096 = 1 ∧ frame twoPages 4096 va = 20480) := by
  have hv := h.leaf.1
  unfold frame
  unfold twoPages at hv ⊢
  rw [leaf_oneTable (vpn_of_lt h.1) fun j _ => by split <;> (try split) <;> decide] at hv ⊢
  by_cases h0 : va / 4096 = 0
  · rw [h0]
    exact Or.inl ⟨rfl, by decide⟩
  by_cases h1 : va / 4096 = 1
  · rw [h1]
    exact Or.inr ⟨rfl, by decide⟩
  · rw [if_neg h0, if_neg h1, ite_self] at hv
    cases hv

theorem twoPages_scattered : Scattered twoPages 4096 := by
  refine ⟨by decide, fun va h => ?_, fun va va' h h' e => ?_, fun va h l q hq => ?_⟩
  · rcases twoPages_accessible h with ⟨-, e⟩ | ⟨-, e⟩ <;> rw [e] <;> decide
  · rcases twoPages_accessible h with ⟨e1, f1⟩ | ⟨e1, f1⟩ <;> rcases twoPages_accessible h' with ⟨e2, f2⟩ |
      ⟨e2, f2⟩ <;> rw [f1, f2] at e
    · exact e1.trans e2.symm
    · exact absurd e (by decide)
    · exact absurd e (by decide)
    · exact e1.trans e2.symm
  · rcases twoPages_accessible h with ⟨-, e⟩ | ⟨-, e⟩ <;> rcases oneTable_node hq with ⟨-, rfl⟩ | ⟨-, rfl⟩ |
      ⟨-, rfl⟩ <;> rw [e] <;> decide

theorem twoPages_first (va : Nat) (h : va < 8192) : Accessible twoPages 4096 va := by
  have hp : va / 4096 = 0 ∨ va / 4096 = 1 := by omega
  refine ⟨by unfold MAXVA; omega, ?_⟩
  rcases hp with e | e <;> rw [e]
  · exact ⟨6167, by decide, by decide⟩
  · exact ⟨5143, by decide, by decide⟩

def someLab : Lab Plain.Kmem := Plain.lab ⟨KERNBASE, Nat.le_refl KERNBASE, Plain.kernbase_le_phystop⟩ false

/-- Two bytes on the two pages. -/
theorem copyout_copyin_exact_twoPages : ∃ r s', copyout someLab 4096 4095 [1, 2] ⟨twoPages, ⟨0, 0⟩⟩ = .ok (r, s') ∧
    r = 0 ∧ copyin someLab 4096 4095 2 s' = .ok (0, [1, 2]) := by
  obtain ⟨r, s', e, -, hr, -, hin, -⟩ :=
    copyout_copyin_exact (A := someLab) (s := ⟨twoPages, ⟨0, 0⟩⟩) twoPages_scattered (by decide : 4095 < 2 ^ 64)
      [1, 2]
  have hall : ∀ i < 2, Accessible twoPages 4096 (4095 + i) := fun i hi => twoPages_first _ (by omega)
  exact ⟨r, s', e, hr.mpr hall, hin (hr.mpr hall)⟩

end Xv6Labs.Vm
