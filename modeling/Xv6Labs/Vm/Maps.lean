/-
  Xv6Labs.Vm.Maps — a page table is a finite map from virtual pages to entries.

  `tableAt m t d i` is the table page at depth `d` (0 for the root) and place `i`, as the
  bytes have it. `WellFormed` asks that all these are different pages, none of them on the
  free list, and that a valid level-0 entry is a leaf. `lookup` is the map; it is what
  `walk` without allocation reads.

  - `mappagesLoop_spec`: the pages of the range that were entered, and all others as before.
  - `unmapLoop_clears`: the pages of the range gone, and all others as before.
  - `tables_are_maps`: the two with walk, from any well-formed table.
-/

import Mathlib.Data.Finset.Card
import Xv6Labs.Vm.Kalloc
import Xv6Labs.Vm.Unmap

namespace Xv6Labs.Plain

open Lib Vm

/-! ## The tree -/

def tableAt (m : Mem) (t : Nat) : Nat → Nat → Option Nat
  | 0, i => if i = 0 then some t else none
  | d + 1, i =>
    (tableAt m t d (i / 512)).bind fun q =>
      if vbit (pte m q (i % 512)) then some (PTE2PA (pte m q (i % 512))) else none

structure WellFormed (m : Mem) (t : Nat) (free : List Nat) : Prop where
  page : ∀ d ≤ 2, ∀ i q, tableAt m t d i = some q → IsPage q
  distinct : ∀ d ≤ 2, ∀ d' ≤ 2, ∀ i i' q, tableAt m t d i = some q → tableAt m t d' i' = some q → d = d' ∧ i = i'
  apart : ∀ d ≤ 2, ∀ i q, tableAt m t d i = some q → q ∉ free
  leaf : ∀ i q, tableAt m t 2 i = some q → ∀ j < 512, vbit (pte m q j) = true →
    pte m q j &&& (PTE_R ||| PTE_W ||| PTE_X) ≠ 0

variable {m m' : Mem} {t : Nat} {free : List Nat}

/-- Going down from the root, as walk does, or up from the place of the page. -/
theorem slotFrom_tableAt {v : Nat} (hv : v < VPN) :
    slotFrom m v 2 t = (tableAt m t 2 (v / 512)).map fun q => q + 8 * (v % 512) := by
  have h0 : v / 512 / 512 / 512 = 0 := by
    simp only [VPN] at hv
    omega
  have h2 : v / 512 ^ (1 + 1) = v / 512 / 512 := by
    simp only [Nat.div_div_eq_div_mul, Nat.reduceAdd, Nat.reducePow, Nat.reduceMul]
  have h1 : v / 512 ^ (0 + 1) = v / 512 := by simp only [Nat.zero_add, Nat.pow_one]
  simp only [slotFrom, tableAt, h0, h1, h2, if_true, Option.bind_some]
  by_cases e1 : vbit (pte m t (v / 512 / 512 % 512)) = true
  · simp only [e1, if_true, Option.bind_some]
    by_cases e2 : vbit (pte m (PTE2PA (pte m t (v / 512 / 512 % 512))) (v / 512 % 512)) = true
    · simp [e2]
    · simp [e2]
  · simp [e1]

/-- The map is what the slot holds. -/
theorem lookup_slot (m : Mem) (t v : Nat) :
    lookup m t v = (slotFrom m v 2 t).bind fun a => if vbit (m.loadLE a 8) then some (m.loadLE a 8) else none := by
  have key : ∀ slot : Option Nat,
    (if vbit ((slot.map fun a => m.loadLE a 8).getD 0) then some
    ((slot.map fun a => m.loadLE a 8).getD 0) else none) =
      slot.bind fun a => if vbit (m.loadLE a 8) then some (m.loadLE a 8) else none := fun slot => by
    cases slot with
    | none => simp [vbit_zero]
    | some a => simp
  exact key _

theorem leaf_tableAt {v : Nat} (hv : v < VPN) :
    Vm.leaf m t v = ((tableAt m t 2 (v / 512)).map fun q => pte m q (v % 512)).getD 0 := by
  simp only [Vm.leaf, slotFrom_tableAt hv, Option.map_map, Function.comp_def, pte]

theorem leaf_some {v q : Nat} (hv : v < VPN) (hq : tableAt m t 2 (v / 512) = some q) :
    Vm.leaf m t v = pte m q (v % 512) := by
  simp [leaf_tableAt hv, hq]

theorem leaf_none {v : Nat} (hv : v < VPN) (hq : tableAt m t 2 (v / 512) = none) : Vm.leaf m t v = 0 := by
  simp [leaf_tableAt hv, hq]

/-- The places depend on the bytes of the tables only. -/
theorem tableAt_frame (hm : ∀ d < 2, ∀ i q, tableAt m t d i = some q → Mem.Agree m m' q 4096) :
    ∀ d ≤ 2, ∀ i, tableAt m' t d i = tableAt m t d i := by
  intro d
  induction d with
  | zero => intro _ i; rfl
  | succ d ih =>
    intro hd i
    simp only [tableAt, ih (by omega)]
    cases hq : tableAt m t d (i / 512) with
    | none => simp only [Option.bind_none]
    | some q => simp only [Option.bind_some, pte_agree (hm d (by omega) _ q hq) (Nat.mod_lt _ (by decide))]

theorem WellFormed.frame (h : WellFormed m t free)
    (hm : ∀ d ≤ 2, ∀ i q, tableAt m t d i = some q → Mem.Agree m m' q 4096) :
    WellFormed m' t free ∧ ∀ v < VPN, Vm.leaf m' t v = Vm.leaf m t v := by
  have ht := tableAt_frame fun d hd => hm d (by omega)
  have hp : ∀ i q, tableAt m t 2 i = some q → ∀ j < 512, pte m' q j = pte m q j := fun i q hq j hj =>
    pte_agree (hm 2 (Nat.le_refl _) i q hq) hj
  refine ⟨⟨fun d hd i q hq => ?_, fun d hd d' hd' i i' q hq hq' => ?_, fun d hd i q hq => ?_,
    fun i q hq j hj hv => ?_⟩, fun v hv => ?_⟩
  · rw [ht d hd] at hq
    exact h.page d hd i q hq
  · rw [ht d hd] at hq
    rw [ht d' hd'] at hq'
    exact h.distinct d hd d' hd' i i' q hq hq'
  · rw [ht d hd] at hq
    exact h.apart d hd i q hq
  · rw [ht 2 (Nat.le_refl _)] at hq
    rw [hp i q hq j hj] at hv ⊢
    exact h.leaf i q hq j hj hv
  · rw [leaf_tableAt hv, leaf_tableAt hv, ht 2 (Nat.le_refl _)]
    cases hq : tableAt m t 2 (v / 512) with
    | none => simp
    | some q => simp [hp _ q hq _ (Nat.mod_lt _ (by decide))]

theorem tableAt_invalid {d i j q : Nat} (hq : tableAt m t d i = some q) (hj : j < 512)
    (hv : vbit (pte m q j) = false) :
    tableAt m t (d + 1) (512 * i + j) = none := by
  have e1 : (512 * i + j) / 512 = i := by omega
  have e2 : (512 * i + j) % 512 = j := by omega
  simp [tableAt, e1, e2, hq, hv]

/-- A zeroed page goes below an invalid entry. -/
theorem WellFormed.tableAt_link (h : WellFormed m t free) {d i j p q : Nat} (hd : d < 2)
    (hq : tableAt m t d i = some q) (hj : j < 512)
    (hv : vbit (pte m q j) = false) (hp : IsPage p) (hn : ∀ d ≤ 2, ∀ i, tableAt m t d i ≠ some p)
    (hz : ∀ x, p ≤ x → x < p + 4096 → m x = 0) :
    ∀ d' ≤ 2, ∀ i', tableAt (m.storeLE (q + 8 * j) 8 (mkpte p 0)) t d' i' = if d' = d + 1 ∧
      i' = 512 * i + j then some p else tableAt m t d' i' := by
  have hqp := h.page d (by omega) i q hq
  have hpq : p ≠ q := by
    rintro rfl
    exact hn d (by omega) i hq
  intro d'
  induction d' with
  | zero =>
    intro _ i'
    simp [tableAt]
  | succ e ih =>
    intro he i'
    have hlt : i' % 512 < 512 := Nat.mod_lt _ (by decide)
    simp only [tableAt, ih (by omega)]
    by_cases hnew : e = d + 1 ∧ i' / 512 = 512 * i + j
    · -- below the new page there is nothing yet
      obtain ⟨rfl, ei⟩ := hnew
      have hold := tableAt_invalid hq hj hv
      have hz' : pte (m.storeLE (q + 8 * j) 8 (mkpte p 0)) p (i' % 512) = 0 := by
        rw [pte_store_other m hp.1 hqp.1 hj hlt fun e => absurd e hpq]
        exact pte_zero hz hlt
      have hz'' : vbit 0 = false := vbit_zero
      simp [ei, hz', hz'', hold]
    · simp only [hnew, if_false]
      cases hr : tableAt m t e (i' / 512) with
      | none =>
        have hno : ¬ (e = d ∧ i' = 512 * i + j) := by
          rintro ⟨rfl, e2⟩
          have e3 : i' / 512 = i := by omega
          rw [e3, hq] at hr
          cases hr
        simp only [Nat.add_right_cancel_iff, hno, if_false, Option.bind_none]
      | some r =>
        have hrp := h.page e (by omega) _ r hr
        by_cases hin : e = d ∧ i' = 512 * i + j
        · obtain ⟨rfl, rfl⟩ := hin
          have e1 : (512 * i + j) / 512 = i := by omega
          have e2 : (512 * i + j) % 512 = j := by omega
          rw [e1, hq] at hr
          obtain rfl : q = r := by simpa using hr
          have hs : pte (m.storeLE (q + 8 * j) 8 (mkpte p 0)) q j = mkpte p 0 :=
            pte_store_same m q j _ (mkpte_lt hp (by decide))
          have hvm : vbit (mkpte p 0) = true := vbit_mkpte (by decide)
          have hpa : PTE2PA (mkpte p 0) = p := pte2pa_mkpte hp (by decide)
          simp [e2, hs, hvm, hpa]
        · have hne : r = q → i' % 512 ≠ j := by
            rintro rfl ej
            obtain ⟨e1, e2⟩ := h.distinct e (by omega) d (by omega) _ i r hr hq
            exact hin ⟨e1, by omega⟩
          simp only [Option.bind_some, pte_store_other m hrp.1 hqp.1 hj hlt hne, Nat.add_right_cancel_iff, hin,
            if_false]

theorem WellFormed.link (h : WellFormed m t free) {d i j p q : Nat} (hd : d < 2) (hq : tableAt m t d i = some q)
    (hj : j < 512) (hv : vbit (pte m q j) = false) (hp : IsPage p) (hn : ∀ d ≤ 2, ∀ i, tableAt m t d i ≠ some p)
    (hz : ∀ x, p ≤ x → x < p + 4096 → m x = 0) (hf : p ∉ free) :
    WellFormed (m.storeLE (q + 8 * j) 8 (mkpte p 0)) t free ∧
      tableAt (m.storeLE (q + 8 * j) 8 (mkpte p 0)) t (d + 1) (512 * i + j) = some p ∧
      ∀ v < VPN, Vm.leaf (m.storeLE (q + 8 * j) 8 (mkpte p 0)) t v = Vm.leaf m t v := by
  have ht := h.tableAt_link hd hq hj hv hp hn hz
  have hqp := h.page d (by omega) i q hq
  have hpq : p ≠ q := by
    rintro rfl
    exact hn d (by omega) i hq
  have hzero : ∀ j' < 512, pte (m.storeLE (q + 8 * j) 8 (mkpte p 0)) p j' = 0 := fun j' hj' => by
    rw [pte_store_other m hp.1 hqp.1 hj hj' fun e => absurd e hpq]
    exact pte_zero hz hj'
  -- level-0 tables other than the new page keep their entries
  have hsame : ∀ i' r, tableAt m t 2 i' = some r → ∀ j' < 512, pte (m.storeLE (q + 8 * j) 8 (mkpte p 0)) r j' =
    pte m r j' :=
    fun i' r hr j' hj' => by
      have hne : r ≠ q := by
        rintro rfl
        have := (h.distinct 2 (Nat.le_refl _) d (by omega) i' i r hr hq).1
        omega
      exact pte_store_other m (h.page 2 (Nat.le_refl _) i' r hr).1 hqp.1 hj hj' fun e => absurd e hne
  have hcase : ∀ d' ≤ 2, ∀ i' r, tableAt (m.storeLE (q + 8 * j) 8 (mkpte p 0)) t d' i' = some r →
      (r = p ∧ d' = d + 1 ∧ i' = 512 * i + j) ∨ tableAt m t d' i' = some r := fun d' hd' i' r hr => by
    rw [ht d' hd'] at hr
    by_cases e : d' = d + 1 ∧ i' = 512 * i + j
    · simp only [e, and_self, if_true, Option.some.injEq] at hr
      exact Or.inl ⟨hr.symm, e⟩
    · simp only [e, if_false] at hr
      exact Or.inr hr
  refine ⟨⟨fun d' hd' i' r hr => ?_, fun d1 h1 d2 h2 i1 i2 r hr1 hr2 => ?_, fun d' hd' i' r hr => ?_,
    fun i' r hr j' hj' hv' => ?_⟩, ?_, fun v hv' => ?_⟩
  · rcases hcase d' hd' i' r hr with ⟨rfl, -⟩ | hr
    · exact hp
    · exact h.page d' hd' i' r hr
  · rcases hcase d1 h1 i1 r hr1 with ⟨rfl, e1, e2⟩ | hr1 <;> rcases hcase d2 h2 i2 r hr2 with ⟨e3, e4, e5⟩ | hr2
    · exact ⟨by omega, by omega⟩
    · exact absurd hr2 (hn d2 h2 i2)
    · exact absurd (e3 ▸ hr1) (hn d1 h1 i1)
    · exact h.distinct d1 h1 d2 h2 i1 i2 r hr1 hr2
  · rcases hcase d' hd' i' r hr with ⟨rfl, -⟩ | hr
    · exact hf
    · exact h.apart d' hd' i' r hr
  · rcases hcase 2 (Nat.le_refl _) i' r hr with ⟨rfl, -⟩ | hr
    · rw [hzero j' hj'] at hv'
      cases hv'
    · rw [hsame i' r hr j' hj'] at hv' ⊢
      exact h.leaf i' r hr j' hj' hv'
  · simp [ht (d + 1) (by omega)]
  · have hlt : v % 512 < 512 := Nat.mod_lt _ (by decide)
    rw [leaf_tableAt hv', leaf_tableAt hv', ht 2 (Nat.le_refl _)]
    by_cases e : 2 = d + 1 ∧ v / 512 = 512 * i + j
    · have hold := tableAt_invalid hq hj hv
      rw [← e.1, ← e.2] at hold
      rw [if_pos e, hold]
      simp [hzero _ hlt]
    · simp only [e, if_false]
      cases hr : tableAt m t 2 (v / 512) with
      | none => simp
      | some r => simp [hsame _ r hr _ hlt]

/-- A level-0 entry is overwritten. -/
theorem WellFormed.setLeaf (h : WellFormed m t free) {i j q w : Nat} (hq : tableAt m t 2 i = some q) (hj : j < 512)
    (hw : w < 256 ^ 8) (hok : vbit w = true → w &&& (PTE_R ||| PTE_W ||| PTE_X) ≠ 0) :
    WellFormed (m.storeLE (q + 8 * j) 8 w) t free ∧
      (∀ d ≤ 2, ∀ i', tableAt (m.storeLE (q + 8 * j) 8 w) t d i' = tableAt m t d i') ∧
      ∀ v < VPN, Vm.leaf (m.storeLE (q + 8 * j) 8 w) t v = if v = 512 * i + j then w else Vm.leaf m t v := by
  have hqp := h.page 2 (Nat.le_refl _) i q hq
  have ht : ∀ d ≤ 2, ∀ i', tableAt (m.storeLE (q + 8 * j) 8 w) t d i' = tableAt m t d i' :=
    tableAt_frame fun d hd i' r hr => by
    have hne : r ≠ q := by
      rintro rfl
      have := (h.distinct d (by omega) 2 (Nat.le_refl _) i' i r hr hq).1
      omega
    exact agree_store_page m (h.page d (by omega) i' r hr).1 hqp.1 hj hne
  have hpte : ∀ i' r, tableAt m t 2 i' = some r → ∀ j' < 512,
      pte (m.storeLE (q + 8 * j) 8 w) r j' = if i' = i ∧ j' = j then w else pte m r j' := fun i' r hr j' hj' => by
    by_cases e : i' = i ∧ j' = j
    · obtain ⟨rfl, rfl⟩ := e
      obtain rfl : q = r := by simpa [hq] using hr
      simp [pte_store_same m q j' w hw]
    · simp only [e, if_false]
      refine pte_store_other m (h.page 2 (Nat.le_refl _) i' r hr).1 hqp.1 hj hj' fun er ej => e ⟨?_, ej⟩
      subst er
      exact (h.distinct 2 (Nat.le_refl _) 2 (Nat.le_refl _) i' i r hr hq).2
  refine ⟨⟨fun d hd i' r hr => ?_, fun d hd d' hd' i1 i2 r hr1 hr2 => ?_, fun d hd i' r hr => ?_,
    fun i' r hr j' hj' hv => ?_⟩, ht, fun v hv => ?_⟩
  · rw [ht d hd] at hr
    exact h.page d hd i' r hr
  · rw [ht d hd] at hr1
    rw [ht d' hd'] at hr2
    exact h.distinct d hd d' hd' i1 i2 r hr1 hr2
  · rw [ht d hd] at hr
    exact h.apart d hd i' r hr
  · rw [ht 2 (Nat.le_refl _)] at hr
    rw [hpte i' r hr j' hj'] at hv ⊢
    by_cases e : i' = i ∧ j' = j
    · simp only [e, and_self, if_true] at hv ⊢
      exact hok hv
    · simp only [e, if_false] at hv ⊢
      exact h.leaf i' r hr j' hj' hv
  · rw [leaf_tableAt hv, leaf_tableAt hv, ht 2 (Nat.le_refl _)]
    cases hr : tableAt m t 2 (v / 512) with
    | none =>
      have hne : v ≠ 512 * i + j := by
        rintro rfl
        rw [show (512 * i + j) / 512 = i by omega, hq] at hr
        cases hr
      simp [hne]
    | some r =>
      have hiff : v / 512 = i ∧ v % 512 = j ↔ v = 512 * i + j := by omega
      simp [hpte _ r hr _ (Nat.mod_lt _ (by decide)), hiff]

theorem WellFormed.cons (h : WellFormed m t free) {p : Nat} (hp : ∀ d ≤ 2, ∀ i, tableAt m t d i ≠ some p) :
    WellFormed m t (p :: free) := by
  refine ⟨h.page, h.distinct, fun d hd i q hq hm => ?_, h.leaf⟩
  rcases List.mem_cons.mp hm with rfl | hm
  · exact hp d hd i hq
  · exact h.apart d hd i q hq hm

/-! ## walk and mappages -/

/-- A page table and the free list beside it. -/
structure Inv (I : Image) (s : Mach Kmem) (t : Nat) (free : List Nat) : Prop where
  list : FreeList I s free
  tree : WellFormed s.mem t free

variable {I : Image} {s s' : Mach Kmem} {b : Bool}

/-- The tables below `t`, by depth and place: all of them in `N`, and with the free pages `c`. -/
def Counted (m : Mem) (t : Nat) (N : Finset (Nat × Nat)) (free : List Nat) (c : Nat) : Prop :=
  ∃ T : Finset (Nat × Nat), T ⊆ N ∧ (∀ d i, (d, i) ∈ T ↔ d ≤ 2 ∧ (tableAt m t d i).isSome = true) ∧
    T.card + free.length = c

/-- The places on the way to page `v`. -/
def Wants (N : Finset (Nat × Nat)) (v : Nat) : Prop := ∀ d ≤ 2, (d, v / 512 ^ (3 - d)) ∈ N

theorem Counted.frame {N : Finset (Nat × Nat)} {c : Nat} (h : Counted m t N free c)
    (hm : ∀ d ≤ 2, ∀ i, tableAt m' t d i = tableAt m t d i) :
    Counted m' t N free c := by
  obtain ⟨T, hT, hmem, hc⟩ := h
  refine ⟨T, hT, fun d i => (hmem d i).trans ?_, hc⟩
  constructor
  · intro hd
    exact ⟨hd.1, by rw [hm d hd.1]; exact hd.2⟩
  · intro hd
    exact ⟨hd.1, by rw [← hm d hd.1]; exact hd.2⟩

/-- A page of the list becomes a table. -/
theorem Counted.link {N : Finset (Nat × Nat)} {c d i p : Nat} (h : Counted m t N (p :: free) c) (hd : d ≤ 2)
    (hnone : tableAt m t d i = none)
    (hN : (d, i) ∈ N) {q : Nat} (hm : ∀ d' ≤ 2, ∀ i', tableAt m' t d' i' = if d' = d ∧
      i' = i then some q else tableAt m t d' i') :
    Counted m' t N free c := by
  obtain ⟨T, hT, hmem, hc⟩ := h
  have hnew : (d, i) ∉ T := fun hin => by
    have := ((hmem d i).mp hin).2
    rw [hnone] at this
    cases this
  refine ⟨insert (d, i) T, Finset.insert_subset hN hT, fun d' i' => ?_, ?_⟩
  · rw [Finset.mem_insert, Prod.mk.injEq, hmem]
    by_cases e : d' = d ∧ i' = i
    · have hd' : d' ≤ 2 := by omega
      rw [hm d' hd', if_pos e]
      exact iff_of_true (Or.inl e) ⟨hd', rfl⟩
    · constructor
      · intro hor
        obtain ⟨hd', hs⟩ := hor.resolve_left e
        exact ⟨hd', by rw [hm d' hd', if_neg e]; exact hs⟩
      · intro hs
        have hs2 := hs.2
        rw [hm d' hs.1, if_neg e] at hs2
        exact Or.inr ⟨hs.1, hs2⟩
  · rw [Finset.card_insert_of_notMem hnew, ← hc, List.length_cons]
    omega

/-- With a place empty and no page left, there were too few. -/
theorem Counted.short {N : Finset (Nat × Nat)} {c d i : Nat} (h : Counted m t N [] c) (hnone : tableAt m t d i = none)
    (hN : (d, i) ∈ N) : c < N.card := by
  obtain ⟨T, hT, hmem, hc⟩ := h
  rw [← hc, List.length_nil, Nat.add_zero]
  refine Finset.card_lt_card ⟨hT, fun hsub => ?_⟩
  have := ((hmem d i).mp (hsub hN)).2
  rw [hnone] at this
  cases this

/-- One missing table is added. -/
theorem Inv.addTable {p d i j q : Nat} {l : List Nat} (h : Inv I s t (p :: l)) (hd : d < 2)
    (hq : tableAt s.mem t d i = some q) (hj : j < 512) (hv : vbit (pte s.mem q j) = false)
    (hl : FreeList I { s with mem := s.mem.set p 5 4096, kmem := { s.kmem with freelist := s.mem.loadLE p 8 } } l) :
    Inv I ⟨((s.mem.set p 5 4096).set p 0 4096).storeLE (q + 8 * j) 8 (mkpte p 0),
      { s.kmem with freelist := s.mem.loadLE p 8 }⟩ t l ∧
      tableAt (((s.mem.set p 5 4096).set p 0 4096).storeLE (q + 8 * j) 8 (mkpte p 0)) t (d + 1) (512 * i + j) =
        some p ∧
      (∀ v < VPN, Vm.leaf (((s.mem.set p 5 4096).set p 0 4096).storeLE (q + 8 * j) 8 (mkpte p 0)) t v =
        Vm.leaf s.mem t v) ∧
      ∀ d' ≤ 2, ∀ i', tableAt (((s.mem.set p 5 4096).set p 0 4096).storeLE (q + 8 * j) 8 (mkpte p 0)) t d' i' =
        if d' = d + 1 ∧ i' = 512 * i + j then some p else tableAt s.mem t d' i' := by
  have hp := (h.list.page p (by simp)).isPage
  have hpl := (List.nodup_cons.mp h.list.nodup).1
  have hn : ∀ d ≤ 2, ∀ i, tableAt s.mem t d i ≠ some p := fun d hd i e => h.tree.apart d hd i p e (by simp)
  have hag : ∀ r, r % 4096 = 0 → r ≠ p → Mem.Agree s.mem ((s.mem.set p 5 4096).set p 0 4096) r 4096 := fun r hr hne =>
    (agree_set_page s.mem 5 hr hp.1 hne).trans (agree_set_page _ 0 hr hp.1 hne)
  have hfr : ∀ d ≤ 2, ∀ i r, tableAt s.mem t d i = some r →
    Mem.Agree s.mem ((s.mem.set p 5 4096).set p 0 4096) r 4096 := fun d hd i r hr =>
    hag r (h.tree.page d hd i r hr).1 fun e => hn d hd i (e ▸ hr)
  obtain ⟨h1, lf1⟩ := h.tree.frame hfr
  have ht := tableAt_frame fun d hd => hfr d (by omega)
  have h1' : WellFormed ((s.mem.set p 5 4096).set p 0 4096) t l :=
    ⟨h1.page, h1.distinct, fun d hd i r hr hm => h1.apart d hd i r hr (by simp [hm]), h1.leaf⟩
  have hqp := h.tree.page d (by omega) i q hq
  have hq1 : tableAt ((s.mem.set p 5 4096).set p 0 4096) t d i = some q := by rw [ht d (by omega)]; exact hq
  have hv1 : vbit (pte ((s.mem.set p 5 4096).set p 0 4096) q j) = false := by
    rw [pte_agree (hfr d (by omega) i q hq) hj]; exact hv
  have hn1 : ∀ d ≤ 2, ∀ i, tableAt ((s.mem.set p 5 4096).set p 0 4096) t d i ≠ some p := fun d hd i => by
    rw [ht d hd]; exact hn d hd i
  have hz1 : ∀ x, p ≤ x → x < p + 4096 → (s.mem.set p 5 4096).set p 0 4096 x = 0 :=
    fun x h3 h4 => Mem.set_in _ 0 h3 h4
  obtain ⟨h2, hnew, lf2⟩ := h1'.link hd hq1 hj hv1 hp hn1 hz1 hpl
  have hall := h1'.tableAt_link hd hq1 hj hv1 hp hn1 hz1
  refine ⟨⟨hl.frame fun r hr => ?_, h2⟩, hnew, fun v hv' => by rw [lf2 v hv', lf1 v hv'],
    fun d' hd' i' => by rw [hall d' hd' i', ht d' hd']⟩
  have hrp := (hl.page r hr).1
  have hrq : r ≠ q := by
    rintro rfl
    exact h.tree.apart d (by omega) i r hq (by simp [hr])
  have hrp' : r ≠ p := by
    rintro rfl
    exact hpl hr
  exact (agree_set_page _ 0 hrp hp.1 hrp').trans (agree_store_page _ hrp hqp.1 hj hrq)

theorem div_pow_succ (v l : Nat) : v / 512 ^ (l + 1) / 512 = v / 512 ^ (l + 1 + 1) := by
  rw [Nat.div_div_eq_div_mul, ← Nat.pow_succ]

theorem Inv.walkFrom {va : Nat} : ∀ l d q (s : Mach Kmem) free, l + d = 2 → Inv I s t free →
    tableAt s.mem t d (va / 4096 / 512 ^ (l + 1)) = some q →
    ∃ r s' free', Vm.walkFrom (lab I b) va true l q s = (r, s') ∧ Inv I s' t free' ∧ free' <:+ free ∧
      (∀ v < VPN, Vm.leaf s'.mem t v = Vm.leaf s.mem t v) ∧
      (∀ N c, Wants N (va / 4096) → Counted s.mem t N free c → Counted s'.mem t N free' c ∧ (r = none → c < N.card)) ∧
      (r = none ∧ free' = [] ∨ ∃ q', tableAt s'.mem t 2 (va / 4096 / 512) = some q' ∧
        r = some (q' + 8 * (va / 4096 % 512))) := by
  intro l
  induction l with
  | zero =>
    intro d q s free hd h hq
    obtain rfl : d = 2 := by omega
    exact ⟨_, s, free, rfl, h, List.suffix_rfl, fun _ _ => rfl, fun _ _ _ hc => ⟨hc, fun e => by cases e⟩,
      Or.inr ⟨q, by simpa using hq, rfl⟩⟩
  | succ l ih =>
    intro d q s free hd h hq
    have hj : va / 4096 / 512 ^ (l + 1) % 512 < 512 := Nat.mod_lt _ (by decide)
    rw [walkFrom_succ]
    by_cases hv : vbit (pte s.mem q (va / 4096 / 512 ^ (l + 1) % 512)) = true
    · simp only [hv, if_true]
      refine ih (d + 1) _ s free (by omega) h ?_
      simp [tableAt, div_pow_succ, hq, hv]
    · simp only [hv, if_false, Bool.not_true, Bool.false_eq_true]
      have hnone := tableAt_invalid hq hj (by simpa using hv)
      rw [child_index] at hnone
      have hplace : ∀ N, Wants N (va / 4096) → (d + 1, va / 4096 / 512 ^ (l + 1)) ∈ N := fun N hN => by
        have := hN (d + 1) (by omega)
        rwa [show 3 - (d + 1) = l + 1 by omega] at this
      rcases h.list.kalloc with ⟨rfl, e⟩ | ⟨p, l', rfl, e, hl⟩
      · refine ⟨none, { s with kmem := { s.kmem with nfail := s.kmem.nfail + 1 } }, [], ?_,
          ⟨⟨h.list.chain, h.list.nodup, h.list.page⟩, h.tree⟩, List.suffix_rfl, fun _ _ => rfl,
          fun N c hN hc => ⟨hc, fun _ => hc.short hnone (hplace N hN)⟩, Or.inl ⟨rfl, rfl⟩⟩
        simp only [lab, e]
      · obtain ⟨h1, hnew, lf, hall⟩ := h.addTable (by omega) hq hj (by simpa using hv) hl
        rw [child_index] at hnew hall
        obtain ⟨r, s', free', e', h', hs, lf', hcount, hr⟩ := ih (d + 1) p _ l' (by omega) h1 hnew
        refine ⟨r, s', free', ?_, h', hs.trans (List.suffix_cons p l'), fun v hv' => by rw [lf' v hv', lf v hv'],
          fun N c hN hc => hcount N c hN (hc.link (by omega) hnone (hplace N hN) hall), hr⟩
        simp only [lab, e]
        exact e'

theorem Inv.walk (h : Inv I s t free) {va : Nat} (hva : va < MAXVA) :
    ∃ r s' free', Vm.walk (lab I b) t va true s = .ok (r, s') ∧ Inv I s' t free' ∧ free' <:+ free ∧
      (∀ v < VPN, Vm.leaf s'.mem t v = Vm.leaf s.mem t v) ∧
      (∀ N c, Wants N (va / 4096) → Counted s.mem t N free c → Counted s'.mem t N free' c ∧ (r = none → c < N.card)) ∧
      (r = none ∧ free' = [] ∨ ∃ q, tableAt s'.mem t 2 (va / 4096 / 512) = some q ∧
        r = some (q + 8 * (va / 4096 % 512))) := by
  have hroot : tableAt s.mem t 0 (va / 4096 / 512 ^ (2 + 1)) = some t := by
    rw [root_index (vpn_of_lt hva)]
    simp [tableAt]
  obtain ⟨r, s', free', e, h'⟩ := Inv.walkFrom (b := b) 2 0 t s free rfl h hroot
  exact ⟨r, s', free', by simp only [Vm.walk, Nat.not_le.mpr hva, if_false, e], h'⟩

/-- An entry of a level-0 table is written. -/
theorem Inv.setLeaf (h : Inv I s t free) {v q w : Nat} (hq : tableAt s.mem t 2 (v / 512) = some q) (hw : w < 256 ^ 8)
    (hok : vbit w = true → w &&& (PTE_R ||| PTE_W ||| PTE_X) ≠ 0) :
    Inv I { s with mem := s.mem.storeLE (q + 8 * (v % 512)) 8 w } t free ∧
      (∀ d ≤ 2, ∀ i, tableAt (s.mem.storeLE (q + 8 * (v % 512)) 8 w) t d i = tableAt s.mem t d i) ∧
      ∀ v' < VPN, Vm.leaf (s.mem.storeLE (q + 8 * (v % 512)) 8 w) t v' =
        if v' = v then w else Vm.leaf s.mem t v' := by
  have hj : v % 512 < 512 := Nat.mod_lt _ (by decide)
  obtain ⟨h1, ht, lf⟩ := h.tree.setLeaf hq hj hw hok
  rw [div_mod_512] at lf
  refine ⟨⟨h.list.frame fun p hp => ?_, h1⟩, ht, lf⟩
  have hne : p ≠ q := by
    rintro rfl
    exact h.tree.apart 2 (Nat.le_refl _) _ p hq hp
  exact agree_store_page s.mem (h.list.page p hp).1 (h.tree.page 2 (Nat.le_refl _) _ q hq).1 hj hne

/-- One round of mappages on an invalid entry. -/
theorem Inv.mapOne (h : Inv I s t free) (va pa : Nat) {perm : Nat} (hva : va < MAXVA)
    (hinv : lookup s.mem t (va / 4096) = none)
    (hpa : pa < 2 ^ 64) (hperm : perm < 1024) (hrwx : perm &&& (PTE_R ||| PTE_W ||| PTE_X) ≠ 0) :
    ∃ ok s' free', Vm.mapOne (lab I b) t va pa perm s = .ok (ok, s') ∧ Inv I s' t free' ∧ free' <:+ free ∧
      (∀ N c, Wants N (va / 4096) → Counted s.mem t N free c → Counted s'.mem t N free' c ∧
        (ok = false → c < N.card)) ∧
      (ok = true ∧ (∀ v < VPN, lookup s'.mem t v = if v = va / 4096 then some (mkpte pa perm) else lookup s.mem t v) ∨
        ok = false ∧ free' = [] ∧ ∀ v < VPN, lookup s'.mem t v = lookup s.mem t v) := by
  obtain ⟨r, s1, free1, e, h1, hs, lf, hcount, ⟨rfl, hf⟩ | ⟨q, hq, rfl⟩⟩ := h.walk (b := b) hva
  · refine ⟨false, s1, free1, ?_, h1, hs, fun N c hN hc => ⟨(hcount N c hN hc).1, fun _ => (hcount N c hN hc).2 rfl⟩,
      Or.inr ⟨rfl, hf, fun v hv => lookup_congr (lf v hv)⟩⟩
    simp only [Vm.mapOne, e, ok_bind]
  · have hv := vpn_of_lt hva
    have hl : vbit (s1.mem.loadLE (q + 8 * (va / 4096 % 512)) 8) = false := by
      have e1 : s1.mem.loadLE (q + 8 * (va / 4096 % 512)) 8 = Vm.leaf s1.mem t (va / 4096) := (leaf_some hv hq).symm
      rw [e1, lf _ hv]
      exact lookup_none.mp hinv
    obtain ⟨h2, ht2, lf2⟩ := h1.setLeaf (w := mkpte pa perm) hq (mkpte_lt_of_lt hpa hperm) fun _ =>
      mkpte_rwx hperm hrwx
    refine ⟨true, _, free1, ?_, h2, hs, fun N c hN hc => ⟨(hcount N c hN hc).1.frame ht2, fun e => by cases e⟩,
      Or.inl ⟨rfl, fun v hv' => ?_⟩⟩
    · simp only [Vm.mapOne, e, ok_bind, vbit_eq, hl, Bool.false_eq_true, if_false, mkpte]
    · simp only [lookup, lf2 v hv', lf v hv']
      by_cases ev : v = va / 4096
      · simp [ev, vbit_mkpte hperm]
      · simp [ev]

/-- The entries mappages has made after `k` rounds. -/
def Mapped (m : Mem) (t v0 pa perm k : Nat) (m' : Mem) : Prop :=
  ∀ v < VPN, lookup m' t v = if InRange v0 k v then some (mkpte (pa + 4096 * (v - v0)) perm) else lookup m t v

/-- mappages' loop: all rounds, or as many as there were tables for. -/
theorem mappagesLoop_spec {perm : Nat} (hperm : perm < 1024) (hrwx : perm &&& (PTE_R ||| PTE_W ||| PTE_X) ≠ 0) :
    ∀ n a pa (s : Mach Kmem) free, Inv I s t free → a % 4096 = 0 → a + n * 4096 < MAXVA → pa + n * 4096 < 2 ^ 64 →
      (∀ i ≤ n, lookup s.mem t (a / 4096 + i) = none) →
      ∃ r s' free' k, mappagesLoop (lab I b) t perm n a pa s = .ok (r, s') ∧ Inv I s' t free' ∧ free' <:+ free ∧
        Mapped s.mem t (a / 4096) pa perm k s'.mem ∧
        (∀ N c, (∀ i ≤ n, Wants N (a / 4096 + i)) → Counted s.mem t N free c → Counted s'.mem t N free' c ∧
          (r = -1 → c < N.card)) ∧
        (r = 0 ∧ k = n + 1 ∨ r = -1 ∧ k ≤ n ∧ free' = []) := by
  intro n
  induction n with
  | zero =>
    intro a pa s free h hal ha hpa hinv
    obtain ⟨ok, s', free', e, h', hs, hcount, hc⟩ :=
      h.mapOne (b := b) a pa (by omega) (hinv 0 (Nat.le_refl _)) (by omega) hperm hrwx
    rcases hc with ⟨rfl, lf⟩ | ⟨rfl, hf, lf⟩
    · refine ⟨0, s', free', 1, by simp only [mappagesLoop, e, ok_bind, if_true], h', hs, fun v hv => ?_,
        fun N c hN hc => ⟨(hcount N c (hN 0 (Nat.le_refl _)) hc).1, fun e => by cases e⟩, Or.inl ⟨rfl, rfl⟩⟩
      by_cases ev : v = a / 4096
      · subst ev
        simp [lf _ hv, inRange_one]
      · simp [lf v hv, ev, inRange_one]
    · refine ⟨-1, s', free', 0, by simp only [mappagesLoop, e, ok_bind, Bool.false_eq_true, if_false], h', hs,
        fun v hv => ?_,
        fun N c hN hc => (hcount N c (hN 0 (Nat.le_refl _)) hc).imp_right fun hlt _ => hlt rfl,
          Or.inr ⟨rfl, Nat.le_refl _, hf⟩⟩
      have hno : ¬ InRange (a / 4096) 0 v := by simp only [InRange]; omega
      simp only [hno, if_false]
      exact lf v hv
  | succ n ih =>
    intro a pa s free h hal ha hpa hinv
    obtain ⟨ok, s1, free1, e, h1, hs1, hcount1, hc⟩ :=
      h.mapOne (b := b) a pa (by omega) (hinv 0 (by omega)) (by omega) hperm hrwx
    rcases hc with ⟨rfl, lf⟩ | ⟨rfl, hf, lf⟩
    · have ea : u64 (a + PGSIZE) = a + 4096 := u64_of_lt (by simp only [MAXVA] at ha; simp only [PGSIZE]; omega)
      have ep : u64 (pa + PGSIZE) = pa + 4096 := u64_of_lt (by simp only [PGSIZE]; omega)
      have ev : (a + 4096) / 4096 = a / 4096 + 1 := by omega
      obtain ⟨r, s', free', k, e', h', hs, hm, hcount, hr⟩ :=
        ih (a + 4096) (pa + 4096) s1 free1 h1 (by omega) (by omega) (by omega) fun i hi => by
        have hlt : a / 4096 + 1 + i < VPN := by
          simp only [MAXVA] at ha
          simp only [VPN]
          omega
        have hne : a / 4096 + 1 + i ≠ a / 4096 := by omega
        rw [ev, lf _ hlt, if_neg hne]
        have := hinv (i + 1) (by omega)
        rwa [show a / 4096 + (i + 1) = a / 4096 + 1 + i by omega] at this
      refine ⟨r, s', free', k + 1, ?_, h', hs.trans hs1, fun v hv => ?_, fun N c hN hc => ?_,
        hr.imp (fun h => ⟨h.1, by omega⟩) fun h => ⟨h.1, by omega, h.2.2⟩⟩
      · simp only [mappagesLoop, e, ok_bind, if_true, ea, ep]
        exact e'
      · rw [hm v hv, ev]
        by_cases e0 : v = a / 4096
        · subst e0
          have h3 : ¬ InRange (a / 4096 + 1) k (a / 4096) := by simp only [InRange]; omega
          have h4 : InRange (a / 4096) (k + 1) (a / 4096) := by simp only [InRange]; omega
          simp [h3, h4, lf _ hv]
        · have h3 : InRange (a / 4096) (k + 1) v ↔ InRange (a / 4096 + 1) k v := by simp only [InRange]; omega
          by_cases hin : InRange (a / 4096 + 1) k v
          · have h4 : pa + 4096 + 4096 * (v - (a / 4096 + 1)) = pa + 4096 * (v - a / 4096) := by
              simp only [InRange] at hin
              omega
            simp [h3, hin, h4]
          · simp [h3, hin, lf v hv, e0]
      · refine hcount N c (fun i hi => ?_) (hcount1 N c (hN 0 (Nat.zero_le _)) hc).1
        rw [ev, show a / 4096 + 1 + i = a / 4096 + (i + 1) by omega]
        exact hN (i + 1) (by omega)
    · refine ⟨-1, s1, free1, 0, by simp only [mappagesLoop, e, ok_bind, Bool.false_eq_true, if_false], h1, hs1,
        fun v hv => ?_,
        fun N c hN hc => (hcount1 N c (hN 0 (Nat.zero_le _)) hc).imp_right fun hlt _ => hlt rfl,
          Or.inr ⟨rfl, Nat.zero_le _, hf⟩⟩
      have hno : ¬ InRange (a / 4096) 0 v := by simp only [InRange]; omega
      simp only [hno, if_false]
      exact lf v hv

/-! ## uvmunmap -/

/-- The pages mapped at `[v0, v0 + n)` may be given back: they are the allocator's, not
    free, no tables, and all different. -/
structure Owned (I : Image) (m : Mem) (t : Nat) (free : List Nat) (v0 n : Nat) : Prop where
  page : ∀ i < n, ∀ w, lookup m t (v0 + i) = some w → Page I (PTE2PA w) ∧ PTE2PA w ∉ free ∧ ∀ d ≤ 2, ∀ j,
    tableAt m t d j ≠ some (PTE2PA w)
  distinct : ∀ i < n, ∀ j < n, i ≠ j → ∀ w w', lookup m t (v0 + i) = some w → lookup m t (v0 + j) = some w' →
    PTE2PA w ≠ PTE2PA w'

/-- kfree of a page that is no table and not free. -/
theorem Inv.kfree (h : Inv I s t free) {p : Nat} (hp : Page I p) (hn : p ∉ free)
    (ht : ∀ d ≤ 2, ∀ i, tableAt s.mem t d i ≠ some p) :
    ∃ s', Plain.kfree I p s = .ok s' ∧ Inv I s' t (p :: free) ∧
      (∀ d ≤ 2, ∀ i, tableAt s'.mem t d i = tableAt s.mem t d i) ∧
      ∀ v < VPN, Vm.leaf s'.mem t v = Vm.leaf s.mem t v := by
  obtain ⟨s', e, hl, hx, -⟩ := h.list.kfree hp hn
  have hfr : ∀ d ≤ 2, ∀ i q, tableAt s.mem t d i = some q → Mem.Agree s.mem s'.mem q 4096 :=
    fun d hd i q hq x h1 h2 => by
    have hne : q ≠ p := by
      rintro rfl
      exact ht d hd i hq
    have h3 := (h.tree.page d hd i q hq).1
    have h4 := hp.1
    exact hx x (by omega)
  obtain ⟨h1, lf⟩ := h.tree.frame hfr
  have hta := tableAt_frame fun d hd => hfr d (by omega)
  exact ⟨s', e, ⟨hl, h1.cons fun d hd i => by rw [hta d hd]; exact ht d hd i⟩, hta, lf⟩

/-- One round of uvmunmap on a mapped page. -/
theorem Inv.unmapOne (h : Inv I s t free) {va w : Nat} {do_free : Bool} (hva : va < MAXVA)
    (hw : lookup s.mem t (va / 4096) = some w)
    (hown : do_free = true → Page I (PTE2PA w) ∧ PTE2PA w ∉ free ∧ ∀ d ≤ 2, ∀ i,
      tableAt s.mem t d i ≠ some (PTE2PA w)) :
    ∃ s', Vm.unmapOne (lab I b) t va do_free s = .ok s' ∧ Inv I s' t (if do_free then PTE2PA w :: free else free) ∧
      (∀ d ≤ 2, ∀ i, tableAt s'.mem t d i = tableAt s.mem t d i) ∧
      ∀ v < VPN, lookup s'.mem t v = if v = va / 4096 then none else lookup s.mem t v := by
  have hv := vpn_of_lt hva
  obtain ⟨rfl, hvb⟩ := lookup_some.mp hw
  obtain ⟨q, hq⟩ : ∃ q, tableAt s.mem t 2 (va / 4096 / 512) = some q := by
    cases hq : tableAt s.mem t 2 (va / 4096 / 512) with
    | none =>
      rw [leaf_none hv hq] at hvb
      cases hvb
    | some q => exact ⟨q, rfl⟩
  have hlf : s.mem.loadLE (q + 8 * (va / 4096 % 512)) 8 = Vm.leaf s.mem t (va / 4096) := (leaf_some hv hq).symm
  have hflag : PTE_FLAGS (Vm.leaf s.mem t (va / 4096)) ≠ PTE_V := by
    refine flags_of_rwx ?_
    rw [leaf_some hv hq] at hvb ⊢
    exact h.tree.leaf _ q hq _ (Nat.mod_lt _ (by decide)) hvb
  have hslot : slotFrom s.mem (va / 4096) 2 t = some (q + 8 * (va / 4096 % 512)) := by simp [slotFrom_tableAt hv, hq]
  have hvalid : ¬ (Vm.leaf s.mem t (va / 4096) &&& PTE_V = 0) := (vbit_eq _).mpr hvb
  have hz : vbit 0 = true → (0 : Nat) &&& (PTE_R ||| PTE_W ||| PTE_X) ≠ 0 := fun e => by cases e
  have hlook : ∀ {m1 : Mem}, (∀ v < VPN, Vm.leaf m1 t v = if v = va / 4096 then 0 else Vm.leaf s.mem t v) →
      ∀ v < VPN, lookup m1 t v = if v = va / 4096 then none else lookup s.mem t v := fun lf v hv' => by
    simp only [lookup, lf v hv']
    by_cases ev : v = va / 4096
    · simp [ev, vbit_zero]
    · simp [ev]
  cases do_free with
  | false =>
    obtain ⟨h1, ht, lf⟩ := h.setLeaf (w := 0) hq (by decide) hz
    refine ⟨_, ?_, h1, ht, hlook lf⟩
    simp only [Vm.unmapOne, walk_false hva, ok_bind, hslot, hlf, hvalid, hflag, if_false, Bool.false_eq_true]
  | true =>
    obtain ⟨hp, hn, hnt⟩ := hown rfl
    obtain ⟨s1, e1, h1, ht1, lf1⟩ := h.kfree hp hn hnt
    obtain ⟨h2, ht2, lf2⟩ := h1.setLeaf (v := va / 4096) (w := 0) (by rw [ht1 2 (Nat.le_refl _)]; exact hq)
      (by decide) hz
    refine ⟨_, ?_, h2, fun d hd i => by rw [ht2 d hd, ht1 d hd], hlook fun v hv' => by rw [lf2 v hv', lf1 v hv']⟩
    simp only [Vm.unmapOne, walk_false hva, ok_bind, hslot, hlf, hvalid, hflag, if_false, if_true, lab, e1]

/-- uvmunmap's loop on mapped pages. -/
theorem unmapLoop_clears {do_free : Bool} : ∀ n va (s : Mach Kmem) free, Inv I s t free → va % 4096 = 0 →
    (∀ i < n, va + 4096 * i < MAXVA ∧ (lookup s.mem t (va / 4096 + i)).isSome = true) →
    (do_free = true → Owned I s.mem t free (va / 4096) n) →
    ∃ s' free', unmapLoop (lab I b) t do_free n va s = .ok s' ∧ Inv I s' t free' ∧
      ∀ v < VPN, lookup s'.mem t v = if InRange (va / 4096) n v then none else lookup s.mem t v := by
  intro n
  induction n with
  | zero =>
    intro va s free h _ _ _
    refine ⟨s, free, rfl, h, fun v _ => ?_⟩
    have hno : ¬ InRange (va / 4096) 0 v := by simp only [InRange]; omega
    simp [hno]
  | succ n ih =>
    intro va s free h hal hmap hown
    obtain ⟨hva, hsome⟩ := hmap 0 (by omega)
    obtain ⟨w, hw⟩ := Option.isSome_iff_exists.mp hsome
    obtain ⟨s1, e1, h1, ht, lf⟩ := h.unmapOne (b := b) (by omega) hw fun hf => (hown hf).page 0 (by omega) w hw
    have ev : (va + PGSIZE) / 4096 = va / 4096 + 1 := by simp only [PGSIZE]; omega
    have hlt : ∀ i < n, va / 4096 + 1 + i < VPN := fun i hi => by
      have := (hmap (i + 1) (by omega)).1
      simp only [MAXVA] at this
      simp only [VPN]
      omega
    have hlook : ∀ i < n, lookup s1.mem t (va / 4096 + 1 + i) = lookup s.mem t (va / 4096 + (i + 1)) := fun i hi => by
      have hne : va / 4096 + 1 + i ≠ va / 4096 := by omega
      rw [show va / 4096 + (i + 1) = va / 4096 + 1 + i by omega]
      rw [lf _ (hlt i hi), if_neg hne]
    obtain ⟨s', free', e', h', hl⟩ := ih (va + PGSIZE) s1 _ h1 (by simp only [PGSIZE]; omega) (fun i hi => by
        have := hmap (i + 1) (by omega)
        rw [ev, hlook i hi]
        exact ⟨by simp only [PGSIZE]; omega, this.2⟩) fun hf => by
      refine ⟨fun i hi w' hw' => ?_, fun i hi j hj hne w1 w2 h3 h4 => ?_⟩
      · rw [ev, hlook i hi] at hw'
        obtain ⟨h3, h4, h5⟩ := (hown hf).page (i + 1) (by omega) w' hw'
        refine ⟨h3, ?_, fun d hd j => by rw [ht d hd]; exact h5 d hd j⟩
        simp only [hf, if_true, List.mem_cons, not_or]
        exact ⟨(hown hf).distinct (i + 1) (by omega) 0 (by omega) (by omega) w' w hw' hw, h4⟩
      · rw [ev, hlook i hi] at h3
        rw [ev, hlook j hj] at h4
        exact (hown hf).distinct (i + 1) (by omega) (j + 1) (by omega) (by omega) w1 w2 h3 h4
    refine ⟨s', free', ?_, h', fun v hv => ?_⟩
    · simp only [unmapLoop, e1, ok_bind]
      exact e'
    · rw [hl v hv, ev]
      by_cases e0 : v = va / 4096
      · subst e0
        simp [inRange_succ, lf _ hv]
      · simp [inRange_succ, e0, lf v hv]

/-! ## The main result -/

theorem tableAt_empty (hz : ∀ x, t ≤ x → x < t + 4096 → m x = 0) : ∀ d i q, tableAt m t d i = some q → d = 0 ∧ i = 0 ∧
    q = t := by
  intro d
  induction d with
  | zero =>
    intro i q hq
    by_cases e : i = 0
    · simp only [tableAt, e, if_true, Option.some.injEq] at hq
      exact ⟨rfl, e, hq.symm⟩
    · simp [tableAt, e] at hq
  | succ d ih =>
    intro i q hq
    cases hr : tableAt m t d (i / 512) with
    | none => simp [tableAt, hr] at hq
    | some r =>
      obtain ⟨-, -, rfl⟩ := ih _ r hr
      simp [tableAt, hr, pte_zero hz (Nat.mod_lt i (show 0 < 512 by decide)), vbit_zero] at hq

/-- An empty root table. -/
theorem wellFormed_empty (ht : IsPage t) (hz : ∀ x, t ≤ x → x < t + 4096 → m x = 0) (hn : t ∉ free) :
    WellFormed m t free ∧ ∀ v < VPN, lookup m t v = none := by
  have h1 := tableAt_empty hz
  refine ⟨⟨fun d _ i q hq => ?_, fun d _ d' _ i i' q hq hq' => ?_, fun d _ i q hq => ?_, fun i q hq => ?_⟩,
    fun v hv => ?_⟩
  · obtain ⟨-, -, rfl⟩ := h1 d i q hq
    exact ht
  · obtain ⟨rfl, rfl, -⟩ := h1 d i q hq
    obtain ⟨rfl, rfl, -⟩ := h1 d' i' q hq'
    exact ⟨rfl, rfl⟩
  · obtain ⟨-, -, rfl⟩ := h1 d i q hq
    exact hn
  · have := (h1 2 i q hq).1
    omega
  · cases hq : tableAt m t 2 (v / 512) with
    | none => simp [lookup, leaf_none hv hq, vbit_zero]
    | some q =>
      have := (h1 2 _ q hq).1
      omega

theorem Inv.mappages (h : Inv I s t free) {va size pa perm : Nat} (hsize : 0 < size) (hva : va + size ≤ MAXVA)
    (hal : pa % 4096 = 0)
    (hpa : pa + size < 2 ^ 56) (hperm : perm < 1024) (hrwx : perm &&& (PTE_R ||| PTE_W ||| PTE_X) ≠ 0)
    (hinv : ∀ v, PGROUNDDOWN va / 4096 ≤ v → v ≤ PGROUNDDOWN (va + size - 1) / 4096 → lookup s.mem t v = none) :
    ∃ r s' free', Vm.mappages (lab I b) t va size pa perm s = .ok (r, s') ∧ Inv I s' t free' ∧
      (r = -1 ∧ free' = [] ∨ r = 0 ∧ ∀ v < VPN,
        if PGROUNDDOWN va / 4096 ≤ v ∧ v ≤ PGROUNDDOWN (va + size - 1) / 4096 then
          ∃ w, lookup s'.mem t v = some w ∧ PTE2PA w = pa + 4096 * (v - PGROUNDDOWN va / 4096) ∧
            PTE_FLAGS w = perm ||| PTE_V
        else lookup s'.mem t v = lookup s.mem t v) := by
  simp only [MAXVA] at hva
  have e1 : u64 (va + size - 1) = va + size - 1 := u64_of_lt (by omega)
  have e2 : u64 (PGROUNDDOWN (va + size - 1) + 2 ^ 64 - PGROUNDDOWN va) / PGSIZE =
    PGROUNDDOWN (va + size - 1) / 4096 - PGROUNDDOWN va / 4096 := by
    simp only [PGROUNDDOWN, PGSIZE, u64]
    omega
  obtain ⟨r, s', free', k, e, h', -, hm, -, hr⟩ :=
    mappagesLoop_spec (b := b) hperm hrwx (PGROUNDDOWN (va + size - 1) / 4096 - PGROUNDDOWN va / 4096)
    (PGROUNDDOWN va) pa s free h (by simp only [PGROUNDDOWN, PGSIZE]; omega)
      (by simp only [PGROUNDDOWN, PGSIZE, MAXVA]; omega)
    (by simp only [PGROUNDDOWN, PGSIZE]; omega) fun i hi =>
      hinv _ (by omega) (by simp only [PGROUNDDOWN, PGSIZE] at hi ⊢; omega)
  refine ⟨r, s', free', ?_, h', ?_⟩
  · simp only [Vm.mappages, Nat.pos_iff_ne_zero.mp hsize, if_false, e1, e2]
    exact e
  · rcases hr with ⟨rfl, hk⟩ | ⟨rfl, -, hf⟩
    · refine Or.inr ⟨rfl, fun v hv => ?_⟩
      have hin : InRange (PGROUNDDOWN va / 4096) k v ↔ PGROUNDDOWN va / 4096 ≤ v ∧
        v ≤ PGROUNDDOWN (va + size - 1) / 4096 := by
        simp only [InRange, hk, PGROUNDDOWN, PGSIZE]
        omega
      have hv := hm v hv
      simp only [hin] at hv
      split
      · rename_i hr
        refine ⟨_, by rw [hv, if_pos hr], pte2pa_mkpte_of_lt (by omega) ?_ hperm, mkpte_mod hperm⟩
        simp only [PGROUNDDOWN, PGSIZE] at hr ⊢
        omega
      · rename_i hr
        rw [hv, if_neg hr]
    · exact Or.inl ⟨rfl, hf⟩

theorem Inv.uvmunmap (h : Inv I s t free) {va npages : Nat} {do_free : Bool} (hal : va % 4096 = 0)
    (hmap : ∀ i < npages, va + 4096 * i < MAXVA ∧ (lookup s.mem t (va / 4096 + i)).isSome = true)
    (hown : do_free = true → Owned I s.mem t free (va / 4096) npages) :
    ∃ s' free', Vm.uvmunmap (lab I b) t va npages do_free s = .ok s' ∧ Inv I s' t free' ∧
      ∀ v < VPN, lookup s'.mem t v = if InRange (va / 4096) npages v then none else lookup s.mem t v := by
  have e1 : (u64 (va + u64 (npages * PGSIZE)) - va) / PGSIZE = npages := by
    simp only [PGSIZE, u64]
    cases npages with
    | zero => omega
    | succ n =>
      have := (hmap n (by omega)).1
      simp only [MAXVA] at this
      omega
  obtain ⟨s', free', e, h'⟩ := unmapLoop_clears (b := b) npages va s free h hal hmap hown
  refine ⟨s', free', ?_, h'⟩
  have hal' : ¬ va % PGSIZE ≠ 0 := by simp only [PGSIZE]; omega
  simp only [Vm.uvmunmap, hal', if_false, e1]
  exact e

/-- Over any well-formed page table: walk without allocation reads the map and changes
    nothing, mappages adds the pages of its range and only those, uvmunmap removes the pages
    of its range and only those, and the table stays well-formed. -/
theorem tables_are_maps (h : Inv I s t free) :
    (∀ va alloc, MAXVA ≤ va → Vm.walk (lab I b) t va alloc s = .error "walk") ∧
    (∀ va < MAXVA, ∃ pte, Vm.walk (lab I b) t va false s = .ok (pte, s) ∧
      lookup s.mem t (va / 4096) = pte.bind fun a =>
        if vbit (s.mem.loadLE a 8) then some (s.mem.loadLE a 8) else none) ∧
    (∀ va size pa perm, 0 < size → va + size ≤ MAXVA → pa % 4096 = 0 → pa + size < 2 ^ 56 → perm < 1024 →
      perm &&& (PTE_R ||| PTE_W ||| PTE_X) ≠ 0 →
      (∀ v, PGROUNDDOWN va / 4096 ≤ v → v ≤ PGROUNDDOWN (va + size - 1) / 4096 → lookup s.mem t v = none) →
      ∃ r s' free', Vm.mappages (lab I b) t va size pa perm s = .ok (r, s') ∧ Inv I s' t free' ∧
        (r = -1 ∧ free' = [] ∨ r = 0 ∧ ∀ v < VPN,
          if PGROUNDDOWN va / 4096 ≤ v ∧ v ≤ PGROUNDDOWN (va + size - 1) / 4096 then
            ∃ w, lookup s'.mem t v = some w ∧ PTE2PA w = pa + 4096 * (v - PGROUNDDOWN va / 4096) ∧
              PTE_FLAGS w = perm ||| PTE_V
          else lookup s'.mem t v = lookup s.mem t v)) ∧
    (∀ va npages do_free, va % 4096 = 0 →
      (∀ i < npages, va + 4096 * i < MAXVA ∧ (lookup s.mem t (va / 4096 + i)).isSome = true) →
      (do_free = true → Owned I s.mem t free (va / 4096) npages) →
      ∃ s' free', Vm.uvmunmap (lab I b) t va npages do_free s = .ok s' ∧ Inv I s' t free' ∧
        ∀ v < VPN, lookup s'.mem t v = if InRange (va / 4096) npages v then none else lookup s.mem t v) := by
  refine ⟨fun va alloc hva => ?_, fun va hva => ⟨_, walk_false hva, ?_⟩, fun va size pa perm => h.mappages,
    fun va npages do_free => h.uvmunmap⟩
  · simp only [Vm.walk, hva, if_true]
  · exact lookup_slot s.mem t (va / 4096)

/-- What mappages returns, if it does. -/
def mappagesResult (I : Image) (t va size pa perm : Nat) (s : Mach Kmem) : Option Int :=
  match Vm.mappages (lab I false) t va size pa perm s with
  | .ok (r, _) => some r
  | .error _ => none

/-- The first page of an empty table, with two free pages for the tables below the root. -/
theorem tables_are_maps_first_page : ∃ (I : Image) (s s' : Mach Kmem) (free' : List Nat) (w : Nat),
    Inv I s 0x80022000 [0x80024000, 0x80023000] ∧ Vm.mappages (lab I false) 0x80022000 0 4096 0x80025000 PTE_R s =
      .ok (0, s') ∧
      Inv I s' 0x80022000 free' ∧ lookup s'.mem 0x80022000 0 = some w ∧ PTE2PA w = 0x80025000 ∧
        PTE_FLAGS w = PTE_R ||| PTE_V := by
  let I : Image := ⟨0x80022000, by decide, by decide⟩
  let m : Mem := Mem.storeLE (fun _ => 0) 0x80024000 8 0x80023000
  have hout : ∀ x, x < 0x80024000 ∨ 0x80024000 + 8 ≤ x → m x = 0 := fun x hx => Mem.storeLE_ne (m := fun _ => 0) hx
  obtain ⟨htree, hlook⟩ : WellFormed m 0x80022000 [0x80024000, 0x80023000] ∧ _ :=
    wellFormed_empty (by simp [IsPage]) (fun x h1 h2 => hout x (by omega)) (by decide)
  have hinv : Inv I ⟨m, 0x80024000, 0⟩ 0x80022000 [0x80024000, 0x80023000] := by
    refine ⟨⟨⟨rfl, ?_, ?_⟩, by decide, by simp [Page, I, PHYSTOP, KERNBASE]⟩, htree⟩
    · exact Mem.loadLE_storeLE_of_lt _ _ _ _ (by decide)
    · exact Mem.loadLE_zero fun x h1 h2 => hout x (by omega)
  obtain ⟨r, s', free', e, h', hr⟩ := (tables_are_maps (b := false) hinv).2.2.1 0 4096 0x80025000 PTE_R (by decide)
    (by decide) (by decide)
    (by decide) (by decide) (by decide) fun v h1 h2 =>
      hlook v (by simp only [PGROUNDDOWN, PGSIZE] at h2; simp only [VPN]; omega)
  have hrun : mappagesResult I 0x80022000 0 4096 0x80025000 PTE_R ⟨m, 0x80024000, 0⟩ = some 0 := by decide +kernel
  unfold mappagesResult at hrun
  rw [e] at hrun
  obtain rfl : r = 0 := Option.some.inj hrun
  rcases hr with ⟨hbad, -⟩ | ⟨-, hmap⟩
  · cases hbad
  · have h0 := hmap 0 (by decide)
    rw [if_pos (by decide)] at h0
    obtain ⟨w, hw, hpa, hflags⟩ := h0
    exact ⟨I, _, s', free', w, hinv, e, h', hw, hpa, hflags⟩

end Xv6Labs.Plain
