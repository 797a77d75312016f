/-
  Xv6Labs.Cow.Kalloc — `kalloc.c` of the cow lab.

  Every page has an 8-bit count of its users. `kalloc` hands a page out with count 1,
  `kfree` decrements and puts the page on the free list when the count reaches 0. The list
  is linked through the free pages themselves. `kend` is the address kernel.ld gives `end`;
  PHYSTOP is KERNBASE + 128 MiB, kept as a parameter since nothing depends on its value.
  Two fields are not in the code and nothing reads them: `nfail` counts the calls of kalloc
  that found the list empty, `wrapped` records a count going past 255 or below 0.

  `spec`: this is a counting allocator for pages with at most 256 owners, the count being
  kept modulo 256; with at most 255 it never wraps.
-/

import Xv6Labs.Lib.Chain
import Xv6Labs.Vm.Free

namespace Xv6Labs.Cow

open Lib Vm

structure Layout where
  kend : Nat
  phystop : Nat
  kernbase_le : KERNBASE ≤ kend
  phystop_le : phystop ≤ 2 ^ 56
  kend_le : kend ≤ phystop

structure Kmem where
  freelist : Nat
  /-- `cows[i].ref_cnt` -/
  ref_cnt : Nat → UInt8
  nfail : Nat
  wrapped : Bool

@[irreducible] def cowIndex (pa : Nat) : Nat := (pa - KERNBASE) / 4096

def increfcnt (pa : Nat) (s : Mach Kmem) : Mach Kmem :=
  if pa < KERNBASE then s
  else { s with kmem := { s.kmem with
    ref_cnt := Function.update s.kmem.ref_cnt (cowIndex pa) (s.kmem.ref_cnt (cowIndex pa) + 1)
    wrapped := s.kmem.wrapped || s.kmem.ref_cnt (cowIndex pa) == 255 } }

def decrefcnt (pa : Nat) (s : Mach Kmem) : UInt8 × Mach Kmem :=
  if pa < KERNBASE then (0, s)
  else
    let ret := s.kmem.ref_cnt (cowIndex pa) - 1
    (ret, { s with kmem := { s.kmem with
      ref_cnt := Function.update s.kmem.ref_cnt (cowIndex pa) ret
      wrapped := s.kmem.wrapped || s.kmem.ref_cnt (cowIndex pa) == 0 } })

variable (L : Layout)

def kfree (pa : Nat) (s : Mach Kmem) : Except String (Mach Kmem) :=
  if pa % PGSIZE ≠ 0 ∨ pa < L.kend ∨ pa ≥ L.phystop then .error "kfree"
  else
    let (ret, s) := decrefcnt pa s
    if ret ≠ 0 then .ok s
    else .ok { mem := (s.mem.set pa 1 PGSIZE).storeLE pa 8 s.kmem.freelist, kmem := { s.kmem with freelist := pa } }

def kalloc (s : Mach Kmem) : Option Nat × Mach Kmem :=
  let r := s.kmem.freelist
  if r = 0 then (none, { increfcnt r s with kmem := { (increfcnt r s).kmem with nfail := s.kmem.nfail + 1 } })
  else
    let s := { s with kmem := { s.kmem with freelist := s.mem.loadLE r 8 } }
    let s := increfcnt r s
    (some r, { s with mem := s.mem.set r 5 PGSIZE })

def freerangeLoop : Nat → Nat → Mach Kmem → Except String (Mach Kmem)
  | 0, _, s => .ok s
  | n + 1, p, s => do
    let s ← kfree L p (increfcnt p s)
    freerangeLoop n (p + PGSIZE) s

def kinit (s : Mach Kmem) : Except String (Mach Kmem) :=
  freerangeLoop L ((L.phystop - PGROUNDUP L.kend) / PGSIZE) (PGROUNDUP L.kend) s

/-- The machine before kinit: the counts and the list head are zero, memory is anything. -/
def boot (m : Mem) : Mach Kmem := ⟨m, 0, fun _ => 0, 0, false⟩

def lab : Lab Kmem := ⟨kalloc, kfree L, false⟩

/-! ## The allocator's invariant -/

/-- A page of the allocator's range. -/
def Page (p : Nat) : Prop := p % 4096 = 0 ∧ L.kend ≤ p ∧ p + 4096 ≤ L.phystop

/-- The list holds the pages without owners, the counts are the owners' modulo 256; with
    a bound of 255 on the owners no count has wrapped. -/
structure Inv (cap : Nat) (s : Mach Kmem) (own : Nat → Nat) : Prop where
  list : ∃ fl, Chain s.mem s.kmem.freelist fl ∧ fl.Nodup ∧ ∀ p, p ∈ fl ↔ Page L p ∧ own p = 0
  count : ∀ p, Page L p → s.kmem.ref_cnt (cowIndex p) = UInt8.ofNat (own p)
  exact : cap ≤ 255 → s.kmem.wrapped = false

variable {L}

theorem Page.isPage {p : Nat} (h : Page L p) : IsPage p := by
  obtain ⟨h1, h2, h3⟩ := h
  have := L.kernbase_le
  have := L.phystop_le
  unfold KERNBASE at *
  exact ⟨h1, by omega, by omega⟩

theorem Page.kernbase_le {p : Nat} (h : Page L p) : ¬ p < KERNBASE := by
  have := L.kernbase_le
  have := h.2.1
  omega

theorem cowIndex_inj {p q : Nat} (hp : Page L p) (hq : Page L q) (h : cowIndex p = cowIndex q) : p = q := by
  have h1 := hp.kernbase_le
  have h2 := hq.kernbase_le
  have h3 := hp.1
  have h4 := hq.1
  unfold cowIndex KERNBASE at *
  omega

variable {cap : Nat} {s s' : Mach Kmem} {own : Nat → Nat}

theorem ofNat_succ (n : Nat) : UInt8.ofNat n + 1 = UInt8.ofNat (n + 1) := by simp

theorem ofNat_pred {n : Nat} (h : 0 < n) : UInt8.ofNat n - 1 = UInt8.ofNat (n - 1) := by
  obtain ⟨m, rfl⟩ : ∃ m, n = m + 1 := ⟨n - 1, by omega⟩
  simp

/-- With 1 to 256 owners, the decremented count is zero for the last one only. -/
theorem ofNat_pred_eq_zero {n : Nat} (h : 0 < n) (h' : n ≤ 256) : UInt8.ofNat (n - 1) = 0 ↔ n = 1 := by
  rw [← UInt8.toNat_inj, UInt8.toNat_ofNat']
  simp
  omega

theorem ofNat_beq_zero {n : Nat} (h : 0 < n) (h' : n ≤ 255) : (UInt8.ofNat n == 0) = false := by
  rw [beq_eq_false_iff_ne, ne_eq, ← UInt8.toNat_inj, UInt8.toNat_ofNat']
  simp
  omega

theorem ofNat_beq_255 {n : Nat} (h : n < 255) : (UInt8.ofNat n == 255) = false := by
  rw [beq_eq_false_iff_ne, ne_eq, ← UInt8.toNat_inj, UInt8.toNat_ofNat']
  simp
  omega

/-- A count that changes with the number of owners of its page. -/
theorem count_update (h : Inv L cap s own) {p n : Nat} (hp : Page L p) (q : Nat) (hq : Page L q) :
    Function.update s.kmem.ref_cnt (cowIndex p) (UInt8.ofNat n) (cowIndex q) =
      UInt8.ofNat (Function.update own p n q) := by
  by_cases e : q = p
  · subst e; simp
  · rw [Function.update_of_ne e, Function.update_of_ne (fun e' => e (cowIndex_inj hq hp e')), h.count q hq]

theorem Inv.frame (h : Inv L cap s own) (hk : s'.kmem = s.kmem)
    (hm : ∀ p, Page L p → own p = 0 → Mem.Agree s.mem s'.mem p 4096) : Inv L cap s' own := by
  obtain ⟨fl, hc, hn, hmem⟩ := h.list
  refine ⟨⟨fl, ?_, hn, hmem⟩, by rw [hk]; exact h.count, by rw [hk]; exact h.exact⟩
  rw [hk]
  exact hc.agree fun p hp => (hm p ((hmem p).mp hp).1 ((hmem p).mp hp).2).mono (Nat.le_refl _) (by omega)

theorem Inv.congr {own' : Nat → Nat} (h : Inv L cap s own) (he : ∀ p, Page L p → own' p = own p) :
    Inv L cap s own' := by
  obtain ⟨fl, hc, hn, hmem⟩ := h.list
  refine ⟨⟨fl, hc, hn, fun p => ?_⟩, fun p hp => by rw [he p hp]; exact h.count p hp, h.exact⟩
  rw [hmem p]
  exact and_congr_right fun hp => by rw [he p hp]

theorem Inv.kalloc_none (h : Inv L cap s own) (e : kalloc s = (none, s')) :
    s'.mem = s.mem ∧ Inv L cap s' own ∧ (∀ p, Page L p → own p ≠ 0) ∧ s'.kmem.nfail = s.kmem.nfail + 1 := by
  unfold kalloc at e
  simp only at e
  split at e
  · rename_i hr
    have hz : increfcnt s.kmem.freelist s = s := by
      unfold increfcnt; rw [if_pos (by rw [hr]; decide)]
    rw [hz] at e
    obtain rfl := (Prod.mk.inj e).2
    obtain ⟨fl, hc, hn, hmem⟩ := h.list
    rw [hr] at hc
    have hnil : fl = [] := hc.null fun p hp => by have := ((hmem p).mp hp).1.isPage.2.1; omega
    refine ⟨rfl, ⟨⟨fl, by rw [hnil]; exact hr, hn, hmem⟩, h.count, h.exact⟩, fun p hp h0 => ?_, rfl⟩
    have := (hmem p).mpr ⟨hp, h0⟩
    rw [hnil] at this; cases this
  · cases e

theorem Inv.kalloc_some (h : Inv L cap s own) {p : Nat} (e : kalloc s = (some p, s')) :
    Page L p ∧ own p = 0 ∧ s'.mem = s.mem.set p 5 4096 ∧ Inv L cap s' (Function.update own p 1) ∧
      s'.kmem.nfail = s.kmem.nfail := by
  unfold kalloc at e
  simp only at e
  split at e
  · cases e
  · rename_i hr
    obtain ⟨ep, es⟩ := Prod.mk.inj e
    obtain rfl := Option.some.inj ep
    obtain ⟨fl, hc, hn, hmem⟩ := h.list
    obtain ⟨fl', rfl, hc'⟩ := hc.pop hr
    obtain ⟨hnp, hn'⟩ := List.nodup_cons.mp hn
    obtain ⟨hp, h0⟩ := (hmem _).mp (List.mem_cons_self ..)
    rw [increfcnt, if_neg hp.kernbase_le] at es
    subst es
    refine ⟨hp, h0, rfl, ⟨⟨fl', ?_, hn', fun q => ?_⟩, fun q hq => ?_, fun hc => ?_⟩, rfl⟩
    · refine hc'.agree fun q hq => Mem.agree_set _ _ ?_
      have hqp := ((hmem q).mp (List.mem_cons_of_mem _ hq)).1
      have : q ≠ s.kmem.freelist := by rintro rfl; exact hnp hq
      have := hqp.1
      have := hp.1
      unfold PGSIZE; omega
    · by_cases e : q = s.kmem.freelist
      · subst e; simp [hnp]
      · rw [Function.update_of_ne e, ← hmem q]; simp [e]
    · have e1 : s.kmem.ref_cnt (cowIndex s.kmem.freelist) + 1 = UInt8.ofNat 1 := by rw [h.count _ hp, h0]; rfl
      show Function.update s.kmem.ref_cnt (cowIndex s.kmem.freelist) (s.kmem.ref_cnt (cowIndex s.kmem.freelist) + 1)
        (cowIndex q) = _
      rw [e1]
      exact count_update h hp q hq
    · show (s.kmem.wrapped || s.kmem.ref_cnt (cowIndex s.kmem.freelist) == 255) = false
      rw [h.exact hc, h.count _ hp, h0]; rfl

theorem Inv.kfree_ok (h : Inv L cap s own) {p : Nat} (hp : Page L p) (h0 : 0 < own p) (hle : own p ≤ cap)
    (hcap : cap ≤ 256) :
    ∃ s', kfree L p s = .ok s' ∧ Inv L cap s' (Function.update own p (own p - 1)) ∧ s'.kmem.nfail = s.kmem.nfail ∧
      (∀ x, x < p ∨ p + 4096 ≤ x → s'.mem x = s.mem x) ∧ (1 < own p → s'.mem = s.mem) := by
  have hret : s.kmem.ref_cnt (cowIndex p) - 1 = UInt8.ofNat (own p - 1) := by rw [h.count p hp, ofNat_pred h0]
  have hwrap : cap ≤ 255 → (s.kmem.wrapped || s.kmem.ref_cnt (cowIndex p) == 0) = false := fun hc => by
    rw [h.exact hc, h.count p hp, ofNat_beq_zero h0 (by omega)]; rfl
  obtain ⟨fl, hc, hn, hmem⟩ := h.list
  have hpl : p ∉ fl := fun e => by have := ((hmem p).mp e).2; omega
  unfold kfree
  rw [if_neg (by have := hp.1; have := hp.2.1; have := hp.2.2; unfold PGSIZE; omega)]
  simp only [decrefcnt, if_neg hp.kernbase_le, hret, ne_eq, ofNat_pred_eq_zero h0 (Nat.le_trans hle hcap)]
  by_cases h1 : own p = 1
  · simp only [h1, not_true_eq_false, if_false]
    have hout : ∀ x, x < p ∨ p + 4096 ≤ x →
        (s.mem.set p 1 PGSIZE).storeLE p 8 s.kmem.freelist x = s.mem x := fun x hx => by
      rw [Mem.storeLE_ne (by omega)]
      exact Mem.agree_set (b := x) (n := 1) s.mem 1 (by unfold PGSIZE; omega) x (Nat.le_refl _) (by omega)
    have hhead : s.kmem.freelist < 256 ^ 8 := by
      cases fl with
      | nil => rw [show s.kmem.freelist = 0 from hc]; decide
      | cons q fl =>
        rw [hc.1]
        have := ((hmem q).mp (List.mem_cons_self ..)).1.isPage.2.2
        omega
    refine ⟨_, rfl, ⟨⟨p :: fl, ?_, List.nodup_cons.mpr ⟨hpl, hn⟩, fun q => ?_⟩, fun q hq => ?_, hwrap⟩, rfl, hout,
      fun h => by omega⟩
    · refine hc.push (fun q hq x hx hy => hout x ?_) (Mem.loadLE_storeLE_of_lt _ _ _ _ hhead)
      have := ((hmem q).mp hq).1.1
      have := hp.1
      have : q ≠ p := by rintro rfl; exact hpl hq
      omega
    · by_cases e : q = p
      · subst e; simp [hp]
      · rw [Function.update_of_ne e, ← hmem q]; simp [e]
    · have := count_update h hp (n := 0) q hq
      exact this
  · simp only [h1, not_false_eq_true, if_true]
    refine ⟨_, rfl, ⟨⟨fl, hc, hn, fun q => ?_⟩, fun q hq => count_update h hp q hq, hwrap⟩, rfl, fun _ _ => rfl,
      fun _ => rfl⟩
    by_cases e : q = p
    · subst e
      rw [Function.update_self]
      refine ⟨fun h => absurd h hpl, fun h => by omega⟩
    · rw [Function.update_of_ne e, ← hmem q]

/-- One owner more. -/
theorem Inv.incref (h : Inv L cap s own) {p : Nat} (hp : Page L p) (h0 : 0 < own p) (hle : own p + 1 ≤ cap) :
    Inv L cap (increfcnt p s) (Function.update own p (own p + 1)) := by
  obtain ⟨fl, hc, hn, hmem⟩ := h.list
  have hpl : p ∉ fl := fun e => by have := ((hmem p).mp e).2; omega
  rw [increfcnt, if_neg hp.kernbase_le]
  refine ⟨⟨fl, hc, hn, fun q => ?_⟩, fun q hq => ?_, fun hc => ?_⟩
  · by_cases e : q = p
    · subst e
      rw [Function.update_self]
      refine ⟨fun h => absurd h hpl, fun h => by omega⟩
    · rw [Function.update_of_ne e, ← hmem q]
  · show Function.update s.kmem.ref_cnt (cowIndex p) (s.kmem.ref_cnt (cowIndex p) + 1) (cowIndex q) = _
    rw [h.count p hp, ofNat_succ]
    exact count_update h hp q hq
  · show (s.kmem.wrapped || s.kmem.ref_cnt (cowIndex p) == 255) = false
    rw [h.exact hc, h.count p hp, ofNat_beq_255 (by omega)]; rfl

/-- The cow lab's allocator, for the shared parts of vm.c. -/
def spec (L : Layout) (cap : Nat) (h1 : 1 ≤ cap) (h256 : cap ≤ 256) : AllocSpec (lab L) where
  page := Page L
  page_ok _ h := h.isPage
  cap := cap
  cap_pos := h1
  fails := Kmem.nfail
  Inv := Inv L cap
  frame h := h.frame
  kalloc_none h := h.kalloc_none
  kalloc_some h := h.kalloc_some
  kfree_ok h hp h0 hle := h.kfree_ok hp h0 hle h256

/-! ## kinit -/

theorem freerangeLoop_spec (hcap : cap ≤ 256) (h1 : 1 ≤ cap) : ∀ n p (s : Mach Kmem) own, Inv L cap s own →
    p % 4096 = 0 →
    L.kend ≤ p → p + n * 4096 ≤ L.phystop → (∀ q, p ≤ q → own q = 256) →
    ∃ s', freerangeLoop L n p s = .ok s' ∧ s'.kmem.nfail = s.kmem.nfail ∧
      Inv L cap s' (fun q => if p ≤ q ∧ q < p + n * 4096 then 0 else own q) := by
  intro n
  induction n with
  | zero =>
    intro p s own h _ _ _ _
    refine ⟨s, rfl, rfl, ?_⟩
    convert h using 1
    funext q
    rw [if_neg (by omega)]
  | succ n ih =>
    intro p s own h hal hk htop ho
    have hp : Page L p := ⟨hal, hk, by omega⟩
    -- a page not yet on the list counts as one with 256 owners, one more is as good as 1
    have h2 : Inv L cap (increfcnt p s) (Function.update own p 1) := by
      obtain ⟨fl, hc, hn, hmem⟩ := h.list
      rw [increfcnt, if_neg hp.kernbase_le]
      refine ⟨⟨fl, hc, hn, fun q => ?_⟩, fun q hq => ?_, fun hc => ?_⟩
      · rw [hmem q]
        by_cases e : q = p
        · subst e; simp [ho q (Nat.le_refl _)]
        · rw [Function.update_of_ne e]
      · have e1 : s.kmem.ref_cnt (cowIndex p) + 1 = UInt8.ofNat 1 := by rw [h.count p hp, ho p (Nat.le_refl _)]; rfl
        show Function.update s.kmem.ref_cnt (cowIndex p) (s.kmem.ref_cnt (cowIndex p) + 1) (cowIndex q) = _
        rw [e1]
        exact count_update h hp q hq
      · show (s.kmem.wrapped || s.kmem.ref_cnt (cowIndex p) == 255) = false
        rw [h.exact hc, h.count p hp, ho p (Nat.le_refl _)]; rfl
    obtain ⟨s1, e1, h3, hf, -, -⟩ := h2.kfree_ok hp (by simp) (by simpa using h1) hcap
    obtain ⟨s', e', hf', h'⟩ := ih (p + PGSIZE) s1 _ h3 (by unfold PGSIZE; omega) (by omega) (by unfold PGSIZE; omega)
      fun q hq => by
      rw [Function.update_of_ne (by unfold PGSIZE at hq; omega),
        Function.update_of_ne (by unfold PGSIZE at hq; omega)]
      exact ho q (by omega)
    refine ⟨s', ?_, ?_, ?_⟩
    · simp only [freerangeLoop, e1, bind, Except.bind]
      exact e'
    · rw [hf', hf]
      unfold increfcnt
      split <;> rfl
    · refine h'.congr fun q hq => ?_
      have hq := hq.1
      unfold PGSIZE
      by_cases e : q = p
      · subst e
        rw [if_pos (by omega), if_neg (by omega), Function.update_self, Function.update_self]
      · rw [Function.update_of_ne e, Function.update_of_ne e]
        exact if_congr (by omega) rfl rfl

/-- After kinit every page of the range is free. -/
theorem kinit_spec (cap : Nat) (m : Mem) (h1 : 1 ≤ cap) (hcap : cap ≤ 256) :
    ∃ s, kinit L (boot m) = .ok s ∧ s.kmem.nfail = 0 ∧ Inv L cap s (fun _ => 0) := by
  have hk := L.kend_le
  have ht := L.phystop_le
  have hup : L.kend ≤ PGROUNDUP L.kend ∧ PGROUNDUP L.kend < L.kend + 4096 := by
    unfold PGROUNDUP PGSIZE
    rw [u64_of_lt (by omega)]
    omega
  have h0 : Inv L cap (boot m) (fun _ => 256) :=
    ⟨⟨[], rfl, List.nodup_nil, fun p => by simp⟩, fun _ _ => rfl, fun _ => rfl⟩
  by_cases hroom : PGROUNDUP L.kend ≤ L.phystop
  · obtain ⟨s, e, hf, h⟩ := freerangeLoop_spec hcap h1 ((L.phystop - PGROUNDUP L.kend) / PGSIZE) (PGROUNDUP L.kend)
      (boot m) _ h0
      (pgroundup_mod _) hup.1 (by unfold PGSIZE; omega) (fun _ _ => rfl)
    refine ⟨s, e, hf, h.congr fun q hq => ?_⟩
    obtain ⟨q1, q2, q3⟩ := hq
    have := pgroundup_mod L.kend
    rw [if_pos]
    unfold PGSIZE
    omega
  · -- not even one whole page
    refine ⟨boot m, ?_, rfl, h0.congr fun q hq => ?_⟩
    · unfold kinit
      rw [show (L.phystop - PGROUNDUP L.kend) / PGSIZE = 0 by rw [Nat.sub_eq_zero_of_le (by omega)]; rfl]
      rfl
    · obtain ⟨q1, q2, q3⟩ := hq
      have := pgroundup_mod L.kend
      omega

end Xv6Labs.Cow
