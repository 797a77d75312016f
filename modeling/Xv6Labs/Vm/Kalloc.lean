/-
  Xv6Labs.Vm.Kalloc — `kalloc.c` of the pagetables and mmap labs.

  One list of free pages, linked through the pages. `kend` is the address kernel.ld gives
  `end`. `nfail` counts the calls of kalloc that found the list empty; it is not in the
  code and nothing reads it.

  `spec`: this is an allocator for pages with one owner.
-/

import Xv6Labs.Lib.Chain
import Xv6Labs.Vm.Inv

namespace Xv6Labs.Plain

open Lib

structure Image where
  kend : Nat
  kernbase_le : KERNBASE ≤ kend
  le_phystop : kend ≤ PHYSTOP

theorem kernbase_le_phystop : KERNBASE ≤ PHYSTOP := by decide

structure Kmem where
  freelist : Nat
  nfail : Nat

variable (I : Image)

def kfree (pa : Nat) (s : Mach Kmem) : Except String (Mach Kmem) :=
  if pa % PGSIZE ≠ 0 ∨ pa < I.kend ∨ pa ≥ PHYSTOP then .error "kfree"
  else .ok { s with mem := (s.mem.set pa 1 PGSIZE).storeLE pa 8 s.kmem.freelist, kmem := { s.kmem with freelist := pa } }

def kalloc (s : Mach Kmem) : Option Nat × Mach Kmem :=
  let r := s.kmem.freelist
  if r ≠ 0 then (some r, { s with mem := s.mem.set r 5 PGSIZE, kmem := { s.kmem with freelist := s.mem.loadLE r 8 } })
  else (none, { s with kmem := { s.kmem with nfail := s.kmem.nfail + 1 } })

/-- `skips`: the mmap lab passes over invalid leaf entries. -/
def lab (skips : Bool) : Lab Kmem := ⟨kalloc, kfree I, skips⟩

/-- An address kfree takes. -/
def Page (p : Nat) : Prop := p % 4096 = 0 ∧ I.kend ≤ p ∧ p < PHYSTOP

/-- The free list. -/
structure FreeList (s : Mach Kmem) (free : List Nat) : Prop where
  chain : Chain s.mem s.kmem.freelist free
  nodup : free.Nodup
  page : ∀ p ∈ free, Page I p

variable {I} {s : Mach Kmem} {free : List Nat}

theorem Page.isPage {p : Nat} (h : Page I p) : IsPage p := by
  obtain ⟨h1, h2, h3⟩ := h
  have := I.kernbase_le
  simp only [KERNBASE, PHYSTOP] at this h3
  exact ⟨h1, by omega, by omega⟩

theorem FreeList.unique {free' : List Nat} (h : FreeList I s free) (h' : FreeList I s free') : free = free' :=
  h.chain.unique h'.chain (fun p hp => Nat.pos_iff_ne_zero.mp (h.page p hp).isPage.2.1) fun p hp =>
    Nat.pos_iff_ne_zero.mp (h'.page p hp).isPage.2.1

/-- The list depends on the bytes of its pages only. -/
theorem FreeList.frame (h : FreeList I s free) {m : Mem} (hm : ∀ p ∈ free, Mem.Agree s.mem m p 4096) :
    FreeList I { s with mem := m } free :=
  ⟨h.chain.agree fun p hp => (hm p hp).mono (Nat.le_refl _) (by omega), h.nodup, h.page⟩

/-- kalloc takes the first page, or finds none. -/
theorem FreeList.kalloc (h : FreeList I s free) :
    (free = [] ∧ kalloc s = (none, { s with kmem := { s.kmem with nfail := s.kmem.nfail + 1 } })) ∨
      ∃ p l, free = p :: l ∧
        kalloc s =
          (some p, { s with mem := s.mem.set p 5 4096, kmem := { s.kmem with freelist := s.mem.loadLE p 8 } }) ∧
        FreeList I { s with mem := s.mem.set p 5 4096, kmem := { s.kmem with freelist := s.mem.loadLE p 8 } } l := by
  cases free with
  | nil =>
    have h0 : s.kmem.freelist = 0 := h.chain
    simp [Plain.kalloc, h0]
  | cons p l =>
    obtain ⟨hp, hc⟩ := h.chain
    have hpg := h.page p (by simp)
    have hz : p ≠ 0 := Nat.pos_iff_ne_zero.mp hpg.isPage.2.1
    obtain ⟨hn, hnd⟩ := List.nodup_cons.mp h.nodup
    refine Or.inr ⟨p, l, rfl, by simp [Plain.kalloc, hp, hz], hc.agree fun q hq => ?_, hnd,
      fun q hq => h.page q (by simp [hq])⟩
    have hne : q ≠ p := by
      rintro rfl
      exact hn hq
    have h1 := (h.page q (by simp [hq])).1
    have h2 := hpg.1
    exact Mem.agree_set s.mem 5 (by omega)

/-- kfree of a page that is not on the list. -/
theorem FreeList.kfree (h : FreeList I s free) {p : Nat} (hp : Page I p) (hn : p ∉ free) :
    ∃ s', Plain.kfree I p s = .ok s' ∧ FreeList I s' (p :: free) ∧ (∀ x, x < p ∨ p + 4096 ≤ x → s'.mem x = s.mem x) ∧
      s'.kmem.nfail = s.kmem.nfail := by
  have hok : ¬ (p % PGSIZE ≠ 0 ∨ p < I.kend ∨ p ≥ PHYSTOP) := by
    obtain ⟨h1, h2, h3⟩ := hp
    simp only [PGSIZE]
    omega
  have out : ∀ x, x < p ∨ p + 4096 ≤ x → (s.mem.set p 1 PGSIZE).storeLE p 8 s.kmem.freelist x = s.mem x :=
    fun x hx => by
    rw [Mem.storeLE_ne (by omega)]
    exact Mem.agree_set (b := x) (n := 1) s.mem 1 (by simp only [PGSIZE]; omega) x (Nat.le_refl _) (by omega)
  have hlt : s.kmem.freelist < 256 ^ 8 := by
    have hc := h.chain
    cases free with
    | nil =>
      have h0 : s.kmem.freelist = 0 := hc
      omega
    | cons q l =>
      have h1 := (h.page q (by simp)).2.2
      have h2 := hc.1
      simp only [PHYSTOP, KERNBASE] at h1
      omega
  refine ⟨⟨(s.mem.set p 1 PGSIZE).storeLE p 8 s.kmem.freelist, p,
    s.kmem.nfail⟩, by simp only [Plain.kfree, hok, if_false], ⟨?_, List.nodup_cons.mpr ⟨hn, h.nodup⟩, ?_⟩, out, rfl⟩
  · refine h.chain.push (fun q hq x h1 h2 => out x ?_) (Mem.loadLE_storeLE_of_lt _ _ _ _ hlt)
    have hne : q ≠ p := by
      rintro rfl
      exact hn hq
    have h3 := (h.page q hq).1
    have h4 := hp.1
    omega
  · intro q hq
    rcases List.mem_cons.mp hq with rfl | hq
    · exact hp
    · exact h.page q hq

/-- kfree of one page after the other. -/
def freed (I : Image) : List Nat → Mach Kmem
  | [] => ⟨fun _ => 0, 0, 0⟩
  | p :: l =>
    match kfree I p (freed I l) with
    | .ok s => s
    | .error _ => freed I l

theorem freed_freeList (I : Image) (l : List Nat) (hp : ∀ p ∈ l, Page I p) (hn : l.Nodup) :
    FreeList I (freed I l) l := by
  induction l with
  | nil => exact ⟨rfl, List.nodup_nil, fun p hp => absurd hp (by simp)⟩
  | cons p l ih =>
    obtain ⟨hnp, hn⟩ := List.nodup_cons.mp hn
    obtain ⟨s', e, hs', -⟩ := (ih (fun q hq => hp q (by simp [hq])) hn).kfree (hp p (by simp)) hnp
    rw [freed, e]
    exact hs'

/-! ## One owner for each page -/

/-- The free pages are those without an owner. -/
def Owners (I : Image) (s : Mach Kmem) (own : Nat → Nat) : Prop :=
  ∃ free, FreeList I s free ∧ ∀ p, Page I p → (p ∈ free ↔ own p = 0)

variable {s' : Mach Kmem} {own : Nat → Nat}

theorem Owners.frame (h : Owners I s own) (hk : s'.kmem = s.kmem)
    (hm : ∀ p, Page I p → own p = 0 → Mem.Agree s.mem s'.mem p 4096) :
    Owners I s' own := by
  obtain ⟨free, hl, hf⟩ := h
  have h1 := hl.frame fun p hp => hm p (hl.page p hp) ((hf p (hl.page p hp)).mp hp)
  rw [← hk] at h1
  exact ⟨free, h1, hf⟩

theorem Owners.kalloc_none (h : Owners I s own) (e : kalloc s = (none, s')) :
    s'.mem = s.mem ∧ Owners I s' own ∧ (∀ p, Page I p → own p ≠ 0) ∧ s'.kmem.nfail = s.kmem.nfail + 1 := by
  obtain ⟨free, hl, hf⟩ := h
  rcases hl.kalloc with ⟨rfl, e'⟩ | ⟨p, l, -, e', -⟩
  · simp only [e, Prod.mk.injEq, true_and] at e'
    subst e'
    refine ⟨rfl, ⟨[], ⟨hl.chain, hl.nodup, hl.page⟩, hf⟩, fun p hp h0 => ?_, rfl⟩
    simpa using (hf p hp).mpr h0
  · simp [e] at e'

theorem Owners.kalloc_some (h : Owners I s own) {p : Nat} (e : kalloc s = (some p, s')) :
    Page I p ∧ own p = 0 ∧ s'.mem = s.mem.set p 5 4096 ∧ Owners I s' (Function.update own p 1) ∧
      s'.kmem.nfail = s.kmem.nfail := by
  obtain ⟨free, hl, hf⟩ := h
  rcases hl.kalloc with ⟨-, e'⟩ | ⟨q, l, rfl, e', hl'⟩
  · simp [e] at e'
  · simp only [e, Prod.mk.injEq, Option.some.injEq] at e'
    obtain ⟨rfl, rfl⟩ := e'
    have hp := hl.page p (by simp)
    refine ⟨hp, (hf p hp).mp (by simp), rfl, ⟨l, hl', fun q hq => ?_⟩, rfl⟩
    by_cases eq : q = p
    · subst eq
      simp [(List.nodup_cons.mp hl.nodup).1]
    · have := hf q hq
      simp only [List.mem_cons, eq, false_or] at this
      simp [eq, this]

theorem Owners.kfree_ok (h : Owners I s own) {p : Nat} (hp : Page I p) (h0 : 0 < own p) (h1 : own p ≤ 1) :
    ∃ s', kfree I p s = .ok s' ∧ Owners I s' (Function.update own p (own p - 1)) ∧ s'.kmem.nfail = s.kmem.nfail ∧
      (∀ x, x < p ∨ p + 4096 ≤ x → s'.mem x = s.mem x) ∧ (1 < own p → s'.mem = s.mem) := by
  obtain ⟨free, hl, hf⟩ := h
  have hn : p ∉ free := fun hm => by
    have := (hf p hp).mp hm
    omega
  obtain ⟨s', e, hl', hx, hnf⟩ := hl.kfree hp hn
  refine ⟨s', e, ⟨p :: free, hl', fun q hq => ?_⟩, hnf, hx, fun h2 => by omega⟩
  by_cases eq : q = p
  · subst eq
    simp only [List.mem_cons, true_or, Function.update_self, true_iff]
    omega
  · simp [eq, hf q hq]

def spec (I : Image) (b : Bool) : Vm.AllocSpec (lab I b) where
  page := Page I
  page_ok _ h := h.isPage
  cap := 1
  cap_pos := Nat.le_refl 1
  fails := Kmem.nfail
  Inv := Owners I
  frame h := h.frame
  kalloc_none h := h.kalloc_none
  kalloc_some h := h.kalloc_some
  kfree_ok h := h.kfree_ok

end Xv6Labs.Plain
