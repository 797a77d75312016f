/-
  Xv6Labs.Locks.Kalloc — `kalloc.c` of the locks lab: a free list for every CPU.

  A page goes back to the list its address belongs to (`pa2cpuid`), and is taken from the
  list of the CPU that asks or, when that is empty, from the first other list that is not.
  The lists are linked through the free pages. `Step` runs any number of kalloc and kfree
  calls, one lock-held section at a time.

  - `freeable_has_home`: what passes the check of kfree belongs to a CPU, for every `end`.
  - `kinit_spec`: kinit succeeds and leaves eight disjoint lists.
  - `pages_conserved`: in every run the lists and the callers' pages are what kinit put on
    the lists, each page in one place.
-/

import Xv6Labs.Lib.Chain
import Xv6Labs.Riscv
import Mathlib.Logic.Relation

namespace Xv6Labs.Locks

open Lib

/-! ## The code -/

abbrev NCPU : Nat := 8

/-- The linker symbol `end`. -/
structure End where
  kend : Nat
  le_phystop : kend ≤ PHYSTOP

/-- kernel.ld puts the kernel at KERNBASE. -/
structure Link extends End where
  kernbase_le : KERNBASE ≤ kend

instance : Coe Link End := ⟨Link.toEnd⟩

/-- Memory and the eight list heads. -/
structure Kmem where
  mem : Mem
  freelist : Nat → Nat

section Code

variable (E : End)

def chunk : Nat := (PHYSTOP - E.kend) / NCPU

/-- The loop of pa2cpuid, with `n` CPUs to go. -/
def pa2cpuidLoop (pa : Nat) : Nat → Nat → Nat → Option Nat
  | 0, _, _ => none
  | n + 1, id, p_start =>
    if p_start + chunk E ≤ PHYSTOP then
      if pa ≤ p_start + chunk E ∧ pa ≥ p_start then some id else pa2cpuidLoop pa n (id + 1) (p_start + chunk E)
    else none

/-- `none` for -1. -/
def pa2cpuid (pa : Nat) : Option Nat := pa2cpuidLoop E pa NCPU 0 E.kend

/-- The section of kalloc and find_freepage that takes the first page of a list. -/
def pop (id : Nat) (s : Kmem) : Nat × Kmem :=
  let r := s.freelist id
  if r ≠ 0 then (r, { s with freelist := Function.update s.freelist id (s.mem.loadLE r 8) }) else (0, s)

/-- The section of kfree. -/
def push (tid pa : Nat) (s : Kmem) : Kmem :=
  ⟨s.mem.storeLE pa 8 (s.freelist tid), Function.update s.freelist tid pa⟩

def find_freepageLoop (sid : Nat) : Nat → Nat → Kmem → Nat × Kmem
  | 0, _, s => (0, s)
  | n + 1, id, s =>
    if id = sid then find_freepageLoop sid n (id + 1) s
    else
      let (r, s) := pop id s
      if r ≠ 0 then (r, s) else find_freepageLoop sid n (id + 1) s

def find_freepage (sid : Nat) (s : Kmem) : Nat × Kmem := find_freepageLoop sid NCPU 0 s

def steal_mem (sid : Nat) (s : Kmem) : Nat × Kmem := find_freepage sid s

def kalloc (cid : Nat) (s : Kmem) : Nat × Kmem :=
  let (r, s) := pop cid s
  let (r, s) := if r ≠ 0 then (r, s) else steal_mem cid s
  (r, if r ≠ 0 then { s with mem := s.mem.set r 5 PGSIZE } else s)

/-- The check kfree starts with. -/
def badPage (pa : Nat) : Prop := pa % PGSIZE ≠ 0 ∨ pa < E.kend ∨ pa ≥ PHYSTOP

instance (pa : Nat) : Decidable (badPage E pa) := inferInstanceAs (Decidable (_ ∨ _ ∨ _))

def kfree (pa : Nat) (s : Kmem) : Except String Kmem :=
  if badPage E pa then .error "kfree"
  else
    let s := { s with mem := s.mem.set pa 1 PGSIZE }
    match pa2cpuid E pa with
    | none => .error "runout mem"
    | some tid => .ok (push tid pa s)

def freerangeLoop : Nat → Nat → Kmem → Except String Kmem
  | 0, _, s => .ok s
  | n + 1, p, s =>
    match kfree E p s with
    | .error e => .error e
    | .ok s => freerangeLoop n (p + PGSIZE) s

def freerange (pa_start pa_end : Nat) (s : Kmem) : Except String Kmem :=
  freerangeLoop E ((pa_end - PGROUNDUP pa_start) / PGSIZE) (PGROUNDUP pa_start) s

def kinitLoop : Nat → Nat → Kmem → Except String Kmem
  | 0, _, s => .ok s
  | n + 1, id, s =>
    match freerange E (E.kend + id * chunk E) (PHYSTOP - (NCPU - id - 1) * chunk E) s with
    | .error e => .error e
    | .ok s => kinitLoop n (id + 1) s

def kinit (s : Kmem) : Except String Kmem := kinitLoop E NCPU 0 s

/-- The allocator before kinit. -/
def boot (m : Mem) : Kmem := ⟨m, fun _ => 0⟩

/-! ## The lists -/

/-- An address kfree takes. -/
def Page (p : Nat) : Prop := p % 4096 = 0 ∧ E.kend ≤ p ∧ p < PHYSTOP

structure Lists (ls : Nat → List Nat) (s : Kmem) : Prop where
  chain : ∀ id < NCPU, Chain s.mem (s.freelist id) (ls id)
  nodup : ∀ id < NCPU, (ls id).Nodup
  apart : ∀ id < NCPU, ∀ id' < NCPU, id ≠ id' → ∀ p ∈ ls id, p ∉ ls id'
  page : ∀ id < NCPU, ∀ p ∈ ls id, Page E p

end Code

variable {E : Link} {ls : Nat → List Nat} {s s' : Kmem}

theorem Page.ne_zero {p : Nat} (h : Page E p) : p ≠ 0 := by
  have h1 := E.kernbase_le
  have h2 := h.2.1
  simp only [KERNBASE] at h1
  omega

theorem Page.not_bad {E : End} {p : Nat} (h : Page E p) : ¬ badPage E p := by
  obtain ⟨h1, h2, h3⟩ := h
  simp only [badPage, PGSIZE]
  omega

theorem Lists.mem_congr (h : Lists E ls s) {m : Mem} (hm : ∀ id < NCPU, ∀ p ∈ ls id, Mem.Agree s.mem m p 8) :
    Lists E ls { s with mem := m } :=
  ⟨fun id hid => (h.chain id hid).agree (hm id hid), h.nodup, h.apart, h.page⟩

/-- A page that is on no list may be written. -/
theorem Lists.write (h : Lists E ls s) {p : Nat} {m : Mem} (hp : p % 4096 = 0) (hn : ∀ id < NCPU, p ∉ ls id)
    (hm : ∀ x, x < p ∨ p + 4096 ≤ x → m x = s.mem x) : Lists E ls { s with mem := m } := by
  refine h.mem_congr fun id hid q hq x hx hy => hm x ?_
  have hne : q ≠ p := by
    rintro rfl
    exact hn id hid hq
  have := (h.page id hid q hq).1
  omega

theorem Lists.set (h : Lists E ls s) {p : Nat} (hp : p % 4096 = 0) (hn : ∀ id < NCPU, p ∉ ls id) (c : UInt8) :
    Lists E ls { s with mem := s.mem.set p c PGSIZE } :=
  h.write hp hn fun x hx => Mem.agree_set (b := x) (n := 1) s.mem c (by simp only [PGSIZE]; omega) x (Nat.le_refl _)
    (by omega)

/-- `pop` takes the first page. -/
theorem Lists.pop (h : Lists E ls s) {id : Nat} (hid : id < NCPU) :
    (ls id = [] ∧ pop id s = (0, s)) ∨
      ∃ p l, ls id = p :: l ∧ p ≠ 0 ∧ pop id s = (p, ⟨s.mem, Function.update s.freelist id (s.mem.loadLE p 8)⟩) ∧
        Lists E (Function.update ls id l) ⟨s.mem, Function.update s.freelist id (s.mem.loadLE p 8)⟩ := by
  have hc := h.chain id hid
  cases hl : ls id with
  | nil =>
    rw [hl] at hc
    have h0 : s.freelist id = 0 := hc
    simp [Locks.pop, h0]
  | cons p l =>
    rw [hl] at hc
    obtain ⟨hp, hc⟩ := hc
    have hmem : p ∈ ls id := by simp [hl]
    have hz : p ≠ 0 := (h.page id hid p hmem).ne_zero
    have hsub : ∀ id', ∀ q ∈ Function.update ls id l id', q ∈ ls id' := fun id' q hq => by
      by_cases e : id' = id
      · subst e
        rw [Function.update_self] at hq
        simp [hl, hq]
      · rwa [Function.update_of_ne e] at hq
    refine Or.inr ⟨p, l, rfl, hz, ?_, fun id' hid' => ?_, fun id' hid' => ?_, fun id1 h1 id2 h2 hne q hq hq' => ?_,
      fun id' hid' q hq => ?_⟩
    · simp [Locks.pop, hp, hz]
    · by_cases e : id' = id
      · subst e
        simpa using hc
      · simpa [Function.update_of_ne e] using h.chain id' hid'
    · by_cases e : id' = id
      · subst e
        have := h.nodup id' hid'
        rw [hl] at this
        simpa using (List.nodup_cons.mp this).2
      · simpa [Function.update_of_ne e] using h.nodup id' hid'
    · exact h.apart id1 h1 id2 h2 hne q (hsub id1 q hq) (hsub id2 q hq')
    · exact h.page id' hid' q (hsub id' q hq)

/-- `push` puts a page in front. -/
theorem Lists.push (h : Lists E ls s) {tid p : Nat} (hid : tid < NCPU) (hp : Page E p) (hn : ∀ id < NCPU, p ∉ ls id) :
    Lists E (Function.update ls tid (p :: ls tid)) (push tid p s) := by
  have hag : ∀ id < NCPU, ∀ q ∈ ls id, Mem.Agree s.mem (s.mem.storeLE p 8 (s.freelist tid)) q 8 :=
    fun id hid q hq => by
    have hne : q ≠ p := by
      rintro rfl
      exact hn id hid hq
    have h1 := (h.page id hid q hq).1
    have h2 := hp.1
    exact Mem.agree_storeLE s.mem (by omega)
  have hlt : s.freelist tid < 256 ^ 8 := by
    have hc := h.chain tid hid
    cases hl : ls tid with
    | nil =>
      rw [hl] at hc
      have h0 : s.freelist tid = 0 := hc
      omega
    | cons q l =>
      rw [hl] at hc
      have h3 := (h.page tid hid q (by simp [hl])).2.2
      have := hc.1
      simp only [PHYSTOP, KERNBASE] at h3
      omega
  have hcase : ∀ id' q, q ∈ Function.update ls tid (p :: ls tid) id' → q ∈ ls id' ∨ q = p ∧ id' = tid :=
    fun id' q hq => by
    by_cases e : id' = tid
    · subst e
      rw [Function.update_self] at hq
      rcases List.mem_cons.mp hq with rfl | hq
      · exact Or.inr ⟨rfl, rfl⟩
      · exact Or.inl hq
    · rw [Function.update_of_ne e] at hq
      exact Or.inl hq
  refine ⟨fun id' hid' => ?_, fun id' hid' => ?_, fun id1 h1 id2 h2 hne q hq hq' => ?_, fun id' hid' q hq => ?_⟩
  · by_cases e : id' = tid
    · subst e
      simp only [Locks.push, Function.update_self]
      exact (h.chain id' hid').push (hag id' hid') (Mem.loadLE_storeLE_of_lt _ _ _ _ hlt)
    · simp only [Locks.push, Function.update_of_ne e]
      exact (h.chain id' hid').agree (hag id' hid')
  · by_cases e : id' = tid
    · subst e
      rw [Function.update_self]
      exact List.nodup_cons.mpr ⟨hn id' hid', h.nodup id' hid'⟩
    · rw [Function.update_of_ne e]
      exact h.nodup id' hid'
  · rcases hcase id1 q hq with hq | ⟨rfl, rfl⟩ <;> rcases hcase id2 q hq' with hq' | ⟨e1, e2⟩
    · exact h.apart id1 h1 id2 h2 hne q hq hq'
    · exact hn id1 h1 (e1 ▸ hq)
    · exact hn id2 h2 hq'
    · exact hne e2.symm
  · rcases hcase id' q hq with hq | ⟨rfl, -⟩
    · exact h.page id' hid' q hq
    · exact hp

/-! ## pa2cpuid, kfree, kinit -/

/-- The range of addresses that pa2cpuid takes for `id`, with both ends. -/
def Home (E : End) (id pa : Nat) : Prop := E.kend + id * chunk E ≤ pa ∧ pa ≤ E.kend + (id + 1) * chunk E

instance (E : End) (id pa : Nat) : Decidable (Home E id pa) := inferInstanceAs (Decidable (_ ∧ _))

theorem pa2cpuidLoop_spec {E : End} (pa : Nat) : ∀ n id p_start, p_start = E.kend + id * chunk E → p_start ≤ pa →
    pa < p_start + n * chunk E →
    p_start + n * chunk E ≤ PHYSTOP → ∃ tid, pa2cpuidLoop E pa n id p_start = some tid ∧ tid < id + n ∧
      Home E tid pa := by
  intro n
  induction n with
  | zero =>
    intro id p hp h1 h2 h3
    omega
  | succ n ih =>
    intro id p hp h1 h2 h3
    rw [Nat.succ_mul] at h2 h3
    have hnext : p + chunk E = E.kend + (id + 1) * chunk E := by
      rw [hp, Nat.succ_mul, Nat.add_assoc]
    simp only [pa2cpuidLoop, show p + chunk E ≤ PHYSTOP by omega, if_true]
    by_cases hin : pa ≤ p + chunk E ∧ pa ≥ p
    · exact ⟨id, by simp [hin], by omega, by omega, by omega⟩
    · obtain ⟨tid, e, h4, h5⟩ := ih (id + 1) (p + chunk E) hnext (by omega) (by omega) (by omega)
      exact ⟨tid, by simp only [hin, if_false]; exact e, by omega, h5⟩

/-- What the division leaves over is less than a page. -/
theorem Page.home {E : End} {p : Nat} (hp : Page E p) : ∃ tid < NCPU, pa2cpuid E p = some tid ∧ Home E tid p := by
  obtain ⟨h1, h2, h3⟩ := hp
  have h4 := E.le_phystop
  have hc : NCPU * chunk E ≤ PHYSTOP - E.kend ∧ PHYSTOP - E.kend < NCPU * chunk E + 8 := by
    simp only [chunk, NCPU]; omega
  obtain ⟨tid, e, h5, h6⟩ := pa2cpuidLoop_spec (E := E) p NCPU 0 E.kend (by omega) h2
    (by simp only [PHYSTOP, KERNBASE] at *; omega) (by omega)
  exact ⟨tid, by omega, e, h6⟩

/-- Every page has a home. -/
theorem pa2cpuid_spec {E : End} {p : Nat} (hp : Page E p) : ∃ tid < NCPU, pa2cpuid E p = some tid := by
  obtain ⟨tid, ht, e, -⟩ := hp.home
  exact ⟨tid, ht, e⟩

theorem page_iff {E : End} {p : Nat} : Page E p ↔ ¬ badPage E p := by
  refine ⟨Page.not_bad, fun h => ?_⟩
  simp only [badPage, PGSIZE, not_or, not_not] at h
  exact ⟨h.1, by omega, by omega⟩

/-- What passes the check of kfree has a home CPU, so that kfree does not panic further on. -/
theorem freeable_has_home (E : End) (pa : Nat) :
    (¬ badPage E pa → ∃ id < NCPU, pa2cpuid E pa = some id ∧ Home E id pa) ∧ ∀ s,
      kfree E pa s ≠ .error "runout mem" := by
  have hhome : ¬ badPage E pa → ∃ id < NCPU, pa2cpuid E pa = some id ∧ Home E id pa := fun h => (page_iff.mpr h).home
  refine ⟨hhome, fun s e => ?_⟩
  unfold Locks.kfree at e
  split at e
  · exact absurd (Except.error.inj e) (by decide)
  · rename_i h
    obtain ⟨id, -, hid, -⟩ := hhome h
    rw [hid] at e
    cases e

/-- The last page, when `end` is odd. -/
theorem freeable_has_home_last : ∃ id < NCPU, pa2cpuid ⟨0x80025123, by decide⟩ 0x87fff000 = some id ∧
    Home ⟨0x80025123, by decide⟩ id 0x87fff000 :=
  (freeable_has_home ⟨0x80025123, by decide⟩ 0x87fff000).1 (by decide)

/-- kfree of a page that is on no list. -/
theorem Lists.kfree (h : Lists E ls s) {p : Nat} (hp : Page E p) (hn : ∀ id < NCPU, p ∉ ls id) :
    ∃ tid < NCPU, ∃ s', Locks.kfree E p s = .ok s' ∧ Lists E (Function.update ls tid (p :: ls tid)) s' := by
  obtain ⟨tid, ht, e⟩ := pa2cpuid_spec hp
  refine ⟨tid, ht, _, ?_, (h.set hp.1 hn 1).push ht hp hn⟩
  simp only [Locks.kfree, hp.not_bad, if_false, e]

/-- The pages on the lists. -/
def Listed (ls : Nat → List Nat) (p : Nat) : Prop := ∃ id < NCPU, p ∈ ls id

theorem listed_nil (p : Nat) : ¬ Listed (fun _ => []) p := fun ⟨_, _, h⟩ => nomatch h

theorem listed_push (ls : Nat → List Nat) {tid p : Nat} (ht : tid < NCPU) (q : Nat) :
    Listed (Function.update ls tid (p :: ls tid)) q ↔ Listed ls q ∨ q = p := by
  constructor
  · intro h
    obtain ⟨id, hid, hq⟩ := h
    by_cases e : id = tid
    · subst e
      rw [Function.update_self] at hq
      rcases List.mem_cons.mp hq with hq | hq
      · exact Or.inr hq
      · exact Or.inl ⟨id, hid, hq⟩
    · rw [Function.update_of_ne e] at hq
      exact Or.inl ⟨id, hid, hq⟩
  · intro h
    rcases h with ⟨id, hid, hq⟩ | h
    · refine ⟨id, hid, ?_⟩
      by_cases e : id = tid
      · subst e
        rw [Function.update_self]
        exact List.mem_cons_of_mem _ hq
      · rw [Function.update_of_ne e]
        exact hq
    · refine ⟨tid, ht, ?_⟩
      rw [Function.update_self, h]
      exact List.mem_cons_self

/-- freerange with all listed pages below it adds its pages. -/
theorem Lists.freerange : ∀ n p (s : Kmem) ls, Lists E ls s → p % 4096 = 0 → E.kend ≤ p → p + n * 4096 ≤ PHYSTOP →
    (∀ q, Listed ls q → q < p) →
    ∃ s' ls', freerangeLoop E n p s = .ok s' ∧ Lists E ls' s' ∧
      ∀ q, Listed ls' q ↔ Listed ls q ∨ q % 4096 = 0 ∧ p ≤ q ∧ q < p + n * 4096 := by
  intro n
  induction n with
  | zero =>
    intro p s ls h _ _ _ _
    refine ⟨s, ls, rfl, h, fun q => ⟨Or.inl, fun hq => ?_⟩⟩
    rcases hq with hq | ⟨-, h1, h2⟩
    · exact hq
    · omega
  | succ n ih =>
    intro p s ls h hal hk htop hq
    obtain ⟨tid, ht, s1, e1, h1⟩ := h.kfree (p := p) ⟨hal, hk, by omega⟩ fun id hid hm => by
      have := hq p ⟨id, hid, hm⟩; omega
    obtain ⟨s', ls', e', h', hq'⟩ := ih (p + 4096) s1 _ h1 (by omega) (by omega) (by omega) fun q hm => by
      rcases (listed_push ls ht q).mp hm with hm | rfl
      · have := hq q hm
        omega
      · omega
    refine ⟨s', ls', ?_, h', fun q => ?_⟩
    · simp only [freerangeLoop, e1, PGSIZE]
      exact e'
    · rw [hq', listed_push ls ht]
      constructor
      · intro h
        rcases h with (h | rfl) | ⟨h2, h3, h4⟩
        · exact Or.inl h
        · exact Or.inr ⟨hal, by omega⟩
        · exact Or.inr ⟨h2, by omega⟩
      · intro h
        rcases h with h | ⟨h2, h3, h4⟩
        · exact Or.inl (Or.inl h)
        · by_cases e : q = p
          · exact Or.inl (Or.inr e)
          · exact Or.inr ⟨h2, by omega⟩

/-- The pages of the range kinit gives to freerange for CPU `id`. -/
def InChunk (E : End) (id q : Nat) : Prop :=
  q % 4096 = 0 ∧ E.kend + id * chunk E ≤ q ∧ q + 4096 ≤ PHYSTOP - (NCPU - id - 1) * chunk E

theorem chunk_bounds (E : End) : NCPU * chunk E ≤ PHYSTOP - E.kend ∧ PHYSTOP - E.kend < NCPU * chunk E + 8 := by
  simp only [chunk, NCPU]
  omega

/-- Where a range ends: its length, and what the division by NCPU leaves over. -/
theorem chunk_end (E : End) {id : Nat} (hid : id < NCPU) :
    PHYSTOP - (NCPU - id - 1) * chunk E = E.kend + (id + 1) * chunk E + (PHYSTOP - E.kend) % NCPU := by
  have h1 := E.le_phystop
  have h2 : NCPU * chunk E + (PHYSTOP - E.kend) % NCPU = PHYSTOP - E.kend := Nat.div_add_mod _ _
  have h3 : NCPU * chunk E = (id + 1) * chunk E + (NCPU - id - 1) * chunk E := by
    rw [← Nat.add_mul]
    congr 1
    omega
  omega

theorem kinitLoop_spec : ∀ n id (s : Kmem) ls, Lists E ls s → id + n = NCPU →
    (∀ q, Listed ls q → q < E.kend + id * chunk E) →
    ∃ s' ls', kinitLoop E n id s = .ok s' ∧ Lists E ls' s' ∧
      ∀ q, Listed ls' q ↔ Listed ls q ∨ ∃ i, id ≤ i ∧ i < NCPU ∧ InChunk E i q := by
  intro n
  induction n with
  | zero =>
    intro id s ls h hn _
    refine ⟨s, ls, rfl, h, fun q => ⟨Or.inl, fun hq => ?_⟩⟩
    rcases hq with hq | ⟨i, h1, h2, -⟩
    · exact hq
    · omega
  | succ n ih =>
    intro id s ls h hn hq
    have h1 := E.le_phystop
    have h2 := E.kernbase_le
    have hc := chunk_bounds E
    have he := chunk_end E (show id < NCPU by omega)
    have hrem : (PHYSTOP - E.kend) % NCPU < 8 := Nat.mod_lt _ (by decide)
    have hle : (id + 1) * chunk E ≤ NCPU * chunk E := Nat.mul_le_mul_right _ (by omega)
    have hsucc : (id + 1) * chunk E = id * chunk E + chunk E := Nat.succ_mul _ _
    have hup : E.kend + id * chunk E ≤ PGROUNDUP (E.kend + id * chunk E) ∧
      PGROUNDUP (E.kend + id * chunk E) < E.kend + id * chunk E + 4096 := by
      simp only [PGROUNDUP, PGSIZE]
      rw [u64_of_lt (by simp only [PHYSTOP, KERNBASE] at *; omega)]
      omega
    have hal : PGROUNDUP (E.kend + id * chunk E) % 4096 = 0 := by simp only [PGROUNDUP, PGSIZE]; omega
    have hstep : ∃ s1 ls1, Locks.freerange E (E.kend + id * chunk E) (PHYSTOP - (NCPU - id - 1) * chunk E) s =
      .ok s1 ∧ Lists E ls1 s1 ∧
        ∀ q, Listed ls1 q ↔ Listed ls q ∨ InChunk E id q := by
      by_cases hroom : PGROUNDUP (E.kend + id * chunk E) ≤ PHYSTOP - (NCPU - id - 1) * chunk E
      · obtain ⟨s1, ls1, e, h3, h4⟩ :=
          Lists.freerange ((PHYSTOP - (NCPU - id - 1) * chunk E - PGROUNDUP (E.kend + id * chunk E)) / 4096)
          (PGROUNDUP (E.kend + id * chunk E)) s ls h hal (by omega) (by omega) (fun q hm => by have := hq q hm; omega)
        refine ⟨s1, ls1, e, h3, fun q => (h4 q).trans
          (or_congr_right ⟨fun hm => ⟨hm.1, by omega, by omega⟩, fun hm => ⟨hm.1, ?_, ?_⟩⟩)⟩
        · have := hm.2.1
          have := hm.1
          omega
        · have := hm.2.2
          have := hm.1
          omega
      · refine ⟨s, ls, ?_, h, fun q => ⟨Or.inl, fun hm => ?_⟩⟩
        · rw [Locks.freerange, Nat.sub_eq_zero_of_le (by omega)]
          rfl
        · rcases hm with hm | hm
          · exact hm
          · have := hm.2.1
            have := hm.2.2
            have := hm.1
            omega
    obtain ⟨s1, ls1, e1, h3, h4⟩ := hstep
    obtain ⟨s', ls', e', h', hq'⟩ := ih (id + 1) s1 ls1 h3 (by omega) fun q hm => by
      rcases (h4 q).mp hm with hm | hm
      · have := hq q hm
        omega
      · have := hm.1
        have := hm.2.2
        omega
    refine ⟨s', ls', by simp only [kinitLoop, e1]; exact e', h', fun q => ?_⟩
    rw [hq', h4]
    constructor
    · intro h
      rcases h with (h | h) | ⟨i, hi, h⟩
      · exact Or.inl h
      · exact Or.inr ⟨id, Nat.le_refl _, by omega, h⟩
      · exact Or.inr ⟨i, by omega, h⟩
    · intro h
      rcases h with h | ⟨i, hi, hi', h⟩
      · exact Or.inl (Or.inl h)
      · by_cases e : i = id
        · exact Or.inl (Or.inr (e ▸ h))
        · exact Or.inr ⟨i, by omega, hi', h⟩

/-- kinit succeeds and leaves eight lists with the pages of the eight ranges. -/
theorem kinit_spec (E : Link) (m : Mem) : ∃ s ls, kinit E (boot m) = .ok s ∧ Lists E ls s ∧ ∀ q, Listed ls q ↔
    ∃ id < NCPU, InChunk E id q := by
  have h0 : Lists E (fun _ => []) (boot m) :=
    ⟨fun _ _ => rfl, fun _ _ => List.nodup_nil, fun _ _ _ _ _ _ h => (nomatch h), fun _ _ _ h => (nomatch h)⟩
  obtain ⟨s, ls, e, h, hq⟩ := kinitLoop_spec NCPU 0 (boot m) (fun _ => []) h0 rfl fun q hm => absurd hm (listed_nil q)
  refine ⟨s, ls, e, h, fun q => (hq q).trans ⟨fun hm => ?_, fun hm => ?_⟩⟩
  · rcases hm with hm | ⟨i, -, hi, hm⟩
    · exact absurd hm (listed_nil q)
    · exact ⟨i, hi, hm⟩
  · obtain ⟨i, hi, hm⟩ := hm
    exact Or.inr ⟨i, Nat.zero_le _, hi, hm⟩

/-! ## Calls from any number of processes -/

/-- Where a process is: before kalloc's own list, before list `id` of find_freepage, before
    kalloc's memset, before kfree's memset, before kfree's list. -/
inductive Pc where
  | idle
  | own (cid : Nat)
  | steal (sid id : Nat)
  | fill (r : Nat)
  | wipe (pa : Nat)
  | push (pa : Nat)
  deriving DecidableEq

/-- The page a call has in its hands. -/
def Pc.page : Pc → Option Nat
  | .fill r => some r
  | .wipe pa => some pa
  | .push pa => some pa
  | _ => none

/-- The allocator, the processes, and the pages kalloc has returned and kfree has not been
    called with since. -/
structure St where
  k : Kmem
  pc : Nat → Pc
  returned : List Nat

def St.goto (s : St) (t : Nat) (c : Pc) : St := { s with pc := Function.update s.pc t c }

/-- kalloc has ended with result `r`. -/
def St.returns (s : St) (r : Nat × Kmem) : St :=
  { s with k := r.2, returned := if r.1 ≠ 0 then r.1 :: s.returned else s.returned }

/-- A section of process `t`. -/
inductive Section (E : Link) (t : Nat) : St → St → Prop where
  | kalloc (s : St) (cid : Nat) : s.pc t = .idle → cid < NCPU → Section E t s (s.goto t (.own cid))
  | own (s : St) (cid : Nat) : s.pc t = .own cid →
      Section E t s (St.goto { s with k := (pop cid s.k).2 } t
        (if (pop cid s.k).1 ≠ 0 then .fill (pop cid s.k).1 else .steal cid 0))
  | skip (s : St) (sid : Nat) : s.pc t = .steal sid sid → sid < NCPU → Section E t s (s.goto t (.steal sid (sid + 1)))
  | steal (s : St) (sid id : Nat) : s.pc t = .steal sid id → id < NCPU → id ≠ sid →
      Section E t s (St.goto { s with k := (pop id s.k).2 } t
        (if (pop id s.k).1 ≠ 0 then .fill (pop id s.k).1 else .steal sid (id + 1)))
  /-- kalloc returns 0. -/
  | none (s : St) (sid : Nat) : s.pc t = .steal sid NCPU → Section E t s (s.goto t .idle)
  /-- kalloc returns the page. -/
  | fill (s : St) (r : Nat) : s.pc t = .fill r →
      Section E t s
        (St.goto { s with k := { s.k with mem := s.k.mem.set r 5 PGSIZE }, returned := r :: s.returned } t .idle)
  | kfree (s : St) (pa : Nat) : s.pc t = .idle → pa ∈ s.returned →
      Section E t s (St.goto { s with returned := s.returned.erase pa } t (.wipe pa))
  | wipe (s : St) (pa : Nat) : s.pc t = .wipe pa → ¬ badPage E pa →
      Section E t s (St.goto { s with k := { s.k with mem := s.k.mem.set pa 1 PGSIZE } } t (.push pa))
  | push (s : St) (pa tid : Nat) : s.pc t = .push pa → pa2cpuid E pa = some tid →
      Section E t s (St.goto { s with k := Locks.push tid pa s.k } t .idle)

inductive Step (E : Link) : St → St → Prop where
  | run {s s' : St} (t : Nat) : Section E t s s' → Step E s s'
  /-- Writes to pages kalloc has returned, and outside the allocator's memory. -/
  | write (s : St) (m : Mem) : (∀ p, Page E p → p ∉ s.returned → Mem.Agree s.k.mem m p 4096) →
      Step E s { s with k := { s.k with mem := m } }

/-- The runs from the end of kinit. -/
inductive Reach (E : Link) (k0 : Kmem) : St → Prop where
  | start : Reach E k0 ⟨k0, fun _ => .idle, []⟩
  | step {s s' : St} : Reach E k0 s → Step E s s' → Reach E k0 s'

/-- The page is on one of the lists. -/
def OnList (k : Kmem) (p : Nat) : Prop := ∃ id < NCPU, ∃ l, Chain k.mem (k.freelist id) l ∧ (∀ q ∈ l, q ≠ 0) ∧ p ∈ l

/-- A caller has the page. -/
def Held (s : St) (p : Nat) : Prop := p ∈ s.returned ∨ ∃ t, (s.pc t).page = some p

/-! ## Every page in one place -/

/-- The places a page can be in. -/
inductive Place where
  | list (id : Nat)
  | caller
  | call (t : Nat)
  deriving DecidableEq

structure Inv (E : Link) (pool : Nat → Prop) (ls : Nat → List Nat) (place : Nat → Place) (s : St) : Prop where
  lists : Lists E ls s.k
  page : ∀ p, pool p → Page E p
  onList : ∀ id < NCPU, ∀ p, p ∈ ls id ↔ pool p ∧ place p = .list id
  bound : ∀ p id, pool p → place p = .list id → id < NCPU
  call : ∀ t p, (s.pc t).page = some p ↔ pool p ∧ place p = .call t
  caller : ∀ p, p ∈ s.returned ↔ pool p ∧ place p = .caller
  nodup : s.returned.Nodup
  cids : ∀ t cid, s.pc t = .own cid → cid < NCPU

section

variable {pool : Nat → Prop} {place : Nat → Place}

theorem Inv.off_lists {s : St} (h : Inv E pool ls place s) {p : Nat} (hp : ∀ id, place p ≠ .list id) :
    ∀ id < NCPU, p ∉ ls id :=
  fun id hid hm => hp id ((h.onList id hid p).mp hm).2

/-- The page in the hands of a call. -/
theorem Inv.inHand {s : St} (h : Inv E pool ls place s) {t p : Nat} (hp : (s.pc t).page = some p) :
    pool p ∧ place p = .call t ∧ ∀ id < NCPU, p ∉ ls id := by
  obtain ⟨h1, h2⟩ := (h.call t p).mp hp
  exact ⟨h1, h2, h.off_lists fun id e => by rw [h2] at e; cases e⟩

/-- A call goes on with nothing in its hands. -/
theorem Inv.goto {s : St} (h : Inv E pool ls place s) {t : Nat} {c : Pc} (h0 : (s.pc t).page = none)
    (hc : c.page = none) (hcid : ∀ cid, c = .own cid → cid < NCPU) : Inv E pool ls place (s.goto t c) := by
  refine ⟨h.lists, h.page, h.onList, h.bound, fun u p => ?_, h.caller, h.nodup, fun u cid hu => ?_⟩
  · by_cases e : u = t
    · subst e
      have := h.call u p
      simp only [St.goto, Function.update_self, hc]
      rw [h0] at this
      exact this
    · simp only [St.goto, Function.update_of_ne e]
      exact h.call u p
  · by_cases e : u = t
    · subst e
      simp only [St.goto, Function.update_self] at hu
      exact hcid cid hu
    · simp only [St.goto, Function.update_of_ne e] at hu
      exact h.cids u cid hu

/-- Page `p` changes its place and nothing else does. -/
theorem Inv.move {s s' : St} (h : Inv E pool ls place s) {ls' : Nat → List Nat} {p : Nat} (pl : Place) (hp : pool p)
    (hlists : Lists E ls' s'.k) (hb : ∀ id, pl = .list id → id < NCPU)
    (h1 : ∀ id < NCPU, ∀ q, q ∈ ls' id ↔ if q = p then pl = .list id else q ∈ ls id)
    (h2 : ∀ u q, (s'.pc u).page = some q ↔ if q = p then pl = .call u else (s.pc u).page = some q)
    (h3 : ∀ q, q ∈ s'.returned ↔ if q = p then pl = .caller else q ∈ s.returned)
    (hnd : s'.returned.Nodup) (hcid : ∀ t cid, s'.pc t = .own cid → cid < NCPU) :
    Inv E pool ls' (Function.update place p pl) s' := by
  refine ⟨hlists, h.page, fun id hid q => ?_, fun q id hq hq' => ?_, fun u q => ?_, fun q => ?_, hnd, hcid⟩
  · rw [h1 id hid q]
    by_cases e : q = p
    · subst e
      simp [hp]
    · simp [e, h.onList id hid q]
  · by_cases e : q = p
    · subst e
      simp only [Function.update_self] at hq'
      exact hb id hq'
    · simp only [Function.update_of_ne e] at hq'
      exact h.bound q id hq hq'
  · rw [h2 u q]
    by_cases e : q = p
    · subst e
      simp [hp]
    · simp [e, h.call u q]
  · rw [h3 q]
    by_cases e : q = p
    · subst e
      simp [hp]
    · simp [e, h.caller q]

/-- What the calls hold when process `t`, the only one that may hold `p`, goes on. -/
theorem Inv.hands {s : St} (h : Inv E pool ls place s) {t p : Nat} {c : Pc} (h0 : ∀ q, (s.pc t).page = some q → q = p)
    (hother : ∀ u, u ≠ t → place p ≠ .call u) (hc : ∀ q, c.page = some q → q = p) (u q : Nat) :
    (Function.update s.pc t c u).page = some q ↔ if q = p then u = t ∧ c.page = some p else
    (s.pc u).page = some q := by
  by_cases eu : u = t
  · subst eu
    rw [Function.update_self]
    by_cases e : q = p
    · simp [e]
    · have h1 : c.page ≠ some q := fun e' => e (hc q e')
      have h2 : (s.pc u).page ≠ some q := fun e' => e (h0 q e')
      simp [e, h1, h2]
  · rw [Function.update_of_ne eu]
    by_cases e : q = p
    · subst e
      have := hother u eu
      simp [h.call u q, this, eu]
    · simp [e]

theorem Inv.cids_goto {s : St} (h : Inv E pool ls place s) {t : Nat} {c : Pc} (hc : ∀ cid, c ≠ .own cid) (u cid : Nat)
    (hu : Function.update s.pc t c u = .own cid) : cid < NCPU := by
  by_cases e : u = t
  · subst e
    rw [Function.update_self] at hu
    exact absurd hu (hc cid)
  · rw [Function.update_of_ne e] at hu
    exact h.cids u cid hu

/-- A call takes the first page of a list, or finds it empty. -/
theorem Inv.pop {s : St} (h : Inv E pool ls place s) {t id : Nat} (hid : id < NCPU) (h0 : (s.pc t).page = none)
    {c : Pc} (hc : c.page = none) (hcid : ∀ cid, c ≠ .own cid) :
    ∃ ls' place', Inv E pool ls' place' (St.goto { s with k := (Locks.pop id s.k).2 } t
      (if (Locks.pop id s.k).1 ≠ 0 then .fill (Locks.pop id s.k).1 else c)) := by
  rcases h.lists.pop hid with ⟨-, e⟩ | ⟨p, l, hl, hz, e, h1⟩
  · simp only [e, ne_eq, not_true_eq_false, if_false]
    exact ⟨ls, place, h.goto h0 hc fun cid e => absurd e (hcid cid)⟩
  · simp only [e, ne_eq, hz, not_false_eq_true, if_true]
    have hp := (h.onList id hid p).mp (by simp [hl])
    have hnd := h.lists.nodup id hid
    rw [hl] at hnd
    refine ⟨Function.update ls id l, _, h.move (.call t) hp.1 h1 (by simp) (fun id' hid' q => ?_) (fun u q => ?_)
      (fun q => ?_) h.nodup
      (h.cids_goto (by simp))⟩
    · by_cases ei : id' = id
      · subst ei
        by_cases eq : q = p
        · subst eq
          simpa using (List.nodup_cons.mp hnd).1
        · simp [eq, hl]
      · by_cases eq : q = p
        · subst eq
          simp [ei, h.onList id' hid', hp.2, Ne.symm ei]
        · simp [ei, eq]
    · have := h.hands (t := t) (p := p) (c := .fill p) (by simp [h0]) (by simp [hp.2]) (by simp [Pc.page]) u q
      simpa [St.goto, Pc.page, eq_comm] using this
    · have := h.caller p
      rw [hp.2] at this
      by_cases eq : q = p
      · subst eq
        simpa [St.goto] using this
      · simp [St.goto, eq]

/-- kalloc returns the page. -/
theorem Inv.fill {s : St} (h : Inv E pool ls place s) {t p : Nat} (ht : s.pc t = .fill p) :
    ∃ place',
      Inv E pool ls place'
      (St.goto { s with k := { s.k with mem := s.k.mem.set p 5 PGSIZE }, returned := p :: s.returned } t .idle) := by
  obtain ⟨hp, hpl, hoff⟩ := h.inHand (t := t) (p := p) (by simp [ht, Pc.page])
  have hr : p ∉ s.returned := fun hm => by
    have := (h.caller p).mp hm
    simp [hpl] at this
  refine ⟨_, h.move .caller hp (h.lists.set (h.page p hp).1 hoff 5) (by simp) (fun id hid q => ?_) (fun u q => ?_)
    (fun q => ?_)
    (List.nodup_cons.mpr ⟨hr, h.nodup⟩) (h.cids_goto (by simp))⟩
  · by_cases eq : q = p
    · subst eq
      simpa using hoff id hid
    · simp [eq]
  · have := h.hands (t := t) (p := p) (c := .idle) (by simp [ht, Pc.page, eq_comm]) (by simp [hpl, eq_comm])
      (by simp [Pc.page]) u q
    simpa [St.goto, Pc.page] using this
  · by_cases eq : q = p
    · simp [St.goto, eq]
    · simp [St.goto, eq]

/-- kfree is called. -/
theorem Inv.free {s : St} (h : Inv E pool ls place s) {t p : Nat} (ht : s.pc t = .idle) (hp : p ∈ s.returned) :
    ∃ place', Inv E pool ls place' (St.goto { s with returned := s.returned.erase p } t (.wipe p)) := by
  obtain ⟨hpool, hpl⟩ := (h.caller p).mp hp
  refine ⟨_, h.move (.call t) hpool h.lists (by simp) (fun id hid q => ?_) (fun u q => ?_) (fun q => ?_)
    (h.nodup.erase p)
    (h.cids_goto (by simp))⟩
  · by_cases eq : q = p
    · subst eq
      simp [h.onList id hid, hpl]
    · simp [eq]
  · have := h.hands (t := t) (p := p) (c := .wipe p) (by simp [ht, Pc.page]) (by simp [hpl]) (by simp [Pc.page]) u q
    simpa [St.goto, Pc.page, eq_comm] using this
  · rw [St.goto, h.nodup.mem_erase_iff]
    by_cases eq : q = p
    · simp [eq]
    · simp [eq]

/-- kfree fills the page with junk. -/
theorem Inv.wipe {s : St} (h : Inv E pool ls place s) {t p : Nat} (ht : s.pc t = .wipe p) :
    Inv E pool ls place (St.goto { s with k := { s.k with mem := s.k.mem.set p 1 PGSIZE } } t (.push p)) := by
  obtain ⟨hp, hpl, hoff⟩ := h.inHand (t := t) (p := p) (by simp [ht, Pc.page])
  refine ⟨h.lists.set (h.page p hp).1 hoff 1, h.page, h.onList, h.bound, fun u q => ?_, h.caller, h.nodup,
    h.cids_goto (by simp)⟩
  by_cases eu : u = t
  · subst eu
    have := h.call u q
    simp only [ht, Pc.page] at this
    simpa [St.goto, Pc.page] using this
  · simp [St.goto, eu, h.call u q]

/-- kfree puts the page on its list. -/
theorem Inv.push {s : St} (h : Inv E pool ls place s) {t p tid : Nat} (ht : s.pc t = .push p)
    (htid : pa2cpuid E p = some tid) :
    ∃ ls' place', Inv E pool ls' place' (St.goto { s with k := Locks.push tid p s.k } t .idle) := by
  obtain ⟨hp, hpl, hoff⟩ := h.inHand (t := t) (p := p) (by simp [ht, Pc.page])
  obtain ⟨tid', hlt, e⟩ := pa2cpuid_spec (h.page p hp)
  obtain rfl : tid = tid' := by simpa [htid] using e
  refine ⟨_, _, h.move (.list tid) hp (h.lists.push hlt (h.page p hp) hoff) (by rintro id ⟨⟩; exact hlt)
    (fun id hid q => ?_)
    (fun u q => ?_) (fun q => ?_) h.nodup (h.cids_goto (by simp))⟩
  · by_cases ei : id = tid
    · subst ei
      by_cases eq : q = p
      · simp [eq]
      · simp [eq]
    · by_cases eq : q = p
      · subst eq
        simp [ei, hoff id hid, Ne.symm ei]
      · simp [ei, eq]
  · have := h.hands (t := t) (p := p) (c := .idle) (by simp [ht, Pc.page, eq_comm]) (by simp [hpl, eq_comm])
      (by simp [Pc.page]) u q
    simpa [St.goto, Pc.page] using this
  · have := h.caller p
    rw [hpl] at this
    by_cases eq : q = p
    · subst eq
      simpa [St.goto] using this
    · simp [St.goto, eq]

theorem Inv.section {s s' : St} (h : Inv E pool ls place s) {t : Nat} (hs : Section E t s s') :
    ∃ ls' place', Inv E pool ls' place' s' := by
  cases hs with
  | kalloc cid h0 hc => exact ⟨ls, place, h.goto (by simp [h0, Pc.page]) rfl (by rintro _ ⟨⟩; exact hc)⟩
  | own cid h0 => exact h.pop (h.cids t cid h0) (by simp [h0, Pc.page]) rfl (by simp)
  | skip sid h0 _ => exact ⟨ls, place, h.goto (by simp [h0, Pc.page]) rfl (by simp)⟩
  | steal sid id h0 hid _ => exact h.pop hid (by simp [h0, Pc.page]) rfl (by simp)
  | none sid h0 => exact ⟨ls, place, h.goto (by simp [h0, Pc.page]) rfl (by simp)⟩
  | fill r h0 => exact ⟨ls, h.fill h0⟩
  | kfree pa h0 hm => exact ⟨ls, h.free h0 hm⟩
  | wipe pa h0 _ => exact ⟨ls, place, h.wipe h0⟩
  | push pa tid h0 ht => exact h.push h0 ht

theorem Inv.step {s s' : St} (h : Inv E pool ls place s) (hs : Step E s s') :
    ∃ ls' place', Inv E pool ls' place' s' := by
  cases hs with
  | run t hs => exact h.section hs
  | write m hm =>
    refine ⟨ls, place, h.lists.mem_congr fun id hid p hp => ?_, h.page, h.onList, h.bound, h.call, h.caller, h.nodup,
      h.cids⟩
    have hpg := h.lists.page id hid p hp
    have hpl := ((h.onList id hid p).mp hp).2
    have hr : p ∉ s.returned := fun hm => by
      have := ((h.caller p).mp hm).2
      simp [hpl] at this
    exact fun x h1 h2 => hm p hpg hr x h1 (by omega)

open Classical in
/-- The lists kinit leaves. -/
theorem Inv.start {k0 : Kmem} (h : Lists E ls k0) :
    Inv E (fun p => ∃ id < NCPU, p ∈ ls id) ls (fun p => if hp : ∃ id < NCPU,
      p ∈ ls id then .list hp.choose else .caller)
      ⟨k0, fun _ => .idle, []⟩ := by
  refine ⟨h, ?_, fun id hid p => ⟨fun hp => ?_, ?_⟩, ?_, ?_, ?_, List.nodup_nil, ?_⟩
  · rintro p ⟨id, hid, hp⟩
    exact h.page id hid p hp
  · have hex : ∃ id < NCPU, p ∈ ls id := ⟨id, hid, hp⟩
    refine ⟨hex, ?_⟩
    by_cases e : hex.choose = id
    · simp [hex, e]
    · exact absurd hp (h.apart _ hex.choose_spec.1 id hid e p hex.choose_spec.2)
  · rintro ⟨hex, e⟩
    simp only [hex, dif_pos, Place.list.injEq] at e
    exact e ▸ hex.choose_spec.2
  · rintro p id hex e
    simp only [hex, dif_pos, Place.list.injEq] at e
    exact e ▸ hex.choose_spec.1
  · intro t p
    by_cases hex : ∃ id < NCPU, p ∈ ls id <;> simp [Pc.page, hex]
  · intro p
    by_cases hex : ∃ id < NCPU, p ∈ ls id <;> simp [hex]
  · simp

end

theorem Lists.onList {k : Kmem} (h : Lists E ls k) (p : Nat) : OnList k p ↔ ∃ id < NCPU, p ∈ ls id := by
  constructor
  · rintro ⟨id, hid, l, hc, hz, hp⟩
    rw [hc.unique (h.chain id hid) hz fun q hq => (h.page id hid q hq).ne_zero] at hp
    exact ⟨id, hid, hp⟩
  · rintro ⟨id, hid, hp⟩
    exact ⟨id, hid, ls id, h.chain id hid, fun q hq => (h.page id hid q hq).ne_zero, hp⟩

theorem Reach.inv {k0 : Kmem} (h0 : Lists E ls k0) {s : St} (hr : Reach E k0 s) :
    ∃ ls' place, Inv E (fun p => ∃ id < NCPU, p ∈ ls id) ls' place s := by
  induction hr with
  | start => exact ⟨ls, _, Inv.start h0⟩
  | step _ hs ih =>
    obtain ⟨ls', place, h⟩ := ih
    exact h.step hs

/-! ## kalloc without interleaving -/

theorem find_freepageLoop_zero (sid : Nat) : ∀ n id (k : Kmem), Lists E ls k → id + n = NCPU →
    ((find_freepageLoop sid n id k).1 = 0 ↔ ∀ i, id ≤ i → i < NCPU → i ≠ sid → ls i = []) := by
  intro n
  induction n with
  | zero =>
    intro id k _ hn
    simp only [find_freepageLoop, true_iff]
    intro i h1 h2
    omega
  | succ n ih =>
    intro id k h hn
    have hsplit : (∀ i, id ≤ i → i < NCPU → i ≠ sid → ls i = []) ↔
        (id ≠ sid → ls id = []) ∧ ∀ i, id + 1 ≤ i → i < NCPU → i ≠ sid → ls i = [] := by
      constructor
      · exact fun H => ⟨H id (Nat.le_refl _) (by omega), fun i hi => H i (by omega)⟩
      · rintro ⟨H1, H2⟩ i h1 h2 h3
        by_cases e : i = id
        · subst e
          exact H1 h3
        · exact H2 i (by omega) h2 h3
    rw [hsplit, find_freepageLoop]
    by_cases es : id = sid
    · subst es
      simp only [if_true]
      rw [ih (id + 1) k h (by omega)]
      simp
    · rcases h.pop (show id < NCPU by omega) with ⟨hl, e⟩ | ⟨p, l, hl, hz, e, -⟩
      · simp only [es, if_false, e, ne_eq, not_true_eq_false]
        rw [ih (id + 1) k h (by omega)]
        simp [hl]
      · simp [es, e, hz, hl]

/-- kalloc fails when all lists are empty and only then. -/
theorem kalloc_zero {k : Kmem} (h : Lists E ls k) {cid : Nat} (hc : cid < NCPU) : (kalloc cid k).1 = 0 ↔
    ∀ id < NCPU, ls id = [] := by
  rcases h.pop hc with ⟨hl, e⟩ | ⟨p, l, hl, hz, e, -⟩
  · have := find_freepageLoop_zero cid NCPU 0 k h rfl
    simp only [kalloc, e, ne_eq, not_true_eq_false, if_false, steal_mem, find_freepage]
    rw [this]
    constructor
    · intro H id hid
      by_cases ei : id = cid
      · rw [ei, hl]
      · exact H id (Nat.zero_le _) hid ei
    · exact fun H i _ hi _ => H i hi
  · simp only [kalloc, e, ne_eq, hz, not_false_eq_true, if_true, false_iff]
    intro H
    simp [H cid hc] at hl

open Relation

@[simp] theorem St.goto_goto (s : St) (t : Nat) (c c' : Pc) : (s.goto t c).goto t c' = s.goto t c' := by
  simp [St.goto]

/-- The rest of kalloc once the search has ended. -/
theorem fill_alone (t : Nat) (s : St) (c : Pc) (r : Nat) (k : Kmem) (hc : r = 0 → ∃ sid, c = .steal sid NCPU) :
    ReflTransGen (Section E t) (St.goto { s with k := k } t (if r ≠ 0 then .fill r else c))
      ((s.returns (r, if r ≠ 0 then { k with mem := k.mem.set r 5 PGSIZE } else k)).goto t .idle) := by
  by_cases hr : r = 0
  · obtain ⟨sid, rfl⟩ := hc hr
    subst hr
    refine ReflTransGen.single ?_
    have := Section.none (E := E) (t := t) (St.goto { s with k := k } t (.steal sid NCPU)) sid (by simp [St.goto])
    simpa [St.returns] using this
  · refine ReflTransGen.single ?_
    have := Section.fill (E := E) (t := t) (St.goto { s with k := k } t (.fill r)) r (by simp [St.goto])
    simpa [hr, St.goto, St.returns] using this

/-- The search of a process that runs alone. -/
theorem search_alone (t sid : Nat) : ∀ n id (s : St), id + n = NCPU → s.pc t = .steal sid id →
    ReflTransGen (Section E t) s (St.goto { s with k := (find_freepageLoop sid n id s.k).2 } t
      (if (find_freepageLoop sid n id s.k).1 ≠ 0 then .fill
        (find_freepageLoop sid n id s.k).1 else .steal sid NCPU)) := by
  intro n
  induction n with
  | zero =>
    intro id s hn ht
    obtain rfl : id = NCPU := by omega
    have : St.goto s t (.steal sid NCPU) = s := by simp [St.goto, ← ht]
    simp [find_freepageLoop, this, ReflTransGen.refl]
  | succ n ih =>
    intro id s hn ht
    by_cases es : id = sid
    · subst es
      have h1 := ih (id + 1) (s.goto t (.steal id (id + 1))) (by omega) (by simp [St.goto])
      have h2 := ReflTransGen.head (Section.skip s id ht (by omega)) h1
      simp only [find_freepageLoop, if_true, St.goto, Function.update_idem] at h2 ⊢
      exact h2
    · have hstep := Section.steal (E := E) s sid id ht (by omega) es
      by_cases hr : (pop id s.k).1 = 0
      · have h1 := ih (id + 1) (St.goto { s with k := (pop id s.k).2 } t (.steal sid (id + 1))) (by omega)
          (by simp [St.goto])
        simp only [hr, ne_eq, not_true_eq_false, if_false] at hstep
        have h2 := ReflTransGen.head hstep h1
        simp only [find_freepageLoop, es, hr, if_false, ne_eq, not_true_eq_false, St.goto,
          Function.update_idem] at h2 ⊢
        exact h2
      · have h2 := ReflTransGen.single hstep
        simpa [find_freepageLoop, es, hr] using h2

/-- A process that runs alone does what `kalloc` does. -/
theorem kalloc_alone (t cid : Nat) (s : St) (ht : s.pc t = .idle) (hc : cid < NCPU) :
    ReflTransGen (Section E t) s ((s.returns (kalloc cid s.k)).goto t .idle) := by
  have h1 := Section.kalloc (E := E) s cid ht hc
  have h2 := Section.own (E := E) (t := t) (s.goto t (.own cid)) cid (by simp [St.goto])
  have h12 := ReflTransGen.head h1 (ReflTransGen.single h2)
  by_cases hr : (pop cid s.k).1 = 0
  · have h3 := search_alone (E := E) t cid NCPU 0 (St.goto { s with k := (pop cid s.k).2 } t (.steal cid 0)) rfl
      (by simp [St.goto])
    have h4 := fill_alone (E := E) t s (.steal cid NCPU) (find_freepageLoop cid NCPU 0 (pop cid s.k).2).1
      (find_freepageLoop cid NCPU 0 (pop cid s.k).2).2 fun _ => ⟨cid, rfl⟩
    simp only [St.goto, hr, Function.update_idem, ne_eq, not_true_eq_false, if_false] at h12 h3 h4
    simp only [kalloc, hr, ne_eq, not_true_eq_false, if_false, steal_mem, find_freepage, St.goto]
    exact (h12.trans h3).trans h4
  · have h4 := fill_alone (E := E) t s (.steal cid 0) (pop cid s.k).1 (pop cid s.k).2 fun e => absurd e hr
    simp only [St.goto, hr, Function.update_idem, ne_eq, not_false_eq_true, if_true] at h12 h4
    simp only [kalloc, hr, ne_eq, not_false_eq_true, if_true, St.goto]
    exact h12.trans h4

/-! ## The main result -/

/-- In every run from kinit each page kinit put on the lists is on one list or with one
    caller, and a kalloc that runs alone fails only when all lists are empty. -/
theorem pages_conserved {m : Mem} {k0 : Kmem} (h0 : kinit E (boot m) = .ok k0) {s : St} (hr : Reach E k0 s) :
    ∃ ls : Nat → List Nat,
      (∀ id < NCPU, Chain s.k.mem (s.k.freelist id) (ls id) ∧ (ls id).Nodup ∧ ∀ p ∈ ls id, p ≠ 0) ∧
      (∀ id < NCPU, ∀ id' < NCPU, id ≠ id' → (ls id).Disjoint (ls id')) ∧
      (∀ p, OnList k0 p ↔ (∃ id < NCPU, p ∈ ls id) ∨ Held s p) ∧
      (∀ p, Held s p → ∀ id < NCPU, p ∉ ls id) ∧
      s.returned.Nodup ∧
      (∀ t r, s.pc t = .fill r → r ∉ s.returned ∧ ∀ u, u ≠ t → (s.pc u).page ≠ some r) ∧
      ∀ cid < NCPU, ((kalloc cid s.k).1 = 0 ↔ ∀ id < NCPU, ls id = []) ∧
        ∀ t, s.pc t = .idle → ReflTransGen (Section E t) s ((s.returns (kalloc cid s.k)).goto t .idle) := by
  obtain ⟨k, ls0, e, hl, -⟩ := kinit_spec E m
  obtain rfl : k0 = k := by simpa [h0] using e
  obtain ⟨ls, place, h⟩ := hr.inv hl
  have hheld : ∀ p, Held s p ↔ (∃ id < NCPU, p ∈ ls0 id) ∧ ∀ id, place p ≠ .list id := by
    intro p
    constructor
    · rintro (hp | ⟨t, hp⟩)
      · exact ⟨((h.caller p).mp hp).1, by simp [((h.caller p).mp hp).2]⟩
      · exact ⟨((h.call t p).mp hp).1, by simp [((h.call t p).mp hp).2]⟩
    · rintro ⟨hp, hpl⟩
      cases hc : place p with
      | list id => exact absurd hc (hpl id)
      | caller => exact Or.inl ((h.caller p).mpr ⟨hp, hc⟩)
      | call t => exact Or.inr ⟨t, (h.call t p).mpr ⟨hp, hc⟩⟩
  refine ⟨ls, fun id hid => ⟨h.lists.chain id hid, h.lists.nodup id hid,
    fun p hp => (h.lists.page id hid p hp).ne_zero⟩,
    fun id hid id' hid' hne p hp => h.lists.apart id hid id' hid' hne p hp, fun p => ?_,
      fun p hp => h.off_lists ((hheld p).mp hp).2, h.nodup,
    fun t r ht => ?_, fun cid hc => ⟨kalloc_zero h.lists hc, fun t ht => kalloc_alone t cid s ht hc⟩⟩
  · rw [hl.onList, hheld]
    constructor
    · intro hp
      by_cases hpl : ∃ id, place p = .list id
      · obtain ⟨id, hpl⟩ := hpl
        have hid := h.bound p id hp hpl
        exact Or.inl ⟨id, hid, (h.onList id hid p).mpr ⟨hp, hpl⟩⟩
      · exact Or.inr ⟨hp, fun id e => hpl ⟨id, e⟩⟩
    · rintro (⟨id, hid, hp⟩ | ⟨hp, -⟩)
      · exact ((h.onList id hid p).mp hp).1
      · exact hp
  · obtain ⟨-, hpl, -⟩ := h.inHand (t := t) (p := r) (by simp [ht, Pc.page])
    constructor
    · intro hm
      have := ((h.caller r).mp hm).2
      simp [hpl] at this
    · intro u hu e
      have := ((h.call u r).mp e).2
      simp only [hpl, Place.call.injEq] at this
      exact hu this.symm

theorem Reach.sections {k0 : Kmem} {t : Nat} {s s' : St} (hr : Reach E k0 s) (h : ReflTransGen (Section E t) s s') :
    Reach E k0 s' := by
  induction h with
  | refl => exact hr
  | tail _ hs ih => exact ih.step (.run t hs)

/-- Process 1 has a page, and process 2 is in kalloc. -/
theorem pages_conserved_one_held : ∃ (E : Link) (k0 : Kmem) (s : St) (ls : Nat → List Nat) (p : Nat),
    kinit E (boot fun _ => 0) = .ok k0 ∧ Reach E k0 s ∧ s.returned = [p] ∧ s.pc 2 = .own 3 ∧ OnList k0 p ∧
      (∀ id < NCPU, p ∉ ls id) ∧
    ∀ q, OnList k0 q ↔ (∃ id < NCPU, q ∈ ls id) ∨ Held s q := by
  let E : Link := ⟨⟨0x80022000, by decide⟩, by decide⟩
  obtain ⟨k0, ls0, e, hl, hq⟩ := kinit_spec E fun _ => 0
  obtain ⟨id, hid, hm⟩ : Listed ls0 0x80022000 := (hq _).mpr ⟨0, by decide, by decide, by decide, by decide⟩
  have hne : (kalloc 3 k0).1 ≠ 0 := fun h => by
    rw [(kalloc_zero hl (by decide)).mp h id hid] at hm
    cases hm
  have hr := Reach.start.sections (kalloc_alone (E := E) 1 3 ⟨k0, fun _ => .idle, []⟩ rfl (by decide))
  generalize hs : (St.returns ⟨k0, fun _ => .idle, []⟩ (kalloc 3 k0)).goto 1 .idle = s at hr
  have hret : s.returned = [(kalloc 3 k0).1] := by rw [← hs]; exact if_pos hne
  have hidle : s.pc 2 = .idle := by rw [← hs]; rfl
  have hr2 := hr.step (.run 2 (.kalloc s 3 hidle (by decide)))
  obtain ⟨ls, -, -, h, hoff, -⟩ := pages_conserved e hr2
  have hheld : Held (s.goto 2 (.own 3)) (kalloc 3 k0).1 :=
    Or.inl (by rw [show (s.goto 2 (.own 3)).returned = _ from hret]; exact List.mem_singleton_self _)
  exact ⟨E, k0, _, ls, _, e, hr2, hret, by simp [St.goto], (h _).mpr (Or.inr hheld), hoff _ hheld, h⟩

/-- The two panics of kfree are not reached. -/
theorem kfree_goes_on {m : Mem} {k0 : Kmem} (h0 : kinit E (boot m) = .ok k0) {s : St} (hr : Reach E k0 s) {t pa : Nat}
    (ht : (s.pc t).page = some pa) : ¬ badPage E pa ∧ ∃ tid < NCPU, pa2cpuid E pa = some tid := by
  obtain ⟨k, ls0, e, hl, -⟩ := kinit_spec E m
  obtain rfl : k0 = k := by simpa [h0] using e
  obtain ⟨ls, place, h⟩ := hr.inv hl
  have hp := h.page pa ((h.call t pa).mp ht).1
  exact ⟨hp.not_bad, pa2cpuid_spec hp⟩

end Xv6Labs.Locks
