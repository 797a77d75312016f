/-
  Xv6Labs.Vm.Kvm — the kernel's page table.

  kvmmake and kvmmap of vm.c and proc_mapstacks of proc.c, which run once, at boot. A `Region`
  is a run of pages and where they are mapped to; `look` reads a list of regions as a map.
  `etext` and `trampoline` are kernel.ld's.

  - `kvmmap_shown`: one more region beside others.
  - `kernel_map`: kvmmake returns exactly if it finds 136 free pages, and then its table maps the
    kernel's regions and no other page.
-/

import Xv6Labs.Vm.Maps

namespace Xv6Labs.Plain

open Lib Vm

abbrev UART0 : Nat := 0x10000000
abbrev VIRTIO0 : Nat := 0x10001000
abbrev PLIC : Nat := 0x0c000000
abbrev NPROC : Nat := 64

def KSTACK (p : Nat) : Nat := TRAMPOLINE - p * 2 * PGSIZE - 3 * PGSIZE

/-! ## The code -/

section

variable (I : Image)

def kvmmap (kpgtbl va pa sz perm : Nat) (s : Mach Kmem) : Except String (Mach Kmem) := do
  let (r, s) ← Vm.mappages (lab I false) kpgtbl va sz pa perm s
  if r ≠ 0 then .error "kvmmap" else .ok s

/-- Process `p` and the `n - 1` after it. -/
def proc_mapstacks (kpgtbl : Nat) : Nat → Nat → Mach Kmem → Except String (Mach Kmem)
  | 0, _, s => .ok s
  | n + 1, p, s =>
    match kalloc s with
    | (none, _) => .error "kalloc"
    | (some pa, s) => do
      let s ← kvmmap I kpgtbl (KSTACK p) pa PGSIZE (PTE_R ||| PTE_W) s
      proc_mapstacks kpgtbl n (p + 1) s

/-- A null pointer from kalloc goes to memset, and there is no memory at 0. -/
def kvmmake (etext trampoline : Nat) (s : Mach Kmem) : Except String (Nat × Mach Kmem) :=
  match kalloc s with
  | (none, _) => .error "store access fault"
  | (some kpgtbl, s) => do
    let s ← kvmmap I kpgtbl UART0 UART0 PGSIZE (PTE_R ||| PTE_W) { s with mem := s.mem.set kpgtbl 0 PGSIZE }
    let s ← kvmmap I kpgtbl VIRTIO0 VIRTIO0 PGSIZE (PTE_R ||| PTE_W) s
    let s ← kvmmap I kpgtbl PLIC PLIC 0x400000 (PTE_R ||| PTE_W) s
    let s ← kvmmap I kpgtbl KERNBASE KERNBASE (etext - KERNBASE) (PTE_R ||| PTE_X) s
    let s ← kvmmap I kpgtbl etext etext (PHYSTOP - etext) (PTE_R ||| PTE_W) s
    let s ← kvmmap I kpgtbl TRAMPOLINE trampoline PGSIZE (PTE_R ||| PTE_X) s
    let s ← proc_mapstacks I kpgtbl NPROC 0 s
    .ok (kpgtbl, s)

end

/-! ## Regions -/

structure Region where
  va : Nat
  pa : Nat
  pages : Nat
  perm : Nat

namespace Region

variable {r r' : Region}

def covers (r : Region) (v : Nat) : Bool := decide (InRange (r.va / 4096) r.pages v)

def entry (r : Region) (v : Nat) : Nat := mkpte (r.pa + 4096 * (v - r.va / 4096)) r.perm

/-- mappages takes it. -/
structure Ok (r : Region) : Prop where
  pos : 0 < r.pages
  va : r.va % 4096 = 0
  pa : r.pa % 4096 = 0
  top : r.va + 4096 * r.pages ≤ MAXVA
  bits : r.pa + 4096 * r.pages < 2 ^ 56
  perm : r.perm < 1024
  rwx : r.perm &&& (PTE_R ||| PTE_W ||| PTE_X) ≠ 0

def Apart (r r' : Region) : Prop := r.va + 4096 * r.pages ≤ r'.va ∨ r'.va + 4096 * r'.pages ≤ r.va

theorem Apart.covers (h : r.Apart r') (h1 : r.Ok) (h2 : r'.Ok) {v : Nat} (hv : r'.covers v = true) :
    r.covers v = false := by
  have e1 := h1.va
  have e2 := h2.va
  have hv : InRange (r'.va / 4096) r'.pages v := of_decide_eq_true hv
  refine decide_eq_false fun hr => ?_
  unfold InRange at hv hr
  unfold Apart at h
  omega

end Region

/-- The entry of the first region around the page. -/
def look (rs : List Region) (v : Nat) : Option Nat := (rs.find? (·.covers v)).map (·.entry v)

theorem look_none {rs : List Region} {v : Nat} (h : ∀ r ∈ rs, r.covers v = false) : look rs v = none := by
  unfold look
  rw [List.find?_eq_none.mpr fun r hr => by rw [h r hr]; exact Bool.false_ne_true]
  rfl

theorem look_append (rs : List Region) (r : Region) (v : Nat) :
    look (rs ++ [r]) v = (look rs v).or (if r.covers v then some (r.entry v) else none) := by
  unfold look
  rw [List.find?_append]
  cases rs.find? (·.covers v) with
  | none =>
    unfold List.find?
    cases r.covers v <;> rfl
  | some x => rfl

theorem look_some {rs : List Region} {v w : Nat} (h : look rs v = some w) : ∃ r ∈ rs, r.covers v = true ∧
    w = r.entry v := by
  unfold look at h
  obtain ⟨r, hr, rfl⟩ := Option.map_eq_some_iff.mp h
  exact ⟨r, List.mem_of_find?_eq_some hr, by simpa using List.find?_some hr, rfl⟩

/-- The table maps the regions, and nothing else. -/
def Shown (m : Mem) (t : Nat) (rs : List Region) : Prop := ∀ v < VPN, lookup m t v = look rs v

variable {I : Image} {s : Mach Kmem} {t : Nat} {free : List Nat} {rs : List Region}

/-- Want of memory. -/
def Starved (e : String) : Prop := e = "kvmmap" ∨ e = "kalloc" ∨ e = "store access fault"

theorem kvmmap_shown (h : Inv I s t free) (hs : Shown s.mem t rs) (hok : ∀ x ∈ rs, x.Ok) {r : Region} (hr : r.Ok)
    (hnew : ∀ x ∈ rs, x.Apart r)
    {N : Finset (Nat × Nat)} {c : Nat} (hN : ∀ v, r.covers v = true → Wants N v) (hc : Counted s.mem t N free c) :
    Ends (fun e => Starved e ∧ c < N.card) (fun s' => ∃ free', Inv I s' t free' ∧ free' <:+ free ∧
      Shown s'.mem t (rs ++ [r]) ∧ Counted s'.mem t N free' c)
      (kvmmap I t r.va r.pa (4096 * r.pages) r.perm s) := by
  obtain ⟨hpos, hva, hpa, htop, hbits, hperm, hrwx⟩ := hr
  unfold MAXVA at htop
  have e1 : u64 (r.va + 4096 * r.pages - 1) = r.va + 4096 * r.pages - 1 := u64_of_lt (by omega)
  have e2 : PGROUNDDOWN r.va = r.va := by
    unfold PGROUNDDOWN PGSIZE
    omega
  have e3 : u64 (PGROUNDDOWN (r.va + 4096 * r.pages - 1) + 2 ^ 64 - r.va) / PGSIZE = r.pages - 1 := by
    unfold PGROUNDDOWN PGSIZE u64
    omega
  have hfree : ∀ v, InRange (r.va / 4096) r.pages v → lookup s.mem t v = none := fun v hv => by
    have hlt : v < VPN := by
      unfold InRange at hv
      unfold VPN
      omega
    rw [hs v hlt]
    exact look_none fun x hx => (hnew x hx).covers (hok x hx) ⟨hpos, hva, hpa, htop, hbits, hperm, hrwx⟩
      (decide_eq_true hv)
  obtain ⟨ret, s', free', k, e, h', hsuf, hm, hcount, hret⟩ :=
    mappagesLoop_spec (I := I) (b := false) hperm hrwx (r.pages - 1) r.va r.pa s free h hva
    (by unfold MAXVA; omega) (by omega) fun i hi => hfree _ (by unfold InRange; omega)
  have emap : Vm.mappages (lab I false) t r.va (4096 * r.pages) r.pa r.perm s = .ok (ret, s') := by
    unfold Vm.mappages
    rw [if_neg (by omega), e1, e2]
    dsimp only
    rw [e3]
    exact e
  obtain ⟨hc', hshort⟩ := hcount N c (fun i hi => hN _ (decide_eq_true (by unfold InRange; omega))) hc
  unfold kvmmap
  rw [emap, ok_bind]
  dsimp only
  rcases hret with ⟨rfl, hk⟩ | ⟨rfl, -⟩
  · refine ⟨free', h', hsuf, fun v hv => ?_, hc'⟩
    rw [hm v hv, look_append, hs v hv]
    have hcov : r.covers v = decide (InRange (r.va / 4096) k v) := by
      unfold Region.covers
      rw [hk, Nat.sub_add_cancel hpos]
    rw [hcov]
    by_cases hin : InRange (r.va / 4096) k v
    · have hnone : look rs v = none := by
        rw [← hs v hv]
        exact hfree v (by rw [hk, Nat.sub_add_cancel hpos] at hin; exact hin)
      rw [if_pos hin, hnone, if_pos (decide_eq_true hin)]
      rfl
    · rw [if_neg hin, if_neg (by rw [decide_eq_true_eq]; exact hin), Option.or_none]
  · exact ⟨Or.inl rfl, hshort rfl⟩

/-! ## The kernel's regions -/

/-- What kernel.ld fixes: the text ends on a page of RAM, and the trampoline is a page of it. -/
structure Link (etext trampoline : Nat) : Prop where
  text : KERNBASE < etext
  ram : etext < PHYSTOP
  aligned : etext % 4096 = 0
  tramp : trampoline % 4096 = 0
  inText : KERNBASE ≤ trampoline ∧ trampoline < etext

/-- Devices, text, data and the trampoline. -/
def fixedRegions (etext trampoline : Nat) : List Region :=
  [⟨UART0, UART0, 1, PTE_R ||| PTE_W⟩, ⟨VIRTIO0, VIRTIO0, 1, PTE_R ||| PTE_W⟩, ⟨PLIC, PLIC, 1024, PTE_R ||| PTE_W⟩,
    ⟨KERNBASE, KERNBASE, (etext - KERNBASE) / 4096, PTE_R ||| PTE_X⟩,
      ⟨etext, etext, (PHYSTOP - etext) / 4096, PTE_R ||| PTE_W⟩,
    ⟨TRAMPOLINE, trampoline, 1, PTE_R ||| PTE_X⟩]

def stackRegion (p pa : Nat) : Region := ⟨KSTACK p, pa, 1, PTE_R ||| PTE_W⟩

/-- The stacks of the processes from 0 on. -/
def stackRegions (kstacks : List Nat) : List Region := kstacks.mapIdx stackRegion

variable {etext trampoline : Nat}

theorem Link.ok (h : Link etext trampoline) : ∀ r ∈ fixedRegions etext trampoline, r.Ok := by
  obtain ⟨h1, h2, h3, h4, h5⟩ := h
  unfold KERNBASE at h1 h5
  unfold PHYSTOP KERNBASE at h2
  have hRW : PTE_R ||| PTE_W < 1024 ∧ (PTE_R ||| PTE_W) &&& (PTE_R ||| PTE_W ||| PTE_X) ≠ 0 := by decide
  have hRX : PTE_R ||| PTE_X < 1024 ∧ (PTE_R ||| PTE_X) &&& (PTE_R ||| PTE_W ||| PTE_X) ≠ 0 := by decide
  intro r hr
  simp only [fixedRegions, List.mem_cons, List.not_mem_nil, or_false] at hr
  rcases hr with rfl | rfl | rfl | rfl | rfl | rfl
  · exact ⟨by decide, by decide, by decide, by decide, by decide, hRW.1, hRW.2⟩
  · exact ⟨by decide, by decide, by decide, by decide, by decide, hRW.1, hRW.2⟩
  · exact ⟨by decide, by decide, by decide, by decide, by decide, hRW.1, hRW.2⟩
  · refine ⟨?_, (by decide : KERNBASE % 4096 = 0), (by decide : KERNBASE % 4096 = 0), ?_, ?_, hRX.1,
      hRX.2⟩ <;> dsimp only [KERNBASE, MAXVA] <;> omega
  · refine ⟨?_, h3, h3, ?_, ?_, hRW.1, hRW.2⟩ <;> dsimp only [PHYSTOP, KERNBASE, MAXVA] <;> omega
  · refine ⟨Nat.one_pos, (by decide : TRAMPOLINE % 4096 = 0), h4, (by decide : TRAMPOLINE + 4096 * 1 ≤ MAXVA), ?_,
      hRX.1, hRX.2⟩
    dsimp only
    omega

theorem kstack_eq {p : Nat} (h : p < NPROC) : KSTACK p = (2 ^ 26 - 4 - 2 * p) * 4096 := by
  unfold NPROC at h
  unfold KSTACK TRAMPOLINE MAXVA PGSIZE
  omega

theorem stack_ok {p pa : Nat} (hp : p < NPROC) (h : Page I pa) : (stackRegion p pa).Ok := by
  obtain ⟨h1, -, h2⟩ := h
  unfold PHYSTOP KERNBASE at h2
  have e := kstack_eq hp
  unfold NPROC at hp
  have hRW : PTE_R ||| PTE_W < 1024 ∧ (PTE_R ||| PTE_W) &&& (PTE_R ||| PTE_W ||| PTE_X) ≠ 0 := by decide
  refine ⟨Nat.one_pos, ?_, h1, ?_, ?_, hRW.1, hRW.2⟩
  · show KSTACK p % 4096 = 0
    omega
  · show KSTACK p + 4096 * 1 ≤ 2 ^ 38
    omega
  · show pa + 4096 * 1 < 2 ^ 56
    omega

theorem Link.stack_apart (h : Link etext trampoline) {p : Nat} (hp : p < NPROC) (pa : Nat) :
    ∀ r ∈ fixedRegions etext trampoline, r.Apart (stackRegion p pa) := by
  obtain ⟨h1, h2, -, -, -⟩ := h
  unfold KERNBASE at h1
  unfold PHYSTOP KERNBASE at h2
  have e := kstack_eq hp
  unfold NPROC at hp
  have hlow : ∀ x, x < 2 ^ 32 → x ≤ KSTACK p := fun x hx => by omega
  intro r hr
  simp only [fixedRegions, List.mem_cons, List.not_mem_nil, or_false] at hr
  rcases hr with rfl | rfl | rfl | rfl | rfl | rfl
  · exact Or.inl (hlow _ (by decide))
  · exact Or.inl (hlow _ (by decide))
  · exact Or.inl (hlow _ (by decide))
  · refine Or.inl (hlow _ ?_)
    dsimp only [KERNBASE]
    omega
  · refine Or.inl (hlow _ ?_)
    dsimp only [PHYSTOP, KERNBASE]
    omega
  · refine Or.inr ?_
    show KSTACK p + 4096 * 1 ≤ 2 ^ 38 - 4096
    omega

theorem stacks_apart {p q pa pa' : Nat} (hp : p < NPROC) (hq : q < p) :
    (stackRegion q pa').Apart (stackRegion p pa) := by
  have e1 := kstack_eq hp
  have e2 := kstack_eq (Nat.lt_trans hq hp)
  unfold NPROC at hp
  refine Or.inr ?_
  show KSTACK p + 4096 * 1 ≤ KSTACK q
  omega

theorem mem_stackRegions {kstacks : List Nat} {r : Region} (h : r ∈ stackRegions kstacks) :
    ∃ q pa, q < kstacks.length ∧ pa ∈ kstacks ∧ r = stackRegion q pa := by
  obtain ⟨q, hq, rfl⟩ := List.mem_mapIdx.mp h
  exact ⟨q, kstacks[q], hq, List.getElem_mem hq, rfl⟩

/-! ## The tables -/

/-- The places of the kernel's tables, by depth: the devices', the text's and the data's, and the
    one at the top with the trampoline and the stacks. -/
def tablePlaces : Finset (Nat × Nat) :=
  {(0, 0), (1, 0), (1, 2), (1, 255), (2, 96), (2, 97), (2, 128), (2, 131071)} ∪ (Finset.range 64).image fun k =>
    (2, 1024 + k)

theorem tablePlaces_card : tablePlaces.card = 72 := by decide +kernel

theorem mem_tablePlaces (d i : Nat) : (d, i) ∈ tablePlaces ↔ d = 0 ∧ i = 0 ∨ d = 1 ∧ (i = 0 ∨ i = 2 ∨ i = 255) ∨
    d = 2 ∧ (i = 96 ∨ i = 97 ∨ i = 128 ∨ i = 131071 ∨ 1024 ≤ i ∧ i < 1088) := by
  unfold tablePlaces
  rw [Finset.mem_union, Finset.mem_image]
  constructor
  · intro h
    rcases h with h | h
    · simp only [Finset.mem_insert, Finset.mem_singleton, Prod.mk.injEq] at h
      rcases h with h | h | h | h | h | h | h | h
      · exact Or.inl h
      · exact Or.inr (Or.inl ⟨h.1, Or.inl h.2⟩)
      · exact Or.inr (Or.inl ⟨h.1, Or.inr (Or.inl h.2)⟩)
      · exact Or.inr (Or.inl ⟨h.1, Or.inr (Or.inr h.2)⟩)
      · exact Or.inr (Or.inr ⟨h.1, Or.inl h.2⟩)
      · exact Or.inr (Or.inr ⟨h.1, Or.inr (Or.inl h.2)⟩)
      · exact Or.inr (Or.inr ⟨h.1, Or.inr (Or.inr (Or.inl h.2))⟩)
      · exact Or.inr (Or.inr ⟨h.1, Or.inr (Or.inr (Or.inr (Or.inl h.2)))⟩)
    · obtain ⟨k, hk, e⟩ := h
      obtain ⟨rfl, rfl⟩ := Prod.mk.inj e
      have hk := Finset.mem_range.mp hk
      exact Or.inr (Or.inr ⟨rfl, Or.inr (Or.inr (Or.inr (Or.inr (by omega))))⟩)
  · intro h
    rcases h with ⟨rfl, rfl⟩ | ⟨rfl, rfl | rfl | rfl⟩ | ⟨rfl, rfl | rfl | rfl | rfl | hi⟩
    · exact Or.inl (by decide)
    · exact Or.inl (by decide)
    · exact Or.inl (by decide)
    · exact Or.inl (by decide)
    · exact Or.inl (by decide)
    · exact Or.inl (by decide)
    · exact Or.inl (by decide)
    · exact Or.inl (by decide)
    · have hk : 1024 + (i - 1024) = i := by omega
      exact Or.inr ⟨i - 1024, Finset.mem_range.mpr (by omega), by rw [hk]⟩

/-- A page whose level-0 table is among them. -/
theorem wants_tablePlaces {v : Nat} (h : v / 512 = 96 ∨ v / 512 = 97 ∨ v / 512 = 128 ∨ v / 512 = 131071 ∨
    1024 ≤ v / 512 ∧ v / 512 < 1088) :
    Wants tablePlaces v := by
  have hroot : v / 512 ^ (3 - 0) = v / 512 / 512 / 512 := by omega
  have hmid : v / 512 ^ (3 - 1) = v / 512 / 512 := by omega
  have hlow : v / 512 ^ (3 - 2) = v / 512 := by omega
  intro d hd
  rw [mem_tablePlaces]
  have hcases : d = 0 ∨ d = 1 ∨ d = 2 := by omega
  rcases hcases with rfl | rfl | rfl
  · rw [hroot]
    refine Or.inl ⟨rfl, ?_⟩
    rcases h with h | h | h | h | h <;> omega
  · rw [hmid]
    refine Or.inr (Or.inl ⟨rfl, ?_⟩)
    rcases h with h | h | h | h | h
    · exact Or.inl (by omega)
    · exact Or.inl (by omega)
    · exact Or.inl (by omega)
    · exact Or.inr (Or.inr (by omega))
    · exact Or.inr (Or.inl (by omega))
  · rw [hlow]
    exact Or.inr (Or.inr ⟨rfl, h⟩)

theorem Link.wants (h : Link etext trampoline) : ∀ r ∈ fixedRegions etext trampoline, ∀ v, r.covers v = true →
    Wants tablePlaces v := by
  obtain ⟨h1, h2, h3, -, -⟩ := h
  unfold KERNBASE at h1
  unfold PHYSTOP KERNBASE at h2
  intro r hr v hv
  have hv : InRange (r.va / 4096) r.pages v := of_decide_eq_true hv
  simp only [fixedRegions, List.mem_cons, List.not_mem_nil, or_false] at hr
  unfold InRange at hv
  have hram : 1024 ≤ v / 512 → v / 512 < 1088 → Wants tablePlaces v :=
    fun hlo hhi => wants_tablePlaces (Or.inr (Or.inr (Or.inr (Or.inr ⟨hlo, hhi⟩))))
  rcases hr with rfl | rfl | rfl | rfl | rfl | rfl <;> dsimp only [UART0, VIRTIO0, PLIC, KERNBASE, PHYSTOP,
    TRAMPOLINE, MAXVA, PGSIZE] at hv
  · exact wants_tablePlaces (Or.inr (Or.inr (Or.inl (by omega))))
  · exact wants_tablePlaces (Or.inr (Or.inr (Or.inl (by omega))))
  · have hcases : v / 512 = 96 ∨ v / 512 = 97 := by omega
    exact wants_tablePlaces (hcases.imp_right Or.inl)
  · exact hram (by omega) (by omega)
  · exact hram (by omega) (by omega)
  · exact wants_tablePlaces (Or.inr (Or.inr (Or.inr (Or.inl (by omega)))))

theorem stack_wants {p : Nat} (hp : p < NPROC) (pa : Nat) : ∀ v, (stackRegion p pa).covers v = true →
    Wants tablePlaces v := by
  intro v hv
  have hv : InRange (KSTACK p / 4096) 1 v := of_decide_eq_true hv
  have e := kstack_eq hp
  unfold NPROC at hp
  unfold InRange at hv
  exact wants_tablePlaces (Or.inr (Or.inr (Or.inr (Or.inl (by omega)))))

theorem Counted.le {N : Finset (Nat × Nat)} {m : Mem} {c : Nat} (h : Counted m t N [] c) : c ≤ N.card := by
  obtain ⟨T, hT, -, rfl⟩ := h
  exact Finset.card_le_card hT

/-- A page of the list that is put to another use. -/
theorem Counted.drop {N : Finset (Nat × Nat)} {m : Mem} {c p : Nat} (h : Counted m t N (p :: free) c) :
    ∃ c', c = c' + 1 ∧ Counted m t N free c' := by
  obtain ⟨T, hT, hmem, rfl⟩ := h
  exact ⟨T.card + free.length, rfl, T, hT, hmem, rfl⟩

/-- Where every place is taken. -/
theorem Counted.full {N : Finset (Nat × Nat)} {m : Mem} {c : Nat} (h : Counted m t N free c)
    (hall : ∀ d i, (d, i) ∈ N → d ≤ 2 ∧ (tableAt m t d i).isSome = true) : N.card ≤ c := by
  obtain ⟨T, -, hmem, rfl⟩ := h
  have hsub : N ⊆ T := fun x hx => (hmem x.1 x.2).mpr (hall x.1 x.2 hx)
  exact Nat.le_trans (Finset.card_le_card hsub) (Nat.le_add_right _ _)

/-! ## The stacks -/

/-- kalloc for a page that is no table. -/
theorem Inv.taken {p : Nat} {l : List Nat} (h : Inv I s t (p :: l))
    (hl : FreeList I { s with mem := s.mem.set p 5 4096, kmem := { s.kmem with freelist := s.mem.loadLE p 8 } } l) :
    Inv I { s with mem := s.mem.set p 5 4096, kmem := { s.kmem with freelist := s.mem.loadLE p 8 } } t l ∧
      (∀ v < VPN, lookup (s.mem.set p 5 4096) t v = lookup s.mem t v) ∧ ∀ d ≤ 2, ∀ i,
        tableAt (s.mem.set p 5 4096) t d i = tableAt s.mem t d i := by
  have hp := (h.list.page p List.mem_cons_self).isPage
  have hfr : ∀ d ≤ 2, ∀ i q, tableAt s.mem t d i = some q → Mem.Agree s.mem (s.mem.set p 5 4096) q 4096 :=
    fun d hd i q hq => by
    have hne : q ≠ p := fun e => h.tree.apart d hd i q hq (by rw [e]; exact List.mem_cons_self)
    exact agree_set_page s.mem 5 (h.tree.page d hd i q hq).1 hp.1 hne
  obtain ⟨h1, lf⟩ := h.tree.frame hfr
  exact ⟨⟨hl, h1.page, h1.distinct, fun d hd i q hq hm => h1.apart d hd i q hq (List.mem_cons_of_mem p hm), h1.leaf⟩,
    fun v hv => lookup_congr (lf v hv),
    tableAt_frame fun d hd => hfr d (Nat.le_of_lt hd)⟩

theorem proc_mapstacks_shown {base : List Region} (hbase : ∀ r ∈ base, r.Ok)
    (hap : ∀ p < NPROC, ∀ pa, ∀ r ∈ base, r.Apart (stackRegion p pa)) :
    ∀ n kstacks (s : Mach Kmem) free c, kstacks.length + n ≤ NPROC → Inv I s t free →
      Shown s.mem t (base ++ stackRegions kstacks) →
      kstacks.Nodup → (∀ q ∈ kstacks, Page I q ∧ q ∉ free) → Counted s.mem t tablePlaces free c →
      Ends (fun e => Starved e ∧ c < tablePlaces.card + n) (fun s' => ∃ all, all.length = kstacks.length + n ∧
        all.Nodup ∧ (∀ q ∈ all, Page I q) ∧
        Shown s'.mem t (base ++ stackRegions all) ∧ ∃ free' c', c = c' + n ∧
          Counted s'.mem t tablePlaces free' c') (proc_mapstacks I t n kstacks.length s) := by
  intro n
  induction n with
  | zero => exact fun kstacks s free c _ _ hs hnd hpg hc =>
      ⟨kstacks, rfl, hnd, fun q hq => (hpg q hq).1, hs, free, c, rfl, hc⟩
  | succ n ih =>
    intro kstacks s free c hlen h hs hnd hpg hc
    unfold proc_mapstacks
    rcases h.list.kalloc with ⟨rfl, e⟩ | ⟨p, l, rfl, e, hl⟩
    · rw [e]
      exact ⟨Or.inr (Or.inl rfl), by have := hc.le; omega⟩
    · rw [e]
      dsimp only
      obtain ⟨hi, hlook, htab⟩ := h.taken hl
      obtain ⟨c, rfl, hdrop⟩ := hc.drop
      have hp := h.list.page p List.mem_cons_self
      have hpl := (List.nodup_cons.mp h.list.nodup).1
      have hlt : kstacks.length < NPROC := by omega
      have hok : ∀ x ∈ base ++ stackRegions kstacks, x.Ok ∧ x.Apart (stackRegion kstacks.length p) := fun x hx => by
        rcases List.mem_append.mp hx with hx | hx
        · exact ⟨hbase x hx, hap _ hlt p x hx⟩
        · obtain ⟨q, pa, hq, hpa, rfl⟩ := mem_stackRegions hx
          exact ⟨stack_ok (Nat.lt_trans hq hlt) (hpg pa hpa).1, stacks_apart hlt hq⟩
      have hmap := kvmmap_shown hi (fun v hv => (hlook v hv).trans (hs v hv)) (fun x hx => (hok x hx).1)
        (stack_ok hlt hp) (fun x hx => (hok x hx).2)
        (stack_wants hlt p) (hdrop.frame htab)
      refine (hmap.mono (fun e he => ⟨he.1, by have := he.2; omega⟩) fun _ h => h).bind fun s1 h1 => ?_
      obtain ⟨free', hi1, hsuf, hs1, hc1⟩ := h1
      have hnew : p ∉ kstacks := fun hm => (hpg p hm).2 List.mem_cons_self
      have hregions : base ++ stackRegions kstacks ++ [stackRegion kstacks.length p] =
        base ++ stackRegions (kstacks ++ [p]) := by
        unfold stackRegions
        rw [List.mapIdx_concat, List.append_assoc]
      have hnext := ih (kstacks ++ [p]) s1 free' c
        (by rw [List.length_append]; show kstacks.length + 1 + n ≤ NPROC; omega) hi1 (hregions ▸ hs1)
        (List.nodup_append.mpr ⟨hnd, List.nodup_singleton p,
          fun a ha b hb => by rw [List.mem_singleton.mp hb]; exact fun e => hnew (e ▸ ha)⟩) (fun q hq => ?_) hc1
      · rw [List.length_append] at hnext
        have hsum : kstacks.length + 1 + n = kstacks.length + (n + 1) := by omega
        rw [show kstacks.length + [p].length + n = kstacks.length + (n + 1) from hsum] at hnext
        refine hnext.mono (fun e he => ⟨he.1, by have := he.2; omega⟩) fun s' hs' => ?_
        obtain ⟨all, h1, h2, h3, h4, free2, c2, rfl, h5⟩ := hs'
        exact ⟨all, h1, h2, h3, h4, free2, c2, rfl, h5⟩
      · rcases List.mem_append.mp hq with hq | hq
        · exact ⟨(hpg q hq).1, fun hm => (hpg q hq).2 (List.mem_cons_of_mem p (hsuf.subset hm))⟩
        · rw [List.mem_singleton.mp hq]
          exact ⟨hp, fun hm => hpl (hsuf.subset hm)⟩

/-! ## kvmmake -/

theorem Link.apart (h : Link etext trampoline) : (fixedRegions etext trampoline).Pairwise Region.Apart := by
  obtain ⟨h1, h2, h3, -, -⟩ := h
  unfold KERNBASE at h1
  unfold PHYSTOP KERNBASE at h2
  simp only [fixedRegions, List.pairwise_cons, List.mem_cons, List.not_mem_nil, or_false, forall_eq_or_imp, forall_eq,
    Region.Apart, UART0, VIRTIO0, PLIC,
    KERNBASE, PHYSTOP, TRAMPOLINE, MAXVA, PGSIZE, IsEmpty.forall_iff, implies_true, List.Pairwise.nil, and_true]
  omega

/-- The next of the kernel's regions. -/
theorem Link.enter (hl : Link etext trampoline) (rs : List Region) (r : Region)
    (hpre : rs ++ [r] <+: fixedRegions etext trampoline) (h : Inv I s t free)
    (hs : Shown s.mem t rs) {c : Nat} (hc : Counted s.mem t tablePlaces free c) :
    Ends (fun e => Starved e ∧ c < tablePlaces.card + NPROC)
      (fun s' => ∃ free', Inv I s' t free' ∧ Shown s'.mem t (rs ++ [r]) ∧ Counted s'.mem t tablePlaces free' c)
      (kvmmap I t r.va r.pa (4096 * r.pages) r.perm s) := by
  have hok : ∀ x ∈ rs ++ [r], x.Ok := fun x hx => hl.ok x (hpre.subset hx)
  have hap := (List.pairwise_append.mp (hl.apart.sublist hpre.sublist)).2.2
  have hlast : r ∈ rs ++ [r] := List.mem_append_right _ (List.mem_singleton_self r)
  have hmap := kvmmap_shown h hs (fun x hx => hok x (List.mem_append_left _ hx)) (hok r hlast)
    (fun x hx => hap x hx r (List.mem_singleton_self r)) (hl.wants r (hpre.subset hlast)) hc
  refine hmap.mono (fun e he => ⟨he.1, Nat.lt_of_lt_of_le he.2 (Nat.le_add_right _ _)⟩) fun s' hs' => ?_
  obtain ⟨free', h', -, hs', hc'⟩ := hs'
  exact ⟨free', h', hs', hc'⟩

/-- All regions of the kernel. -/
def kernelRegions (etext trampoline : Nat) (kstacks : List Nat) : List Region :=
  fixedRegions etext trampoline ++ stackRegions kstacks

theorem kvmmake_shown (hl : Link etext trampoline) (hf : FreeList I s free) :
    Ends (fun e => Starved e ∧ free.length < tablePlaces.card + NPROC) (fun x => ∃ kstacks : List Nat,
      kstacks.length = NPROC ∧ kstacks.Nodup ∧
      (∀ q ∈ kstacks, Page I q) ∧ Shown x.2.mem x.1 (kernelRegions etext trampoline kstacks) ∧
      ∃ free' c, free.length = c + NPROC ∧ Counted x.2.mem x.1 tablePlaces free' c)
        (kvmmake I etext trampoline s) := by
  unfold kvmmake
  rcases hf.kalloc with ⟨rfl, e⟩ | ⟨t, l, rfl, e, hl1⟩
  · rw [e]
    exact ⟨Or.inr (Or.inr rfl), by rw [tablePlaces_card]; decide⟩
  rw [e]
  dsimp only
  have htp := (hf.page t List.mem_cons_self).isPage
  have htl := (List.nodup_cons.mp hf.nodup).1
  obtain ⟨htree, hlook⟩ := wellFormed_empty (m := (s.mem.set t 5 4096).set t 0 PGSIZE) htp
    (fun x h1 h2 => Mem.set_in _ 0 h1 h2) htl
  have h0 : Inv I { s with
      mem := (s.mem.set t 5 4096).set t 0 PGSIZE
      kmem := { s.kmem with freelist := s.mem.loadLE t 8 } } t l :=
    ⟨hl1.frame fun p hp => agree_set_page _ 0 (hl1.page p hp).1 htp.1 fun e => htl (e ▸ hp), htree⟩
  have hroot : Counted ((s.mem.set t 5 4096).set t 0 PGSIZE) t tablePlaces l (t :: l).length := by
    refine ⟨{(0, 0)}, Finset.singleton_subset_iff.mpr ((mem_tablePlaces 0 0).mpr (Or.inl ⟨rfl, rfl⟩)), fun d i => ?_,
      ?_⟩
    · rw [Finset.mem_singleton, Prod.mk.injEq]
      constructor
      · intro hd
        obtain ⟨rfl, rfl⟩ := hd
        exact ⟨Nat.zero_le _, rfl⟩
      · intro hd
        obtain ⟨q, hq⟩ := Option.isSome_iff_exists.mp hd.2
        obtain ⟨rfl, rfl, -⟩ := tableAt_empty (fun x h1 h2 => Mem.set_in _ 0 h1 h2) d i q hq
        exact ⟨rfl, rfl⟩
    · rw [Finset.card_singleton, List.length_cons, Nat.add_comm]
  have etext4 : etext - KERNBASE = 4096 * ((etext - KERNBASE) / 4096) := by
    have := hl.aligned
    unfold KERNBASE
    omega
  have data4 : PHYSTOP - etext = 4096 * ((PHYSTOP - etext) / 4096) := by
    have := hl.aligned
    unfold PHYSTOP KERNBASE
    omega
  rw [etext4, data4]
  refine (hl.enter [] _ ⟨_, rfl⟩ h0 hlook hroot).bind fun s1 h1 => ?_
  obtain ⟨l1, h1, hs1, hc1⟩ := h1
  refine (hl.enter _ _ ⟨_, rfl⟩ h1 hs1 hc1).bind fun s2 h2 => ?_
  obtain ⟨l2, h2, hs2, hc2⟩ := h2
  refine (hl.enter _ _ ⟨_, rfl⟩ h2 hs2 hc2).bind fun s3 h3 => ?_
  obtain ⟨l3, h3, hs3, hc3⟩ := h3
  refine (hl.enter _ _ ⟨_, rfl⟩ h3 hs3 hc3).bind fun s4 h4 => ?_
  obtain ⟨l4, h4, hs4, hc4⟩ := h4
  refine (hl.enter _ _ ⟨_, rfl⟩ h4 hs4 hc4).bind fun s5 h5 => ?_
  obtain ⟨l5, h5, hs5, hc5⟩ := h5
  refine (hl.enter _ _ ⟨_, rfl⟩ h5 hs5 hc5).bind fun s6 h6 => ?_
  obtain ⟨l6, h6, hs6, hc6⟩ := h6
  refine (proc_mapstacks_shown hl.ok (fun p hp pa => hl.stack_apart hp pa) NPROC [] s6 l6 _
    (Nat.le_refl _) h6 hs6 List.nodup_nil
    (fun q hq => absurd hq List.not_mem_nil) hc6).bind fun s7 h7 => ?_
  obtain ⟨all, hlen, hnd, hpg, hs7, free', c, hc, hc7⟩ := h7
  exact ⟨all, hlen.trans (Nat.zero_add _), hnd, hpg, hs7, free', c, hc, hc7⟩

/-! ## What the map is -/

theorem mem_kernelRegions {kstacks : List Nat} {r : Region} (h : r ∈ kernelRegions etext trampoline kstacks) :
    r ∈ fixedRegions etext trampoline ∨ ∃ q pa, q < kstacks.length ∧ r = stackRegion q pa := by
  rcases List.mem_append.mp h with h | h
  · exact Or.inl h
  · obtain ⟨q, pa, hq, -, e⟩ := mem_stackRegions h
    exact Or.inr ⟨q, pa, hq, e⟩

theorem perm_kernelRegions {kstacks : List Nat} {r : Region} (h : r ∈ kernelRegions etext trampoline kstacks) :
    r.perm = PTE_R ||| PTE_W ∨ r.perm = PTE_R ||| PTE_X := by
  rcases mem_kernelRegions h with h | ⟨q, pa, -, rfl⟩
  · simp only [fixedRegions, List.mem_cons, List.not_mem_nil, or_false] at h
    rcases h with rfl | rfl | rfl | rfl | rfl | rfl
    · exact Or.inl rfl
    · exact Or.inl rfl
    · exact Or.inl rfl
    · exact Or.inr rfl
    · exact Or.inl rfl
    · exact Or.inr rfl
  · exact Or.inl rfl

/-- RAM is at its own address. -/
theorem look_ram (hl : Link etext trampoline) {kstacks : List Nat} (hlen : kstacks.length ≤ NPROC) {a : Nat}
    (h1 : KERNBASE ≤ a) (h2 : a < PHYSTOP) :
    ∃ w, look (kernelRegions etext trampoline kstacks) (a / 4096) = some w ∧ PTE2PA w = PGROUNDDOWN a := by
  obtain ⟨l1, l2, l3, -, -⟩ := hl
  unfold KERNBASE at l1 h1
  unfold PHYSTOP KERNBASE at l2 h2
  unfold NPROC at hlen
  have hdown : PGROUNDDOWN a = a / 4096 * 4096 := by
    unfold PGROUNDDOWN PGSIZE
    omega
  -- a region around the page
  obtain ⟨r0, hr0, hc0⟩ : ∃ r ∈ kernelRegions etext trampoline kstacks, r.covers (a / 4096) = true := by
    by_cases hlt : a < etext
    · refine ⟨⟨KERNBASE, KERNBASE, (etext - KERNBASE) / 4096, PTE_R ||| PTE_X⟩, List.mem_append_left _ ?_,
        decide_eq_true ?_⟩
      · exact List.mem_of_getElem? (i := 3) rfl
      · unfold InRange KERNBASE
        dsimp only
        omega
    · refine ⟨⟨etext, etext, (PHYSTOP - etext) / 4096, PTE_R ||| PTE_W⟩, List.mem_append_left _ ?_, decide_eq_true ?_⟩
      · exact List.mem_of_getElem? (i := 4) rfl
      · unfold InRange PHYSTOP KERNBASE
        dsimp only
        omega
  cases e : look (kernelRegions etext trampoline kstacks) (a / 4096) with
  | none =>
    unfold look at e
    rw [Option.map_eq_none_iff, List.find?_eq_none] at e
    exact absurd hc0 (e r0 hr0)
  | some w =>
    obtain ⟨r, hr, hc, rfl⟩ := look_some e
    have hperm := perm_kernelRegions hr
    refine ⟨_, rfl, ?_⟩
    have hc : InRange (r.va / 4096) r.pages (a / 4096) := of_decide_eq_true hc
    unfold InRange at hc
    -- and any region around it is the text or the data
    have hsame : r.pa = r.va ∧ r.va % 4096 = 0 := by
      rcases mem_kernelRegions hr with hr | ⟨q, pa, hq, rfl⟩
      · simp only [fixedRegions, List.mem_cons, List.not_mem_nil, or_false] at hr
        rcases hr with rfl | rfl | rfl | rfl | rfl | rfl
        · exact ⟨rfl, rfl⟩
        · exact ⟨rfl, rfl⟩
        · exact ⟨rfl, rfl⟩
        · exact ⟨rfl, (by decide : KERNBASE % 4096 = 0)⟩
        · exact ⟨rfl, l3⟩
        · unfold TRAMPOLINE MAXVA PGSIZE at hc
          dsimp only at hc
          omega
      · have e := kstack_eq (p := q) (by unfold NPROC; omega)
        have hva : (stackRegion q pa).va = KSTACK q := rfl
        rw [hva] at hc
        omega
    unfold Region.entry
    rw [pte2pa_mkpte_of_lt (by omega) (by omega) (by rcases hperm with h | h <;> rw [h] <;> decide), hdown]
    omega

/-- The page below a stack is in no region. -/
theorem look_guard (hl : Link etext trampoline) {kstacks : List Nat} (hlen : kstacks.length ≤ NPROC) {p : Nat}
    (hp : p < NPROC) :
    look (kernelRegions etext trampoline kstacks) (KSTACK p / 4096 - 1) = none := by
  obtain ⟨l1, l2, l3, -, -⟩ := hl
  unfold KERNBASE at l1
  unfold PHYSTOP KERNBASE at l2
  have e := kstack_eq hp
  unfold NPROC at hp hlen
  refine look_none fun r hr => decide_eq_false fun hc => ?_
  unfold InRange at hc
  rcases mem_kernelRegions hr with hr | ⟨q, pa, hq, rfl⟩
  · simp only [fixedRegions, List.mem_cons, List.not_mem_nil, or_false] at hr
    rcases hr with rfl | rfl | rfl | rfl | rfl | rfl <;>
      dsimp only [UART0, VIRTIO0, PLIC, KERNBASE, PHYSTOP, TRAMPOLINE, MAXVA, PGSIZE] at hc <;> omega
  · have eq := kstack_eq (p := q) (by unfold NPROC; omega)
    have hva : (stackRegion q pa).va = KSTACK q ∧ (stackRegion q pa).pages = 1 := ⟨rfl, rfl⟩
    rw [hva.1, hva.2] at hc
    omega

theorem look_isSome {v : Nat} {r : Region} (hr : r ∈ rs) (hc : r.covers v = true) : (look rs v).isSome = true := by
  unfold look
  rw [Option.isSome_map, List.find?_isSome]
  exact ⟨r, hr, hc⟩

/-- The table of a page that is mapped, and the one above. -/
theorem tableAt_of_lookup {m : Mem} {v : Nat} (hv : v < VPN) (hw : (lookup m t v).isSome = true) :
    (tableAt m t 2 (v / 512)).isSome = true ∧ (tableAt m t 1 (v / 512 / 512)).isSome = true := by
  cases h2 : tableAt m t 2 (v / 512) with
  | none =>
    unfold lookup at hw
    rw [leaf_none hv h2, vbit_zero] at hw
    cases hw
  | some q =>
    refine ⟨rfl, ?_⟩
    cases h1 : tableAt m t 1 (v / 512 / 512) with
    | none =>
      rw [tableAt, h1] at h2
      cases h2
    | some q1 => rfl

/-- The kernel's map has all its tables. -/
theorem places_taken (hl : Link etext trampoline) {kstacks : List Nat} (hlen : kstacks.length ≤ NPROC) {m : Mem}
    (hs : Shown m t (kernelRegions etext trampoline kstacks)) : ∀ d i, (d, i) ∈ tablePlaces → d ≤ 2 ∧
    (tableAt m t d i).isSome = true := by
  have hat : ∀ v i j, v < VPN → v / 512 = i → i / 512 = j → (look (kernelRegions etext trampoline kstacks) v).isSome =
    true →
      (tableAt m t 2 i).isSome = true ∧ (tableAt m t 1 j).isSome = true := fun v i j hv hi hj hsome => by
    rw [← hj, ← hi]
    exact tableAt_of_lookup hv (by rw [hs v hv]; exact hsome)
  have hfix : ∀ r ∈ fixedRegions etext trampoline, ∀ v, InRange (r.va / 4096) r.pages v →
    (look (kernelRegions etext trampoline kstacks) v).isSome = true :=
    fun r hr v hin => look_isSome (List.mem_append_left _ hr) (decide_eq_true hin)
  have huart := hat 65536 128 0 (by decide) (by decide) (by decide)
    (hfix ⟨UART0, UART0, 1, PTE_R ||| PTE_W⟩ (List.mem_of_getElem? (i := 0) rfl) _ (by unfold InRange; decide))
  have hplic : ∀ k < 2, (tableAt m t 2 (96 + k)).isSome = true := fun k hk =>
    (hat (49152 + 512 * k) (96 + k) 0 (by unfold VPN; omega) (by omega) (by omega)
      (hfix ⟨PLIC, PLIC, 1024, PTE_R ||| PTE_W⟩ (List.mem_of_getElem? (i := 2) rfl) _
        (by unfold InRange PLIC; dsimp only; omega))).1
  have htop := hat 67108863 131071 255 (by decide) (by decide) (by decide)
    (hfix ⟨TRAMPOLINE, trampoline, 1, PTE_R ||| PTE_X⟩ (List.mem_of_getElem? (i := 5) rfl) _
      (by unfold InRange TRAMPOLINE MAXVA PGSIZE; dsimp only; omega))
  have hram : ∀ i, 1024 ≤ i → i < 1088 → (tableAt m t 2 i).isSome = true ∧ (tableAt m t 1 (i / 512)).isSome = true :=
    fun i h1 h2 => by
    obtain ⟨w, hw, -⟩ := look_ram hl hlen (a := i * 512 * 4096) (by unfold KERNBASE; omega)
      (by unfold PHYSTOP KERNBASE; omega)
    rw [Nat.mul_div_cancel _ (by decide)] at hw
    exact hat (i * 512) i (i / 512) (by unfold VPN; omega) (Nat.mul_div_cancel _ (by decide)) rfl (by rw [hw]; rfl)
  intro d i hmem
  rcases (mem_tablePlaces d i).mp hmem with ⟨rfl, rfl⟩ | ⟨rfl, rfl | rfl | rfl⟩ | ⟨rfl, rfl | rfl | rfl | rfl | hi⟩
  · exact ⟨by decide, rfl⟩
  · exact ⟨by decide, huart.2⟩
  · exact ⟨by decide, (hram 1024 (by decide) (by decide)).2⟩
  · exact ⟨by decide, htop.2⟩
  · exact ⟨by decide, hplic 0 (by decide)⟩
  · exact ⟨by decide, hplic 1 (by decide)⟩
  · exact ⟨by decide, huart.1⟩
  · exact ⟨by decide, htop.1⟩
  · exact ⟨by decide, (hram i hi.1 hi.2).1⟩

/-- With fewer than 136 free pages kvmmake panics: it needs 72 for the tables and one for each
    process's stack. With as many it returns, and its table maps the kernel's regions and no
    other page: RAM at its own address, a guard page below every process's stack, no page that
    can be written and run, none for the user. -/
theorem kernel_map (hl : Link etext trampoline) (hf : FreeList I s free) :
    Ends (fun e => Starved e ∧ free.length < 136) (fun x => 136 ≤ free.length ∧ ∃ kstacks : List Nat,
      kstacks.length = NPROC ∧ kstacks.Nodup ∧
      (∀ q ∈ kstacks, Page I q) ∧
      (∀ v < VPN, lookup x.2.mem x.1 v = look (kernelRegions etext trampoline kstacks) v) ∧
      (∀ a, KERNBASE ≤ a → a < PHYSTOP → ∃ w, lookup x.2.mem x.1 (a / 4096) = some w ∧ PTE2PA w = PGROUNDDOWN a) ∧
      (∀ p < NPROC, lookup x.2.mem x.1 (KSTACK p / 4096 - 1) = none) ∧
      ∀ v < VPN, ∀ w, lookup x.2.mem x.1 v = some w → (w.testBit 2 && w.testBit 3) = false ∧
        w.testBit 4 = false) (kvmmake I etext trampoline s) := by
  refine (kvmmake_shown hl hf).mono (fun e he => ⟨he.1, by have := he.2; rw [tablePlaces_card] at this; exact this⟩)
    fun x hx => ?_
  obtain ⟨kstacks, hlen, hnd, hpg, hs, free', c, hc, hcount⟩ := hx
  have hfull := hcount.full (places_taken hl (Nat.le_of_eq hlen) hs)
  rw [tablePlaces_card] at hfull
  refine ⟨by rw [hc]; exact Nat.add_le_add_right hfull NPROC, kstacks, hlen, hnd, hpg, hs, fun a h1 h2 => ?_,
    fun p hp => ?_, fun v hv w hw => ?_⟩
  · have hv : a / 4096 < VPN := by
      unfold PHYSTOP KERNBASE at h2
      unfold VPN
      omega
    rw [hs _ hv]
    exact look_ram hl (Nat.le_of_eq hlen) h1 h2
  · have hv : KSTACK p / 4096 - 1 < VPN := by
      rw [kstack_eq hp]
      unfold VPN
      omega
    rw [hs _ hv]
    exact look_guard hl (Nat.le_of_eq hlen) hp
  · rw [hs v hv] at hw
    obtain ⟨r, hr, -, rfl⟩ := look_some hw
    unfold Region.entry
    have hperm := perm_kernelRegions hr
    have hlt : r.perm < 1024 := by rcases hperm with h | h <;> rw [h] <;> decide
    rw [mkpte_testBit hlt (by decide), mkpte_testBit hlt (by decide), mkpte_testBit hlt (by decide)]
    rcases hperm with h | h <;> rw [h] <;> decide

/-- A kernel that ends at 0x80020000. -/
def bootImage : Image := ⟨0x80020000, by decide, by decide⟩

/-- The pages above the kernel, as kinit frees them. -/
def bootPages : List Nat := (List.range 32736).map fun k => 0x80020000 + 4096 * k

theorem bootPages_free : ∃ s, FreeList bootImage s bootPages := by
  refine ⟨freed bootImage bootPages, freed_freeList _ _ (fun p hp => ?_) ?_⟩
  · obtain ⟨k, hk, rfl⟩ := List.mem_map.mp hp
    have hk := List.mem_range.mp hk
    unfold Page bootImage PHYSTOP KERNBASE
    dsimp only
    omega
  · refine List.Nodup.map (fun i j e => ?_) List.nodup_range
    omega

theorem bootLink : Link 0x80008000 0x80007000 :=
  ⟨by decide, by decide, by decide, by decide, by decide⟩

theorem kernel_map_boot : ∃ s t s', FreeList bootImage s bootPages ∧
    kvmmake bootImage 0x80008000 0x80007000 s = .ok (t, s') ∧
    lookup s'.mem t (KSTACK 5 / 4096 - 1) = none := by
  obtain ⟨s, hs⟩ := bootPages_free
  have hlen : bootPages.length = 32736 := by
    unfold bootPages
    rw [List.length_map, List.length_range]
  have h := kernel_map bootLink hs
  cases e : kvmmake bootImage 0x80008000 0x80007000 s with
  | error m =>
    rw [e] at h
    have := h.2
    omega
  | ok x =>
    rw [e] at h
    obtain ⟨-, kstacks, -, -, -, -, -, hguard, -⟩ := h
    exact ⟨s, x.1, x.2, hs, e, hguard 5 (by decide)⟩

end Xv6Labs.Plain
