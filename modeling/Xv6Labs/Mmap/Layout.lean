/-
  Xv6Labs.Mmap.Layout — where the mapped areas of a process lie.

  sys_mmap places an area at p->sz as it is and takes the length as a signed int, the check
  against MAXVA leaves the trapframe page and the trampoline out, and growproc keeps the
  size in 32 bits.

  - `growproc_spec`, `sys_mmap_cases`: what growth and mapping do.
  - `vma_layout`: the areas are laid out well in every run in which sys_mmap meets an
    aligned size, a positive length and room below the trapframe, and growth a size below
    4 GiB.
  - `negative_length_breaks_layout`: not in every run.
-/

import Xv6Labs.Mmap.Fault

namespace Xv6Labs.Mmap

open Lib Vm

section

variable {κ : Type} {A : Lab κ} {H : AllocSpec A} {B : Nat → Prop} {live : List Nat} {k : Nat → Kind} {s s' : St κ}

/-! ## Growth -/

/-- Nothing is mapped between the size and the trapframe. -/
def Below (m : Mem) (t sz : Nat) : Prop :=
  ∀ v < VPN, (lookup m t v).isSome = true → v * 4096 < sz ∨ TRAPFRAME ≤ v * 4096

theorem Below.grown {m m' : Mach κ} {k' : Nat → Kind} {t sz new v0 n : Nat} {perm : Nat → Nat} {f : Nat → UInt8}
    (h : Below m.mem t sz) (g : Grown B live m k t (InRange v0 n) perm f m' k') (ht : t ∈ live) (hle : sz ≤ new)
    (hn : ∀ v, InRange v0 n v → v * 4096 < new) :
    Below m'.mem t new := by
  intro v hv hs
  by_cases hin : InRange v0 n v
  · exact Or.inl (hn v hin)
  · rw [g.lookup t ht v hv fun e => hin e.2] at hs
    rcases h v hv hs with h | h
    · exact Or.inl (Nat.lt_of_lt_of_le h hle)
    · exact Or.inr h

theorem Below.kept {m m' : Mach κ} {k' : Nat → Kind} {t sz : Nat} (h : Below m.mem t sz) (hk : Kept live m k m' k')
    (ht : t ∈ live) :
    Below m'.mem t sz := by
  intro v hv hs
  rw [hk.lookup t ht v hv] at hs
  exact h v hv hs

/-- Growing a process below 4 GiB changes its size and adds pages below the new one. -/
theorem growproc_spec (h : VmInv H B s.m live k) (ht : s.p.pagetable ∈ live) (hb : Below s.m.mem s.p.pagetable s.p.sz)
    {n r : Int} (h0 : 0 ≤ n) (hn : n < 2 ^ 31) (hsz : s.p.sz < 2 ^ 32) (e : growproc A n s = .ok (r, s')) :
    ∃ m' k' sz', s' = { s with m := m', p := { s.p with sz := sz' } } ∧ VmInv H B m' live k' ∧ s.p.sz ≤ sz' ∧
      sz' < 2 ^ 32 ∧
      Below m'.mem s.p.pagetable sz' := by
  have e1 : u32 s.p.sz = s.p.sz := Nat.mod_eq_of_lt hsz
  have hneg : ¬ n < 0 := by omega
  by_cases hz : n = 0
  · have hpos : ¬ n > 0 := by omega
    simp only [growproc, hpos, hneg, if_false, e1, Except.ok.injEq, Prod.mk.injEq] at e
    exact ⟨s.m, k, s.p.sz, e.2.symm, h, Nat.le_refl _, hsz, hb⟩
  · have hpos : n > 0 := by omega
    simp only [growproc, hpos, if_true, e1] at e
    by_cases hw : s.p.sz + n < 2 ^ 32
    · -- no wrap: uvmalloc goes from the old size to the new one
      have e2 : (u32 (toU64 (s.p.sz + n)) : Int) = s.p.sz + n := by
        simp only [u32, toU64]
        omega
      generalize u32 (toU64 (s.p.sz + n)) = new at e e2
      rcases uvmalloc_spec h ht s.p.sz new (by omega) with ⟨⟨msg, eu⟩, -⟩ | ⟨m', k', eu, h', g, -⟩ |
        ⟨m', k', eu, h', hk, -⟩
      · rw [eu] at e
        cases e
      · have e3 : u32 new = new := Nat.mod_eq_of_lt (by omega)
        have hnz : new ≠ 0 := by omega
        simp only [eu, ok_bind, e3, hnz, if_false, Except.ok.injEq, Prod.mk.injEq] at e
        refine ⟨m', k', new, e.2.symm, h', by omega, by omega, hb.grown g ht (by omega) fun v hv => ?_⟩
        simp only [InRange, PGSIZE] at hv
        have := pgroundup_mod s.p.sz
        omega
      · have e3 : u32 0 = 0 := rfl
        simp only [eu, ok_bind, e3, if_true, Except.ok.injEq, Prod.mk.injEq] at e
        exact ⟨m', k', s.p.sz, e.2.symm, h', Nat.le_refl _, hsz, hb.kept hk ht⟩
    · -- the sum wraps below the size, and uvmalloc gives the size back
      have e2 : u32 (toU64 (s.p.sz + n)) < s.p.sz := by
        simp only [u32, toU64]
        omega
      have hnz : s.p.sz ≠ 0 := by omega
      simp only [uvmalloc, e2, if_true, ok_bind, e1, hnz, if_false, Except.ok.injEq, Prod.mk.injEq] at e
      exact ⟨s.m, k, s.p.sz, e.2.symm, h, Nat.le_refl _, hsz, hb⟩

/-! ## sys_mmap -/

/-- sys_mmap refuses: no such file, a shared writable mapping of a read-only file, a size past
    the check, or no entry left. -/
def Refused (VMASIZE : Nat) (length prot flags : Int) (fd : Nat) (s : St κ) : Prop :=
  s.p.ofile fd = none ∨ (∃ f, s.p.ofile fd = some f ∧ (s.file f).writable = false ∧ toU64 prot &&& PROT_WRITE ≠ 0 ∧
    flags = MAP_SHARED) ∨
    s.p.sz > toU64 (MAXVA - PGROUNDUP length) ∨ freeVma s.p.vmas VMASIZE 0 = none

/-- The area sys_mmap enters. -/
def newVma (length prot flags : Int) (fd f : Nat) (offset : Int) (s : St κ) : Vma :=
  ⟨true, s.p.sz, PGROUNDUP length, prot, flags, fd, f, offset, fun v => (lookup s.m.mem s.p.pagetable v).isSome⟩

variable {VMASIZE : Nat}

theorem sys_mmap_cases {length prot flags offset r : Int} {fd : Nat}
    (e : sys_mmap VMASIZE length prot flags fd offset s = .ok (r, s')) :
    (Refused VMASIZE length prot flags fd s ∧ r = -1 ∧ s' = s) ∨
      ¬ Refused VMASIZE length prot flags fd s ∧ ∃ f i, s.p.ofile fd = some f ∧ freeVma s.p.vmas VMASIZE 0 = some i ∧
        r = s.p.sz ∧
        s' = ⟨s.m, { s.p with
            vmas := Function.update s.p.vmas i (newVma length prot flags fd f offset s)
            sz := toU64 (s.p.sz + PGROUNDUP length) },
          Function.update s.file f { s.file f with ref := (s.file f).ref + 1 }⟩ := by
  unfold sys_mmap at e
  cases hf : s.p.ofile fd with
  | none =>
    rw [hf] at e
    cases e
    exact Or.inl ⟨Or.inl hf, rfl, rfl⟩
  | some f =>
    rw [hf] at e
    dsimp only at e
    split at e
    · rename_i h
      cases e
      exact Or.inl ⟨Or.inr (Or.inl ⟨f, hf, h⟩), rfl, rfl⟩
    rename_i hro
    split at e
    · rename_i h
      cases e
      exact Or.inl ⟨Or.inr (Or.inr (Or.inl h)), rfl, rfl⟩
    rename_i hsz
    cases hi : freeVma s.p.vmas VMASIZE 0 with
    | none =>
      rw [hi] at e
      cases e
      exact Or.inl ⟨Or.inr (Or.inr (Or.inr hi)), rfl, rfl⟩
    | some i =>
      rw [hi] at e
      dsimp only at e
      unfold filedup at e
      split at e
      · cases e
      · cases e
        refine Or.inr ⟨?_, f, i, rfl, rfl, rfl, rfl⟩
        rintro (h | ⟨f', h, h'⟩ | h | h)
        · simp [hf] at h
        · rw [hf] at h
          cases h
          exact hro h'
        · exact hsz h
        · simp [hi] at h

theorem freeVma_some {vmas : Nat → Vma} {i : Nat} : ∀ {n j}, freeVma vmas n j = some i → (vmas i).used = false ∧
    j ≤ i ∧ i < j + n := by
  intro n
  induction n with
  | zero =>
    intro j h
    cases h
  | succ n ih =>
    intro j h
    unfold freeVma at h
    split at h
    · obtain ⟨h1, h2, h3⟩ := ih h
      exact ⟨h1, by omega, by omega⟩
    · rename_i hu
      cases h
      exact ⟨by simpa using hu, Nat.le_refl _, by omega⟩

theorem findVma_some {vmas : Nat → Vma} {va i : Nat} : ∀ {n j}, findVma vmas va n j = some i → (vmas i).used = true ∧
    (vmas i).contains va = true ∧ j ≤ i ∧ i < j + n := by
  intro n
  induction n with
  | zero =>
    intro j h
    cases h
  | succ n ih =>
    intro j h
    unfold findVma at h
    split at h
    · rename_i hu
      cases h
      simp only [Bool.and_eq_true] at hu
      exact ⟨hu.1, hu.2, Nat.le_refl _, by omega⟩
    · obtain ⟨h1, h2, h3, h4⟩ := ih h
      exact ⟨h1, h2, by omega, by omega⟩

/-- A length that neither is negative nor wraps when rounded. -/
theorem pgroundup_length {length : Int} (h1 : 1 ≤ length) (h2 : length ≤ 2 ^ 31 - 4096) :
    0 < PGROUNDUP length ∧ PGROUNDUP length % 4096 = 0 ∧ PGROUNDUP length < 2 ^ 31 := by
  unfold PGROUNDUP
  rw [i32_of_range (by omega) (by omega)]
  omega

/-! ## The layout -/

/-- One area: aligned, of a positive whole number of pages, below the size and the trapframe,
    on pages that were not mapped. -/
structure Vma.Laid (x : Vma) (sz : Nat) : Prop where
  aligned : x.addr % 4096 = 0
  pos : 0 < x.length
  pages : x.length % 4096 = 0
  size : (x.addr : Int) + x.length ≤ sz
  room : (x.addr : Int) + x.length ≤ TRAPFRAME
  fresh : ∀ v : Nat, x.addr ≤ v * 4096 → (v : Int) * 4096 < x.addr + x.length → x.before v = false

/-- The used areas of a process. -/
structure Laid (VMASIZE : Nat) (p : Proc) : Prop where
  one : ∀ i < VMASIZE, (p.vmas i).used = true → (p.vmas i).Laid p.sz
  apart : ∀ i < VMASIZE, ∀ j < VMASIZE, i ≠ j → (p.vmas i).used = true → (p.vmas j).used = true →
    ((p.vmas i).addr : Int) + (p.vmas i).length ≤ (p.vmas j).addr ∨
      ((p.vmas j).addr : Int) + (p.vmas j).length ≤ (p.vmas i).addr

theorem Laid.grow {p : Proc} (h : Laid VMASIZE p) {sz : Nat} (hle : p.sz ≤ sz) :
    Laid VMASIZE { p with sz := sz } := by
  refine ⟨fun i hi hu => ?_, h.apart⟩
  have h1 := h.one i hi hu
  exact ⟨h1.aligned, h1.pos, h1.pages, by have := h1.size; simp only; omega, h1.room, h1.fresh⟩

/-- Room below the trapframe at an aligned size, for a length that is one. -/
def Fits (length : Int) (sz : Nat) : Prop :=
  sz % 4096 = 0 ∧ 1 ≤ length ∧ length ≤ 2 ^ 31 - 4096 ∧ (sz : Int) + PGROUNDUP length ≤ TRAPFRAME

instance (length : Int) (sz : Nat) : Decidable (Fits length sz) := inferInstanceAs (Decidable (_ ∧ _))

theorem Laid.mmap {p : Proc} (h : Laid VMASIZE p) {m : Mem} (hb : Below m p.pagetable p.sz) {i : Nat}
    (hi : i < VMASIZE) {length prot flags offset : Int} {fd f : Nat} (hfit : Fits length p.sz) {x : Vma}
    (hx : x = ⟨true, p.sz, PGROUNDUP length, prot, flags, fd, f, offset, fun v => (lookup m p.pagetable v).isSome⟩) :
    p.sz ≤ toU64 (p.sz + PGROUNDUP length) ∧
      Laid VMASIZE { p with vmas := Function.update p.vmas i x, sz := toU64 (p.sz + PGROUNDUP length) } := by
  obtain ⟨hal, h1, h2, hroom⟩ := hfit
  obtain ⟨hpos, hpages, hlt⟩ := pgroundup_length h1 h2
  simp only [TRAPFRAME, TRAMPOLINE, MAXVA, PGSIZE] at hroom
  have hsz := toU64_of_range (n := (p.sz : Int) + PGROUNDUP length) (by omega) (by omega)
  have hle : p.sz ≤ toU64 (p.sz + PGROUNDUP length) := by omega
  have hg := h.grow hle
  refine ⟨hle, fun j hj hu => ?_, fun j hj l hl hne hu hu' => ?_⟩
  · by_cases e : j = i
    · subst e
      simp only [Function.update_self, hx] at hu ⊢
      refine ⟨hal, hpos, hpages, by simp only; omega, by simp only [TRAPFRAME, TRAMPOLINE, MAXVA, PGSIZE]; omega,
        fun v hv1 hv2 => ?_⟩
      simp only at hv1 hv2 ⊢
      by_contra hn
      rcases hb v (by simp only [VPN]; omega) (eq_true_of_ne_false hn) with h3 | h3
      · omega
      · simp only [TRAPFRAME, TRAMPOLINE, MAXVA, PGSIZE] at h3
        omega
    · simp only [Function.update_of_ne e] at hu ⊢
      exact hg.one j hj hu
  · -- the others end at or below the size
    by_cases e : j = i
    · subst e
      simp only [Function.update_self, Function.update_of_ne hne.symm, hx] at hu' ⊢
      exact Or.inr (h.one l hl hu').size
    · by_cases e' : l = i
      · subst e'
        simp only [Function.update_self, Function.update_of_ne e, hx] at hu ⊢
        exact Or.inl (h.one j hj hu).size
      · simp only [Function.update_of_ne e, Function.update_of_ne e'] at hu hu' ⊢
        exact h.apart j hj l hl hne hu hu'

/-! ## Steps -/

inductive Op where
  | mmap (length prot flags : Int) (fd : Nat) (offset : Int)
  | fault (va sp : Nat)
  | grow (n : Int)

/-- A panic ends the run. -/
def Op.run (A : Lab κ) (VMASIZE : Nat) (s : St κ) : Op → Except String (St κ)
  | .mmap length prot flags fd offset => do
    let (_, s) ← sys_mmap VMASIZE length prot flags fd offset s
    .ok s
  | .fault va sp => pageFault A VMASIZE va sp s
  | .grow n => do
    let (_, s) ← growproc A n s
    .ok s

/-- sys_mmap refuses or the area fits, and a process that grows is below 4 GiB. -/
def Op.Meets (VMASIZE : Nat) (s : St κ) : Op → Prop
  | .mmap length prot flags fd _ => Refused VMASIZE length prot flags fd s ∨ Fits length s.p.sz
  | .fault _ _ => True
  | .grow n => 0 ≤ n ∧ n < 2 ^ 31 ∧ s.p.sz < 2 ^ 32

/-- The tables are sound, nothing is mapped between the size and the trapframe, and the areas
    are laid out well. -/
structure Inv (H : AllocSpec A) (B : Nat → Prop) (VMASIZE : Nat) (s : St κ) : Prop where
  vm : ∃ live k, VmInv H B s.m live k ∧ s.p.pagetable ∈ live
  below : Below s.m.mem s.p.pagetable s.p.sz
  laid : Laid VMASIZE s.p

theorem Inv.fault (h : Inv H B VMASIZE s) {va sp : Nat} (e : pageFault A VMASIZE va sp s = .ok s') :
    Inv H B VMASIZE s' ∧ s'.p.sz = s.p.sz := by
  obtain ⟨live, k, hv, ht⟩ := h.vm
  rcases pageFault_ok hv ht e with ⟨m', k', rfl, h', hk⟩ | ⟨rfl, -⟩ | ⟨j, ip, m', k', -, -, hsz, -, rfl, h', hf⟩
  · exact ⟨⟨⟨live, k', h', ht⟩, h.below.kept hk ht, h.laid.one, h.laid.apart⟩, rfl⟩
  · exact ⟨h, rfl⟩
  · refine ⟨⟨⟨live, k', h', ht⟩, fun v hv' hs => ?_, h.laid⟩, rfl⟩
    by_cases ev : v = va / 4096
    · left
      show v * 4096 < s.p.sz
      omega
    · rw [hf.lookup _ ht v hv' fun e => ev e.2] at hs
      exact h.below v hv' hs

theorem Inv.step (h : Inv H B VMASIZE s) {op : Op} (hm : op.Meets VMASIZE s) (e : op.run A VMASIZE s = .ok s') :
    Inv H B VMASIZE s' ∧ s.p.sz ≤ s'.p.sz := by
  cases op with
  | mmap length prot flags fd offset =>
    cases e1 : sys_mmap VMASIZE length prot flags fd offset s with
    | error msg =>
      simp only [Op.run, e1, error_bind] at e
      cases e
    | ok x =>
      obtain ⟨r, s1⟩ := x
      simp only [Op.run, e1, ok_bind, Except.ok.injEq] at e
      subst e
      rcases sys_mmap_cases e1 with ⟨-, -, rfl⟩ | ⟨hr, f, i, hfd, hi, -, rfl⟩
      · exact ⟨h, Nat.le_refl _⟩
      · have hlt := (freeVma_some hi).2.2
        obtain ⟨hle, hl⟩ := h.laid.mmap h.below (i := i) (by omega) (hm.resolve_left hr)
          (x := newVma length prot flags fd f offset s) rfl
        refine ⟨⟨h.vm, fun v hv hs => (h.below v hv hs).imp_left fun hlt => Nat.lt_of_lt_of_le hlt hle, hl⟩, hle⟩
  | fault va sp =>
    obtain ⟨h', hsz⟩ := h.fault e
    exact ⟨h', Nat.le_of_eq hsz.symm⟩
  | grow n =>
    obtain ⟨h0, hn, hsz⟩ := hm
    cases e1 : growproc A n s with
    | error msg =>
      simp only [Op.run, e1, error_bind] at e
      cases e
    | ok x =>
      obtain ⟨r, s1⟩ := x
      simp only [Op.run, e1, ok_bind, Except.ok.injEq] at e
      subst e
      obtain ⟨live, k, hv, ht⟩ := h.vm
      obtain ⟨m', k', sz', rfl, h', hle, -, hb⟩ := growproc_spec hv ht h.below h0 hn hsz e1
      exact ⟨⟨⟨live, k', h', ht⟩, hb, h.laid.grow hle⟩, hle⟩

/-! ## Runs -/

/-- The areas are laid out well in every state of the run, and no sys_mmap in it decreases the
    size. -/
def Keeps (A : Lab κ) (VMASIZE : Nat) : List Op → St κ → Prop
  | [], s => Laid VMASIZE s.p
  | op :: ops, s => Laid VMASIZE s.p ∧ ∀ s', op.run A VMASIZE s = .ok s' →
    ((∃ length prot flags fd offset, op = .mmap length prot flags fd offset) → s.p.sz ≤ s'.p.sz) ∧
      Keeps A VMASIZE ops s'

/-- Every step meets what it needs when its turn comes. -/
def AllMeet (A : Lab κ) (VMASIZE : Nat) : List Op → St κ → Prop
  | [], _ => True
  | op :: ops, s => op.Meets VMASIZE s ∧ ∀ s', op.run A VMASIZE s = .ok s' → AllMeet A VMASIZE ops s'

theorem keeps_of_inv : ∀ ops (s : St κ), Inv H B VMASIZE s → AllMeet A VMASIZE ops s → Keeps A VMASIZE ops s := by
  intro ops
  induction ops with
  | nil => exact fun s h _ => h.laid
  | cons op ops ih =>
    intro s h hm
    refine ⟨h.laid, fun s' e => ?_⟩
    obtain ⟨h', hle⟩ := h.step hm.1 e
    exact ⟨fun _ => hle, ih s' h' (hm.2 s' e)⟩

/-- A process without areas, and nothing mapped between its size and the trapframe. -/
structure Start (H : AllocSpec A) (B : Nat → Prop) (VMASIZE : Nat) (s : St κ) : Prop where
  vm : ∃ live k, VmInv H B s.m live k ∧ s.p.pagetable ∈ live
  below : Below s.m.mem s.p.pagetable s.p.sz
  unused : ∀ i < VMASIZE, (s.p.vmas i).used = false

theorem Start.inv (h : Start H B VMASIZE s) : Inv H B VMASIZE s := by
  refine ⟨h.vm, h.below, fun i hi hu => ?_, fun i hi _ _ _ hu _ => ?_⟩
  · rw [h.unused i hi] at hu
    cases hu
  · rw [h.unused i hi] at hu
    cases hu

end

/-- The mapped areas of a process are laid out well in every run in which sys_mmap, when it
    does not refuse, meets an aligned size, a length between 1 and 2^31 - 4096 and room below
    the trapframe, and growth a size below 4 GiB. -/
theorem vma_layout {I : Plain.Image} {B : Nat → Prop} {VMASIZE : Nat} {s : St Plain.Kmem}
    (hs : Start (Plain.spec I true) B VMASIZE s) (ops : List Op)
    (hm : AllMeet (Plain.lab I true) VMASIZE ops s) : Keeps (Plain.lab I true) VMASIZE ops s :=
  keeps_of_inv ops s hs.inv hm

/-- One page of memory. -/
def onePage : Plain.Image := ⟨0x87fff000, by decide, by decide⟩

/-- A process of `sz` bytes, none of them mapped, with one open file. -/
def oneFile (m : Mach Plain.Kmem) (t sz : Nat) : St Plain.Kmem :=
  ⟨m, ⟨t, sz, fun _ => ⟨false, 0, 0, 0, 0, 0, 0, 0, fun _ => false⟩, fun fd => if fd = 3 then some 0 else none,
    false⟩, fun _ => ⟨1, true, true, some []⟩⟩

theorem start_oneFile (sz : Nat) : ∃ m t, Start (Plain.spec onePage true) (fun _ => False) 16 (oneFile m t sz) := by
  have hfree : Plain.FreeList onePage (Plain.freed onePage [0x87fff000]) [0x87fff000] :=
    Plain.freed_freeList onePage [0x87fff000] (by simp [Plain.Page, onePage, PHYSTOP, KERNBASE]) (by decide)
  have ha : (Plain.spec onePage true).Inv (Plain.freed onePage [0x87fff000]) (fun _ => 0) := by
    refine ⟨_, hfree, fun p hp => ?_⟩
    simp only [Plain.Page, onePage, PHYSTOP, KERNBASE] at hp
    simp only [List.mem_singleton, iff_true]
    omega
  rcases uvmcreate_spec (VmInv.init ha) with ⟨s1, e, -⟩ | ⟨t, s1, k1, e, -, hi, -, hempty, -⟩
  · have made : (uvmcreate (Plain.lab onePage true) (Plain.freed onePage [0x87fff000])).1.isSome = true := by
      decide +kernel
    rw [e] at made
    cases made
  · refine ⟨s1, t, ⟨⟨[t], k1, hi, by simp [oneFile]⟩, fun v hv hs => ?_, fun _ _ => rfl⟩⟩
    simp only [oneFile] at hs
    rw [hempty v hv] at hs
    cases hs

/-- Two areas, one after the other. -/
theorem vma_layout_two : ∃ s, Start (Plain.spec onePage true) (fun _ => False) 16 s ∧
    Keeps (Plain.lab onePage true) 16 [.mmap 5000 1 1 3 0, .mmap 100 1 1 3 0] s := by
  obtain ⟨m, t, hs⟩ := start_oneFile 8192
  refine ⟨_, hs, vma_layout hs _ ⟨Or.inr (show Fits 5000 8192 by decide),
    fun s' e => ⟨Or.inr ?_, fun _ _ => trivial⟩⟩⟩
  cases e
  show Fits 100 (toU64 ((8192 : Nat) + PGROUNDUP 5000))
  decide

/-- A negative length makes an area of negative length, and a smaller process. -/
theorem negative_length_breaks_layout : ¬ ∀ (I : Plain.Image) (B : Nat → Prop) (VMASIZE : Nat) (s : St Plain.Kmem),
    Start (Plain.spec I true) B VMASIZE s → ∀ ops, Keeps (Plain.lab I true) VMASIZE ops s := by
  intro hall
  obtain ⟨m, t, hs⟩ := start_oneFile 8192
  have hk := hall onePage _ 16 _ hs [.mmap (-4096) 1 1 3 0]
  obtain ⟨-, hk⟩ := hk
  have hrun : ∃ s', Op.run (Plain.lab onePage true) 16 (oneFile m t 8192) (.mmap (-4096) 1 1 3 0) = .ok s' ∧
    (s'.p.vmas 0).used = true ∧ (s'.p.vmas 0).length = -4096 :=
    ⟨_, rfl, rfl, rfl⟩
  obtain ⟨s', e, hu, hl⟩ := hrun
  have hpos := ((hk s' e).2.one 0 (by decide) hu).pos
  omega

end Xv6Labs.Mmap
