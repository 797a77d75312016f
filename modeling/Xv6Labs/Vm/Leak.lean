/-
  Xv6Labs.Vm.Leak — address spaces do not leak.

  One address space from proc_pagetable to proc_freepagetable, with its size tracked as
  growproc, exec and fork do. Between two operations the memory outside the pages that were
  free at the start may change in any way: other processes run there.

  - `life_frees_all`: whatever is done, and wherever kalloc fails, no panic, and the free list
    ends with the pages it had, each once.
-/

import Xv6Labs.Vm.Lifecycle

namespace Xv6Labs.Plain

open Lib Vm

/-! ## The pages that were free -/

variable {I : Image} {P : List Nat} {s s' : Mach Kmem} {own : Nat → Nat} {b : Bool}

/-- Pages outside `P` count as owned. -/
def within (P : List Nat) (own : Nat → Nat) (p : Nat) : Nat := if p ∈ P then own p else 1

theorem within_update {p : Nat} (hp : p ∈ P) (x : Nat) :
    within P (Function.update own p x) = Function.update (within P own) p x := by
  funext q
  by_cases e : q = p
  · subst e
    simp [within, hp]
  · simp [within, e]

theorem within_zero {p : Nat} (h : within P own p = 0) : p ∈ P ∧ own p = 0 := by
  unfold within at h
  split at h
  · rename_i hp
    exact ⟨hp, h⟩
  · cases h

/-- The allocator, over the pages `P` alone. -/
def partSpec (I : Image) (b : Bool) (P : List Nat) (hP : ∀ p ∈ P, Page I p) : AllocSpec (lab I b) where
  page p := p ∈ P
  page_ok p hp := (hP p hp).isPage
  cap := 1
  cap_pos := Nat.zero_lt_one
  fails := Kmem.nfail
  Inv s own := Owners I s (within P own)
  frame h hk hm := Owners.frame h hk fun p _ h0 => hm p (within_zero h0).1 (within_zero h0).2
  kalloc_none h e := by
    obtain ⟨h1, h2, h3, h4⟩ := Owners.kalloc_none h e
    refine ⟨h1, h2, fun p hp h0 => h3 p (hP p hp) ?_, h4⟩
    simpa [within, hp] using h0
  kalloc_some h e := by
    obtain ⟨-, h0, h2, h3, h4⟩ := Owners.kalloc_some h e
    obtain ⟨hp, h0⟩ := within_zero h0
    exact ⟨hp, h0, h2, by rwa [within_update hp], h4⟩
  kfree_ok {s own p} h hp h0 h1 := by
    have e : within P own p = own p := if_pos hp
    obtain ⟨s', e1, h2, h3, h4, h5⟩ := Owners.kfree_ok h (hP p hp) (by rwa [e]) (by rwa [e])
    rw [e, ← within_update hp] at h2
    exact ⟨s', e1, h2, h3, h4, by rwa [e] at h5⟩

/-! ## What is done with a space -/

inductive Op where
  | uvmalloc (newsz : Nat)
  | uvmdealloc (newsz : Nat)
  | uvmclear (va : Nat)
  /-- fork, when this is the child -/
  | uvmcopy (old sz : Nat)
  /-- the memory is now `m` -/
  | others (m : Mem)

/-- One operation and the size after it; on failure the callers keep the old one. -/
def Op.run (I : Image) (t sz : Nat) (s : Mach Kmem) : Op → Except String (Nat × Mach Kmem)
  | .uvmalloc newsz => do
    let (r, s) ← Vm.uvmalloc (lab I false) t sz newsz s
    .ok (if r = 0 then sz else r, s)
  | .uvmdealloc newsz => Vm.uvmdealloc (lab I false) t sz newsz s
  | .uvmclear va => do .ok (sz, ← Vm.uvmclear (lab I false) t va s)
  | .uvmcopy old szo => do
    let (r, s) ← Vm.uvmcopy (lab I false) old t szo s
    .ok (if r < 0 then sz else szo, s)
  | .others m => .ok (sz, { s with mem := m })

/-- exec clears a page it allocated, fork copies another space into an empty one, and other
    processes write where nothing was free. -/
def Op.Ok (P : List Nat) (sz : Nat) (s : Mach Kmem) : Op → Prop
  | .uvmclear va => va < PGROUNDUP sz
  | .uvmcopy old szo => sz = 0 ∧ Foreign (· ∈ P) s.mem old szo
  | .others m => ∀ x, pageOf x ∈ P → m x = s.mem x
  | _ => True

def runOps (I : Image) (t : Nat) : List Op → Nat → Mach Kmem → Except String (Nat × Mach Kmem)
  | [], sz, s => .ok (sz, s)
  | op :: ops, sz, s => do
    let (sz, s) ← op.run I t sz s
    runOps I t ops sz s

/-- Each operation is one the callers do when its turn comes. -/
def Allowed (I : Image) (P : List Nat) (t : Nat) : List Op → Nat → Mach Kmem → Prop
  | [], _, _ => True
  | op :: ops, sz, s => op.Ok P sz s ∧ ∀ sz' s', op.run I t sz s = .ok (sz', s') → Allowed I P t ops sz' s'

def life (I : Image) (trampoline trapframe : Nat) (ops : List Op) (s : Mach Kmem) : Except String (Mach Kmem) := do
  match ← proc_pagetable (lab I false) trampoline trapframe s with
  | (none, s) => .ok s
  | (some t, s) => do
    let (sz, s) ← runOps I t ops 0 s
    proc_freepagetable (lab I false) t sz s

section

variable {hP : ∀ p ∈ P, Page I p} {B : Nat → Prop} {t sz : Nat} {k : Nat → Kind}

theorem partSpec_bound (p : Nat) (hp : (partSpec I b P hP).page p) : p < PHYSTOP := (hP p hp).2.2

theorem alive_run (h : Alive (partSpec I false P hP) B s t sz k) (op : Op) (ho : op.Ok P sz s) :
    ∃ sz' s' k', op.run I t sz s = .ok (sz', s') ∧ Alive (partSpec I false P hP) B s' t sz' k' := by
  cases op with
  | uvmalloc newsz =>
    obtain ⟨r, s', k', e, h', -⟩ := h.uvmalloc partSpec_bound newsz
    exact ⟨_, s', k', by simp only [Op.run, e, bind, Except.bind], h'⟩
  | uvmdealloc newsz =>
    obtain ⟨r, s', k', e, h'⟩ := h.uvmdealloc newsz
    exact ⟨r, s', k', e, h'⟩
  | uvmclear va =>
    obtain ⟨s', -, -, e, h', -⟩ := h.uvmclear ho
    exact ⟨sz, s', k, by simp only [Op.run, e, bind, Except.bind], h'⟩
  | uvmcopy old szo =>
    obtain ⟨rfl, hF⟩ := ho
    obtain ⟨r, s', k', e, h'⟩ := h.uvmcopy hF
    exact ⟨_, s', k', by simp only [Op.run, e, bind, Except.bind], h'⟩
  | others m =>
    obtain ⟨h1, lf⟩ := h.inv.frame { s with mem := m } rfl fun q hq x h1 h2 => by
      have hp : q ∈ P := h.inv.page_of (by
        intro e
        simp [e, Kind.plain] at hq)
      have hq := (hP q hp).1
      exact ho x (by rwa [show pageOf x = q by unfold pageOf; omega])
    exact ⟨sz, _, k, rfl, h1, h.sized.congr fun v hv => lookup_congr (lf t (by simp) v hv), h.held⟩

theorem alive_runOps : ∀ ops sz (s : Mach Kmem) k, Alive (partSpec I false P hP) B s t sz k → Allowed I P t ops sz s →
    ∃ sz' s' k', runOps I t ops sz s = .ok (sz', s') ∧ Alive (partSpec I false P hP) B s' t sz' k' := by
  intro ops
  induction ops with
  | nil => exact fun sz s k h _ => ⟨sz, s, k, rfl, h⟩
  | cons op ops ih =>
    intro sz s k h ha
    obtain ⟨sz1, s1, k1, e1, h1⟩ := alive_run h op ha.1
    obtain ⟨sz2, s2, k2, e2, h2⟩ := ih sz1 s1 k1 h1 (ha.2 sz1 s1 e1)
    exact ⟨sz2, s2, k2, by simp only [runOps, e1, e2, bind, Except.bind], h2⟩

open Classical in
/-- Before the space: all pages of `P` are free, and the lent pages are not among them. -/
theorem gone_start (h : FreeList I s P) (hB : ∀ p, B p → p ∉ P) : ∃ k, Gone (partSpec I false P h.page) B s k := by
  have ha : (partSpec I false P h.page).Inv s (fun _ => 0) :=
    ⟨P, h, fun p _ => by by_cases hp : p ∈ P <;> simp [within, hp]⟩
  have hk : ∀ p, (if (partSpec I false P h.page).page p then Kind.free else .ext) = .free ∨
    (if (partSpec I false P h.page).page p then Kind.free else .ext) = .ext := by
    intro p
    split
    · exact Or.inl rfl
    · exact Or.inr rfl
  have h0 := VmInv.init ha
  refine ⟨_,
    ⟨⟨h0.tab.page, fun p hp => Or.inr (if_neg (hB p hp)), h0.tab.root, h0.tab.up, h0.tab.down, fun q t i j hq => ?_⟩,
    h0.nodup, h0.ext, h0.alloc, h0.used,
    h0.vpn, h0.capped⟩, fun r hr => ?_⟩
  · rcases hk q with e | e <;> simp [e] at hq
  · rcases hk r with e | e <;> simp [e] at hr

theorem gone_freeList (h : Gone (partSpec I false P hP) B s k) : ∃ free, FreeList I s free ∧ ∀ p, p ∈ free ↔
    p ∈ P := by
  obtain ⟨free, hl, hf⟩ := h.inv.alloc
  refine ⟨free, hl, fun p => ⟨fun hp => ?_, fun hp => ?_⟩⟩
  · exact (within_zero ((hf p (hl.page p hp)).mp hp)).1
  · refine (hf p (hP p hp)).mpr ?_
    simp [within, hp, Vm.own, h.free hp, ownK]

/-- Every life of an address space ends without a panic and with the pages on the free list
    that were there before, wherever kalloc found none. -/
theorem life_frees_all (h : FreeList I s P) (trampoline trapframe : Nat) (h1 : IsPage trampoline ∧ trampoline ∉ P)
    (h2 : IsPage trapframe ∧ trapframe ∉ P) (ops : List Op)
    (ho : ∀ t s', proc_pagetable (lab I false) trampoline trapframe s = .ok (some t, s') → Allowed I P t ops 0 s') :
    ∃ s' free', life I trampoline trapframe ops s = .ok s' ∧ FreeList I s' free' ∧ ∀ p, p ∈ free' ↔ p ∈ P := by
  obtain ⟨k, hg⟩ := gone_start (B := fun p => p ∉ P) h fun _ hp => hp
  rcases hg.proc_pagetable h1 h2 with ⟨s1, k1, e1, hg1, -⟩ | ⟨t, s1, k1, e1, ha, -⟩
  · obtain ⟨free', hl, hf⟩ := gone_freeList hg1
    exact ⟨s1, free', by simp only [life, e1, bind, Except.bind], hl, hf⟩
  · obtain ⟨sz, s2, k2, e2, ha2⟩ := alive_runOps ops 0 s1 k1 ha (ho t s1 e1)
    obtain ⟨s3, k3, e3, hg3, -⟩ := ha2.proc_freepagetable
    obtain ⟨free', hl, hf⟩ := gone_freeList hg3
    exact ⟨s3, free', by simp only [life, e1, e2, e3, bind, Except.bind], hl, hf⟩

end

/-- Six free pages, and a process that grows and shrinks. -/
theorem life_frees_all_six : ∃ (I : Image) (s s' : Mach Kmem) (free' : List Nat),
    FreeList I s [0x80022000, 0x80023000, 0x80024000, 0x80025000, 0x80026000, 0x80027000] ∧
      life I 0x80007000 0x87f00000 [.uvmalloc 5000, .uvmdealloc 100] s = .ok s' ∧ FreeList I s' free' ∧
        0x80024000 ∈ free' := by
  let I : Image := ⟨0x80022000, by decide, by decide⟩
  have hs := freed_freeList I [0x80022000, 0x80023000, 0x80024000, 0x80025000, 0x80026000, 0x80027000]
    (by simp [Page, I, PHYSTOP, KERNBASE]) (by decide)
  obtain ⟨s', free', e, hl, hf⟩ := life_frees_all hs 0x80007000 0x87f00000 (by simp [IsPage]) (by simp [IsPage])
    [.uvmalloc 5000, .uvmdealloc 100] fun _ _ _ => ⟨trivial, fun _ _ _ => ⟨trivial, fun _ _ _ => trivial⟩⟩
  exact ⟨I, _, s', free', hs, e, hl, (hf _).mpr (by simp)⟩

end Xv6Labs.Plain
