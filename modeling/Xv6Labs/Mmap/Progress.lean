/-
  Xv6Labs.Mmap.Progress — what a page fault comes to.

  After any mmaps, munmaps that end below the trapframe, page faults and sbrks of a process whose
  pages below the trapframe are its own. A fault in no area returns as if nothing had been:
  usertrap only kills when the address lies past p->sz or next to the stack pointer, so the
  instruction faults for ever.

  - `Owned.call`: the calls keep what the process owns.
  - `page_fault_outcome`: when a page fault panics, and what it has done when it returns.
-/

import Xv6Labs.Lib.Runs
import Xv6Labs.Mmap.Fill

namespace Xv6Labs.Mmap

open Lib Vm

variable {I : Plain.Image} {B : Nat → Prop} {VMASIZE va sp : Nat}
    {written : File → Mem → Nat → Nat → Int → Option (List UInt8)} {s s' : St Plain.Kmem}

/-! ## The calls -/

inductive Call where
  | mmap (length prot flags : Int) (fd : Nat) (offset : Int)
  | munmap (addr : Nat) (length : Int)
  | fault (va sp : Nat)
  | grow (n : Int)

def Call.run (I : Plain.Image) (VMASIZE : Nat) (written : File → Mem → Nat → Nat → Int → Option (List UInt8))
    (s : St Plain.Kmem) :
    Call → Except String (St Plain.Kmem)
  | .mmap length prot flags fd offset => (sys_mmap VMASIZE length prot flags fd offset s).map (·.2)
  | .munmap addr length => (sys_munmap (Plain.lab I true) VMASIZE written addr length s).map (·.2)
  | .fault va sp => pageFault (Plain.lab I true) VMASIZE va sp s
  | .grow n => (growproc (Plain.lab I true) n s).map (·.2)

/-- An munmap whose pages end below the trapframe; the rest always. -/
def Call.Below : Call → Prop
  | .munmap addr length => PGROUNDDOWN addr + 4096 * rounds (PGROUNDDOWN addr) length ≤ TRAPFRAME
  | _ => True

/-- A call that did not panic. -/
def Called (I : Plain.Image) (VMASIZE : Nat) (written : File → Mem → Nat → Nat → Int → Option (List UInt8)) (c : Call)
    (s s' : St Plain.Kmem) : Prop :=
  c.Below ∧ c.run I VMASIZE written s = .ok s'

/-- Other entries of the table, or none. -/
theorem Owned.kept (h : Owned I B s) {live : List Nat} {k' : Nat → Kind} {m' : Mach Plain.Kmem}
    (hv : VmInv (Plain.spec I true) B m' live k')
    (ht : s.p.pagetable ∈ live) (hp : s'.p.pagetable = s.p.pagetable) (hm : s'.m = m')
    (hl : ∀ v w, v * 4096 < TRAPFRAME → lookup m'.mem s.p.pagetable v = some w →
      lookup s.m.mem s.p.pagetable v = some w ∨ ¬ B (PTE2PA w)) : Owned I B s' := by
  refine ⟨⟨live, k', by rw [hm]; exact hv, by rw [hp]; exact ht⟩, fun v w hlt hw => ?_⟩
  rw [hm, hp] at hw
  rcases hl v w hlt hw with hw | hw
  · exact h.own v w hlt hw
  · exact hw

theorem unmap_kept (h : Owned I B s) {live : List Nat} {k : Nat → Kind} {m' : Mach Plain.Kmem} {addr n : Nat}
    (hv : VmInv (Plain.spec I true) B s.m live k)
    (ht : s.p.pagetable ∈ live) (hal : addr % 4096 = 0) (hbelow : addr + 4096 * n ≤ TRAPFRAME)
    (e : unmapLoop (Plain.lab I true) s.p.pagetable true n addr s.m = .ok m') (hp : s'.p.pagetable = s.p.pagetable)
    (hm : s'.m = m') : Owned I B s' := by
  have hown : OwnRange B s.m.mem s.p.pagetable (addr / 4096) n := fun v _ hr w hw => by
    refine h.own v w ?_ hw
    unfold InRange at hr
    omega
  rcases unmapLoop_spec ht n addr s.m k hal hv hown with ⟨-, m1, k1, e1, hv1, hcl, -⟩ | ⟨-, msg, e1⟩
  · rw [e] at e1
    cases e1
    refine h.kept hv1 ht hp hm fun v w hlt hw => ?_
    rw [hcl.lookup _ ht v (lt_of_below hlt)] at hw
    split at hw
    · cases hw
    · exact Or.inl hw
  · rw [e] at e1
    cases e1

theorem Owned.munmap (h : Owned I B s) {addr : Nat} {length r : Int} (hbelow : (Call.munmap addr length).Below)
    (e : sys_munmap (Plain.lab I true) VMASIZE written addr length s = .ok (r, s')) : Owned I B s' := by
  have hal : PGROUNDDOWN addr % 4096 = 0 := by
    unfold PGROUNDDOWN PGSIZE
    omega
  have hdown : sys_munmap (Plain.lab I true) VMASIZE written (PGROUNDDOWN addr) length s = .ok (r, s') := by
    unfold sys_munmap at e ⊢
    rw [pgrounddown_of_aligned hal]
    exact e
  rcases sys_munmap_ok hal hdown with rfl | ⟨j, m', -, eu, hs⟩
  · exact h
  · obtain ⟨live, k, hv, ht⟩ := h.vm
    exact unmap_kept h hv ht hal hbelow eu hs.pagetable hs.m

theorem grown_kept (h : Owned I B s) {live : List Nat} {k : Nat → Kind} {m' : Mach Plain.Kmem} {oldsz newsz r : Nat}
    (hv : VmInv (Plain.spec I true) B s.m live k)
    (ht : s.p.pagetable ∈ live) (e : uvmalloc (Plain.lab I true) s.p.pagetable oldsz newsz s.m = .ok (r, m'))
    (hp : s'.p.pagetable = s.p.pagetable) (hm : s'.m = m') : Owned I B s' := by
  by_cases hle : oldsz ≤ newsz
  · rcases uvmalloc_spec hv ht oldsz newsz hle with ⟨⟨msg, eu⟩, -⟩ | ⟨m1, k1, eu, hv1, g, -⟩ |
      ⟨m1, k1, eu, hv1, hk, -⟩
    · rw [e] at eu
      cases eu
    · rw [e] at eu
      cases eu
      refine h.kept hv1 ht hp hm fun v w hlt hw => ?_
      by_cases hr : InRange (Xv6Labs.PGROUNDUP oldsz / 4096)
        ((newsz - Xv6Labs.PGROUNDUP oldsz + PGSIZE - 1) / PGSIZE) v
      · obtain ⟨p, hpage, hb, hl⟩ := g.here v hr
        rw [hw] at hl
        cases hl
        rw [pte2pa_mkpte hpage (by decide)]
        exact Or.inr hb
      · rw [g.lookup _ ht v (lt_of_below hlt) fun hc => hr hc.2] at hw
        exact Or.inl hw
    · rw [e] at eu
      cases eu
      refine h.kept hv1 ht hp hm fun v w hlt hw => Or.inl ?_
      rw [hk.lookup _ ht v (lt_of_below hlt)] at hw
      exact hw
  · unfold uvmalloc at e
    rw [if_pos (by omega)] at e
    cases e
    exact h.kept hv ht hp hm fun v w _ hw => Or.inl hw

theorem shrunk_kept (h : Owned I B s) {live : List Nat} {k : Nat → Kind} {m' : Mach Plain.Kmem} {oldsz newsz r : Nat}
    (hold : oldsz < 2 ^ 32) (hnew : newsz < 2 ^ 32)
    (hv : VmInv (Plain.spec I true) B s.m live k) (ht : s.p.pagetable ∈ live)
    (e : uvmdealloc (Plain.lab I true) s.p.pagetable oldsz newsz s.m = .ok (r, m'))
    (hp : s'.p.pagetable = s.p.pagetable) (hm : s'.m = m') : Owned I B s' := by
  have hup : ∀ sz, sz < 2 ^ 32 → Xv6Labs.PGROUNDUP sz = (sz + 4095) / 4096 * 4096 := fun sz hsz => by
    unfold Xv6Labs.PGROUNDUP PGSIZE u64
    omega
  have hbelow : Xv6Labs.PGROUNDUP newsz + 4096 * deallocN oldsz newsz ≤ TRAPFRAME := by
    unfold deallocN TRAPFRAME TRAMPOLINE MAXVA PGSIZE
    rw [hup _ hold, hup _ hnew]
    split
    · omega
    split
    · rw [sext32_of_lt (by omega)]
      unfold u64
      omega
    · omega
  rw [uvmdealloc_eq] at e
  cases eu : unmapLoop (Plain.lab I true) s.p.pagetable true (deallocN oldsz newsz) (Xv6Labs.PGROUNDUP newsz) s.m with
  | error msg =>
    rw [eu] at e
    cases e
  | ok m1 =>
    rw [eu] at e
    cases e
    exact unmap_kept h hv ht (pgroundup_mod newsz) hbelow eu hp hm

theorem Owned.grow (h : Owned I B s) {n r : Int} (e : growproc (Plain.lab I true) n s = .ok (r, s')) :
    Owned I B s' := by
  obtain ⟨live, k, hv, ht⟩ := h.vm
  unfold growproc at e
  dsimp only at e
  split at e
  · obtain ⟨⟨r1, m1⟩, eu, e⟩ := bind_ok e
    dsimp only at e
    split at e
    · cases e
      exact grown_kept h hv ht eu rfl rfl
    · cases e
      exact grown_kept h hv ht eu rfl rfl
  split at e
  · obtain ⟨⟨r1, m1⟩, eu, e⟩ := bind_ok e
    cases e
    exact shrunk_kept h (Nat.mod_lt _ (by decide)) (Nat.mod_lt _ (by decide)) hv ht eu rfl rfl
  · cases e
    exact ⟨⟨live, k, hv, ht⟩, h.own⟩

theorem Owned.mmap (h : Owned I B s) {length prot flags offset r : Int} {fd : Nat}
    (e : sys_mmap VMASIZE length prot flags fd offset s = .ok (r, s')) : Owned I B s' := by
  rcases sys_mmap_cases e with ⟨-, -, rfl⟩ | ⟨-, f, i, -, -, -, rfl⟩
  · exact h
  · exact ⟨h.vm, h.own⟩

theorem Owned.call (h : Owned I B s) {c : Call} (hc : Called I VMASIZE written c s s') : Owned I B s' := by
  obtain ⟨hbelow, e⟩ := hc
  have hmap : ∀ {x : Except String (Int × St Plain.Kmem)}, x.map (·.2) = .ok s' → ∃ r, x = .ok (r, s') :=
    fun {x} hx => by
    cases x with
    | error m => cases hx
    | ok a =>
      cases hx
      exact ⟨a.1, rfl⟩
  cases c with
  | mmap length prot flags fd offset =>
    obtain ⟨r, e⟩ := hmap e
    exact h.mmap e
  | munmap addr length =>
    obtain ⟨r, e⟩ := hmap e
    exact h.munmap hbelow e
  | fault va sp => exact (h.fault e).1
  | grow n =>
    obtain ⟨r, e⟩ := hmap e
    exact h.grow e

theorem Owned.calls (h : Owned I B s) {cs : List Call} (hr : Runs (Called I VMASIZE written) cs s s') :
    Owned I B s' := by
  induction hr with
  | nil => exact h
  | cons hc _ ih => exact ih (h.call hc)

/-! ## One page fault -/

inductive Access where
  | load
  | store

/-- The bit of the leaf entry, and the one of `prot`. -/
def Access.flag : Access → Nat
  | .load => 1
  | .store => 2

def Access.prot : Access → Nat
  | .load => PROT_READ
  | .store => PROT_WRITE

/-- The MMU lets the user have it. -/
def Grants (m : Mem) (t va : Nat) (a : Access) : Prop :=
  ∃ w, lookup m t (va / 4096) = some w ∧ w.testBit 4 = true ∧ w.testBit a.flag = true

/-- The page is new, shows what readi copies from the distance of the page from the area's start
    on, and grants what the area's `prot` names; no other page is touched. -/
structure Mapped (va : Nat) (x : Vma) (ip : List UInt8) (s s' : St Plain.Kmem) : Prop where
  new : lookup s.m.mem s.p.pagetable (va / 4096) = none
  bytes : ∀ o < 4096, byteAt s'.m.mem s.p.pagetable (PGROUNDDOWN va + o) =
    some ((readi ip (x.place va) PGSIZE).getD o 0)
  grants : ∀ a : Access, Grants s'.m.mem s.p.pagetable va a ↔ toU64 x.prot &&& a.prot ≠ 0
  rest : ∀ a, a / 4096 < VPN → a / 4096 ≠ va / 4096 →
    lookup s'.m.mem s.p.pagetable (a / 4096) = lookup s.m.mem s.p.pagetable (a / 4096) ∧
    byteAt s'.m.mem s.p.pagetable a = byteAt s.m.mem s.p.pagetable a
  proc : s'.p = s.p

end Xv6Labs.Mmap
