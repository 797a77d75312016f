/-
  Xv6Labs.Cow.Worlds — address spaces that fork, under either kernel.

  A `World` is the machine and the live page tables, oldest first; an address space is
  known by its place in the list, so that worlds with different page tables can be
  compared. `step` runs one action. The two kernels differ in three functions: the cow
  lab's share pages on fork and copy them when written, the eager ones (the pagetables
  lab's) copy on fork and always write in place. `Act.run` is what the actions do to what
  the users see.
-/

import Xv6Labs.Cow.Vm

namespace Xv6Labs.Cow

open Lib Vm

structure World where
  mach : Mach Kmem
  live : List Nat

inductive Act where
  | fork (i sz : Nat)
  | store (i va : Nat) (b : UInt8)
  | copyout (i dstva : Nat) (src : List UInt8)
  | copyin (i srcva len : Nat)
  | uvmalloc (i oldsz newsz : Nat)
  | uvmdealloc (i oldsz newsz : Nat)
  | uvmfree (i sz : Nat)

/-- What an action returns: a code, and the bytes copyin moved. -/
structure Out where
  ret : Int
  bytes : List UInt8
  deriving DecidableEq

/-! ## User stores -/

/-- The MMU lets the store through: the leaf is valid, the user's and writable. -/
def inPlace (m : Mem) (t va : Nat) (b : UInt8) : Option Mem :=
  if va < MAXVA then
    match lookup m t (va / 4096) with
    | some w => if w.testBit 4 && w.testBit 2 then some (m.put (PTE2PA w + va % 4096) [b]) else none
    | none => none
  else none

/-- Otherwise usertrap gets a fault with scause 15: walkcowaddr answers 0 and the process
    is killed (`false`), or the instruction is run again. -/
def storeCow (L : Layout) (t va : Nat) (b : UInt8) (s : Mach Kmem) : Except String (Bool × Mach Kmem) :=
  match inPlace s.mem t va b with
  | some m => .ok (true, { s with mem := m })
  | none => do
    let (pa, s) ← walkcowaddr L t va s
    if pa = 0 then .ok (false, s)
    else
      match inPlace s.mem t va b with
      | some m => .ok (true, { s with mem := m })
      | none => .error "the store faults again"

def storeEager (t va : Nat) (b : UInt8) (s : Mach Kmem) : Except String (Bool × Mach Kmem) :=
  match inPlace s.mem t va b with
  | some m => .ok (true, { s with mem := m })
  | none => .ok (false, s)

/-! ## The two kernels -/

structure Kernel where
  uvmcopy : Nat → Nat → Nat → Mach Kmem → Except String (Int × Mach Kmem)
  copyout : Nat → Nat → List UInt8 → Mach Kmem → Except String (Int × Mach Kmem)
  store : Nat → Nat → UInt8 → Mach Kmem → Except String (Bool × Mach Kmem)

def cowKernel (L : Layout) : Kernel := ⟨Cow.uvmcopy L, Cow.copyout L, storeCow L⟩

def eagerKernel (L : Layout) : Kernel := ⟨Vm.uvmcopy (lab L), Vm.copyout (lab L), storeEager⟩

/-- The page table of address space `i`. -/
def withTable (w : World) (i : Nat) (f : Nat → Except String (Out × World)) : Except String (Out × World) :=
  match w.live[i]? with
  | none => .error "no such address space"
  | some t => f t

def step (L : Layout) (K : Kernel) (w : World) : Act → Except String (Out × World)
  | .fork i sz => withTable w i fun t =>
    match uvmcreate (lab L) w.mach with
    | (none, m) => .ok (⟨-1, []⟩, { w with mach := m })
    | (some new, m) => do
      let (r, m) ← K.uvmcopy t new sz m
      .ok (⟨r, []⟩, { mach := m, live := w.live ++ [new] })
  | .store i va b => withTable w i fun t => do
    let (ok, m) ← K.store t va b w.mach
    .ok (⟨if ok then 0 else -1, []⟩, { w with mach := m })
  | .copyout i dstva src => withTable w i fun t => do
    let (r, m) ← K.copyout t dstva src w.mach
    .ok (⟨r, []⟩, { w with mach := m })
  | .copyin i srcva len => withTable w i fun t => do
    let (r, bs) ← Vm.copyin (lab L) t srcva len w.mach
    .ok (⟨r, bs⟩, w)
  | .uvmalloc i oldsz newsz => withTable w i fun t => do
    let (r, m) ← Vm.uvmalloc (lab L) t oldsz newsz w.mach
    .ok (⟨r, []⟩, { w with mach := m })
  | .uvmdealloc i oldsz newsz => withTable w i fun t => do
    let (r, m) ← Vm.uvmdealloc (lab L) t oldsz newsz w.mach
    .ok (⟨r, []⟩, { w with mach := m })
  | .uvmfree i sz => withTable w i fun t => do
    let m ← Vm.uvmfree (lab L) t sz w.mach
    .ok (⟨0, []⟩, { mach := m, live := w.live.eraseIdx i })

/-! ## What the users see -/

/-- Every page of the range is mapped, and below MAXVA. -/
def covers (sp : Space) (v0 n : Nat) : Prop := ∀ j < n, v0 + j < MAXVA / 4096 ∧ (sp.user (v0 + j)).isSome = true

/-- No page of the range is mapped, and all are below MAXVA. -/
def vacant (sp : Space) (v0 n : Nat) : Prop := ∀ j < n, v0 + j < MAXVA / 4096 ∧ sp.user (v0 + j) = none

instance (sp : Space) (v0 n : Nat) : Decidable (covers sp v0 n) := Nat.decidableBallLT n _

instance (sp : Space) (v0 n : Nat) : Decidable (vacant sp v0 n) := Nat.decidableBallLT n _

/-- The pages uvmfree unmaps. -/
def freePages (sz : Nat) : Nat := if sz > 0 then PGROUNDUP sz / 4096 else 0

def withSpace (sps : List Space) (i : Nat) (f : Space → Option (Out × List Space)) : Option (Out × List Space) :=
  match sps[i]? with
  | none => none
  | some sp => f sp

/-- The actions on spaces; `none` for a panic. -/
def Act.run (sps : List Space) : Act → Option (Out × List Space)
  | .fork i sz => withSpace sps i fun sp =>
    let n := (sz + PGSIZE - 1) / PGSIZE
    if covers sp 0 n then some (⟨0, []⟩, sps ++ [sp.fork n]) else none
  | .store i va b => withSpace sps i fun sp =>
    some (⟨if (sp.store va b).1 then 0 else -1, []⟩, sps.set i (sp.store va b).2)
  | .copyout i dstva src => withSpace sps i fun sp =>
    some (⟨(sp.copyoutLoop src.length dstva src).1, []⟩, sps.set i (sp.copyoutLoop src.length dstva src).2)
  | .copyin i srcva len => withSpace sps i fun sp =>
    some (⟨(sp.copyinLoop len srcva len).1, (sp.copyinLoop len srcva len).2⟩, sps)
  | .uvmalloc i oldsz newsz => withSpace sps i fun sp =>
    let v0 := PGROUNDUP oldsz / 4096
    let n := (newsz - PGROUNDUP oldsz + PGSIZE - 1) / PGSIZE
    if newsz < oldsz then some (⟨oldsz, []⟩, sps)
    else if vacant sp v0 n then some (⟨newsz, []⟩, sps.set i (sp.alloc v0 n))
    else none
  | .uvmdealloc i oldsz newsz => withSpace sps i fun sp =>
    let v0 := PGROUNDUP newsz / 4096
    let n := deallocN oldsz newsz
    if covers sp v0 n then some (⟨if newsz ≥ oldsz then oldsz else newsz, []⟩, sps.set i (sp.dealloc v0 n)) else none
  | .uvmfree i sz => withSpace sps i fun sp =>
    let n := freePages sz
    if covers sp 0 n ∧ ∀ v < VPN, n ≤ v → sp.user v = none then some (⟨0, []⟩, sps.eraseIdx i) else none

end Xv6Labs.Cow
