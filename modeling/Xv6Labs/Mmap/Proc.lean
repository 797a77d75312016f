/-
  Xv6Labs.Mmap.Proc — mmap, page faults and growth in the mmap lab.

  `sys_mmap` of sysfile.c, the page-fault branch of `usertrap` in trap.c and `growproc` of
  proc.c, over vm.c. `struct vma` and VMASIZE are not in the repository: an area has a
  64-bit address and an int length, and VMASIZE is a parameter. A file is its flags, its
  reference count and the bytes of its inode (`none` where `file->ip` is null); `readi`
  copies from these. A system call's arguments are what argint and argfd fetch.

  `before` is not in the code and nothing reads it: the virtual pages that were mapped when
  the area was made.
-/

import Xv6Labs.Fs.Code
import Xv6Labs.Vm.Free
import Xv6Labs.Vm.Kalloc

namespace Xv6Labs.Mmap

open Lib

abbrev PROT_READ : Nat := 1
abbrev PROT_WRITE : Nat := 2
abbrev PROT_EXEC : Nat := 4
abbrev MAP_SHARED : Int := 1

structure File where
  ref : Int
  readable : Bool
  writable : Bool
  ip : Option (List UInt8)

structure Vma where
  used : Bool
  addr : Nat
  length : Int
  prot : Int
  flags : Int
  fd : Nat
  file : Nat
  offset : Int
  before : Nat → Bool

structure Proc where
  pagetable : Nat
  sz : Nat
  vmas : Nat → Vma
  ofile : Nat → Option Nat
  killed : Bool

structure St (κ : Type) where
  m : Mach κ
  p : Proc
  file : Nat → File

variable {κ : Type} (A : Lab κ) (VMASIZE : Nat)

/-! ## sys_mmap -/

/-- `PGROUNDUP` of an int. -/
def PGROUNDUP (length : Int) : Int := i32 (length + (4096 - 1)) / 4096 * 4096

/-- The first unused entry, with `n` to go. -/
def freeVma (vmas : Nat → Vma) : Nat → Nat → Option Nat
  | 0, _ => none
  | n + 1, i => if (vmas i).used then freeVma vmas n (i + 1) else some i

def filedup (f : Nat) (s : St κ) : Except String (St κ) :=
  if (s.file f).ref < 1 then .error "filedup"
  else .ok { s with file := Function.update s.file f { s.file f with ref := (s.file f).ref + 1 } }

def sys_mmap (length prot flags : Int) (fd : Nat) (offset : Int) (s : St κ) : Except String (Int × St κ) :=
  match s.p.ofile fd with
  | none => .ok (-1, s)
  | some f =>
    if (s.file f).writable = false ∧ toU64 prot &&& PROT_WRITE ≠ 0 ∧ flags = MAP_SHARED then .ok (-1, s)
    else if s.p.sz > toU64 (MAXVA - PGROUNDUP length) then .ok (-1, s)
    else
      match freeVma s.p.vmas VMASIZE 0 with
      | none => .ok (-1, s)
      | some i =>
        let vma : Vma := ⟨true, s.p.sz, PGROUNDUP length, prot, flags, fd, f, offset,
          fun v => (Vm.lookup s.m.mem s.p.pagetable v).isSome⟩
        do
          let s ← filedup f s
          .ok (s.p.sz, { s with p := { s.p with
            vmas := Function.update s.p.vmas i vma
            sz := toU64 (s.p.sz + PGROUNDUP length) } })

/-! ## Page faults -/

/-- The bytes readi copies. -/
def readi (ip : List UInt8) (off n : Nat) : List UInt8 := Fs.Disk.readBytes ip off n

/-- `va >= addr && va < addr + length` -/
def Vma.contains (x : Vma) (va : Nat) : Bool := decide (va ≥ x.addr) && decide (va < toU64 (x.addr + x.length))

/-- The first used entry that contains the address, with `n` to go. -/
def findVma (vmas : Nat → Vma) (va : Nat) : Nat → Nat → Option Nat
  | 0, _ => none
  | n + 1, i => if (vmas i).used && (vmas i).contains va then some i else findVma vmas va n (i + 1)

def Vma.flag (x : Vma) : Nat :=
  PTE_U ||| (if toU64 x.prot &&& PROT_READ ≠ 0 then PTE_R else 0) |||
    (if toU64 x.prot &&& PROT_WRITE ≠ 0 then PTE_W else 0) |||
    (if toU64 x.prot &&& PROT_EXEC ≠ 0 then PTE_X else 0)

def St.kill (s : St κ) : St κ := { s with p := { s.p with killed := true } }

/-- The new page: zeroed, then what the file has there. -/
def readPage (x : Vma) (ip : List UInt8) (va mem : Nat) (m : Mem) : Mem :=
  (m.set mem 0 PGSIZE).put mem (readi ip (u32 (toU64 ((va : Int) - x.addr))) PGSIZE)

def enterPage (x : Vma) (va mem : Nat) (s : St κ) (m : Mach κ) : Except String (St κ) := do
  let (r, m) ← Vm.mappages A s.p.pagetable va PGSIZE mem x.flag m
  if r ≠ 0 then do
    let m ← A.kfree mem m
    .ok (St.kill { s with m := m })
  else .ok { s with m := m }

/-- The rest of a page fault in area `x`, from kalloc on. -/
def fillPage (x : Vma) (va : Nat) (s : St κ) : Except String (St κ) :=
  match A.kalloc s.m with
  | (none, m) => .ok (St.kill { s with m := m })
  | (some mem, m) =>
    match (s.file x.file).ip with
    | none => .error "ilock"
    | some ip => enterPage A x va mem s { m with mem := readPage x ip va mem m.mem }

/-- scause 13 or 15 at `va`; `sp` is the user's stack pointer. -/
def pageFault (va sp : Nat) (s : St κ) : Except String (St κ) :=
  if va ≥ s.p.sz ∨ va > MAXVA ∨ Xv6Labs.PGROUNDUP va = PGROUNDDOWN sp then .ok s.kill
  else
    match findVma s.p.vmas va VMASIZE 0 with
    | none => .ok s
    | some i => fillPage A (s.p.vmas i) (PGROUNDDOWN va) s

/-! ## growproc -/

/-- The size goes through a `uint`. -/
def growproc (n : Int) (s : St κ) : Except String (Int × St κ) :=
  let sz := u32 s.p.sz
  if n > 0 then do
    let (r, m) ← Vm.uvmalloc A s.p.pagetable sz (u32 (toU64 (sz + n))) s.m
    if u32 r = 0 then .ok (-1, { s with m := m }) else .ok (0, { s with m := m, p := { s.p with sz := u32 r } })
  else if n < 0 then do
    let (r, m) ← Vm.uvmdealloc A s.p.pagetable sz (u32 (toU64 (sz + n))) s.m
    .ok (0, { s with m := m, p := { s.p with sz := u32 r } })
  else .ok (0, { s with p := { s.p with sz := sz } })

end Xv6Labs.Mmap
