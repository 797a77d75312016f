/-
  Xv6Labs.Vm.Code — `vm.c`, over a page allocator.

  Three labs ship nearly the same vm.c (cow, pagetables, mmap); the functions they
  share are written once, over what the labs differ in: `kalloc`/`kfree`, and whether
  an invalid leaf entry is skipped (mmap) or a panic (`Lab.skips`). Physical memory is a
  byte array; page-table pages live in it and are read and written as 8-byte words, as
  the C code does. A panic is `Except.error` with its message. The state is passed
  explicitly; every loop runs exactly as often as the C condition allows, an address
  at or past MAXVA ending it in `walk`'s panic.

  `kalloc` answers `none` for a null pointer. Kernel buffers (copyin's destination,
  copyout's source) are byte lists.
-/

import Xv6Labs.Lib.Bytes
import Xv6Labs.Lib.Calls
import Xv6Labs.Riscv

namespace Xv6Labs

open Lib

/-- Physical memory and the allocator's own state. -/
structure Mach (κ : Type) where
  mem : Mem
  kmem : κ

/-- What the labs' vm.c are built on. -/
structure Lab (κ : Type) where
  kalloc : Mach κ → Option Nat × Mach κ
  kfree : Nat → Mach κ → Except String (Mach κ)
  /-- `uvmunmap` and `uvmcopy` skip an invalid leaf entry instead of panicking. -/
  skips : Bool

namespace Vm

variable {κ : Type} (A : Lab κ)

/-! ## walk -/

def walkFrom (va : Nat) (alloc : Bool) : Nat → Nat → Mach κ → Option Nat × Mach κ
  | 0, pagetable, s => (some (pagetable + 8 * PX 0 va), s)
  | level + 1, pagetable, s =>
    let pte := pagetable + 8 * PX (level + 1) va
    let w := s.mem.loadLE pte 8
    if w &&& PTE_V ≠ 0 then walkFrom va alloc level (PTE2PA w) s
    else if !alloc then (none, s)
    else
      match A.kalloc s with
      | (none, s) => (none, s)
      | (some p, s) =>
        walkFrom va alloc level p { s with mem := (s.mem.set p 0 PGSIZE).storeLE pte 8 (PA2PTE p ||| PTE_V) }

/-- The address of the leaf entry for `va`, or `none`. -/
def walk (pagetable va : Nat) (alloc : Bool) (s : Mach κ) : Except String (Option Nat × Mach κ) :=
  if va ≥ MAXVA then .error "walk" else .ok (walkFrom A va alloc 2 pagetable s)

def walkaddr (pagetable va : Nat) (s : Mach κ) : Except String (Nat × Mach κ) :=
  if va ≥ MAXVA then .ok (0, s)
  else do
    let (pte, s) ← walk A pagetable va false s
    match pte with
    | none => .ok (0, s)
    | some pte =>
      let w := s.mem.loadLE pte 8
      if w &&& PTE_V = 0 then .ok (0, s)
      else if w &&& PTE_U = 0 then .ok (0, s)
      else .ok (PTE2PA w, s)

/-! ## mappages -/

/-- One round of mappages' loop; `false` when `walk` could not allocate. -/
def mapOne (pagetable a pa perm : Nat) (s : Mach κ) : Except String (Bool × Mach κ) := do
  let (pte, s) ← walk A pagetable a true s
  match pte with
  | none => .ok (false, s)
  | some pte =>
    if s.mem.loadLE pte 8 &&& PTE_V ≠ 0 then .error "mappages: remap"
    else .ok (true, { s with mem := s.mem.storeLE pte 8 (PA2PTE pa ||| perm ||| PTE_V) })

def mappagesLoop (pagetable perm : Nat) : Nat → Nat → Nat → Mach κ → Except String (Int × Mach κ)
  | 0, a, pa, s => do
    let (ok, s) ← mapOne A pagetable a pa perm s
    .ok (if ok then 0 else -1, s)
  | n + 1, a, pa, s => do
    let (ok, s) ← mapOne A pagetable a pa perm s
    if ok then mappagesLoop pagetable perm n (u64 (a + PGSIZE)) (u64 (pa + PGSIZE)) s else .ok (-1, s)

def mappages (pagetable va size pa perm : Nat) (s : Mach κ) : Except String (Int × Mach κ) :=
  if size = 0 then .error "mappages: size"
  else
    let a := PGROUNDDOWN va
    let last := PGROUNDDOWN (u64 (va + size - 1))
    mappagesLoop A pagetable perm (u64 (last + 2 ^ 64 - a) / PGSIZE) a pa s

/-! ## uvmunmap, uvmcreate, uvmalloc, uvmdealloc -/

/-- One round of uvmunmap's loop. -/
def unmapOne (pagetable a : Nat) (do_free : Bool) (s : Mach κ) : Except String (Mach κ) := do
  let (pte, s) ← walk A pagetable a false s
  match pte with
  | none => .error "uvmunmap: walk"
  | some pte =>
    let w := s.mem.loadLE pte 8
    if w &&& PTE_V = 0 then (if A.skips then .ok s else .error "uvmunmap: not mapped")
    else if PTE_FLAGS w = PTE_V then .error "uvmunmap: not a leaf"
    else do
      let s ← if do_free then A.kfree (PTE2PA w) s else .ok s
      .ok { s with mem := s.mem.storeLE pte 8 0 }

def unmapLoop (pagetable : Nat) (do_free : Bool) : Nat → Nat → Mach κ → Except String (Mach κ)
  | 0, _, s => .ok s
  | n + 1, a, s => do
    let s ← unmapOne A pagetable a do_free s
    unmapLoop pagetable do_free n (a + PGSIZE) s

def uvmunmap (pagetable va npages : Nat) (do_free : Bool) (s : Mach κ) : Except String (Mach κ) :=
  if va % PGSIZE ≠ 0 then .error "uvmunmap: not aligned"
  else unmapLoop A pagetable do_free ((u64 (va + u64 (npages * PGSIZE)) - va) / PGSIZE) va s

def uvmcreate (s : Mach κ) : Option Nat × Mach κ :=
  match A.kalloc s with
  | (none, s) => (none, s)
  | (some p, s) => (some p, { s with mem := s.mem.set p 0 PGSIZE })

/-- The number of pages goes through an `int`. -/
def uvmdealloc (pagetable oldsz newsz : Nat) (s : Mach κ) : Except String (Nat × Mach κ) :=
  if newsz ≥ oldsz then .ok (oldsz, s)
  else if PGROUNDUP newsz < PGROUNDUP oldsz then do
    let npages := sext32 ((PGROUNDUP oldsz - PGROUNDUP newsz) / PGSIZE)
    let s ← uvmunmap A pagetable (PGROUNDUP newsz) npages true s
    .ok (newsz, s)
  else .ok (newsz, s)

/-- The flags uvmalloc maps user pages with. -/
abbrev userPerm : Nat := PTE_W ||| PTE_X ||| PTE_R ||| PTE_U

def uvmallocLoop (pagetable oldsz newsz : Nat) : Nat → Nat → Mach κ → Except String (Nat × Mach κ)
  | 0, _, s => .ok (newsz, s)
  | n + 1, a, s =>
    match A.kalloc s with
    | (none, s) => do
      let (_, s) ← uvmdealloc A pagetable a oldsz s
      .ok (0, s)
    | (some mem, s) => do
      let (r, s) ← mappages A pagetable a PGSIZE mem userPerm { s with mem := s.mem.set mem 0 PGSIZE }
      if r ≠ 0 then do
        let s ← A.kfree mem s
        let (_, s) ← uvmdealloc A pagetable a oldsz s
        .ok (0, s)
      else uvmallocLoop pagetable oldsz newsz n (a + PGSIZE) s

def uvmalloc (pagetable oldsz newsz : Nat) (s : Mach κ) : Except String (Nat × Mach κ) :=
  if newsz < oldsz then .ok (oldsz, s)
  else
    let oldsz := PGROUNDUP oldsz
    uvmallocLoop A pagetable oldsz newsz ((newsz - oldsz + PGSIZE - 1) / PGSIZE) oldsz s

/-! ## freewalk, uvmfree -/

/-- The 512 entries of one table, the last `n` of them still to do. -/
def freewalkLoop (down : Nat → Mach κ → Except String (Mach κ)) (pagetable : Nat) :
    Nat → Mach κ → Except String (Mach κ)
  | 0, s => .ok s
  | n + 1, s =>
    let pte := pagetable + 8 * (511 - n)
    let w := s.mem.loadLE pte 8
    if w &&& PTE_V ≠ 0 ∧ w &&& (PTE_R ||| PTE_W ||| PTE_X) = 0 then do
      let s ← down (PTE2PA w) s
      freewalkLoop down pagetable n { s with mem := s.mem.storeLE pte 8 0 }
    else if w &&& PTE_V ≠ 0 then .error "freewalk: leaf"
    else freewalkLoop down pagetable n s

/-- A recursion deeper than `depth` runs off the one-page kernel stack. -/
def freewalkDepth : Nat → Nat → Mach κ → Except String (Mach κ)
  | 0, _, _ => .error "kerneltrap"
  | depth + 1, pagetable, s => do
    let s ← freewalkLoop (freewalkDepth depth) pagetable 512 s
    A.kfree pagetable s

def freewalk (pagetable : Nat) (s : Mach κ) : Except String (Mach κ) := freewalkDepth A 64 pagetable s

def uvmfree (pagetable sz : Nat) (s : Mach κ) : Except String (Mach κ) := do
  let s ← if sz > 0 then uvmunmap A pagetable 0 (PGROUNDUP sz / PGSIZE) true s else .ok s
  freewalk A pagetable s

/-! ## copyin, copyout -/

/-- `copyout`'s loop; `xlate` is walkaddr, or walkcowaddr in the cow lab. Each round
    writes at least one byte, so the source's length bounds the rounds. -/
def copyoutLoop (xlate : Nat → Mach κ → Except String (Nat × Mach κ)) :
    Nat → Nat → List UInt8 → Mach κ → Except String (Int × Mach κ)
  | 0, _, _, s => .ok (0, s)
  | rounds + 1, dstva, src, s =>
    if src.length = 0 then .ok (0, s)
    else do
      let va0 := PGROUNDDOWN dstva
      let (pa0, s) ← xlate va0 s
      if pa0 = 0 then .ok (-1, s)
      else
        let n := min (PGSIZE - (dstva - va0)) src.length
        copyoutLoop xlate rounds (u64 (va0 + PGSIZE)) (src.drop n)
          { s with mem := s.mem.put (pa0 + (dstva - va0)) (src.take n) }

/-- The bytes `copyin` moved before it returned. -/
def copyinLoop (pagetable : Nat) : Nat → Nat → Nat → Mach κ → Except String (Int × List UInt8)
  | 0, _, _, _ => .ok (0, [])
  | rounds + 1, srcva, len, s =>
    if len = 0 then .ok (0, [])
    else do
      let va0 := PGROUNDDOWN srcva
      let (pa0, s) ← walkaddr A pagetable va0 s
      if pa0 = 0 then .ok (-1, [])
      else
        let n := min (PGSIZE - (srcva - va0)) len
        let (r, bs) ← copyinLoop pagetable rounds (u64 (va0 + PGSIZE)) (len - n) s
        .ok (r, (List.range n).map (fun i => s.mem (pa0 + (srcva - va0) + i)) ++ bs)

def copyin (pagetable srcva len : Nat) (s : Mach κ) : Except String (Int × List UInt8) :=
  copyinLoop A pagetable len srcva len s

/-- copyout of the pagetables and mmap labs. -/
def copyout (pagetable dstva : Nat) (src : List UInt8) (s : Mach κ) : Except String (Int × Mach κ) :=
  copyoutLoop (walkaddr A pagetable) src.length dstva src s

/-! ## The eager uvmcopy of the pagetables and mmap labs -/

def uvmcopyLoop (old new : Nat) : Nat → Nat → Mach κ → Except String (Int × Mach κ)
  | 0, _, s => .ok (0, s)
  | n + 1, i, s => do
    let (pte, s) ← walk A old i false s
    match pte with
    | none => .error "uvmcopy: pte should exist"
    | some pte =>
      let w := s.mem.loadLE pte 8
      if w &&& PTE_V = 0 then
        if A.skips then uvmcopyLoop old new n (i + PGSIZE) s else .error "uvmcopy: page not present"
      else
        match A.kalloc s with
        | (none, s) => do
          let s ← uvmunmap A new 0 (i / PGSIZE) true s
          .ok (-1, s)
        | (some mem, s) => do
          let (r, s) ← mappages A new i PGSIZE mem (PTE_FLAGS w) { s with mem := s.mem.move mem (PTE2PA w) PGSIZE }
          if r ≠ 0 then do
            let s ← A.kfree mem s
            let s ← uvmunmap A new 0 (i / PGSIZE) true s
            .ok (-1, s)
          else uvmcopyLoop old new n (i + PGSIZE) s

def uvmcopy (old new sz : Nat) (s : Mach κ) : Except String (Int × Mach κ) :=
  uvmcopyLoop A old new ((sz + PGSIZE - 1) / PGSIZE) 0 s

def uvmclear (pagetable va : Nat) (s : Mach κ) : Except String (Mach κ) := do
  let (pte, s) ← walk A pagetable va false s
  match pte with
  | none => .error "uvmclear"
  | some pte => .ok { s with mem := s.mem.storeLE pte 8 (clear (s.mem.loadLE pte 8) PTE_U) }

end Vm

end Xv6Labs
