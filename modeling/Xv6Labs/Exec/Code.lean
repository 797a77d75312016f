/-
  Xv6Labs.Exec.Code — `exec.c` of the pagetables lab.

  The file is the byte sequence readi gives; `elf.h` is not in the tree, so what exec takes
  from it is a parameter (`Format`). proc_pagetable is the one of the syscalls lab, the
  pagetables lab's proc.c not being there either. vmprint, which only prints, is left out.

  argv is a list of kernel strings, each without its NUL.
-/

import Xv6Labs.Fs.Code
import Xv6Labs.Vm.Lifecycle
import Xv6Labs.Vm.Kalloc

namespace Xv6Labs.Exec

open Lib Vm Plain

structure Elfhdr where
  magic : UInt32
  entry : UInt64
  phoff : UInt64
  phnum : UInt16

structure Proghdr where
  type : UInt32
  off : UInt64
  vaddr : UInt64
  filesz : UInt64
  memsz : UInt64

/-- `elf.h`: the two constants, and the two structs with their sizes. -/
structure Format where
  ELF_MAGIC : UInt32
  ELF_PROG_LOAD : UInt32
  elfhdrSize : Nat
  elfhdr : List UInt8 → Elfhdr
  proghdrSize : Nat
  proghdr : List UInt8 → Proghdr

structure Inode where
  bytes : List UInt8
  size_lt : bytes.length < 2 ^ 32

/-- The bytes read; their number is what readi returns. -/
def readi (ip : Inode) (off n : Nat) : List UInt8 := Fs.Disk.readBytes ip.bytes off n

abbrev MAXARG : Nat := 32

structure Proc where
  pagetable : Nat
  sz : Nat
  trapframe : Nat
  name : List UInt8

structure State where
  mach : Mach Kmem
  proc : Proc
  /-- File system operations begun and not ended. -/
  ops : Nat
  /-- The executable's inode is locked. -/
  locked : Bool

def State.begin_op (s : State) : State := { s with ops := s.ops + 1 }
def State.end_op (s : State) : State := { s with ops := s.ops - 1 }
def State.ilock (s : State) : State := { s with locked := true }
def State.iunlockput (s : State) : State := { s with locked := false }

variable (I : Image)

/-! ## Loading -/

/-- `i` is a uint: past 2^20 rounds it has wrapped, and the loop has no end. -/
def loadsegLoop (pagetable va : Nat) (ip : Inode) (offset sz : Nat) :
    Nat → Nat → Mach Kmem → Except String (Int × Mach Kmem)
  | 0, _, _ => .error "loadseg: endless loop"
  | rounds + 1, i, s =>
    if i < sz then do
      let (pa, s) ← walkaddr (lab I false) pagetable (u64 (va + i)) s
      if pa = 0 then .error "loadseg: address should exist"
      else
        let n := if sz - i < PGSIZE then sz - i else PGSIZE
        let bs := readi ip (u32 (offset + i)) n
        let s := { s with mem := s.mem.put pa bs }
        if bs.length ≠ n then .ok (-1, s) else loadsegLoop pagetable va ip offset sz rounds (u32 (i + PGSIZE)) s
    else .ok (0, s)

def loadseg (pagetable va : Nat) (ip : Inode) (offset sz : Nat) (s : Mach Kmem) : Except String (Int × Mach Kmem) :=
  loadsegLoop I pagetable va ip offset sz (2 ^ 20 + 1) 0 s

variable (F : Format)

/-- The program headers. `false` stands for `goto bad`, with the size there. -/
def loadLoop (pagetable : Nat) (ip : Inode) : Nat → Nat → Nat → Mach Kmem → Except String (Bool × Nat × Mach Kmem)
  | 0, _, sz, s => .ok (true, sz, s)
  | n + 1, off, sz, s =>
    let bs := readi ip off F.proghdrSize
    let off := u32 (off + F.proghdrSize)
    let ph := F.proghdr bs
    if bs.length ≠ F.proghdrSize then .ok (false, sz, s)
    else if ph.type ≠ F.ELF_PROG_LOAD then loadLoop pagetable ip n off sz s
    else if ph.memsz < ph.filesz then .ok (false, sz, s)
    else if ph.vaddr + ph.memsz < ph.vaddr then .ok (false, sz, s)
    else do
      let (sz1, s) ← uvmalloc (lab I false) pagetable sz (ph.vaddr + ph.memsz).toNat s
      if sz1 = 0 then .ok (false, sz, s)
      else if ph.vaddr.toNat % PGSIZE ≠ 0 then .ok (false, sz1, s)
      else do
        let (r, s) ← loadseg I pagetable ph.vaddr.toNat ip (u32 ph.off.toNat) (u32 ph.filesz.toNat) s
        if r < 0 then .ok (false, sz1, s) else loadLoop pagetable ip n off sz1 s

/-! ## The stack -/

/-- `sp` after `n` bytes were pushed, a multiple of 16. -/
def push (sp n : Nat) : Nat :=
  let sp := u64 (sp + 2 ^ 64 - n)
  sp - sp % 16

/-- The strings; the final `sp` and `ustack`, or `none` for `goto bad`. -/
def pushLoop (pagetable stackbase : Nat) : List (List UInt8) → Nat → List Nat → Mach Kmem →
    Except String (Option (Nat × List Nat) × Mach Kmem)
  | [], sp, ustack, s => .ok (some (sp, ustack), s)
  | arg :: argv, sp, ustack, s =>
    let sp := push sp (arg.length + 1)
    if ustack.length ≥ MAXARG then .ok (none, s)
    else if sp < stackbase then .ok (none, s)
    else do
      let (r, s) ← copyout (lab I false) pagetable sp (arg ++ [0]) s
      if r < 0 then .ok (none, s) else pushLoop pagetable stackbase argv sp (ustack ++ [sp]) s

/-- The bytes of an array of uint64. -/
def words (ws : List Nat) : List UInt8 := ws.flatMap fun w => (List.range 8).map fun i => UInt8.ofNat (w / 256 ^ i)

/-- From the two stack pages to the pushed argv: the stack pointer, or `none` for `goto bad`,
    and the size. -/
def stack (pagetable sz : Nat) (argv : List (List UInt8)) (s : Mach Kmem) :
    Except String (Option Nat × Nat × Mach Kmem) := do
  let sz := PGROUNDUP sz
  let (sz1, s) ← uvmalloc (lab I false) pagetable sz (u64 (sz + 2 * PGSIZE)) s
  if sz1 = 0 then .ok (none, sz, s)
  else do
    let sz := sz1
    let s ← uvmclear (lab I false) pagetable (sz - 2 * PGSIZE) s
    let stackbase := sz - PGSIZE
    let (pushed, s) ← pushLoop I pagetable stackbase argv sz [] s
    match pushed with
    | none => .ok (none, sz, s)
    | some (sp, ustack) =>
      -- ustack[argc] is past the array
      if ustack.length ≥ MAXARG then .error "ustack"
      else
        let sp := push sp ((ustack.length + 1) * 8)
        if sp < stackbase then .ok (none, sz, s)
        else do
          let (r, s) ← copyout (lab I false) pagetable sp (words (ustack ++ [0])) s
          .ok (if r < 0 then none else some sp, sz, s)

/-! ## exec -/

/-- The path after its last slash. -/
def lastElem : List UInt8 → List UInt8 → List UInt8
  | last, [] => last
  | last, c :: s => lastElem (if c = 47 then s else last) s

/-- At most `n - 1` bytes; the NUL of a shorter string is followed by another. -/
def safestrcpy (s t : List UInt8) (n : Nat) : List UInt8 :=
  let copied := (t ++ [0]).take (n - 1) ++ [0]
  copied ++ s.drop copied.length

/-- The new image becomes the process's, the old one is freed. -/
def commit (path : List UInt8) (pagetable sz sp entry : Nat) (s : State) : Except String State := do
  let p := s.proc
  let mem := ((s.mach.mem.storeLE (p.trapframe + 120) 8 sp).storeLE (p.trapframe + 24) 8 entry).storeLE
    (p.trapframe + 48) 8 sp
  let mach ← proc_freepagetable (lab I false) p.pagetable p.sz { s.mach with mem := mem }
  .ok { s with
    mach := mach
    proc := { p with pagetable := pagetable, sz := sz, name := safestrcpy p.name (lastElem path path) 16 } }

/-- The label `bad`; `ip` is null once the inode was put. -/
def bad (pagetable : Option Nat) (sz : Nat) (ip : Option Inode) (s : State) : Except String (Int × State) := do
  let s ← match pagetable with
    | none => .ok s
    | some pagetable => do .ok { s with mach := ← proc_freepagetable (lab I false) pagetable sz s.mach }
  match ip with
  | none => .ok (-1, s)
  | some _ => .ok (-1, s.iunlockput.end_op)

/-- `ip` is what namei finds for `path`. -/
def exec (trampoline : Nat) (path : List UInt8) (argv : List (List UInt8)) (ip : Option Inode) (s : State) :
    Except String (Int × State) := do
  let s := s.begin_op
  match ip with
  | none => .ok (-1, s.end_op)
  | some ip =>
    let s := s.ilock
    let bs := readi ip 0 F.elfhdrSize
    let elf := F.elfhdr bs
    if bs.length ≠ F.elfhdrSize then bad I none 0 (some ip) s
    else if elf.magic ≠ F.ELF_MAGIC then bad I none 0 (some ip) s
    else
      match ← proc_pagetable (lab I false) trampoline s.proc.trapframe s.mach with
      | (none, mach) => bad I none 0 (some ip) { s with mach := mach }
      | (some pagetable, mach) => do
        let (ok, sz, mach) ← loadLoop I F pagetable ip elf.phnum.toNat (u32 elf.phoff.toNat) 0 mach
        let s := { s with mach := mach }
        if !ok then bad I (some pagetable) sz (some ip) s
        else do
          let s := s.iunlockput.end_op
          let (sp, sz, mach) ← stack I pagetable sz argv s.mach
          let s := { s with mach := mach }
          match sp with
          | none => bad I (some pagetable) sz none s
          | some sp => do
            let s ← commit I path pagetable sz sp elf.entry.toNat s
            .ok (argv.length, s)

/-- What sys_exec passes on: fewer than MAXARG strings, each with its NUL in one page. -/
def Accepted (argv : List (List UInt8)) : Prop := argv.length < MAXARG ∧ ∀ arg ∈ argv, 0 ∉ arg ∧ arg.length < PGSIZE

end Xv6Labs.Exec
