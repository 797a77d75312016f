/-
  Xv6Labs.User.Malloc — umalloc.c of the pagetables lab.

  The free list goes through the headers of the free blocks, `base` being a header of no size. A
  pointer is the address of a header, and `p + n` moves by `n` headers of 16 bytes. `sbrk` is the
  kernel's: it takes an int and the kernel's part of the process, and gives a pointer. The loops
  have fuel; `none` stands for a loop that is not over.
-/

import Xv6Labs.Lib.Ring
import Xv6Labs.Lib.Word

namespace Xv6Labs.Umalloc

open Lib

structure Header where
  ptr : Nat
  size : Nat
  deriving DecidableEq, Repr

/-- The process: its headers by address, `freep`, and what the kernel keeps. -/
structure Heap (σ : Type) where
  hdr : Nat → Header
  freep : Nat
  os : σ

abbrev Sbrk (σ : Type) := Int → σ → Nat × σ

def sizeofHeader : Nat := 16

/-- What sbrk returns when it fails. -/
def failed : Nat := 2 ^ 64 - 1

variable {σ : Type}

namespace Heap

def ptr (h : Heap σ) (a : Nat) : Nat := (h.hdr a).ptr

def size (h : Heap σ) (a : Nat) : Nat := (h.hdr a).size

def setPtr (h : Heap σ) (a v : Nat) : Heap σ :=
  { h with hdr := fun x => if x = a then { ptr := v, size := (h.hdr a).size } else h.hdr x }

def setSize (h : Heap σ) (a v : Nat) : Heap σ :=
  { h with hdr := fun x => if x = a then { ptr := (h.hdr a).ptr, size := v } else h.hdr x }

def setFreep (h : Heap σ) (p : Nat) : Heap σ := { h with freep := p }

variable (h : Heap σ) (a v : Nat) {b : Nat}

@[simp] theorem setPtr_ptr : (h.setPtr a v).ptr a = v := by simp [setPtr, ptr]
@[simp] theorem setPtr_ptr_ne (hb : b ≠ a) : (h.setPtr a v).ptr b = h.ptr b := by simp [setPtr, ptr, hb]
@[simp] theorem setPtr_size : (h.setPtr a v).size b = h.size b := by
  by_cases e : b = a
  · simp [setPtr, size, e]
  · simp [setPtr, size, e]
@[simp] theorem setPtr_freep : (h.setPtr a v).freep = h.freep := rfl
@[simp] theorem setPtr_os : (h.setPtr a v).os = h.os := rfl
@[simp] theorem setSize_size : (h.setSize a v).size a = v := by simp [setSize, size]
@[simp] theorem setSize_size_ne (hb : b ≠ a) : (h.setSize a v).size b = h.size b := by simp [setSize, size, hb]
@[simp] theorem setSize_ptr : (h.setSize a v).ptr b = h.ptr b := by
  by_cases e : b = a
  · simp [setSize, ptr, e]
  · simp [setSize, ptr, e]
@[simp] theorem setSize_freep : (h.setSize a v).freep = h.freep := rfl
@[simp] theorem setSize_os : (h.setSize a v).os = h.os := rfl
@[simp] theorem setFreep_ptr (p : Nat) : (h.setFreep p).ptr a = h.ptr a := rfl
@[simp] theorem setFreep_size (p : Nat) : (h.setFreep p).size a = h.size a := rfl
@[simp] theorem setFreep_freep (p : Nat) : (h.setFreep p).freep = p := rfl
@[simp] theorem setFreep_os (p : Nat) : (h.setFreep p).os = h.os := rfl

end Heap

/-! ## free -/

/-- The condition of the loop of free, and the one that breaks it: the block goes behind `p`. -/
def belongs (h : Heap σ) (bp p : Nat) : Bool :=
  (bp > p && bp < h.ptr p) || (p ≥ h.ptr p && (bp > p || bp < h.ptr p))

/-- `for(p = freep; ...; p = p->s.ptr)`. -/
def freeLoop (h : Heap σ) (bp : Nat) : Nat → Nat → Option Nat
  | 0, _ => none
  | fuel + 1, p => if belongs h bp p then some p else freeLoop h bp fuel (h.ptr p)

/-- Join the block to its upper neighbour. -/
def joinUpper (h : Heap σ) (bp p : Nat) : Heap σ :=
  if bp + sizeofHeader * h.size bp = h.ptr p then
    let h := h.setSize bp (u32 (h.size bp + h.size (h.ptr p)))
    h.setPtr bp (h.ptr (h.ptr p))
  else h.setPtr bp (h.ptr p)

/-- Join it to its lower neighbour. -/
def joinLower (h : Heap σ) (bp p : Nat) : Heap σ :=
  if p + sizeofHeader * h.size p = bp then
    let h := h.setSize p (u32 (h.size p + h.size bp))
    h.setPtr p (h.ptr bp)
  else h.setPtr p bp

def free (fuel ap : Nat) (h : Heap σ) : Option (Heap σ) :=
  let bp := ap - sizeofHeader
  match freeLoop h bp fuel h.freep with
  | none => none
  | some p => some ((joinLower (joinUpper h bp p) bp p).setFreep p)

/-! ## malloc -/

/-- What reaches sbrk: `nu * sizeof(Header)` is 64 bits wide, sbrk's parameter an int. -/
def request (nu : Nat) : Int := i32 (u64 (nu * sizeofHeader))

/-- It returns a pointer, 0 if there is no more memory. -/
def morecore (sbrk : Sbrk σ) (fuel nu : Nat) (h : Heap σ) : Option (Nat × Heap σ) :=
  let nu := if nu < 4096 then 4096 else nu
  let (p, os) := sbrk (request nu) h.os
  let h := { h with os := os }
  if p = failed then some (0, h)
  else
    let h := h.setSize p nu
    match free fuel (p + sizeofHeader) h with
    | none => none
    | some h => some (h.freep, h)

/-- The body of malloc's loop where the block at `p` is large enough. -/
def take (nunits prevp p : Nat) (h : Heap σ) : Nat × Heap σ :=
  if h.size p = nunits then (p + sizeofHeader, (h.setPtr prevp (h.ptr p)).setFreep prevp)
  else
    let h := h.setSize p (u32 (h.size p - nunits))
    let q := p + sizeofHeader * h.size p
    (q + sizeofHeader, (h.setSize q nunits).setFreep prevp)

/-- `for(p = prevp->s.ptr; ; prevp = p, p = p->s.ptr)`. -/
def mallocLoop (sbrk : Sbrk σ) (nunits : Nat) : Nat → Nat → Nat → Heap σ → Option (Nat × Heap σ)
  | 0, _, _, _ => none
  | fuel + 1, prevp, p, h =>
    if nunits ≤ h.size p then some (take nunits prevp p h)
    else if p = h.freep then
      match morecore sbrk fuel nunits h with
      | none => none
      | some (p, h) => if p = 0 then some (0, h) else mallocLoop sbrk nunits fuel p (h.ptr p) h
    else mallocLoop sbrk nunits fuel p (h.ptr p) h

/-- The sum is taken in 64 bits, since `sizeof` is, and `nunits` is a uint. -/
def units (nbytes : Nat) : Nat := u32 (u64 (nbytes + sizeofHeader - 1) / sizeofHeader + 1)

/-- The free list is set up by the first call. -/
def start (base : Nat) (h : Heap σ) : Heap σ :=
  if h.freep = 0 then ((h.setPtr base base).setFreep base).setSize base 0 else h

def malloc (sbrk : Sbrk σ) (base fuel nbytes : Nat) (h : Heap σ) : Option (Nat × Heap σ) :=
  let h := start base h
  mallocLoop sbrk (units nbytes) fuel h.freep (h.ptr h.freep) h

end Xv6Labs.Umalloc
