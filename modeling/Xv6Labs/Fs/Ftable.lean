/-
  Xv6Labs.Fs.Ftable — the open-file table: open, dup, close, pipe, fork and exit.

  A call is one step. What the file system answers open (the inode it found or made), what
  pipealloc returns, whether allocproc and uvmcopy succeed and whether pipe can copy the
  descriptors out are arguments of the calls. `log` is the inode references open hands to a
  file and those fileclose puts, the last one first: nothing reads it.

  - `Inv`: each ref is the number of descriptors, but for the references in local variables.
  - `refs_exact`: in every run the refs are exact, a file without references has no type,
    and each inode reference is put once, when its file's ref reaches 0.
-/

import Xv6Labs.Lib.Lists
import Xv6Labs.Lib.Word
import Xv6Labs.Procs.Table
import Mathlib.Data.List.ProdSigma
import Mathlib.Algebra.Group.Pi.Basic
import Mathlib.Algebra.Ring.Int.Defs

namespace Xv6Labs.Fs.Ftable

open Lib
open Procs (ProcState initproc)

inductive FdType where
  | FD_NONE | FD_PIPE | FD_INODE | FD_DEVICE
  deriving DecidableEq

/-- `struct file`. -/
structure File where
  type : FdType
  ref : Int
  readable : Bool
  writable : Bool
  pipe : Nat
  ip : Nat
  off : Nat
  major : Int

/-- What sys_open reads of a locked inode. -/
structure Inode where
  addr : Nat
  type : Int
  major : Int

/-- `param.h`; an int can count all descriptors. -/
structure Limits where
  NPROC : Nat
  NOFILE : Nat
  NFILE : Nat
  small : NPROC * NOFILE + 1 < 2 ^ 31

abbrev NDEV : Nat := 10
abbrev T_DIR : Int := 1
abbrev T_DEVICE : Int := 3
abbrev O_RDONLY : Nat := 0x000
abbrev O_WRONLY : Nat := 0x001
abbrev O_RDWR : Nat := 0x002
abbrev O_CREATE : Nat := 0x200

inductive Ev where
  /-- open gives file `f` its reference to the inode -/
  | took (f ip : Nat)
  | put (f ip : Nat)
  | pipeclose (f pi : Nat) (writable : Bool)

structure Sys where
  file : Nat → File
  /-- of process `p`, descriptor `fd` -/
  ofile : Nat → Nat → Option Nat
  state : Nat → ProcState
  log : List Ev

def Sys.setFile (s : Sys) (f : Nat) (x : File) : Sys := { s with file := Function.update s.file f x }

def Sys.setOfile (s : Sys) (p fd : Nat) (v : Option Nat) : Sys :=
  { s with ofile := Function.update s.ofile p (Function.update (s.ofile p) fd v) }

def Sys.setState (s : Sys) (p : Nat) (st : ProcState) : Sys := { s with state := Function.update s.state p st }

def Sys.emit (s : Sys) (e : Ev) : Sys := { s with log := e :: s.log }

/-! ## file.c -/

/-- With the rounds left and the file. -/
def filealloc (s : Sys) : Nat → Nat → Option Nat × Sys
  | 0, _ => (none, s)
  | n + 1, f => if (s.file f).ref = 0 then (some f, s.setFile f { s.file f with ref := 1 }) else filealloc s n (f + 1)

def filedup (f : Nat) (s : Sys) : Except String Sys :=
  if (s.file f).ref < 1 then .error "filedup" else .ok (s.setFile f { s.file f with ref := i32 ((s.file f).ref + 1) })

def fileclose (f : Nat) (s : Sys) : Except String Sys :=
  if (s.file f).ref < 1 then .error "fileclose"
  else if 0 < i32 ((s.file f).ref - 1) then .ok (s.setFile f { s.file f with ref := i32 ((s.file f).ref - 1) })
  else
    let ff := s.file f
    let s := s.setFile f { ff with ref := 0, type := .FD_NONE }
    .ok (match ff.type with
      | .FD_PIPE => s.emit (.pipeclose f ff.pipe ff.writable)
      | .FD_INODE | .FD_DEVICE => s.emit (.put f ff.ip)
      | .FD_NONE => s)

/-- The files pipealloc set up. -/
def pipealloc (rf wf pi : Nat) (s : Sys) : Sys :=
  (s.setFile rf
    { s.file rf with type := .FD_PIPE, ref := 1, readable := true, writable := false, pipe := pi }).setFile wf
    { s.file wf with type := .FD_PIPE, ref := 1, readable := false, writable := true, pipe := pi }

/-! ## sysfile.c -/

variable (L : Limits)

def argfd (fd : Int) (p : Nat) (s : Sys) : Option Nat := if fd < 0 ∨ fd ≥ L.NOFILE then none else s.ofile p fd.toNat

/-- With the rounds left and the descriptor. -/
def fdalloc (f p : Nat) (s : Sys) : Nat → Nat → Option Nat × Sys
  | 0, _ => (none, s)
  | n + 1, fd => if s.ofile p fd = none then (some fd, s.setOfile p fd (some f)) else fdalloc f p s n (fd + 1)

def sys_dup (fd : Int) (p : Nat) (s : Sys) : Except String (Int × Sys) :=
  match argfd L fd p s with
  | none => .ok (-1, s)
  | some f =>
    match fdalloc f p s L.NOFILE 0 with
    | (none, s) => .ok (-1, s)
    | (some fd, s) => do .ok (fd, ← filedup f s)

def sys_close (fd : Int) (p : Nat) (s : Sys) : Except String (Int × Sys) :=
  match argfd L fd p s with
  | none => .ok (-1, s)
  | some f => do .ok (0, ← fileclose f (s.setOfile p fd.toNat none))

/-- What open writes into the file. -/
def opened (omode : Nat) (ip : Inode) (f : File) : File :=
  let f := if ip.type = T_DEVICE then { f with type := .FD_DEVICE, major := ip.major } else
    { f with type := .FD_INODE, off := 0 }
  { f with
    ip := ip.addr
    readable := omode &&& O_WRONLY == 0
    writable := omode &&& O_WRONLY != 0 || omode &&& O_RDWR != 0 }

/-- `found`: what create or namei returned, if the path could be read. -/
def sys_open (omode : Nat) (found : Option Inode) (p : Nat) (s : Sys) : Except String (Int × Sys) :=
  match found with
  | none => .ok (-1, s)
  | some ip =>
    if omode &&& O_CREATE = 0 ∧ ip.type = T_DIR ∧ omode ≠ O_RDONLY then .ok (-1, s)
    else if ip.type = T_DEVICE ∧ (ip.major < 0 ∨ ip.major ≥ NDEV) then .ok (-1, s)
    else
      match filealloc s L.NFILE 0 with
      | (none, s) => .ok (-1, s)
      | (some f, s) =>
        match fdalloc f p s L.NOFILE 0 with
        | (none, s) => do .ok (-1, ← fileclose f s)
        | (some fd, s) => .ok (fd, (s.setFile f (opened omode ip (s.file f))).emit (.took f ip.addr))

/-- `got`: the two files and the pipe; `out`: whether both descriptors could be copied out. -/
def sys_pipe (got : Option (Nat × Nat × Nat)) (out : Bool) (p : Nat) (s : Sys) : Except String (Int × Sys) :=
  match got with
  | none => .ok (-1, s)
  | some (rf, wf, pi) =>
    match fdalloc rf p (pipealloc rf wf pi s) L.NOFILE 0 with
    | (none, s) => do .ok (-1, ← fileclose wf (← fileclose rf s))
    | (some fd0, s) =>
      match fdalloc wf p s L.NOFILE 0 with
      | (none, s) => do .ok (-1, ← fileclose wf (← fileclose rf (s.setOfile p fd0 none)))
      | (some fd1, s) =>
        if out = false then do .ok (-1, ← fileclose wf (← fileclose rf ((s.setOfile p fd0 none).setOfile p fd1 none)))
        else .ok (0, s)

/-! ## proc.c -/

/-- The loop of fork over the descriptors, with the rounds left and the descriptor. -/
def dupLoop (p np : Nat) : Nat → Nat → Sys → Except String Sys
  | 0, _, s => .ok s
  | n + 1, fd, s =>
    match s.ofile p fd with
    | none => dupLoop p np n (fd + 1) s
    | some f => do dupLoop p np n (fd + 1) ((← filedup f s).setOfile np fd (some f))

/-- `slot`: what allocproc found, if there was memory for the child. -/
def fork (slot : Option Nat) (p : Nat) (s : Sys) : Except String (Int × Sys) :=
  match slot with
  | none => .ok (-1, s)
  | some np => do
    let s ← dupLoop p np L.NOFILE 0 (s.setState np .USED)
    .ok (np, s.setState np .RUNNABLE)

def closeLoop (p : Nat) : Nat → Nat → Sys → Except String Sys
  | 0, _, s => .ok s
  | n + 1, fd, s =>
    match s.ofile p fd with
    | none => closeLoop p n (fd + 1) s
    | some f => do closeLoop p n (fd + 1) ((← fileclose f s).setOfile p fd none)

def exit (p : Nat) (s : Sys) : Except String (Int × Sys) :=
  if p = initproc then .error "init exiting"
  else do
    let s ← closeLoop p L.NOFILE 0 s
    .ok (0, s.setState p .ZOMBIE)

/-! ## Runs -/

inductive Call where
  | open (omode : Nat) (found : Option Inode)
  | dup (fd : Int)
  | close (fd : Int)
  | pipe (got : Option (Nat × Nat × Nat)) (out : Bool)
  | fork (slot : Option Nat)
  | exit

def call (p : Nat) (s : Sys) : Call → Except String (Int × Sys)
  | .open omode found => sys_open L omode found p s
  | .dup fd => sys_dup L fd p s
  | .close fd => sys_close L fd p s
  | .pipe got out => sys_pipe L got out p s
  | .fork slot => fork L slot p s
  | .exit => exit L p s

/-- pipealloc takes two free files, allocproc a free slot. -/
def Call.Ok (s : Sys) : Call → Prop
  | .pipe (some (rf, wf, _)) _ => rf ≠ wf ∧ (s.file rf).ref = 0 ∧ (s.file wf).ref = 0
  | .fork (some np) => np < L.NPROC ∧ s.state np = .UNUSED
  | _ => True

def Sys.live (s : Sys) (p : Nat) : Prop := p < L.NPROC ∧ s.state p ≠ .UNUSED ∧ s.state p ≠ .ZOMBIE

def Sys.init : Sys :=
  ⟨fun _ => ⟨.FD_NONE, 0, false, false, 0, 0, 0, 0⟩, fun _ _ => none,
    Function.update (fun _ => .UNUSED) initproc .RUNNABLE, []⟩

inductive Step : Sys → Sys → Prop where
  | call {s s' : Sys} {r : Int} (p : Nat) (c : Call) : s.live L p → c.Ok L s → call L p s c = .ok (r, s') → Step s s'
  | wait (s : Sys) (p : Nat) : s.state p = .ZOMBIE → Step s (s.setState p .UNUSED)

inductive Reach : Sys → Prop where
  | init : Reach .init
  | step {s s' : Sys} : Reach s → Step L s s' → Reach s'

/-! ## What holds -/

/-- The descriptors that point to file `f`. -/
def Sys.slots (s : Sys) (f : Nat) : Nat :=
  (List.range L.NPROC ×ˢ List.range L.NOFILE).countP fun x => s.ofile x.1 x.2 = some f

/-- The inode whose reference file `f` took and did not put yet. -/
def openIp (f : Nat) : List Ev → Option Nat
  | [] => none
  | .took g ip :: l => if g = f then some ip else openIp f l
  | .put g _ :: l => if g = f then none else openIp f l
  | .pipeclose .. :: l => openIp f l

/-- A file takes a reference when it has none, and puts the one it has. -/
def LogOk : List Ev → Prop
  | [] => True
  | .took f _ :: l => openIp f l = none ∧ LogOk l
  | .put f ip :: l => openIp f l = some ip ∧ LogOk l
  | .pipeclose .. :: l => LogOk l

/-- The inode a file has open. -/
def File.inode (f : File) : Option Nat :=
  match f.type with
  | .FD_INODE | .FD_DEVICE => some f.ip
  | _ => none

/-- One reference to file `f`. -/
def one (f : Nat) : Nat → Int := fun g => if g = f then 1 else 0

/-- `e`: the references to each file that are not in a descriptor yet, less those that are
    and were not taken yet. -/
structure Inv (s : Sys) (e : Nat → Int) : Prop where
  refs : ∀ f, (s.file f).ref = s.slots L f + e f
  few : ∀ f, e f ≤ 1
  closed : ∀ f, (s.file f).ref = 0 → (s.file f).type = .FD_NONE
  inodes : ∀ f, openIp f s.log = (s.file f).inode
  log : LogOk s.log
  idle : ∀ p, s.state p = .UNUSED ∨ s.state p = .ZOMBIE → ∀ fd < L.NOFILE, s.ofile p fd = none

section

variable {L} {s s' : Sys} {e : Nat → Int} {p f fd : Nat}

@[simp] theorem setFile_self (s : Sys) (f : Nat) (x : File) : (s.setFile f x).file f = x := Function.update_self ..

@[simp] theorem setFile_ne (s : Sys) {f g : Nat} (x : File) (h : g ≠ f) : (s.setFile f x).file g = s.file g :=
  Function.update_of_ne h ..

@[simp] theorem one_self (f : Nat) : one f f = 1 := by simp [one]

@[simp] theorem one_ne {f g : Nat} (h : g ≠ f) : one f g = 0 := by simp [one, h]

theorem one_nonneg (f g : Nat) : 0 ≤ one f g := by
  unfold one
  split <;> simp

theorem setOfile_ofile (s : Sys) (p fd : Nat) (v : Option Nat) (q d : Nat) :
    (s.setOfile p fd v).ofile q d = if q = p ∧ d = fd then v else s.ofile q d := by
  by_cases hq : q = p
  · subst hq
    by_cases hd : d = fd
    · subst hd
      simp [Sys.setOfile]
    · simp [Sys.setOfile, hd]
  · simp [Sys.setOfile, hq]

/-! ## Counting descriptors -/

theorem mem_slots (hp : p < L.NPROC) (hfd : fd < L.NOFILE) : (p, fd) ∈ List.range L.NPROC ×ˢ List.range L.NOFILE :=
  List.mem_product.mpr ⟨List.mem_range.mpr hp, List.mem_range.mpr hfd⟩

theorem nodup_slots : (List.range L.NPROC ×ˢ List.range L.NOFILE).Nodup := List.nodup_range.product List.nodup_range

theorem slots_set (hp : p < L.NPROC) (hfd : fd < L.NOFILE) (v : Option Nat) (f : Nat) :
    (s.setOfile p fd v).slots L f + (if s.ofile p fd = some f then 1 else 0) =
      s.slots L f + if v = some f then 1 else 0 := by
  have other : ∀ x ∈ List.range L.NPROC ×ˢ List.range L.NOFILE, x ≠ (p, fd) →
      (s.setOfile p fd v).ofile x.1 x.2 = s.ofile x.1 x.2 := fun x _ hx => by
    rw [setOfile_ofile, if_neg fun h => hx (Prod.ext h.1 h.2)]
  have self : (s.setOfile p fd v).ofile p fd = v := by simp [setOfile_ofile]
  by_cases h1 : s.ofile p fd = some f <;> by_cases h2 : v = some f
  · rw [if_pos h1, if_pos h2]
    congr 1
    refine List.countP_congr fun x hx => ?_
    by_cases e : x = (p, fd)
    · subst e
      rw [self, h1, h2]
    · rw [other x hx e]
  · rw [if_pos h1, if_neg h2]
    exact (countP_flip nodup_slots (mem_slots hp hfd) (by simpa [self] using h2) (by simp [h1])
      fun x hx e => by rw [other x hx e]).symm
  · rw [if_neg h1, if_pos h2]
    exact countP_flip nodup_slots (mem_slots hp hfd) (by simp [h1]) (by simpa [self] using h2) fun x hx e => by
      rw [other x hx e]
  · rw [if_neg h1, if_neg h2]
    congr 1
    refine List.countP_congr fun x hx => ?_
    by_cases e : x = (p, fd)
    · subst e
      simp [self, h1, h2]
    · rw [other x hx e]

theorem slots_pos (hp : p < L.NPROC) (hfd : fd < L.NOFILE) (h : s.ofile p fd = some f) : 1 ≤ s.slots L f :=
  List.countP_pos_iff.mpr ⟨(p, fd), mem_slots hp hfd, by simp [h]⟩

theorem slots_le (s : Sys) (f : Nat) : s.slots L f ≤ L.NPROC * L.NOFILE := by
  have h := List.countP_le_length (p := fun x => decide (s.ofile x.1 x.2 = some f))
    (l := List.range L.NPROC ×ˢ List.range L.NOFILE)
  rwa [List.length_product, List.length_range, List.length_range] at h

/-! ## One operation -/

theorem Inv.install (h : Inv L s e) (hl : s.live L p) (hfd : fd < L.NOFILE) (hn : s.ofile p fd = none) (f : Nat) :
    Inv L (s.setOfile p fd (some f)) (e - one f) := by
  refine ⟨fun g => ?_, fun g => ?_, h.closed, h.inodes, h.log, fun q hq d hd => ?_⟩
  · have h1 := slots_set (s := s) hl.1 hfd (some f) g
    have h2 := h.refs g
    simp only [Sys.setOfile, Pi.sub_apply] at h1 h2 ⊢
    by_cases e : g = f
    · subst e
      simp only [hn, reduceCtorEq, if_false, if_true, one_self] at h1 ⊢
      omega
    · simp only [hn, reduceCtorEq, if_false, Option.some.injEq, Ne.symm e, one_ne e] at h1 ⊢
      omega
  · have h1 := h.few g
    have h2 := one_nonneg f g
    simp only [Pi.sub_apply]
    omega
  · rw [setOfile_ofile, if_neg]
    · exact h.idle q hq d hd
    · rintro ⟨rfl, -⟩
      exact hq.elim hl.2.1 hl.2.2

theorem Inv.drop (h : Inv L s e) (hp : p < L.NPROC) (hfd : fd < L.NOFILE) (hs : s.ofile p fd = some f)
    (he : e f ≤ 0) :
    Inv L (s.setOfile p fd .none) (e + one f) := by
  refine ⟨fun g => ?_, fun g => ?_, h.closed, h.inodes, h.log, fun q hq d hd => ?_⟩
  · have h1 := slots_set (s := s) hp hfd .none g
    have h2 := h.refs g
    simp only [Sys.setOfile, Pi.add_apply] at h1 h2 ⊢
    by_cases e : g = f
    · subst e
      simp only [hs, reduceCtorEq, if_false, if_true, one_self] at h1 ⊢
      omega
    · simp only [hs, reduceCtorEq, if_false, Option.some.injEq, Ne.symm e, one_ne e] at h1 ⊢
      omega
  · have h1 := h.few g
    simp only [Pi.add_apply]
    by_cases e : g = f
    · subst e
      simp only [one_self]
      omega
    · simpa only [one_ne e, add_zero] using h1
  · rw [setOfile_ofile]
    split
    · rfl
    · exact h.idle q hq d hd

/-- What an operation on the files leaves alone. -/
structure Kept (s s' : Sys) : Prop where
  ofile : s'.ofile = s.ofile
  state : s'.state = s.state

/-- Changing one file and the log: the references, the type and the log have to fit. -/
theorem Inv.file (h : Inv L s e) (x : File) (l : List Ev) (d : Int) (hr : x.ref = (s.file f).ref + d)
    (hd : e f + d ≤ 1) (hx : x.ref = 0 → x.type = .FD_NONE) (hl : LogOk l) (hi : openIp f l = x.inode)
    (ho : ∀ g, g ≠ f → openIp g l = openIp g s.log) :
    Inv L { s.setFile f x with log := l } fun g => e g + if g = f then d else 0 := by
  refine ⟨fun g => ?_, fun g => ?_, fun g => ?_, fun g => ?_, hl, h.idle⟩
  · have h1 := h.refs g
    have h2 : Sys.slots L { s.setFile f x with log := l } g = s.slots L g := rfl
    rw [h2]
    by_cases hg : g = f
    · subst hg
      simp only [Sys.setFile, Function.update_self, if_true]
      omega
    · simp only [Sys.setFile, Function.update_of_ne hg, if_neg hg]
      omega
  · have h1 := h.few g
    by_cases hg : g = f
    · subst hg
      simpa using hd
    · simpa [hg] using h1
  · by_cases hg : g = f
    · subst hg
      simpa [Sys.setFile] using hx
    · simpa [Sys.setFile, hg] using h.closed g
  · by_cases hg : g = f
    · subst hg
      simpa [Sys.setFile] using hi
    · simp only [Sys.setFile, Function.update_of_ne hg]
      rw [ho g hg, h.inodes g]

theorem add_one (e : Nat → Int) (f : Nat) : (fun g => e g + if g = f then 1 else 0) = e + one f := rfl

theorem sub_one (e : Nat → Int) (f : Nat) : (fun g => e g + if g = f then -1 else 0) = e - one f := by
  funext g
  simp only [Pi.sub_apply, one]
  split <;> omega

/-- All references fit in an int. -/
theorem Inv.ref_lt (h : Inv L s e) (f : Nat) : (s.file f).ref ≤ e f + (2 ^ 31 - 2) := by
  have h1 := h.refs f
  have h2 := slots_le (L := L) s f
  have h3 := L.small
  omega

theorem Inv.filedup (h : Inv L s e) (hr : 1 ≤ (s.file f).ref) (he : e f ≤ 0) :
    ∃ s', filedup f s = .ok s' ∧ Inv L s' (e + one f) ∧ Kept s s' := by
  have hlt := h.ref_lt f
  have hi : i32 ((s.file f).ref + 1) = (s.file f).ref + 1 := i32_of_range (by omega) (by omega)
  refine ⟨s.setFile f { s.file f with ref := (s.file f).ref + 1 }, by rw [Ftable.filedup, if_neg (by omega), hi], ?_,
    ⟨rfl, rfl⟩⟩
  rw [← add_one]
  exact h.file { s.file f with ref := (s.file f).ref + 1 } s.log 1 rfl (by omega)
    (by intro h0; simp only at h0; omega) h.log (h.inodes f) fun _ _ => rfl

theorem Inv.fileclose (h : Inv L s e) (hr : 1 ≤ (s.file f).ref) :
    ∃ s', fileclose f s = .ok s' ∧ Inv L s' (e - one f) ∧ Kept s s' ∧ ∀ g, g ≠ f → s'.file g = s.file g := by
  have hlt := h.ref_lt f
  have hfew := h.few f
  simp only [Ftable.fileclose]
  rw [if_neg (by omega), i32_of_range (by omega) (by omega), ← sub_one]
  by_cases h1 : 0 < (s.file f).ref - 1
  · rw [if_pos h1]
    refine ⟨_, rfl, ?_, ⟨rfl, rfl⟩, fun g hg => setFile_ne _ _ hg⟩
    exact h.file { s.file f with ref := (s.file f).ref - 1 } s.log (-1) rfl (by omega)
      (by intro h0; simp only at h0; omega) h.log (h.inodes f) fun _ _ => rfl
  · rw [if_neg h1]
    have put : ∀ l, LogOk l → openIp f l = none → (∀ g, g ≠ f → openIp g l = openIp g s.log) →
        Inv L { s.setFile f { s.file f with ref := 0, type := .FD_NONE } with log := l } fun g =>
          e g + if g = f then -1 else 0 :=
      fun l hl hi ho => h.file _ l (-1) (by simp only; omega) (by omega) (fun _ => rfl) hl hi ho
    have hin := h.inodes f
    cases ht : (s.file f).type with
    | FD_NONE =>
      simp only [File.inode, ht] at hin
      exact ⟨_, rfl, put s.log h.log hin fun _ _ => rfl, ⟨rfl, rfl⟩, fun g hg => setFile_ne _ _ hg⟩
    | FD_PIPE =>
      simp only [File.inode, ht] at hin
      exact ⟨_, rfl, put _ h.log hin fun _ _ => rfl, ⟨rfl, rfl⟩, fun g hg => setFile_ne _ _ hg⟩
    | FD_INODE =>
      simp only [File.inode, ht] at hin
      refine ⟨_, rfl, put (.put f (s.file f).ip :: s.log) ⟨hin, h.log⟩ (if_pos rfl) fun g hg => if_neg hg.symm,
        ⟨rfl, rfl⟩, fun g hg => setFile_ne _ _ hg⟩
    | FD_DEVICE =>
      simp only [File.inode, ht] at hin
      refine ⟨_, rfl, put (.put f (s.file f).ip :: s.log) ⟨hin, h.log⟩ (if_pos rfl) fun g hg => if_neg hg.symm,
        ⟨rfl, rfl⟩, fun g hg => setFile_ne _ _ hg⟩

/-- Taking a free file. -/
theorem Inv.take (h : Inv L s e) (h0 : (s.file f).ref = 0) (x : File) (hx : x.ref = 1) (hi : x.inode = none) :
    Inv L (s.setFile f x) (e + one f) := by
  have h1 := h.refs f
  rw [← add_one]
  refine h.file x s.log 1 (by omega) (by omega) (by omega) h.log ?_ fun _ _ => rfl
  rw [h.inodes f, hi, File.inode, h.closed f h0]

theorem Inv.filealloc (h : Inv L s e) : ∀ n k, filealloc s n k = (none, s) ∨
    ∃ f s', filealloc s n k = (some f, s') ∧ Inv L s' (e + one f) ∧ Kept s s' ∧ (s'.file f).ref = 1 ∧
      (s'.file f).type = .FD_NONE := by
  intro n
  induction n with
  | zero => exact fun _ => Or.inl rfl
  | succ n ih =>
    intro k
    simp only [Ftable.filealloc]
    split
    · rename_i h0
      have ht := h.closed k h0
      refine Or.inr ⟨k, _, rfl, h.take h0 _ rfl (by simp [File.inode, ht]), ⟨rfl, rfl⟩, by simp, by simpa using ht⟩
    · exact ih (k + 1)

theorem fdalloc_cases (f p : Nat) (s : Sys) : ∀ n k, n + k = L.NOFILE → fdalloc f p s n k = (none, s) ∨
    ∃ fd < L.NOFILE, s.ofile p fd = none ∧ fdalloc f p s n k = (some fd, s.setOfile p fd (some f)) := by
  intro n
  induction n with
  | zero => exact fun _ _ => Or.inl rfl
  | succ n ih =>
    intro k hk
    simp only [fdalloc]
    split
    · rename_i h0
      exact Or.inr ⟨k, by omega, h0, rfl⟩
    · exact ih (k + 1) (by omega)

theorem opened_ref (omode : Nat) (ip : Inode) (x : File) : (opened omode ip x).ref = x.ref := by
  simp only [opened]
  split <;> rfl

theorem opened_inode (omode : Nat) (ip : Inode) (x : File) : (opened omode ip x).inode = some ip.addr := by
  by_cases h : ip.type = T_DEVICE
  · simp [opened, File.inode, h]
  · simp [opened, File.inode, h]

theorem Inv.opened (h : Inv L s e) (hr : (s.file f).ref = 1) (ht : (s.file f).type = .FD_NONE) (omode : Nat)
    (ip : Inode) :
    Inv L ((s.setFile f (opened omode ip (s.file f))).emit (.took f ip.addr)) e := by
  have hi := h.inodes f
  simp only [File.inode, ht] at hi
  have h1 := h.file (Ftable.opened omode ip (s.file f)) (.took f ip.addr :: s.log) 0 (by simp [opened_ref])
    (by simpa using h.few f)
    (by simp [opened_ref, hr]) ⟨hi, h.log⟩ (by simp [openIp, opened_inode]) fun g hg => if_neg hg.symm
  have he : (fun g => e g + if g = f then 0 else 0) = e := by simp
  rw [he] at h1
  exact h1

theorem Inv.pipealloc (h : Inv L s e) {rf wf : Nat} (hne : rf ≠ wf) (hrf : (s.file rf).ref = 0)
    (hwf : (s.file wf).ref = 0) (pi : Nat) :
    Inv L (pipealloc rf wf pi s) (e + one rf + one wf) := by
  have h1 :=
    h.take hrf { s.file rf with type := .FD_PIPE, ref := 1, readable := true, writable := false, pipe := pi } rfl rfl
  exact h1.take (by simpa [hne.symm] using hwf) _ rfl rfl

/-! ## The calls -/

/-- The call returns, and every reference is in a descriptor. -/
def Done (L : Limits) (x : Except String (Int × Sys)) : Prop := ∃ r s', x = .ok (r, s') ∧ Inv L s' 0

theorem argfd_some {fd : Int} (h : argfd L fd p s = some f) : fd.toNat < L.NOFILE ∧ s.ofile p fd.toNat = some f := by
  simp only [argfd] at h
  split at h
  · cases h
  · rename_i hb
    exact ⟨by omega, h⟩

/-- A file in a descriptor has a reference. -/
theorem Inv.ref_pos (h : Inv L s e) (hp : p < L.NPROC) (hfd : fd < L.NOFILE) (hs : s.ofile p fd = some f)
    (he : e f = 0) : 1 ≤ (s.file f).ref := by
  have h1 := slots_pos hp hfd hs
  have h2 := h.refs f
  omega

theorem Inv.sys_dup (h : Inv L s 0) (hl : s.live L p) (fd : Int) : Done L (sys_dup L fd p s) := by
  simp only [Ftable.sys_dup]
  cases ha : argfd L fd p s with
  | none => exact ⟨-1, s, rfl, h⟩
  | some f =>
    obtain ⟨hfd, hs⟩ := argfd_some ha
    rcases fdalloc_cases (L := L) f p s L.NOFILE 0 rfl with e | ⟨fd', hfd', hn, e⟩
    · simp only [e]
      exact ⟨-1, s, rfl, h⟩
    · have h1 := h.install hl hfd' hn f
      obtain ⟨s', hs', h2, -⟩ := h1.filedup (f := f) (h.ref_pos hl.1 hfd hs rfl) (by simp)
      simp only [e, hs']
      rw [sub_add_cancel] at h2
      exact ⟨fd', s', rfl, h2⟩

theorem Inv.sys_close (h : Inv L s 0) (hl : s.live L p) (fd : Int) : Done L (sys_close L fd p s) := by
  simp only [Ftable.sys_close]
  cases ha : argfd L fd p s with
  | none => exact ⟨-1, s, rfl, h⟩
  | some f =>
    obtain ⟨hfd, hs⟩ := argfd_some ha
    have h1 := h.drop hl.1 hfd hs (by simp)
    obtain ⟨s', hs', h2, -, -⟩ := h1.fileclose (f := f) (h.ref_pos hl.1 hfd hs rfl)
    simp only [hs']
    rw [add_sub_cancel_right] at h2
    exact ⟨0, s', rfl, h2⟩

theorem Inv.sys_open (h : Inv L s 0) (hl : s.live L p) (omode : Nat) (found : Option Inode) :
    Done L (sys_open L omode found p s) := by
  have fail : Done L (.ok (-1, s)) := ⟨-1, s, rfl, h⟩
  simp only [Ftable.sys_open]
  cases found with
  | none => exact fail
  | some ip =>
    dsimp only
    split
    · exact fail
    split
    · exact fail
    rcases h.filealloc L.NFILE 0 with e | ⟨f, s1, e, h1, hk, hr, ht⟩
    · simp only [e]
      exact fail
    · simp only [e]
      rcases fdalloc_cases (L := L) f p s1 L.NOFILE 0 rfl with e2 | ⟨fd, hfd, hn, e2⟩
      · -- the file is closed before it has a type
        obtain ⟨s2, hs2, h2, -, -⟩ := h1.fileclose (f := f) (by omega)
        simp only [e2, hs2]
        rw [add_sub_cancel_right] at h2
        exact ⟨-1, s2, rfl, h2⟩
      · have hl1 : s1.live L p := by simpa only [Sys.live, hk.state] using hl
        have h2 := h1.install hl1 hfd hn f
        rw [add_sub_cancel_right] at h2
        simp only [e2]
        exact ⟨fd, _, rfl, h2.opened (f := f) hr ht omode ip⟩

/-- Both rollbacks of pipe end so. -/
theorem Inv.closeBoth {rf wf : Nat} (h : Inv L s (0 + one rf + one wf)) (hne : rf ≠ wf) (hr : 1 ≤ (s.file rf).ref)
    (hw : 1 ≤ (s.file wf).ref) :
    Done L (do .ok (-1, ← Ftable.fileclose wf (← Ftable.fileclose rf s))) := by
  obtain ⟨s1, hs1, h1, -, hf⟩ := h.fileclose (f := rf) hr
  obtain ⟨s2, hs2, h2, -, -⟩ := h1.fileclose (f := wf) (by rw [hf wf hne.symm]; exact hw)
  have e : 0 + one rf + one wf - one rf - one wf = (0 : Nat → Int) := by
    funext g
    simp only [Pi.sub_apply, Pi.add_apply, Pi.zero_apply]
    omega
  rw [e] at h2
  refine ⟨-1, s2, ?_, h2⟩
  simp only [hs1, hs2, bind, Except.bind]

theorem Inv.sys_pipe (h : Inv L s 0) (hl : s.live L p) (got : Option (Nat × Nat × Nat)) (out : Bool)
    (hc : (Call.pipe got out).Ok L s) :
    Done L (sys_pipe L got out p s) := by
  rcases got with _ | ⟨rf, wf, pi⟩
  · exact ⟨-1, s, rfl, h⟩
  simp only [Ftable.sys_pipe]
  obtain ⟨hne, hrf, hwf⟩ := hc
  have h1 := h.pipealloc hne hrf hwf pi
  have href : ((Ftable.pipealloc rf wf pi s).file rf).ref = 1 := by simp [Ftable.pipealloc, hne]
  have hwef : ((Ftable.pipealloc rf wf pi s).file wf).ref = 1 := by simp [Ftable.pipealloc]
  have hl1 : (Ftable.pipealloc rf wf pi s).live L p := hl
  revert h1 href hwef hl1
  generalize Ftable.pipealloc rf wf pi s = s1
  intro h1 href hwef hl1
  rcases fdalloc_cases (L := L) rf p s1 L.NOFILE 0 rfl with e | ⟨fd0, hfd0, hn0, e⟩
  · simp only [e]
    exact h1.closeBoth hne (by omega) (by omega)
  · simp only [e]
    have h2 := h1.install hl1 hfd0 hn0 rf
    have hs0 : (s1.setOfile p fd0 (some rf)).ofile p fd0 = some rf := by simp [setOfile_ofile]
    -- without the first descriptor again
    have h3 := h2.drop hl.1 hfd0 hs0 (by simp [hne])
    rw [sub_add_cancel] at h3
    rcases fdalloc_cases (L := L) wf p (s1.setOfile p fd0 (some rf)) L.NOFILE 0 rfl with e2 | ⟨fd1, hfd1, hn1, e2⟩
    · simp only [e2]
      exact h3.closeBoth hne (by show 1 ≤ (s1.file rf).ref; omega) (by show 1 ≤ (s1.file wf).ref; omega)
    · simp only [e2]
      have h4 := h2.install (s := s1.setOfile p fd0 (some rf)) hl1 hfd1 hn1 wf
      have hd : fd0 ≠ fd1 := by
        rintro rfl
        simp [hs0] at hn1
      have hs1 : ((s1.setOfile p fd0 (some rf)).setOfile p fd1 (some wf)).ofile p fd0 = some rf := by
        simp [setOfile_ofile, hd]
      have hs2 : (((s1.setOfile p fd0 (some rf)).setOfile p fd1 (some wf)).setOfile p fd0 none).ofile p fd1 =
        some wf := by
        simp [setOfile_ofile, hd.symm]
      split
      · have h5 := h4.drop hl.1 hfd0 hs1 (by simp [hne])
        have h6 := h5.drop hl.1 hfd1 hs2 (by simp [hne.symm])
        have e3 : 0 + one rf + one wf - one rf - one wf + one rf + one wf = 0 + one rf + one wf := by
          funext g
          simp only [Pi.sub_apply, Pi.add_apply]
          omega
        rw [e3] at h6
        exact h6.closeBoth hne (by show 1 ≤ (s1.file rf).ref; omega) (by show 1 ≤ (s1.file wf).ref; omega)
      · have e3 : 0 + one rf + one wf - one rf - one wf = (0 : Nat → Int) := by
          funext g
          simp only [Pi.sub_apply, Pi.add_apply, Pi.zero_apply]
          omega
        rw [e3] at h4
        exact ⟨0, _, rfl, h4⟩

/-- Fork so far: the child has the descriptors below `fd`. -/
theorem Inv.dupLoop {np : Nat} : ∀ n fd (s : Sys), n + fd = L.NOFILE → Inv L s 0 → p < L.NPROC → s.live L np →
    (∀ d, fd ≤ d → d < L.NOFILE → s.ofile np d = none) → ∃ s', dupLoop p np n fd s = .ok s' ∧ Inv L s' 0 ∧
      s'.state = s.state := by
  intro n
  induction n with
  | zero => exact fun fd s _ h _ _ _ => ⟨s, rfl, h, rfl⟩
  | succ n ih =>
    intro fd s hn h hp hl hfree
    have hfd : fd < L.NOFILE := by omega
    cases hs : s.ofile p fd with
    | none =>
      obtain ⟨s', e, h'⟩ := ih (fd + 1) s (by omega) h hp hl fun d hd => hfree d (by omega)
      exact ⟨s', by simp only [Ftable.dupLoop, hs, e], h'⟩
    | some f =>
      obtain ⟨s1, hs1, h1, hk⟩ := h.filedup (f := f) (h.ref_pos hp (by omega) hs rfl) (by simp)
      have hl1 : s1.live L np := by simpa only [Sys.live, hk.state] using hl
      have h2 := h1.install hl1 hfd (by rw [hk.ofile]; exact hfree fd (Nat.le_refl fd) hfd) f
      rw [add_sub_cancel_right] at h2
      obtain ⟨s', e, h3, hst⟩ := ih (fd + 1) (s1.setOfile np fd (some f)) (by omega) h2 hp hl1 fun d hd hlt => by
        rw [setOfile_ofile, if_neg (by omega), hk.ofile]
        exact hfree d (by omega) hlt
      exact ⟨s', by simp only [Ftable.dupLoop, hs, hs1, bind, Except.bind, e], h3, hst.trans hk.state⟩

/-- A state of a process whose descriptors are as they have to be. -/
theorem Inv.setState (h : Inv L s e) (st : ProcState)
    (hst : st = .UNUSED ∨ st = .ZOMBIE → ∀ fd < L.NOFILE, s.ofile p fd = none) :
    Inv L (s.setState p st) e := by
  refine ⟨h.refs, h.few, h.closed, h.inodes, h.log, fun q hq => ?_⟩
  by_cases e : q = p
  · subst e
    exact hst (by simpa [Sys.setState] using hq)
  · exact h.idle q (by simpa [Sys.setState, e] using hq)

theorem Inv.fork (h : Inv L s 0) (hl : s.live L p) (slot : Option Nat) (hc : (Call.fork slot).Ok L s) :
    Done L (fork L slot p s) := by
  cases slot with
  | none => exact ⟨-1, s, rfl, h⟩
  | some np =>
    obtain ⟨hnp, hu⟩ := hc
    have h1 : Inv L (s.setState np .USED) 0 := h.setState _ (by simp)
    obtain ⟨s', e, h2, -⟩ := Inv.dupLoop L.NOFILE 0 _ rfl h1 hl.1
      ⟨hnp, by simp [Sys.setState], by simp [Sys.setState]⟩
      fun d _ hd => h.idle np (Or.inl hu) d hd
    refine ⟨np, s'.setState np .RUNNABLE, ?_, h2.setState _ (by simp)⟩
    simp only [Ftable.fork, e, bind, Except.bind]

/-- Exit so far: the descriptors below `fd` are closed. -/
theorem Inv.closeLoop : ∀ n fd (s : Sys), n + fd = L.NOFILE → Inv L s 0 → p < L.NPROC →
    (∀ d < fd, s.ofile p d = none) →
    ∃ s', closeLoop p n fd s = .ok s' ∧ Inv L s' 0 ∧ ∀ d < L.NOFILE, s'.ofile p d = none := by
  intro n
  induction n with
  | zero => exact fun fd s hn h _ hd => ⟨s, rfl, h, fun d hlt => hd d (by omega)⟩
  | succ n ih =>
    intro fd s hn h hp hd
    cases hs : s.ofile p fd with
    | none =>
      obtain ⟨s', e, h'⟩ := ih (fd + 1) s (by omega) h hp fun d hlt => by
        by_cases e : d = fd
        · rw [e, hs]
        · exact hd d (by omega)
      exact ⟨s', by simp only [Ftable.closeLoop, hs, e], h'⟩
    | some f =>
      obtain ⟨s1, hs1, h1, hk, -⟩ := h.fileclose (f := f) (h.ref_pos hp (by omega) hs rfl)
      have h2 := h1.drop hp (by omega) (hs ▸ congrFun (congrFun hk.ofile p) fd) (by simp)
      rw [sub_add_cancel] at h2
      obtain ⟨s', e, h'⟩ := ih (fd + 1) (s1.setOfile p fd none) (by omega) h2 hp fun d hlt => by
        rw [setOfile_ofile]
        split
        · rfl
        · rw [hk.ofile]
          exact hd d (by omega)
      exact ⟨s', by simp only [Ftable.closeLoop, hs, hs1, bind, Except.bind, e], h'⟩

theorem Inv.exit (h : Inv L s 0) (hl : s.live L p) (hp : p ≠ initproc) : Done L (exit L p s) := by
  obtain ⟨s', e, h1, hn⟩ := Inv.closeLoop L.NOFILE 0 s rfl h hl.1 fun d hd => by omega
  refine ⟨0, s'.setState p .ZOMBIE, ?_, h1.setState _ fun _ => hn⟩
  simp only [Ftable.exit, if_neg hp, e, bind, Except.bind]

/-- Every call returns, but exit of the first process. -/
theorem Inv.call (h : Inv L s 0) (hl : s.live L p) (c : Call) (hc : c.Ok L s) :
    Done L (call L p s c) ∨ p = initproc ∧ call L p s c = .error "init exiting" := by
  cases c with
  | «open» omode found => exact Or.inl (h.sys_open hl omode found)
  | dup fd => exact Or.inl (h.sys_dup hl fd)
  | close fd => exact Or.inl (h.sys_close hl fd)
  | pipe got out => exact Or.inl (h.sys_pipe hl got out hc)
  | fork slot => exact Or.inl (h.fork hl slot hc)
  | exit =>
    by_cases hp : p = initproc
    · exact Or.inr ⟨hp, if_pos hp⟩
    · exact Or.inl (h.exit hl hp)

theorem Inv.step (h : Inv L s 0) (hs : Step L s s') : Inv L s' 0 := by
  cases hs with
  | call p c hl hc he =>
    rcases h.call hl c hc with ⟨r, s1, e, h1⟩ | ⟨-, e⟩
    · rw [e] at he
      obtain ⟨-, rfl⟩ := Prod.mk.inj (Except.ok.inj he)
      exact h1
    · rw [e] at he
      cases he
  | wait p hz => exact h.setState _ fun _ => h.idle p (Or.inr hz)

theorem Inv.init : Inv L .init 0 := by
  refine ⟨fun f => ?_, by simp, fun f _ => rfl, fun f => rfl, trivial, fun p _ fd _ => rfl⟩
  simp [Sys.init, Sys.slots]

theorem Reach.inv (h : Reach L s) : Inv L s 0 := by
  induction h with
  | init => exact .init
  | step _ hs ih => exact ih.step hs

/-- In every run, failing calls included: each ref is the number of descriptors, a file
    without references has no type, each file puts the inode reference it took, once, and
    only exit of the first process panics. -/
theorem refs_exact (h : Reach L s) :
    (∀ f, (s.file f).ref = s.slots L f) ∧ (∀ f, (s.file f).ref = 0 → (s.file f).type = .FD_NONE) ∧
      (LogOk s.log ∧ ∀ f, openIp f s.log = (s.file f).inode) ∧
      ∀ p c m, s.live L p → c.Ok L s → call L p s c = .error m → m = "init exiting" := by
  have hI := h.inv
  refine ⟨fun f => by simpa using hI.refs f, hI.closed, ⟨hI.log, hI.inodes⟩, fun p c m hl hc he => ?_⟩
  rcases hI.call hl c hc with ⟨r, s1, e, -⟩ | ⟨-, e⟩
  · rw [e] at he
    cases he
  · rw [e] at he
    exact (Except.error.inj he).symm

end

/-- `param.h`. -/
def limits : Limits := ⟨64, 16, 100, by decide⟩

/-- The first process opens a file, duplicates the descriptor and forks. -/
theorem refs_exact_shared : ∃ s, Reach limits s ∧ (s.file 0).ref = 4 ∧ s.slots limits 0 = 4 ∧
    (s.file 0).inode = some 7 := by
  have h1 : Reach limits _ :=
    .step .init (.call 0 (.open 2 (some ⟨7, 2, 0⟩)) (by unfold Sys.live; decide) trivial rfl)
  have h2 : Reach limits _ := .step h1 (.call 0 (.dup 0) (by unfold Sys.live; decide) trivial rfl)
  have h3 : Reach limits _ := .step h2 (.call 0 (.fork (some 1)) (by unfold Sys.live; decide) ⟨by decide, rfl⟩ rfl)
  refine ⟨_, h3, rfl, ?_, rfl⟩
  have := (refs_exact h3).1 0
  exact Int.ofNat.inj this.symm

end Xv6Labs.Fs.Ftable
