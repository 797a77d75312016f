/-
  Xv6Labs.Fs.Sysfile — directories, paths and the system calls on names: the rest of fs.c, and
  sysfile.c of the filesystem lab.

  A path is the C string without its NUL. A system call gets what argstr and argint fetched,
  `none` where one of them failed. The file table and the descriptors are those of Ftable. What
  getsymlink's `target` holds before readi is a parameter (`junk`, for each round).
-/

import Xv6Labs.Fs.Code
import Xv6Labs.Fs.Ftable
import Mathlib.Data.List.TakeWhile

namespace Xv6Labs.Fs.Disk

open Lib
open Ftable (File FdType)

abbrev DIRSIZ : Nat := 14
abbrev MAXPATH : Nat := 128
abbrev NDEV : Int := 10
abbrev O_RDONLY : Nat := 0x000
abbrev O_WRONLY : Nat := 0x001
abbrev O_RDWR : Nat := 0x002
abbrev O_CREATE : Nat := 0x200
abbrev O_TRUNC : Nat := 0x400
abbrev O_NOFOLLOW : Nat := 0x800

/-- The bytes up to the first NUL. -/
def cstr (bs : List UInt8) : List UInt8 := bs.takeWhile (· ≠ 0)

theorem cstr_append {bs : List UInt8} (h : 0 ∈ bs) (rest : List UInt8) : cstr (bs ++ rest) = cstr bs := by
  unfold cstr
  rw [List.takeWhile_append, if_neg fun hlen => ?_]
  have hall : bs.takeWhile (· ≠ 0) = bs := (List.takeWhile_prefix _).eq_of_length hlen
  exact absurd (List.takeWhile_eq_self_iff.mp hall 0 h) (by decide)

theorem cstr_eq_self {bs : List UInt8} (h : 0 ∉ bs) : cstr bs = bs :=
  List.takeWhile_eq_self_iff.mpr fun _ hc => decide_eq_true fun e => h (e ▸ hc)

theorem zero_notMem_cstr (bs : List UInt8) : 0 ∉ cstr bs := fun h => absurd (List.mem_takeWhile_imp h) (by decide)

/-! ## Directories -/

/-- `struct dirent`. -/
structure Dirent where
  inum : UInt16
  name : List UInt8

def dirent (bs : List UInt8) : Dirent := ⟨UInt16.ofNat ((bs.getD 0 0).toNat + 256 * (bs.getD 1 0).toNat), bs.drop 2⟩

/-- strncpy pads with NULs. -/
def Dirent.bytes (de : Dirent) : List UInt8 :=
  [UInt8.ofNat de.inum.toNat, UInt8.ofNat (de.inum.toNat / 256)] ++
    (de.name.take DIRSIZ ++ List.replicate (DIRSIZ - de.name.length) 0)

/-- `namecmp(s, t) == 0` -/
def sameName (s t : List UInt8) : Bool := cstr (s.take DIRSIZ) = cstr (t.take DIRSIZ)

/-- Bytes of the kernel as the source of writei. -/
def kernelBytes (bs : List UInt8) (src m : Nat) : Int × List UInt8 := (0, (bs.drop src).take m)

variable (sb : Superblock)

/-- With the rounds left and `off`; it returns the slot and `off`. -/
def dirlookupLoop (dp : Nat) (name : List UInt8) : Nat → Nat → St → Except String (Option (Nat × Nat) × St)
  | 0, _, s => .ok (none, s)
  | n + 1, off, s =>
    if off < (s.inode dp).d.size then do
      let (de, s) ← readi sb dp off 16 s
      if de.length ≠ 16 then .error "dirlookup read"
      else if (dirent de).inum = 0 then dirlookupLoop dp name n (off + 16) s
      else if sameName name (dirent de).name then do
        let (ip, s) ← iget (s.inode dp).dev (dirent de).inum.toNat s
        .ok (some (ip, off), s)
      else dirlookupLoop dp name n (off + 16) s
    else .ok (none, s)

def dirlookup (dp : Nat) (name : List UInt8) (s : St) : Except String (Option (Nat × Nat) × St) :=
  if (s.inode dp).d.type ≠ T_DIR then .error "dirlookup not DIR"
  else dirlookupLoop sb dp name ((s.inode dp).d.size / 16 + 1) 0 s

/-- The loop that looks for an empty dirent; it returns `off`. -/
def emptyLoop (dp : Nat) : Nat → Nat → St → Except String (Nat × St)
  | 0, off, s => .ok (off, s)
  | n + 1, off, s =>
    if off < (s.inode dp).d.size then do
      let (de, s) ← readi sb dp off 16 s
      if de.length ≠ 16 then .error "dirlink read"
      else if (dirent de).inum = 0 then .ok (off, s)
      else emptyLoop dp n (off + 16) s
    else .ok (off, s)

/-- The part of dirlink for a name that is not present. -/
def enter (dp : Nat) (name : List UInt8) (inum : Nat) (s : St) : Except String (Int × St) := do
  let (off, s) ← emptyLoop sb dp ((s.inode dp).d.size / 16 + 1) 0 s
  let (r, s) ← writei sb (kernelBytes (Dirent.bytes ⟨UInt16.ofNat inum, name⟩)) dp 0 off 16 s
  if r ≠ 16 then .error "dirlink" else .ok (0, s)

def dirlink (dp : Nat) (name : List UInt8) (inum : Nat) (s : St) : Except String (Int × St) := do
  let (found, s) ← dirlookup sb dp name s
  match found with
  | some (ip, _) => do
    let s ← iput sb ip s
    .ok (-1, s)
  | none => enter sb dp name inum s

/-! ## Paths -/

def slash : UInt8 := 47

/-- The rest of the path and the name. -/
def skipelem (path : List UInt8) : Option (List UInt8 × List UInt8) :=
  let path := path.dropWhile (· = slash)
  if path = [] then none
  else some ((path.dropWhile (· ≠ slash)).dropWhile (· = slash), (path.takeWhile (· ≠ slash)).take DIRSIZ)

/-- The loop of namex, with the rounds left; `name` is what the last skipelem left there. -/
def namexLoop (nameiparent : Bool) : Nat → List UInt8 → List UInt8 → Nat → St →
    Except String (Option (Nat × List UInt8) × St)
  -- not reached: a round takes at least one byte off the path
  | 0, _, _, _, _ => .error "namex"
  | n + 1, path, name, ip, s =>
    match skipelem path with
    | none =>
      if nameiparent then do
        let s ← iput sb ip s
        .ok (none, s)
      else .ok (some (ip, name), s)
    | some (path, name) => do
      let s ← ilock sb ip s
      if (s.inode ip).d.type ≠ T_DIR then do
        let s ← iunlockput sb ip s
        .ok (none, s)
      else if nameiparent ∧ path = [] then do
        let s ← iunlock ip s
        .ok (some (ip, name), s)
      else do
        let (next, s) ← dirlookup sb ip name s
        let s ← iunlockput sb ip s
        match next with
        | none => .ok (none, s)
        | some (next, _) => namexLoop nameiparent n path name next s

/-- Where namex starts. -/
def namexStart (cwd : Nat) (path : List UInt8) (s : St) : Except String (Nat × St) :=
  if path.head? = some slash then iget ROOTDEV ROOTINO s else .ok (cwd, idup cwd s)

def namex (cwd : Nat) (path : List UInt8) (nameiparent : Bool) (s : St) :
    Except String (Option (Nat × List UInt8) × St) := do
  let (ip, s) ← namexStart cwd path s
  namexLoop sb nameiparent (path.length + 1) path [] ip s

def namei (cwd : Nat) (path : List UInt8) (s : St) : Except String (Option Nat × St) := do
  let (r, s) ← namex sb cwd path false s
  .ok (r.map (·.1), s)

def nameiparent (cwd : Nat) (path : List UInt8) (s : St) : Except String (Option (Nat × List UInt8) × St) :=
  namex sb cwd path true s

/-! ## System calls -/

def St.setNlink (ip : Nat) (f : UInt16 → UInt16) (s : St) : St :=
  s.setD ip { (s.inode ip).d with nlink := f (s.inode ip).d.nlink }

/-- The exit `bad` of sys_link. -/
def linkBad (ip : Nat) (s : St) : Except String (Int × St) := do
  let s ← ilock sb ip s
  let s ← iunlockput sb ip (iupdate sb ip (s.setNlink ip (· - 1)))
  .ok (-1, s)

/-- The rest of sys_link, with the link counted. -/
def linkTo (cwd ip : Nat) (new : List UInt8) (s : St) : Except String (Int × St) := do
  let (r, s) ← nameiparent sb cwd new s
  match r with
  | none => linkBad sb ip s
  | some (dp, name) => do
    let s ← ilock sb dp s
    if (s.inode dp).dev ≠ (s.inode ip).dev then do
      let s ← iunlockput sb dp s
      linkBad sb ip s
    else do
      let (r, s) ← dirlink sb dp name (s.inode ip).inum s
      let s ← iunlockput sb dp s
      if r < 0 then linkBad sb ip s
      else do
        let s ← iput sb ip s
        .ok (0, s)

def sys_link (cwd : Nat) (old new : Option (List UInt8)) (s : St) : Except String (Int × St) :=
  match old, new with
  | some old, some new => do
    let (r, s) ← namei sb cwd old s
    match r with
    | none => .ok (-1, s)
    | some ip => do
      let s ← ilock sb ip s
      if (s.inode ip).d.type = T_DIR then do
        let s ← iunlockput sb ip s
        .ok (-1, s)
      else do
        let s ← iunlock ip (iupdate sb ip (s.setNlink ip (· + 1)))
        linkTo sb cwd ip new s
  | _, _ => .ok (-1, s)

/-- With the rounds left and `off`. -/
def isdirempty (dp : Nat) : Nat → Nat → St → Except String (Bool × St)
  | 0, _, s => .ok (true, s)
  | n + 1, off, s =>
    if off < (s.inode dp).d.size then do
      let (de, s) ← readi sb dp off 16 s
      if de.length ≠ 16 then .error "isdirempty: readi"
      else if (dirent de).inum ≠ 0 then .ok (false, s)
      else isdirempty dp n (off + 16) s
    else .ok (true, s)

/-- A short as a number. -/
def short (x : UInt16) : Int := if x.toNat < 2 ^ 15 then x.toNat else x.toNat - 2 ^ 16

/-- A directory that is not empty. -/
def busy (ip : Nat) (s : St) : Except String (Bool × St) :=
  if (s.inode ip).d.type = T_DIR then do
    let (r, s) ← isdirempty sb ip ((s.inode ip).d.size / 16 + 1) 32 s
    .ok (!r, s)
  else .ok (false, s)

/-- The rest of sys_unlink, for the entry at `off` that names the locked inode `ip`. -/
def remove (dp ip off : Nat) (s : St) : Except String (Int × St) := do
  let (r, s) ← writei sb (kernelBytes (List.replicate 16 0)) dp 0 off 16 s
  if r ≠ 16 then .error "unlink: writei"
  else do
    let s := if (s.inode ip).d.type = T_DIR then iupdate sb dp (s.setNlink dp (· - 1)) else s
    let s ← iunlockput sb dp s
    let s ← iunlockput sb ip (iupdate sb ip (s.setNlink ip (· - 1)))
    .ok (0, s)

/-- The exit `bad` of sys_unlink. -/
def unlinkBad (dp : Nat) (s : St) : Except String (Int × St) := do
  let s ← iunlockput sb dp s
  .ok (-1, s)

def dot : List UInt8 := [46]
def dotdot : List UInt8 := [46, 46]

def sys_unlink (cwd : Nat) (path : Option (List UInt8)) (s : St) : Except String (Int × St) :=
  match path with
  | none => .ok (-1, s)
  | some path => do
    let (r, s) ← nameiparent sb cwd path s
    match r with
    | none => .ok (-1, s)
    | some (dp, name) => do
      let s ← ilock sb dp s
      if sameName name dot || sameName name dotdot then unlinkBad sb dp s
      else do
        let (r, s) ← dirlookup sb dp name s
        match r with
        | none => unlinkBad sb dp s
        | some (ip, off) => do
          let s ← ilock sb ip s
          if short (s.inode ip).d.nlink < 1 then .error "unlink: nlink < 1"
          else do
            let (r, s) ← busy sb ip s
            if r then do
              let s ← iunlockput sb ip s
              unlinkBad sb dp s
            else remove sb dp ip off s

/-- `.` and `..` of a new directory. -/
def dots (dp ip : Nat) (s : St) : Except String St := do
  let s := iupdate sb dp (s.setNlink dp (· + 1))
  let (r, s) ← dirlink sb ip dot (s.inode ip).inum s
  if r < 0 then .error "create dots"
  else do
    let (r, s) ← dirlink sb ip dotdot (s.inode dp).inum s
    if r < 0 then .error "create dots" else .ok s

/-- The part of create for a name that is not present, in the locked directory `dp`. -/
def make (dp : Nat) (name : List UInt8) (type major minor : UInt16) (s : St) : Except String (Option Nat × St) := do
  let (ip, s) ← ialloc sb (s.inode dp).dev type s
  let s ← ilock sb ip s
  let s := iupdate sb ip (s.setD ip { (s.inode ip).d with major := major, minor := minor, nlink := 1 })
  let s ← (if type = T_DIR then dots sb dp ip s else .ok s)
  let (r, s) ← dirlink sb dp name (s.inode ip).inum s
  if r < 0 then .error "create: dirlink"
  else do
    let s ← iunlockput sb dp s
    .ok (some ip, s)

def create (cwd : Nat) (path : List UInt8) (type major minor : UInt16) (s : St) :
    Except String (Option Nat × St) := do
  let (r, s) ← nameiparent sb cwd path s
  match r with
  | none => .ok (none, s)
  | some (dp, name) => do
    let s ← ilock sb dp s
    let (r, s) ← dirlookup sb dp name s
    match r with
    | some (ip, _) => do
      let s ← iunlockput sb dp s
      let s ← ilock sb ip s
      if type = T_FILE ∧ ((s.inode ip).d.type = T_FILE ∨ (s.inode ip).d.type = T_DEVICE) then .ok (some ip, s)
      else do
        let s ← iunlockput sb ip s
        .ok (none, s)
    | none => make sb dp name type major minor s

/-- sys_mkdir and sys_mknod, with the arguments that create gets. -/
def mknode (cwd : Nat) (args : Option (List UInt8 × UInt16 × UInt16)) (type : UInt16) (s : St) :
    Except String (Int × St) :=
  match args with
  | none => .ok (-1, s)
  | some (path, major, minor) => do
    let (r, s) ← create sb cwd path type major minor s
    match r with
    | none => .ok (-1, s)
    | some ip => do
      let s ← iunlockput sb ip s
      .ok (0, s)

def sys_mkdir (cwd : Nat) (path : Option (List UInt8)) (s : St) : Except String (Int × St) :=
  mknode sb cwd (path.map (·, 0, 0)) T_DIR s

def sys_mknod (cwd : Nat) (args : Option (List UInt8 × UInt16 × UInt16)) (s : St) : Except String (Int × St) :=
  mknode sb cwd args T_DEVICE s

/-- `target` of sys_symlink: the argument with its NUL, and what was in the array. -/
def symlinkBytes (target junk : List UInt8) : List UInt8 :=
  (List.range MAXPATH).map fun i => if i ≤ target.length then target.getD i 0 else junk.getD i 0

def sys_symlink (cwd : Nat) (junk : List UInt8) (target path : Option (List UInt8)) (s : St) :
    Except String (Int × St) :=
  match target, path with
  | some target, some path => do
    let (r, s) ← nameiparent sb cwd path s
    match r with
    | none => .ok (-1, s)
    | some (dp, name) => do
      let (sp, s) ← ialloc sb (s.inode dp).dev T_SYMLINK s
      let s ← ilock sb sp s
      let (r, s) ← writei sb (kernelBytes (symlinkBytes target junk)) sp 0 0 MAXPATH s
      if r ≠ MAXPATH then do
        let s ← iunlockput sb sp s
        let s ← iput sb dp s
        .ok (-1, s)
      else do
        let s ← ilock sb dp s
        let (r, s) ← dirlink sb dp name (s.inode sp).inum s
        let s ← iunlockput sb dp s
        if r < 0 then do
          let s ← iunlockput sb sp s
          .ok (-1, s)
        else do
          let s ← iunlockput sb sp (iupdate sb sp (s.setNlink sp (· + 1)))
          .ok (0, s)
  | _, _ => .ok (-1, s)

/-- One round of getsymlink: the string in the locked inode `p` is resolved, and what it names
    is locked. -/
def hop (cwd : Nat) (junk : List UInt8) (p : Nat) (s : St) : Except String (Option Nat × St) := do
  let (target, s) ← readi sb p 0 MAXPATH s
  let s ← iunlockput sb p s
  let (r, s) ← namei sb cwd (cstr (target ++ junk.drop target.length)) s
  match r with
  | none => .ok (none, s)
  | some p => do
    let s ← ilock sb p s
    .ok (some p, s)

/-- The loop of getsymlink, with the rounds left and `cnt`; it ends with `p` and `cnt`. -/
def getsymlinkLoop (cwd : Nat) (junk : Nat → List UInt8) : Nat → Nat → Nat → St → Except String (Option (Nat × Nat) × St)
  | 0, cnt, p, s => .ok (some (p, cnt), s)
  | n + 1, cnt, p, s => do
    let (r, s) ← hop sb cwd (junk cnt) p s
    match r with
    | none => .ok (none, s)
    | some p =>
      if cnt + 1 < 10 ∧ (s.inode p).d.type = T_SYMLINK then getsymlinkLoop cwd junk n (cnt + 1) p s
      else .ok (some (p, cnt + 1), s)

/-- `none` is the result -1. -/
def getsymlink (cwd : Nat) (junk : Nat → List UInt8) (ip : Nat) (s : St) : Except String (Option Nat × St) := do
  let (r, s) ← getsymlinkLoop sb cwd junk 10 0 ip s
  .ok (r.bind fun (p, cnt) => if cnt = 10 then none else some p, s)

/-- A process's view of the kernel: `p` is its number in the tables. -/
structure Sys where
  fs : St
  ft : Ftable.Sys
  cwd : Nat

/-- fileclose, with what it does to the inode. -/
def fileclose (f : Nat) (s : Sys) : Except String Sys := do
  let ff := s.ft.file f
  let ft ← Ftable.fileclose f s.ft
  let fs ← (if i32 (ff.ref - 1) ≤ 0 ∧ (ff.type = .FD_INODE ∨ ff.type = .FD_DEVICE) then iput sb ff.ip s.fs
    else .ok s.fs)
  .ok { s with ft := ft, fs := fs }

/-- The inode that sys_open opens, locked. -/
def openInode (junk : Nat → List UInt8) (path : List UInt8) (omode cwd : Nat) (s : St) :
    Except String (Option Nat × St) :=
  if omode &&& O_CREATE ≠ 0 then create sb cwd path T_FILE 0 0 s
  else do
    let (r, s) ← namei sb cwd path s
    match r with
    | none => .ok (none, s)
    | some ip => do
      let s ← ilock sb ip s
      if (s.inode ip).d.type = T_DIR ∧ omode ≠ O_RDONLY then do
        let s ← iunlockput sb ip s
        .ok (none, s)
      else if (s.inode ip).d.type = T_SYMLINK ∧ omode ≠ O_NOFOLLOW then getsymlink sb cwd junk ip s
      else .ok (some ip, s)

/-- What sys_open writes into file `f`. -/
def openedFile (omode ip : Nat) (d : Dinode) (f : File) : File :=
  let f := if d.type = T_DEVICE then { f with type := .FD_DEVICE, major := short d.major } else
    { f with type := .FD_INODE, off := 0 }
  { f with ip := ip, readable := omode &&& O_WRONLY == 0, writable := omode &&& O_WRONLY != 0 || omode &&& O_RDWR != 0 }

variable (L : Ftable.Limits) (p : Nat)

/-- An exit of sys_open that has the locked inode. -/
def openBad (ip : Nat) (s : Sys) : Except String (Int × Sys) := do
  let fs ← iunlockput sb ip s.fs
  .ok (-1, { s with fs := fs })

/-- The rest of sys_open once it has a file and a descriptor. -/
def install (omode ip f fd : Nat) (s : Sys) : Except String (Int × Sys) := do
  let d := (s.fs.inode ip).d
  let ft := s.ft.setFile f (openedFile omode ip d (s.ft.file f))
  let fs ← (if omode &&& O_TRUNC ≠ 0 ∧ d.type = T_FILE then itrunc sb ip s.fs else .ok s.fs)
  let fs ← iunlock ip fs
  .ok (fd, { s with fs := fs, ft := ft })

/-- filealloc and fdalloc, with the locked inode. -/
def allocFile (omode ip : Nat) (s : Sys) : Except String (Int × Sys) :=
  match Ftable.filealloc s.ft L.NFILE 0 with
  | (none, ft) => openBad sb ip { s with ft := ft }
  | (some f, ft) =>
    match Ftable.fdalloc f p ft L.NOFILE 0 with
    | (none, ft) => do
      let s ← fileclose sb f { s with ft := ft }
      openBad sb ip s
    | (some fd, ft) => install sb omode ip f fd { s with ft := ft }

def sys_open (junk : Nat → List UInt8) (args : Option (List UInt8 × Nat)) (s : Sys) : Except String (Int × Sys) :=
  match args with
  | none => .ok (-1, s)
  | some (path, omode) => do
    let (r, fs) ← openInode sb junk path omode s.cwd s.fs
    match r with
    | none => .ok (-1, { s with fs := fs })
    | some ip =>
      let d := (fs.inode ip).d
      if d.type = T_DEVICE ∧ (short d.major < 0 ∨ short d.major ≥ NDEV) then openBad sb ip { s with fs := fs }
      else allocFile sb L p omode ip { s with fs := fs }

end Xv6Labs.Fs.Disk
