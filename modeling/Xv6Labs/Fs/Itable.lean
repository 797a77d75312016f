/-
  Xv6Labs.Fs.Itable — the inode table: iget, idup, ilock, iunlock, iput and ialloc.

  A step is one itable.lock section, one dinode read or written under its block's buffer
  lock, or one taking or release of a sleep lock; what iput does with the inode to itself
  is three. References have names: who uses one in ilock and who puts it is known, so
  that `Act.Ok` can say what the callers promise. The disk is the one behind the buffer
  cache; blocks, and the log, are left out.

  - `Reach`: any number of processes, each call when its callers may make it.
  - `reach_runActs`: runs given as lists.
-/

import Xv6Labs.Fs.Code
import Mathlib.Data.Finset.Card

namespace Xv6Labs.Fs.Itable

/-- `struct dinode`. -/
structure Dinode where
  type : Int
  major : Int
  minor : Int
  nlink : Int
  size : Nat
  addrs : List Nat
  deriving DecidableEq

/-- A pointer that iget, idup or ialloc returned: the slot, and which of the pointers to it. -/
structure Ref where
  ip : Nat
  id : Nat
  deriving DecidableEq

/-- Who holds a sleep lock, by which reference, and whether it changed the inode since it
    called iupdate. -/
structure Hold where
  pid : Nat
  ref : Ref
  dirty : Bool
  deriving DecidableEq

/-- `struct inode`; `d` is the copy of the disk inode. -/
structure Inode where
  dev : Nat
  inum : Nat
  ref : Int
  lock : Option Hold
  valid : Bool
  d : Dinode

def Inode.key (ip : Inode) : Nat × Nat := (ip.dev, ip.inum)

/-- Where a process is. -/
inductive Pc where
  /-- not in a call of this module -/
  | run
  /-- in acquiresleep -/
  | ilock (r : Ref)
  /-- has the lock, and reads the disk if the copy is not valid -/
  | load (r : Ref)
  | ialloc (dev : Nat) (type : Int) (inum : Nat)
  /-- ialloc, before iget -/
  | allocated (key : Nat × Nat)
  /-- iput: before itrunc, before type = 0, before valid = 0, before ref-- -/
  | itrunc (r : Ref)
  | free (r : Ref)
  | invalid (r : Ref)
  | drop (r : Ref)
  deriving DecidableEq

structure Sys where
  inode : Nat → Inode
  disk : Nat × Nat → Dinode
  /-- the references not put yet -/
  refs : Finset Ref
  pc : Nat → Pc

/-- `param.h`, and `sb.ninodes`. -/
structure Limits where
  NPROC : Nat
  NINODE : Nat
  ninodes : Nat

def Sys.setInode (s : Sys) (k : Nat) (x : Inode) : Sys := { s with inode := Function.update s.inode k x }

def Sys.setDisk (s : Sys) (key : Nat × Nat) (d : Dinode) : Sys := { s with disk := Function.update s.disk key d }

def Sys.setPc (s : Sys) (p : Nat) (pc : Pc) : Sys := { s with pc := Function.update s.pc p pc }

/-! ## fs.c -/

variable (L : Limits)

/-- The loop of iget, with the rounds left, the slot and the empty slot seen. -/
def igetLoop (t : Nat → Inode) (key : Nat × Nat) : Nat → Nat → Option Nat → Option (Nat × Inode)
  | 0, _, none => none
  | 0, _, some e => some (e, { t e with dev := key.1, inum := key.2, ref := 1, valid := false })
  | n + 1, k, empty =>
    if 0 < (t k).ref ∧ (t k).key = key then some (k, { t k with ref := (t k).ref + 1 })
    else igetLoop t key n (k + 1) (if empty = none ∧ (t k).ref = 0 then some k else empty)

/-- The reference it returns gets the number `id`. -/
def iget (key : Nat × Nat) (id : Nat) (s : Sys) : Except String Sys :=
  match igetLoop s.inode key L.NINODE 0 none with
  | none => .error "iget: no inodes"
  | some (k, x) => .ok { s.setInode k x with refs := insert ⟨k, id⟩ s.refs }

/-! The same function as the one of a single process, the fields of the inodes read as shorts. -/

def Dinode.ofCode (d : Disk.Dinode) : Dinode :=
  ⟨d.type.toInt16.toInt, d.major.toInt16.toInt, d.minor.toInt16.toInt, d.nlink.toInt16.toInt, d.size,
    List.ofFn d.addrs⟩

def Inode.ofCode (lock : Option Hold) (x : Disk.Inode) : Inode := ⟨x.dev, x.inum, x.ref, lock, x.valid, .ofCode x.d⟩

theorem igetLoop_ofCode (t : Nat → Disk.Inode) (lock : Nat → Option Hold) (dev inum : Nat) : ∀ n k e,
    igetLoop (fun i => .ofCode (lock i) (t i)) (dev, inum) n k e = (Disk.igetLoop t dev inum n k e).map fun x =>
      (x.1, .ofCode (lock x.1) x.2) := by
  intro n
  induction n with
  | zero =>
    intro k e
    cases e with
    | none => rfl
    | some e => rfl
  | succ n ih =>
    intro k e
    have hkey : (0 < (t k).ref ∧ (Inode.ofCode (lock k) (t k)).key = (dev, inum)) ↔ 0 < (t k).ref ∧ (t k).dev = dev ∧
      (t k).inum = inum :=
      and_congr_right fun _ => Prod.mk_inj
    unfold igetLoop Disk.igetLoop
    by_cases hc : 0 < (t k).ref ∧ (t k).dev = dev ∧ (t k).inum = inum
    · rw [if_pos hc]
      exact if_pos (hkey.mpr hc)
    · rw [if_neg hc]
      exact (if_neg (mt hkey.mp hc)).trans (ih (k + 1) _)

theorem iget_ofCode (hN : L.NINODE = Disk.NINODE) {s : Sys} {t : Disk.St} {lock : Nat → Option Hold}
    (hs : s.inode = fun i => .ofCode (lock i) (t.inode i)) (dev inum id : Nat) : iget L (dev, inum) id s =
      (Disk.iget dev inum t).map fun x =>
      { s with inode := fun i => .ofCode (lock i) (x.2.inode i), refs := insert ⟨x.1, id⟩ s.refs } := by
  unfold iget Disk.iget
  rw [hs, hN, igetLoop_ofCode]
  cases Disk.igetLoop t.inode dev inum Disk.NINODE 0 none with
  | none => rfl
  | some x =>
    have hf : Function.update s.inode x.1 (.ofCode (lock x.1) x.2) = fun i =>
      .ofCode (lock i) (Function.update t.inode x.1 x.2 i) := by
      funext i
      by_cases hi : i = x.1
      · subst hi
        rw [Function.update_self, Function.update_self]
      · rw [Function.update_of_ne hi, Function.update_of_ne hi, hs]
    exact congrArg (fun f => Except.ok (Sys.mk f s.disk (insert (Ref.mk x.1 id) s.refs) s.pc)) hf

def idup (r : Ref) (id : Nat) (s : Sys) : Sys :=
  { s.setInode r.ip { s.inode r.ip with ref := (s.inode r.ip).ref + 1 } with refs := insert ⟨r.ip, id⟩ s.refs }

/-- ilock up to acquiresleep. -/
def ilock (p : Nat) (r : Ref) (s : Sys) : Except String Sys :=
  if (s.inode r.ip).ref < 1 then .error "ilock" else .ok (s.setPc p (.ilock r))

/-- ilock from acquiresleep on. -/
def ilockLoad (p : Nat) (r : Ref) (s : Sys) : Except String Sys :=
  let ip := s.inode r.ip
  if ip.valid then .ok (s.setPc p .run)
  else if (s.disk ip.key).type = 0 then .error "ilock: no type"
  else .ok ((s.setInode r.ip { ip with d := s.disk ip.key, valid := true }).setPc p .run)

def iunlock (p : Nat) (r : Ref) (s : Sys) : Except String Sys :=
  if (s.inode r.ip).lock.map (·.pid) ≠ some p ∨ (s.inode r.ip).ref < 1 then .error "iunlock"
  else .ok (s.setInode r.ip { s.inode r.ip with lock := none })

def iupdate (k : Nat) (s : Sys) : Sys := s.setDisk (s.inode k).key (s.inode k).d

/-- ref--, the end of iput. -/
def put (r : Ref) (s : Sys) : Sys :=
  { s.setInode r.ip { s.inode r.ip with ref := (s.inode r.ip).ref - 1 } with refs := s.refs.erase r }

/-- iput up to the first release of itable.lock, which acquiresleep must not wait with. -/
def iput (p : Nat) (r : Ref) (s : Sys) : Except String Sys :=
  let ip := s.inode r.ip
  if ip.ref = 1 ∧ ip.valid ∧ ip.d.nlink = 0 then
    if ip.lock ≠ none then .error "sched locks"
    else .ok ((s.setInode r.ip { ip with lock := some ⟨p, r, false⟩ }).setPc p (.itrunc r))
  else .ok (put r s)

/-- What itrunc makes of the inode. -/
def itrunc (d : Dinode) : Dinode := { d with addrs := d.addrs.map fun _ => 0, size := 0 }

def setCopy (k : Nat) (d : Dinode) (s : Sys) : Sys := s.setInode k { s.inode k with d := d }

/-- The call in progress goes on. -/
def resume (p id : Nat) (s : Sys) : Except String Sys :=
  match s.pc p with
  | .run => .ok s
  | .ilock r => .ok ((s.setInode r.ip { s.inode r.ip with lock := some ⟨p, r, false⟩ }).setPc p (.load r))
  | .load r => ilockLoad p r s
  | .ialloc dev type inum =>
    if inum < L.ninodes then
      if (s.disk (dev, inum)).type = 0 then
        .ok ((s.setDisk (dev, inum) ⟨type, 0, 0, 0, 0, (s.disk (dev, inum)).addrs.map fun _ => 0⟩).setPc p
          (.allocated (dev, inum)))
      else .ok (s.setPc p (.ialloc dev type (inum + 1)))
    else .error "ialloc: no inodes"
  | .allocated key => (iget L key id s).map (·.setPc p .run)
  | .itrunc r => .ok ((iupdate r.ip (setCopy r.ip (itrunc (s.inode r.ip).d) s)).setPc p (.free r))
  | .free r => .ok ((iupdate r.ip (setCopy r.ip { (s.inode r.ip).d with type := 0 } s)).setPc p (.invalid r))
  | .invalid r => .ok ((s.setInode r.ip { s.inode r.ip with valid := false, lock := none }).setPc p (.drop r))
  | .drop r => .ok ((put r s).setPc p .run)

/-! ## Runs -/

inductive Act where
  | iget (key : Nat × Nat) (id : Nat)
  | idup (r : Ref) (id : Nat)
  | ilock (r : Ref)
  | iunlock (r : Ref)
  | iput (r : Ref)
  | ialloc (dev : Nat) (type : Int)
  /-- the client changes the locked inode -/
  | write (r : Ref) (d : Dinode)
  | iupdate (r : Ref)
  | resume (id : Nat)

def act (p : Nat) (s : Sys) : Act → Except String Sys
  | .iget key id => iget L key id s
  | .idup r id => .ok (idup r id s)
  | .ilock r => ilock p r s
  | .iunlock r => iunlock p r s
  | .iput r => iput p r s
  | .ialloc dev type => .ok (s.setPc p (.ialloc dev type 1))
  | .write r d => .ok (s.setInode r.ip { s.inode r.ip with d := d, lock := some ⟨p, r, true⟩ })
  | .iupdate r => .ok ((iupdate r.ip s).setInode r.ip { s.inode r.ip with lock := some ⟨p, r, false⟩ })
  | .resume id => resume L p id s

/-- The reference a call uses. -/
def Pc.ref : Pc → Option Ref
  | .ilock r | .load r | .itrunc r | .free r | .invalid r | .drop r => some r
  | _ => none

/-- The reference whose inode's sleep lock it waits for. -/
def Pc.waits : Pc → Option Ref
  | .ilock r => some r
  | _ => none

/-- The reference by which it holds the sleep lock. -/
def Pc.holds : Pc → Option Ref
  | .load r | .itrunc r | .free r | .invalid r => some r
  | _ => none

/-- The reference it puts. -/
def Pc.drops : Pc → Option Ref
  | .itrunc r | .free r | .invalid r | .drop r => some r
  | _ => none

/-- The reference it puts, when the inode is free on disk. -/
def Pc.freed : Pc → Option Ref
  | .invalid r | .drop r => some r
  | _ => none

/-- Nobody is putting `r`. -/
def Sys.Live (s : Sys) (r : Ref) : Prop := r ∈ s.refs ∧ ∀ q < L.NPROC, (s.pc q).drops ≠ some r

/-- What iget is called for: an inode with a link, or one the caller has a reference to.
    Without `linked`: any inode allocated on disk. -/
def Known (linked : Bool) (s : Sys) (key : Nat × Nat) : Prop :=
  (s.disk key).type ≠ 0 ∧ (linked = true → (s.disk key).nlink ≠ 0 ∨ ∃ r ∈ s.refs, s.Live L r ∧
    (s.inode r.ip).key = key)

/-- What the callers promise, that a new reference is a new one, and that acquiresleep
    returns when the lock is free. -/
def Act.Ok (linked : Bool) (p : Nat) (s : Sys) : Act → Prop
  | .iget key id => s.pc p = .run ∧ (∀ r ∈ s.refs, r.id ≠ id) ∧ Known L linked s key
  | .idup r id => s.pc p = .run ∧ (∀ r ∈ s.refs, r.id ≠ id) ∧ s.Live L r
  | .ilock r => s.pc p = .run ∧ s.Live L r
  | .iunlock r => s.pc p = .run ∧ (s.inode r.ip).lock = some ⟨p, r, false⟩
  | .iput r => s.pc p = .run ∧ r ∈ s.refs ∧ (∀ q < L.NPROC, (s.pc q).ref ≠ some r) ∧ ∀ h ∈ (s.inode r.ip).lock,
      h.ref ≠ r
  | .ialloc _ type => s.pc p = .run ∧ type ≠ 0
  | .write r d => s.pc p = .run ∧ (∃ h ∈ (s.inode r.ip).lock, h.pid = p ∧ h.ref = r) ∧ d.type = (s.inode r.ip).d.type
  | .iupdate r => s.pc p = .run ∧ ∃ h ∈ (s.inode r.ip).lock, h.pid = p ∧ h.ref = r
  | .resume id => (∀ r ∈ s.refs, r.id ≠ id) ∧ ∀ r ∈ (s.pc p).waits, (s.inode r.ip).lock = none

def Sys.init (disk : Nat × Nat → Dinode) : Sys :=
  ⟨fun _ => ⟨0, 0, 0, none, false, ⟨0, 0, 0, 0, 0, []⟩⟩, disk, ∅, fun _ => .run⟩

inductive Reach (linked : Bool) : Sys → Prop where
  | init (disk : Nat × Nat → Dinode) : Reach linked (.init disk)
  | step {s s' : Sys} (p : Nat) (a : Act) : Reach linked s → p < L.NPROC → a.Ok L linked p s → act L p s a = .ok s' →
      Reach linked s'

instance (r : Ref) (s : Sys) : Decidable (s.Live L r) := by unfold Sys.Live; infer_instance

instance (linked : Bool) (s : Sys) (key : Nat × Nat) : Decidable (Known L linked s key) := by
  unfold Known; infer_instance

instance (linked : Bool) (p : Nat) (s : Sys) (a : Act) : Decidable (a.Ok L linked p s) := by
  cases a <;> unfold Act.Ok <;> infer_instance

/-- The calls of a list, each by its process. -/
def runActs (linked : Bool) : List (Nat × Act) → Sys → Except String Sys
  | [], s => .ok s
  | (p, a) :: l, s => do
    if p < L.NPROC ∧ a.Ok L linked p s then runActs linked l (← act L p s a) else .error "not allowed"

section

variable {L} {linked : Bool} {s s' : Sys}

theorem reach_runActs {l : List (Nat × Act)} (h : Reach L linked s) (e : runActs L linked l s = .ok s') :
    Reach L linked s' := by
  induction l generalizing s with
  | nil => cases e; exact h
  | cons x l ih =>
    unfold runActs at e
    split at e
    · rename_i ho
      cases ha : act L x.1 s x.2 with
      | error m => simp [ha, bind, Except.bind] at e
      | ok s1 => exact ih (h.step x.1 x.2 ho.1 ho.2 ha) (by simpa [ha, bind, Except.bind] using e)
    · cases e

/-- A run that stops at an allowed call stops with that call's panic. -/
theorem runActs_error {l : List (Nat × Act)} {m : String} (h : Reach L linked s) (e : runActs L linked l s = .error m)
    (hm : m ≠ "not allowed") :
    ∃ s' p a, Reach L linked s' ∧ p < L.NPROC ∧ a.Ok L linked p s' ∧ act L p s' a = .error m := by
  induction l generalizing s with
  | nil => cases e
  | cons x l ih =>
    unfold runActs at e
    split at e
    · rename_i ho
      cases ha : act L x.1 s x.2 with
      | error m' =>
        have e : m' = m := by simpa [ha, bind, Except.bind] using e
        exact ⟨s, x.1, x.2, h, ho.1, ho.2, e ▸ ha⟩
      | ok s1 => exact ih (h.step x.1 x.2 ho.1 ho.2 ha) (by simpa [ha, bind, Except.bind] using e)
    · simp only [Except.error.injEq] at e
      exact absurd e.symm hm

end

end Xv6Labs.Fs.Itable
