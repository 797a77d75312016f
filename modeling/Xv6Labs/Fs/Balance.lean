/-
  Xv6Labs.Fs.Balance — what the functions of fs.c do to the references and locks of the
  inode table.

  `Delta s s' r l`: from `s` to `s'` the reference count of slot `i` went up by `r i`, its lock
  by `l i` (a lock that is held counts 1), and the slots that had references are of the
  inodes they were of. There is one lemma for each function, for whatever it returns; that
  it returned tells that the locks it took were free.
-/

import Xv6Labs.Lib.Calls
import Xv6Labs.Fs.Sysfile
import Mathlib.Algebra.Group.Pi.Basic

namespace Xv6Labs.Fs.Disk

open Lib
open Ftable (one one_self one_ne one_nonneg)

variable {sb : Superblock} {s s' s1 s0 : St} {ip dp : Nat} {r l r' l' : Nat → Int}

@[simp] theorem setInode_self (ip : Nat) (x : Inode) (s : St) : (s.setInode ip x).inode ip = x :=
  Function.update_self ..

@[simp] theorem setInode_ne {i : Nat} (h : i ≠ ip) (x : Inode) (s : St) : (s.setInode ip x).inode i = s.inode i :=
  Function.update_of_ne h ..

/-! ## Calls that leave references and locks alone -/

/-- Only copies of disk inodes differ. -/
structure Quiet (s s' : St) : Prop where
  ref : ∀ i, (s'.inode i).ref = (s.inode i).ref
  lock : ∀ i, (s'.inode i).lock = (s.inode i).lock
  dev : ∀ i, (s'.inode i).dev = (s.inode i).dev
  inum : ∀ i, (s'.inode i).inum = (s.inode i).inum

theorem Quiet.refl (s : St) : Quiet s s := ⟨fun _ => rfl, fun _ => rfl, fun _ => rfl, fun _ => rfl⟩

theorem Quiet.of_inode (h : s'.inode = s.inode) : Quiet s s' := by
  refine ⟨fun i => ?_, fun i => ?_, fun i => ?_, fun i => ?_⟩ <;> rw [h]

theorem Quiet.trans (h : Quiet s s1) (h' : Quiet s1 s') : Quiet s s' :=
  ⟨fun i => (h'.ref i).trans (h.ref i), fun i => (h'.lock i).trans (h.lock i), fun i => (h'.dev i).trans (h.dev i),
    fun i => (h'.inum i).trans (h.inum i)⟩

theorem Quiet.set {x : Inode} (h1 : x.ref = (s.inode ip).ref) (h2 : x.lock = (s.inode ip).lock)
    (h3 : x.dev = (s.inode ip).dev) (h4 : x.inum = (s.inode ip).inum) : Quiet s (s.setInode ip x) := by
  refine ⟨fun i => ?_, fun i => ?_, fun i => ?_, fun i => ?_⟩ <;> by_cases e : i = ip <;> simp [*]

theorem quiet_setD (ip : Nat) (d : Dinode) (s : St) : Quiet s (s.setD ip d) := Quiet.set rfl rfl rfl rfl

theorem iupdate_quiet (ip : Nat) (s : St) : Quiet s (iupdate sb ip s) := Quiet.of_inode rfl

theorem balloc_inode {b : Nat} (e : balloc sb s = .ok (b, s')) : s'.inode = s.inode := by
  unfold balloc at e
  split at e
  · cases e
  · cases e
    rfl

theorem bfree_inode {b : Nat} (e : bfree sb b s = .ok s') : s'.inode = s.inode := by
  unfold bfree at e
  split at e
  · cases e
  · cases e
    rfl

theorem addrOf_quiet {i : Fin (NDIRECT + 2)} {b : Nat} (e : addrOf sb ip i s = .ok (b, s')) : Quiet s s' := by
  unfold addrOf at e
  split at e
  · obtain ⟨⟨b', s1⟩, e1, e⟩ := bind_ok e
    cases e
    exact (Quiet.of_inode (balloc_inode e1)).trans (quiet_setD _ _ _)
  · cases e
    exact Quiet.refl s

theorem entryOf_inode {b j b' : Nat} (e : entryOf sb b j s = .ok (b', s')) : s'.inode = s.inode := by
  unfold entryOf at e
  split at e
  · obtain ⟨⟨b', s1⟩, e1, e⟩ := bind_ok e
    cases e
    exact (balloc_inode e1 :)
  · cases e
    rfl

theorem bmap_quiet {bn b : Nat} (e : bmap sb ip bn s = .ok (b, s')) : Quiet s s' := by
  unfold bmap at e
  split at e
  · exact addrOf_quiet e
  dsimp only at e
  split at e
  · obtain ⟨⟨b1, s1⟩, e1, e⟩ := bind_ok e
    exact (addrOf_quiet e1).trans (Quiet.of_inode (entryOf_inode e))
  split at e
  · obtain ⟨⟨b1, s1⟩, e1, e⟩ := bind_ok e
    obtain ⟨⟨b2, s2⟩, e2, e⟩ := bind_ok e
    exact ((addrOf_quiet e1).trans (Quiet.of_inode (entryOf_inode e2))).trans (Quiet.of_inode (entryOf_inode e))
  · cases e

theorem truncDirect_quiet : ∀ {n i s}, truncDirect sb ip n i s = .ok s' → Quiet s s' := by
  intro n
  induction n with
  | zero =>
    intro i s e
    cases e
    exact Quiet.refl _
  | succ n ih =>
    intro i s e
    unfold truncDirect at e
    split at e
    · split at e
      · exact ih e
      · obtain ⟨s1, e1, e⟩ := bind_ok e
        exact ((Quiet.of_inode (bfree_inode e1)).trans (quiet_setD _ _ _)).trans (ih e)
    · cases e
      exact Quiet.refl _

theorem truncEntries_inode {b : Nat} : ∀ {n j s}, truncEntries sb b n j s = .ok s' → s'.inode = s.inode := by
  intro n
  induction n with
  | zero =>
    intro j s e
    cases e
    rfl
  | succ n ih =>
    intro j s e
    unfold truncEntries at e
    split at e
    · exact ih e
    · obtain ⟨s1, e1, e⟩ := bind_ok e
      exact (ih e).trans (bfree_inode e1)

theorem truncDouble_inode {b : Nat} {a : Option Nat} : ∀ {n j s}, truncDouble sb b a n j s = .ok s' →
    s'.inode = s.inode := by
  intro n
  induction n with
  | zero =>
    intro j s e
    cases e
    rfl
  | succ n ih =>
    intro j s e
    unfold truncDouble at e
    cases a with
    | none => cases e
    | some a =>
      dsimp only at e
      split at e
      · exact ih e
      · obtain ⟨s1, e1, e⟩ := bind_ok e
        obtain ⟨s2, e2, e⟩ := bind_ok e
        exact (ih e).trans ((bfree_inode e2).trans (truncEntries_inode e1))

theorem truncIndirect_quiet (e : truncIndirect sb ip s = .ok s') : Quiet s s' := by
  unfold truncIndirect at e
  dsimp only at e
  split at e
  · cases e
    exact Quiet.refl s
  · obtain ⟨s1, e1, e⟩ := bind_ok e
    obtain ⟨s2, e2, e⟩ := bind_ok e
    cases e
    exact (Quiet.of_inode ((bfree_inode e2).trans (truncEntries_inode e1))).trans (quiet_setD _ _ _)

theorem truncIndirect2_quiet (e : truncIndirect2 sb ip s = .ok s') : Quiet s s' := by
  unfold truncIndirect2 at e
  dsimp only at e
  split at e
  · cases e
    exact Quiet.refl s
  · obtain ⟨s1, e1, e⟩ := bind_ok e
    obtain ⟨s2, e2, e⟩ := bind_ok e
    cases e
    exact (Quiet.of_inode ((bfree_inode e2).trans (truncDouble_inode e1))).trans (quiet_setD _ _ _)

theorem itrunc_quiet (e : itrunc sb ip s = .ok s') : Quiet s s' := by
  unfold itrunc at e
  obtain ⟨s1, e1, e⟩ := bind_ok e
  obtain ⟨s2, e2, e⟩ := bind_ok e
  obtain ⟨s3, e3, e⟩ := bind_ok e
  cases e
  exact (((truncDirect_quiet e1).trans (truncIndirect_quiet e2)).trans (truncIndirect2_quiet e3)).trans
    ((quiet_setD _ _ _).trans (iupdate_quiet _ _))

theorem readiLoop_quiet : ∀ {k off n s bs}, readiLoop sb ip k off n s = .ok (bs, s') → Quiet s s' := by
  intro k
  induction k with
  | zero =>
    intro off n s bs e
    cases e
    exact Quiet.refl _
  | succ k ih =>
    intro off n s bs e
    unfold readiLoop at e
    split at e
    · cases e
      exact Quiet.refl _
    · obtain ⟨⟨b, s1⟩, e1, e⟩ := bind_ok e
      obtain ⟨⟨bs', s2⟩, e2, e⟩ := bind_ok e
      cases e
      exact (bmap_quiet e1).trans (ih e2)

theorem readi_quiet {off n : Nat} {bs : List UInt8} (e : readi sb ip off n s = .ok (bs, s')) : Quiet s s' := by
  unfold readi at e
  dsimp only at e
  split at e
  · cases e
    exact Quiet.refl s
  · exact readiLoop_quiet e

theorem writeiLoop_quiet {copyin : Nat → Nat → Int × List UInt8} : ∀ {k src off n s tot},
    writeiLoop sb copyin ip k src off n s = .ok (tot, s') → Quiet s s' := by
  intro k
  induction k with
  | zero =>
    intro src off n s tot e
    cases e
    exact Quiet.refl _
  | succ k ih =>
    intro src off n s tot e
    unfold writeiLoop at e
    split at e
    · cases e
      exact Quiet.refl _
    · obtain ⟨⟨b, s1⟩, e1, e⟩ := bind_ok e
      dsimp only at e
      split at e
      · cases e
        exact (bmap_quiet e1).trans (Quiet.of_inode rfl)
      · obtain ⟨⟨tot', s2⟩, e2, e⟩ := bind_ok e
        cases e
        have h2 := ih e2
        exact (bmap_quiet e1).trans ⟨h2.ref, h2.lock, h2.dev, h2.inum⟩

theorem writei_quiet {copyin : Nat → Nat → Int × List UInt8} {src off n : Nat} {tot : Int}
    (e : writei sb copyin ip src off n s = .ok (tot, s')) : Quiet s s' := by
  unfold writei at e
  split at e
  · cases e
    exact Quiet.refl s
  split at e
  · cases e
    exact Quiet.refl s
  obtain ⟨⟨tot', s1⟩, e1, e⟩ := bind_ok e
  dsimp only at e
  cases e
  refine (writeiLoop_quiet e1).trans (Quiet.trans ?_ (iupdate_quiet _ _))
  split
  · exact quiet_setD _ _ _
  · exact Quiet.refl s1

/-! ## References and locks -/

/-- Whether the lock of slot `i` is held, as a number. -/
def held (s : St) (i : Nat) : Int := if (s.inode i).lock then 1 else 0

structure Delta (s s' : St) (r l : Nat → Int) : Prop where
  ref : ∀ i, (s'.inode i).ref = (s.inode i).ref + r i
  lock : ∀ i, held s' i = held s i + l i
  key : ∀ i, 0 < (s.inode i).ref → (s'.inode i).dev = (s.inode i).dev ∧ (s'.inode i).inum = (s.inode i).inum

theorem Quiet.delta (h : Quiet s s') : Delta s s' 0 0 := by
  refine ⟨fun i => ?_, fun i => ?_, fun i _ => ⟨h.dev i, h.inum i⟩⟩
  · rw [h.ref i]
    exact (Int.add_zero _).symm
  · unfold held
    rw [h.lock i]
    exact (Int.add_zero _).symm

theorem Delta.trans (h : Delta s s1 r l) (h' : Delta s1 s' r' l') (hr : ∀ i, 0 ≤ r i) :
    Delta s s' (r + r') (l + l') := by
  refine ⟨fun i => ?_, fun i => ?_, fun i hi => ?_⟩
  · rw [h'.ref i, h.ref i]
    exact Int.add_assoc ..
  · rw [h'.lock i, h.lock i]
    exact Int.add_assoc ..
  · obtain ⟨h1, h2⟩ := h.key i hi
    obtain ⟨h3, h4⟩ := h'.key i (by have := h.ref i; have := hr i; omega)
    exact ⟨h3.trans h1, h4.trans h2⟩

theorem Delta.congr {a b : Nat → Int} (h : Delta s s' r l) (hr : ∀ i, r i = a i) (hl : ∀ i, l i = b i) :
    Delta s s' a b :=
  ⟨fun i => (hr i) ▸ h.ref i, fun i => (hl i) ▸ h.lock i, h.key⟩

/-- The references of slot `ip` and its lock change, the others do not. -/
theorem delta_set {x : Inode} {a b : Int} (h1 : x.ref = (s.inode ip).ref + a)
    (h2 : (if x.lock then 1 else 0 : Int) = held s ip + b)
    (h3 : 0 < (s.inode ip).ref → x.dev = (s.inode ip).dev ∧ x.inum = (s.inode ip).inum) :
    Delta s (s.setInode ip x) (fun i => a * one ip i) fun i => b * one ip i := by
  refine ⟨fun i => ?_, fun i => ?_, fun i hi => ?_⟩ <;> by_cases e : i = ip
  · subst e
    rw [setInode_self, one_self, h1, Int.mul_one]
  · rw [setInode_ne e, one_ne e, Int.mul_zero, Int.add_zero]
  · subst e
    unfold held
    rw [setInode_self, one_self, h2, Int.mul_one]
    rfl
  · unfold held
    rw [setInode_ne e, one_ne e, Int.mul_zero, Int.add_zero]
  · subst e
    rw [setInode_self]
    exact h3 hi
  · rw [setInode_ne e]
    exact ⟨rfl, rfl⟩

/-- iget: a reference to a slot of the inode, whose key it makes if nobody had one. -/
theorem igetLoop_some {t : Nat → Inode} {dev inum k : Nat} {x : Inode} :
    ∀ {n j empty}, igetLoop t dev inum n j empty = some (k, x) →
    (∀ i, empty = some i → (t i).ref = 0) →
    x.ref = (t k).ref + 1 ∧ x.lock = (t k).lock ∧ x.d = (t k).d ∧ x.dev = dev ∧ x.inum = inum ∧
      (0 < (t k).ref ∧ (t k).dev = dev ∧ (t k).inum = inum ∧ x.valid = (t k).valid ∨ (t k).ref = 0 ∧
        x.valid = false) := by
  intro n
  induction n with
  | zero =>
    intro j empty e he
    cases empty with
    | none => cases e
    | some i =>
      cases e
      have hi := he k rfl
      exact ⟨by rw [hi]; rfl, rfl, rfl, rfl, rfl, Or.inr ⟨hi, rfl⟩⟩
  | succ n ih =>
    intro j empty e he
    unfold igetLoop at e
    split at e
    · rename_i h
      cases e
      exact ⟨rfl, rfl, rfl, h.2.1, h.2.2, Or.inl ⟨h.1, h.2.1, h.2.2, rfl⟩⟩
    · refine ih e fun i hi => ?_
      split at hi
      · rename_i h
        cases hi
        exact h.2
      · exact he i hi

theorem iget_some {dev inum k : Nat} (e : iget dev inum s = .ok (k, s')) : ∃ x, s' = s.setInode k x ∧
    x.ref = (s.inode k).ref + 1 ∧ x.lock = (s.inode k).lock ∧ x.d = (s.inode k).d ∧ x.dev = dev ∧ x.inum = inum ∧
      (0 < (s.inode k).ref ∧ (s.inode k).dev = dev ∧ (s.inode k).inum = inum ∧ x.valid = (s.inode k).valid ∨
        (s.inode k).ref = 0 ∧ x.valid = false) := by
  unfold iget at e
  split at e
  · cases e
  · rename_i h
    cases e
    exact ⟨_, rfl, igetLoop_some h fun _ hi => by cases hi⟩

theorem iget_delta {dev inum k : Nat} (e : iget dev inum s = .ok (k, s')) : Delta s s' (one k) 0 := by
  obtain ⟨x, rfl, h1, h2, -, h4, h5, h6⟩ := iget_some e
  refine (delta_set (a := 1) (b := 0) h1 (by rw [h2]; exact (Int.add_zero _).symm) fun hp => ?_).congr
    (fun i => Int.one_mul _) fun i => Int.zero_mul _
  rcases h6 with h6 | h6
  · rw [h4, h5, h6.2.1, h6.2.2.1]
    exact ⟨rfl, rfl⟩
  · omega

theorem idup_delta (ip : Nat) (s : St) : Delta s (idup ip s) (one ip) 0 := by
  unfold idup
  refine (delta_set (a := 1) (b := 0) ?_ ?_ fun _ => ?_).congr (fun i => Int.one_mul _) fun i => Int.zero_mul _
  · rfl
  · exact (Int.add_zero _).symm
  · exact ⟨rfl, rfl⟩

theorem delta_lock {x : Inode} (hl : (s.inode ip).lock = false) (h1 : x.ref = (s.inode ip).ref) (h2 : x.lock = true)
    (h3 : x.dev = (s.inode ip).dev) (h4 : x.inum = (s.inode ip).inum) : Delta s (s.setInode ip x) 0 (one ip) := by
  refine (delta_set (a := 0) (b := 1) ?_ ?_ fun _ => ⟨h3, h4⟩).congr (fun i => Int.zero_mul _) fun i => Int.one_mul _
  · rw [h1, Int.add_zero]
  · unfold held
    rw [h2, hl]
    rfl

theorem delta_unlock {x : Inode} (hl : (s.inode ip).lock = true) (h1 : x.ref = (s.inode ip).ref) (h2 : x.lock = false)
    (h3 : x.dev = (s.inode ip).dev) (h4 : x.inum = (s.inode ip).inum) : Delta s (s.setInode ip x) 0 (-one ip) := by
  refine (delta_set (a := 0) (b := -1) ?_ ?_ fun _ => ⟨h3, h4⟩).congr (fun i => Int.zero_mul _) fun i =>
    Int.neg_one_mul _
  · rw [h1, Int.add_zero]
  · unfold held
    rw [h2, hl]
    rfl

theorem ilock_delta (e : ilock sb ip s = .ok s') : Delta s s' 0 (one ip) := by
  unfold ilock at e
  dsimp only at e
  split at e
  · cases e
  split at e
  · cases e
  rename_i h
  rw [Bool.not_eq_true] at h
  split at e
  · cases e
    exact delta_lock h rfl rfl rfl rfl
  split at e
  · cases e
  · cases e
    exact delta_lock h rfl rfl rfl rfl

theorem iunlock_delta (e : iunlock ip s = .ok s') : Delta s s' 0 (-one ip) := by
  unfold iunlock at e
  dsimp only at e
  split at e
  · cases e
  rename_i h
  rw [not_or, Bool.not_eq_false] at h
  cases e
  exact delta_unlock h.1 rfl rfl rfl rfl

theorem ifree_delta (e : ifree sb ip s = .ok s') : Delta s s' 0 0 := by
  unfold ifree at e
  split at e
  · cases e
  rename_i h
  rw [Bool.not_eq_true] at h
  obtain ⟨s1, e1, e⟩ := bind_ok e
  cases e
  have hq : Quiet _ (iupdate sb ip (s1.setD ip { (s1.inode ip).d with type := 0 })) :=
    (itrunc_quiet e1).trans ((quiet_setD ip _ _).trans (iupdate_quiet ip _))
  have h1 := (delta_lock (x := { s.inode ip with lock := true }) h rfl rfl rfl rfl).trans hq.delta fun _ =>
    Int.le_refl 0
  have hl : ((s.setInode ip { s.inode ip with lock := true }).inode ip).lock = true := by rw [setInode_self]
  refine (h1.trans (delta_unlock ((hq.lock ip).trans hl) ?_ ?_ ?_ ?_) fun i => Int.le_refl 0).congr (fun i => rfl)
    fun i => ?_
  · rfl
  · rfl
  · rfl
  · rfl
  · simp only [Pi.add_apply, Pi.neg_apply, Pi.zero_apply]
    omega

theorem iput_delta (e : iput sb ip s = .ok s') : Delta s s' (-one ip) 0 := by
  unfold iput at e
  obtain ⟨s1, e1, e⟩ := bind_ok e
  cases e
  have h1 : Delta s s1 0 0 := by
    split at e1
    · exact ifree_delta e1
    · cases e1
      exact (Quiet.refl s).delta
  have h2 : Delta s1 (s1.setInode ip { s1.inode ip with ref := (s1.inode ip).ref - 1 }) (-one ip) 0 := by
    refine (delta_set (a := -1) (b := 0) ?_ ?_ fun _ => ?_).congr (fun i => Int.neg_one_mul _) fun i => Int.zero_mul _
    · rfl
    · exact (Int.add_zero _).symm
    · exact ⟨rfl, rfl⟩
  exact (h1.trans h2 fun _ => Int.le_refl 0).congr (fun i => Int.zero_add _) fun i => rfl

theorem iunlockput_delta (e : iunlockput sb ip s = .ok s') : Delta s s' (-one ip) (-one ip) := by
  unfold iunlockput at e
  obtain ⟨s1, e1, e⟩ := bind_ok e
  exact ((iunlock_delta e1).trans (iput_delta e) fun _ => Int.le_refl 0).congr (fun i => Int.zero_add _) fun i =>
    Int.add_zero _

/-! ## Directories -/

/-- The reference that a call returned. -/
def took : Option Nat → Nat → Int
  | none => 0
  | some ip => one ip

theorem took_nonneg (r : Option Nat) (i : Nat) : 0 ≤ took r i := by
  cases r with
  | none => exact Int.le_refl 0
  | some ip => exact one_nonneg ip i

theorem Quiet.then_delta (h : Quiet s s1) (h' : Delta s1 s' r l) : Delta s s' r l :=
  (h.delta.trans h' fun _ => Int.le_refl 0).congr (fun _ => Int.zero_add _) fun _ => Int.zero_add _

theorem Delta.then_quiet (h : Delta s s1 r l) (h' : Quiet s1 s') : Delta s s' r l := by
  refine ⟨fun i => ?_, fun i => ?_, fun i hi => ?_⟩
  · rw [h'.ref i, h.ref i]
  · rw [← h.lock i]
    unfold held
    rw [h'.lock i]
  · rw [h'.dev i, h'.inum i]
    exact h.key i hi

theorem dirlookupLoop_delta {name : List UInt8} {found : Option (Nat × Nat)} :
    ∀ {n off s}, dirlookupLoop sb dp name n off s = .ok (found, s') →
    Delta s s' (took (found.map (·.1))) 0 := by
  intro n
  induction n with
  | zero =>
    intro off s e
    cases e
    exact (Quiet.refl s').delta
  | succ n ih =>
    intro off s e
    unfold dirlookupLoop at e
    split at e
    · obtain ⟨⟨de, s1⟩, e1, e⟩ := bind_ok e
      have h1 := readi_quiet e1
      dsimp only at e
      split at e
      · cases e
      split at e
      · exact h1.then_delta (ih e)
      split at e
      · obtain ⟨⟨ip, s2⟩, e2, e⟩ := bind_ok e
        cases e
        exact h1.then_delta (iget_delta e2)
      · exact h1.then_delta (ih e)
    · cases e
      exact (Quiet.refl s').delta

theorem dirlookup_delta {name : List UInt8} {found : Option (Nat × Nat)}
    (e : dirlookup sb dp name s = .ok (found, s')) :
    Delta s s' (took (found.map (·.1))) 0 := by
  unfold dirlookup at e
  split at e
  · cases e
  · exact dirlookupLoop_delta e

theorem emptyLoop_quiet {off' : Nat} : ∀ {n off s}, emptyLoop sb dp n off s = .ok (off', s') → Quiet s s' := by
  intro n
  induction n with
  | zero =>
    intro off s e
    cases e
    exact Quiet.refl s'
  | succ n ih =>
    intro off s e
    unfold emptyLoop at e
    split at e
    · obtain ⟨⟨de, s1⟩, e1, e⟩ := bind_ok e
      dsimp only at e
      split at e
      · cases e
      split at e
      · cases e
        exact readi_quiet e1
      · exact (readi_quiet e1).trans (ih e)
    · cases e
      exact Quiet.refl s'

theorem enter_quiet {name : List UInt8} {inum : Nat} {x : Int} (e : enter sb dp name inum s = .ok (x, s')) :
    Quiet s s' := by
  unfold enter at e
  obtain ⟨⟨off, s1⟩, e1, e⟩ := bind_ok e
  obtain ⟨⟨y, s2⟩, e2, e⟩ := bind_ok e
  dsimp only at e
  split at e
  · cases e
  · cases e
    exact (emptyLoop_quiet e1).trans (writei_quiet e2)

theorem dirlink_delta {name : List UInt8} {inum : Nat} {x : Int} (e : dirlink sb dp name inum s = .ok (x, s')) :
    Delta s s' 0 0 := by
  unfold dirlink at e
  obtain ⟨⟨found, s1⟩, e1, e⟩ := bind_ok e
  have h1 := dirlookup_delta e1
  cases found with
  | none => exact h1.then_quiet (enter_quiet e)
  | some f =>
    obtain ⟨s2, e2, e⟩ := bind_ok e
    cases e
    refine (h1.trans (iput_delta e2) (took_nonneg _)).congr (fun i => ?_) fun i => rfl
    exact Int.add_right_neg _

/-! ## Paths -/

/-- namex gives away the reference to where it starts, for one to what it returns. -/
theorem namexLoop_delta {parent : Bool} {x : Option (Nat × List UInt8)} :
    ∀ {n path name ip s}, Delta s0 s (one ip) 0 →
    namexLoop sb parent n path name ip s = .ok (x, s') → Delta s0 s' (took (x.map (·.1))) 0 := by
  intro n
  induction n with
  | zero =>
    intro path name ip s _ e
    cases e
  | succ n ih =>
    intro path name ip s h e
    have hip : ∀ i, 0 ≤ one ip i := one_nonneg ip
    unfold namexLoop at e
    split at e
    · split at e
      · obtain ⟨s1, e1, e⟩ := bind_ok e
        cases e
        exact (h.trans (iput_delta e1) hip).congr (fun i => Int.add_right_neg _) fun i => rfl
      · cases e
        exact h
    · obtain ⟨s1, e1, e⟩ := bind_ok e
      have h1 := h.trans (ilock_delta e1) hip
      have hip1 : ∀ i, 0 ≤ (one ip + 0) i := fun i => by rw [add_zero]; exact hip i
      split at e
      · obtain ⟨s2, e2, e⟩ := bind_ok e
        cases e
        refine (h1.trans (iunlockput_delta e2) hip1).congr (fun i => ?_) fun i => ?_ <;> simp [took]
      split at e
      · obtain ⟨s2, e2, e⟩ := bind_ok e
        cases e
        refine (h1.trans (iunlock_delta e2) hip1).congr (fun i => ?_) fun i => ?_ <;> simp [took]
      · obtain ⟨⟨next, s2⟩, e2, e⟩ := bind_ok e
        obtain ⟨s3, e3, e⟩ := bind_ok e
        have h2 := h1.trans (dirlookup_delta e2) hip1
        have h3 := h2.trans (iunlockput_delta e3) fun i => Int.add_nonneg (hip1 i) (took_nonneg _ i)
        cases next with
        | none =>
          cases e
          refine h3.congr (fun i => ?_) fun i => ?_ <;> simp [took]
        | some f =>
          refine ih (h3.congr (fun i => ?_) fun i => ?_) e <;> simp [took]

theorem namex_delta {cwd : Nat} {path : List UInt8} {parent : Bool} {x : Option (Nat × List UInt8)}
    (e : namex sb cwd path parent s = .ok (x, s')) : Delta s s' (took (x.map (·.1))) 0 := by
  unfold namex at e
  obtain ⟨⟨ip, s1⟩, e1, e⟩ := bind_ok e
  refine namexLoop_delta ?_ e
  unfold namexStart at e1
  split at e1
  · exact iget_delta e1
  · cases e1
    exact idup_delta cwd s

theorem namei_delta {cwd : Nat} {path : List UInt8} {x : Option Nat} (e : namei sb cwd path s = .ok (x, s')) :
    Delta s s' (took x) 0 := by
  unfold namei at e
  obtain ⟨⟨y, s1⟩, e1, e⟩ := bind_ok e
  cases e
  exact namex_delta e1

end Xv6Labs.Fs.Disk
