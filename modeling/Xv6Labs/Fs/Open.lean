/-
  Xv6Labs.Fs.Open — what a failing open leaves behind.

  Six of the exits of sys_open put what it took. getsymlink does not when `cnt` reaches 10:
  the inode that the tenth target names stays locked and referenced.

  - `open_leaks_nothing`: a failing open leaves references, locks, files and descriptors as
    they were exactly when it does not follow ten targets in a row.
  - `link_cycle_leaks`: it does on a symbolic link to itself.
-/

import Xv6Labs.Fs.Balance
import Xv6Labs.Fs.Blocks

namespace Xv6Labs.Fs.Disk

open Lib
open Ftable (one one_self one_ne one_nonneg FdType)

section

variable {sb : Superblock} {s s' s0 s1 : St} {cwd ip dp : Nat}

/-! ## create -/

theorem dots_delta (e : dots sb dp ip s = .ok s') : Delta s s' 0 0 := by
  unfold dots at e
  obtain ⟨⟨x, s1⟩, e1, e⟩ := bind_ok e
  have h1 := ((quiet_setD dp _ _).trans (iupdate_quiet dp _)).then_delta (dirlink_delta e1)
  dsimp only at e
  split at e
  · cases e
  · obtain ⟨⟨y, s2⟩, e2, e⟩ := bind_ok e
    dsimp only at e
    split at e
    · cases e
    · cases e
      exact (h1.trans (dirlink_delta e2) fun _ => Int.le_refl 0).congr (fun _ => rfl) fun _ => rfl

theorem ialloc_delta {dev : Nat} {type : UInt16} (e : ialloc sb dev type s = .ok (ip, s')) :
    Delta s s' (one ip) 0 := by
  unfold ialloc at e
  split at e
  · cases e
  · have h := iget_delta e
    exact ⟨h.ref, h.lock, h.key⟩

theorem make_delta {name : List UInt8} {type major minor : UInt16} {x : Option Nat} (h : Delta s0 s (one dp) (one dp))
    (e : make sb dp name type major minor s = .ok (x, s')) : Delta s0 s' (took x) (took x) := by
  unfold make at e
  obtain ⟨⟨ip, s1⟩, e1, e⟩ := bind_ok e
  obtain ⟨s2, e2, e⟩ := bind_ok e
  obtain ⟨s3, e3, e⟩ := bind_ok e
  obtain ⟨⟨y, s4⟩, e4, e⟩ := bind_ok e
  have hpos : ∀ i, 0 ≤ (one dp + one ip) i := fun i => Int.add_nonneg (one_nonneg dp i) (one_nonneg ip i)
  have h1 := h.trans (ialloc_delta e1) (one_nonneg dp)
  have h2 := (h1.trans (ilock_delta e2) hpos).congr (fun i => Int.add_zero _) fun i => rfl
  have h3 : Delta s0 s3 (one dp + one ip) (one dp + one ip) := by
    have hq :
      Quiet s2 (iupdate sb ip (s2.setD ip { (s2.inode ip).d with major := major, minor := minor, nlink := 1 })) :=
      (quiet_setD ip _ s2).trans (iupdate_quiet ip _)
    have h4 := (h2.then_quiet hq).congr (a := one dp + one ip) (b := one dp + one ip) (fun i => rfl) fun i => by simp
    split at e3
    · exact (h4.trans (dots_delta e3) hpos).congr (fun i => Int.add_zero _) fun i => Int.add_zero _
    · cases e3
      exact h4
  have h4 := h3.trans (dirlink_delta e4) hpos
  dsimp only at e
  split at e
  · cases e
  · obtain ⟨s5, e5, e⟩ := bind_ok e
    cases e
    refine (h4.trans (iunlockput_delta e5) fun i => by rw [add_zero]; exact hpos i).congr (fun i => ?_) fun i =>
      ?_ <;> simp [took]

theorem create_delta {path : List UInt8} {type major minor : UInt16} {x : Option Nat}
    (e : create sb cwd path type major minor s = .ok (x, s')) :
    Delta s s' (took x) (took x) := by
  unfold create at e
  obtain ⟨⟨r, s1⟩, e1, e⟩ := bind_ok e
  have h1 : Delta s s1 (took (r.map (·.1))) 0 := namex_delta e1
  cases r with
  | none =>
    cases e
    exact h1
  | some f =>
    obtain ⟨dp, name⟩ := f
    obtain ⟨s2, e2, e⟩ := bind_ok e
    obtain ⟨⟨found, s3⟩, e3, e⟩ := bind_ok e
    have h2 := (h1.trans (ilock_delta e2) (took_nonneg _)).congr (a := one dp) (b := one dp) (fun i => by simp [took])
      fun i => by simp
    have h3 := h2.trans (dirlookup_delta e3) (one_nonneg dp)
    cases found with
    | none => exact make_delta (h3.congr (fun i => by simp [took]) fun i => by simp) e
    | some g =>
      obtain ⟨ip, off⟩ := g
      obtain ⟨s4, e4, e⟩ := bind_ok e
      obtain ⟨s5, e5, e⟩ := bind_ok e
      have h4 := (h3.trans (iunlockput_delta e4) fun i => Int.add_nonneg (one_nonneg dp i) (took_nonneg _ i)).congr
        (a := one ip) (b := 0)
        (fun i => by simp [took]) fun i => by simp
      have h5 := (h4.trans (ilock_delta e5) (one_nonneg ip)).congr (a := one ip) (b := one ip) (fun i => by simp)
        fun i => by simp
      split at e
      · cases e
        exact h5
      · obtain ⟨s6, e6, e⟩ := bind_ok e
        cases e
        refine (h5.trans (iunlockput_delta e6) (one_nonneg ip)).congr (fun i => ?_) fun i => ?_ <;> simp [took]

/-! ## getsymlink -/

theorem hop_delta {junk : List UInt8} {p : Nat} {x : Option Nat} (h : Delta s0 s (one p) (one p))
    (e : hop sb cwd junk p s = .ok (x, s')) :
    Delta s0 s' (took x) (took x) := by
  unfold hop at e
  obtain ⟨⟨target, s1⟩, e1, e⟩ := bind_ok e
  obtain ⟨s2, e2, e⟩ := bind_ok e
  obtain ⟨⟨r, s3⟩, e3, e⟩ := bind_ok e
  have h2 := ((h.then_quiet (readi_quiet e1)).trans (iunlockput_delta e2) (one_nonneg p)).congr (a := 0) (b := 0)
    (fun i => by simp) fun i => by simp
  have h3 := (h2.trans (namei_delta e3) fun _ => Int.le_refl 0).congr (a := took r) (b := 0) (fun i => by simp)
    fun i => by simp
  cases r with
  | none =>
    cases e
    exact h3
  | some q =>
    obtain ⟨s4, e4, e⟩ := bind_ok e
    cases e
    refine (h3.trans (ilock_delta e4) (took_nonneg _)).congr (fun i => ?_) fun i => ?_ <;> simp [took]

theorem getsymlinkLoop_delta {junk : Nat → List UInt8} {x : Option (Nat × Nat)} :
    ∀ {n cnt p s}, Delta s0 s (one p) (one p) →
    getsymlinkLoop sb cwd junk n cnt p s = .ok (x, s') → Delta s0 s' (took (x.map (·.1))) (took (x.map (·.1))) := by
  intro n
  induction n with
  | zero =>
    intro cnt p s h e
    cases e
    exact h
  | succ n ih =>
    intro cnt p s h e
    unfold getsymlinkLoop at e
    obtain ⟨⟨r, s1⟩, e1, e⟩ := bind_ok e
    have h1 := hop_delta h e1
    cases r with
    | none =>
      cases e
      exact h1
    | some q =>
      dsimp only at e
      split at e
      · exact ih h1 e
      · cases e
        exact h1

variable (sb cwd) in
/-- `n` targets in a row name something, all but the last of them a symbolic link. -/
def Hops (junk : Nat → List UInt8) : Nat → Nat → Nat → St → Prop
  | 0, _, _, _ => True
  | n + 1, cnt, p, s => ∃ q s', hop sb cwd (junk cnt) p s = .ok (some q, s') ∧
      (n = 0 ∨ (s'.inode q).d.type = T_SYMLINK ∧ Hops junk n (cnt + 1) q s')

theorem Hops.loop {junk : Nat → List UInt8} : ∀ {n cnt p s}, n + cnt = 10 → Hops sb cwd junk n cnt p s →
    ∃ q s', getsymlinkLoop sb cwd junk n cnt p s = .ok (some (q, 10), s') := by
  intro n
  induction n with
  | zero =>
    intro cnt p s hn _
    have : cnt = 10 := by omega
    subst this
    exact ⟨p, s, rfl⟩
  | succ n ih =>
    intro cnt p s hn h
    obtain ⟨q, s1, e1, h⟩ := h
    unfold getsymlinkLoop
    rw [e1, ok_bind]
    dsimp only
    rcases h with h | ⟨hl, h⟩
    · have : cnt = 9 := by omega
      subst this
      exact ⟨q, s1, rfl⟩
    · by_cases hn0 : n = 0
      · have : cnt = 9 := by omega
        subst this
        exact ⟨q, s1, rfl⟩
      · rw [if_pos ⟨by omega, hl⟩]
        exact ih (by omega) h

theorem hops_of_loop {junk : Nat → List UInt8} {q : Nat} : ∀ {n cnt p s}, n + cnt = 10 →
    getsymlinkLoop sb cwd junk n cnt p s = .ok (some (q, 10), s') →
    Hops sb cwd junk n cnt p s := by
  intro n
  induction n with
  | zero => exact fun _ _ => trivial
  | succ n ih =>
    intro cnt p s hn e
    unfold getsymlinkLoop at e
    obtain ⟨⟨r, s1⟩, e1, e⟩ := bind_ok e
    cases r with
    | none => cases e
    | some q' =>
      dsimp only at e
      split at e
      · rename_i hc
        exact ⟨q', s1, e1, Or.inr ⟨hc.2, ih (by omega) e⟩⟩
      · cases e
        exact ⟨_, _, e1, Or.inl (by omega)⟩

end

/-! ## sys_open -/

section

variable {sb : Superblock} {L : Ftable.Limits} {p : Nat} {junk : Nat → List UInt8}

variable (sb) in
/-- Open without O_CREATE or O_NOFOLLOW, of a path that names a symbolic link from which ten
    targets in a row name something, the first nine of them symbolic links. -/
def TenHops (junk : Nat → List UInt8) (cwd : Nat) (path : List UInt8) (omode : Nat) (s : St) : Prop :=
  omode &&& O_CREATE = 0 ∧ omode ≠ O_NOFOLLOW ∧ ∃ ip s1 s2, namei sb cwd path s = .ok (some ip, s1) ∧
    ilock sb ip s1 = .ok s2 ∧
    (s2.inode ip).d.type = T_SYMLINK ∧ Hops sb cwd junk 10 0 ip s2

theorem TenHops.open {cwd : Nat} {path : List UInt8} {omode : Nat} {s : St} (h : TenHops sb junk cwd path omode s) :
    ∃ q s', openInode sb junk path omode cwd s = .ok (none, s') ∧ Delta s s' (one q) (one q) := by
  obtain ⟨hc, hn, ip, s1, s2, e1, e2, ht, hh⟩ := h
  obtain ⟨q, s', e3⟩ := hh.loop rfl
  have h2 := ((namei_delta e1).trans (ilock_delta e2) (took_nonneg _)).congr (a := one ip) (b := one ip)
    (fun i => by simp [took]) fun i => by simp
  refine ⟨q, s', ?_, getsymlinkLoop_delta h2 e3⟩
  have hd : ¬ ((s2.inode ip).d.type = T_DIR ∧ omode ≠ O_RDONLY) := fun h => by
    rw [ht] at h
    exact absurd h.1 (by decide)
  unfold openInode
  rw [if_neg (not_not.mpr hc), e1, ok_bind]
  dsimp only
  rw [e2, ok_bind, if_neg hd, if_pos ⟨ht, hn⟩]
  unfold getsymlink
  rw [e3, ok_bind]
  rfl

/-- The inode is locked and referenced once more; without one nothing is, but after ten
    targets. -/
theorem openInode_delta {cwd : Nat} {path : List UInt8} {omode : Nat} {x : Option Nat} {s s' : St}
    (hno : ¬ TenHops sb junk cwd path omode s)
    (e : openInode sb junk path omode cwd s = .ok (x, s')) : Delta s s' (took x) (took x) := by
  unfold openInode at e
  split at e
  · exact create_delta e
  rename_i hc
  rw [not_not] at hc
  obtain ⟨⟨r, s1⟩, e1, e⟩ := bind_ok e
  have h1 := namei_delta e1
  cases r with
  | none =>
    cases e
    exact h1
  | some ip =>
    obtain ⟨s2, e2, e⟩ := bind_ok e
    have h2 := (h1.trans (ilock_delta e2) (took_nonneg _)).congr (a := one ip) (b := one ip) (fun i => by simp [took])
      fun i => by simp
    split at e
    · obtain ⟨s3, e3, e⟩ := bind_ok e
      cases e
      refine (h2.trans (iunlockput_delta e3) (one_nonneg ip)).congr (fun i => ?_) fun i => ?_ <;> simp [took]
    split at e
    · rename_i hl
      unfold getsymlink at e
      obtain ⟨⟨y, s3⟩, e3, e⟩ := bind_ok e
      cases e
      have h3 := getsymlinkLoop_delta h2 e3
      cases y with
      | none => exact h3
      | some f =>
        obtain ⟨q, cnt⟩ := f
        by_cases h10 : cnt = 10
        · subst h10
          exact absurd ⟨hc, hl.2, ip, s1, s2, e1, e2, hl.1, hops_of_loop rfl e3⟩ hno
        · have hx : (some (q, cnt)).bind (fun f : Nat × Nat => if f.2 = 10 then none else some f.1) = some q :=
            if_neg h10
          exact hx ▸ h3
    · cases e
      exact h2

/-- References, locks, files and descriptors are as they were. -/
structure Unleaked (s s' : Sys) : Prop where
  ref : ∀ i, (s'.fs.inode i).ref = (s.fs.inode i).ref
  lock : ∀ i, (s'.fs.inode i).lock = (s.fs.inode i).lock
  key : ∀ i, 0 < (s.fs.inode i).ref → (s'.fs.inode i).dev = (s.fs.inode i).dev ∧
    (s'.fs.inode i).inum = (s.fs.inode i).inum
  file : ∀ f, (s'.ft.file f).ref = (s.ft.file f).ref
  ofile : s'.ft.ofile = s.ft.ofile

theorem held_eq {s s' : St} {i : Nat} (h : held s' i = held s i) : (s'.inode i).lock = (s.inode i).lock := by
  unfold held at h
  cases h1 : (s'.inode i).lock <;> cases h2 : (s.inode i).lock <;> simp_all

theorem Delta.unleaked {s s' : Sys} (h : Delta s.fs s'.fs 0 0) (hf : ∀ f, (s'.ft.file f).ref = (s.ft.file f).ref)
    (ho : s'.ft.ofile = s.ft.ofile) :
    Unleaked s s' :=
  ⟨fun i => (h.ref i).trans (Int.add_zero _), fun i => held_eq ((h.lock i).trans (Int.add_zero _)), h.key, hf, ho⟩

/-- The file that filealloc took and nobody else has: closing it gives it back. -/
theorem close_allocated {s s' : Sys} {f : Nat} (ft : Ftable.Sys) (hr : (ft.file f).ref = 1)
    (ht : (ft.file f).type = .FD_NONE)
    (hk : ∀ g, g ≠ f → (ft.file g).ref = (s.ft.file g).ref) (h0 : (s.ft.file f).ref = 0) (ho : ft.ofile = s.ft.ofile)
    (e : fileclose sb f { s with ft := ft } = .ok s') : s'.fs = s.fs ∧ (∀ g, (s'.ft.file g).ref = (s.ft.file g).ref) ∧
      s'.ft.ofile = s.ft.ofile := by
  unfold fileclose at e
  obtain ⟨ft', e1, e⟩ := bind_ok e
  obtain ⟨fs, e2, e⟩ := bind_ok e
  cases e
  dsimp only at e1 e2
  rw [ht, if_neg (by simp)] at e2
  cases e2
  have hz : i32 (1 - 1) = 0 := by decide
  unfold Ftable.fileclose at e1
  rw [hr, hz, if_neg (by decide), if_neg (by decide)] at e1
  dsimp only at e1
  rw [ht] at e1
  cases e1
  refine ⟨rfl, fun g => ?_, ho⟩
  by_cases hg : g = f
  · subst hg
    simp only [Ftable.setFile_self]
    exact h0.symm
  · simp only [Ftable.setFile_ne _ _ hg]
    exact hk g hg

theorem openBad_delta {s s' : Sys} {ip : Nat} {x : Int} (e : openBad sb ip s = .ok (x, s')) :
    Delta s.fs s'.fs (-one ip) (-one ip) ∧ s'.ft = s.ft := by
  unfold openBad at e
  obtain ⟨fs, e1, e⟩ := bind_ok e
  cases e
  exact ⟨iunlockput_delta e1, rfl⟩

/-- filealloc's file. -/
theorem filealloc_some {f : Nat} {ft ft' : Ftable.Sys} : ∀ {n k}, Ftable.filealloc ft n k = (some f, ft') →
    (ft.file f).ref = 0 ∧ ft' = ft.setFile f { ft.file f with ref := 1 } := by
  intro n
  induction n with
  | zero =>
    intro k e
    cases e
  | succ n ih =>
    intro k e
    unfold Ftable.filealloc at e
    split at e
    · rename_i h
      cases e
      exact ⟨h, rfl⟩
    · exact ih e

theorem filealloc_none {ft ft' : Ftable.Sys} : ∀ {n k}, Ftable.filealloc ft n k = (none, ft') → ft' = ft := by
  intro n
  induction n with
  | zero =>
    intro k e
    cases e
    rfl
  | succ n ih =>
    intro k e
    unfold Ftable.filealloc at e
    split at e
    · cases e
    · exact ih e

theorem short_eq_three {x : UInt16} : short x = 3 ↔ x = 3 := by
  have h := x.toNat_lt
  rw [← UInt16.toNat_inj]
  unfold short
  change _ ↔ x.toNat = 3
  split <;> omega

/-- What the inode is for sys_open of the file table. -/
def tableInode (ip : Nat) (d : Dinode) : Ftable.Inode := ⟨ip, short d.type, short d.major⟩

theorem openedFile_eq (omode ip : Nat) (d : Dinode) (f : Ftable.File) :
    openedFile omode ip d f = Ftable.opened omode (tableInode ip d) f := by
  unfold openedFile Ftable.opened tableInode
  dsimp only
  by_cases h : d.type = T_DEVICE
  · rw [if_pos h, if_pos (short_eq_three.mpr h)]
  · rw [if_neg h, if_neg (mt short_eq_three.mp h)]

/-- The same but for the log, which nothing reads and which names the inodes that open takes. -/
structure SameTable (ft ft' : Ftable.Sys) : Prop where
  file : ft'.file = ft.file
  ofile : ft'.ofile = ft.ofile
  state : ft'.state = ft.state

theorem allocFile_table {s s' : Sys} {omode ip : Nat} {r : Int}
    (hdir : ¬ (omode &&& Ftable.O_CREATE = 0 ∧ (tableInode ip (s.fs.inode ip).d).type = Ftable.T_DIR ∧
      omode ≠ Ftable.O_RDONLY))
    (hdev : ¬ ((s.fs.inode ip).d.type = T_DEVICE ∧
      (short (s.fs.inode ip).d.major < 0 ∨ short (s.fs.inode ip).d.major ≥ NDEV)))
    (e : allocFile sb L p omode ip s = .ok (r, s')) :
    ∃ ft, Ftable.sys_open L omode (some (tableInode ip (s.fs.inode ip).d)) p s.ft = .ok (r, ft) ∧
      SameTable ft s'.ft := by
  have hdev : ¬ ((tableInode ip (s.fs.inode ip).d).type = Ftable.T_DEVICE ∧
      ((tableInode ip (s.fs.inode ip).d).major < 0 ∨ (tableInode ip (s.fs.inode ip).d).major ≥ Ftable.NDEV)) :=
        fun h => hdev ⟨short_eq_three.mp h.1, h.2⟩
  unfold allocFile at e
  unfold Ftable.sys_open
  dsimp only
  rw [if_neg hdir, if_neg hdev]
  cases hf : Ftable.filealloc s.ft L.NFILE 0 with
  | mk x ft =>
    rw [hf] at e
    cases x with
    | none =>
      obtain ⟨fs, -, e⟩ := bind_ok e
      cases e
      rw [filealloc_none hf]
      exact ⟨s.ft, rfl, rfl, rfl, rfl⟩
    | some f =>
      dsimp only at e ⊢
      cases hd : Ftable.fdalloc f p ft L.NOFILE 0 with
      | mk y ft1 =>
        rw [hd] at e
        cases y with
        | none =>
          obtain ⟨s1, e1, e⟩ := bind_ok e
          obtain ⟨fs, -, e⟩ := bind_ok e
          cases e
          unfold fileclose at e1
          obtain ⟨ft2, e2, e1⟩ := bind_ok e1
          obtain ⟨fs1, -, e1⟩ := bind_ok e1
          cases e1
          dsimp only at e2 ⊢
          rw [e2]
          exact ⟨ft2, rfl, rfl, rfl, rfl⟩
        | some fd =>
          unfold install at e
          obtain ⟨fs, -, e⟩ := bind_ok e
          obtain ⟨fs1, -, e⟩ := bind_ok e
          cases e
          refine ⟨_, rfl, ?_, rfl, rfl⟩
          dsimp only
          rw [openedFile_eq]
          rfl

/-- The file table and the descriptors after sys_open are those after the sys_open that has the
    inode as an argument, unless the inode is a directory, opened for writing, behind a
    symbolic link: the test for that comes before the links are followed. -/
theorem sys_open_table {s s' : Sys} {path : List UInt8} {omode : Nat} {r : Int}
    (hdir : ∀ ip fs, openInode sb junk path omode s.cwd s.fs = .ok (some ip, fs) →
      ¬ (omode &&& Ftable.O_CREATE = 0 ∧ (tableInode ip (fs.inode ip).d).type = Ftable.T_DIR ∧
        omode ≠ Ftable.O_RDONLY))
    (e : sys_open sb L p junk (some (path, omode)) s = .ok (r, s')) :
      ∃ x ft, Ftable.sys_open L omode x p s.ft = .ok (r, ft) ∧ SameTable ft s'.ft := by
  unfold sys_open at e
  dsimp only at e
  obtain ⟨⟨x, fs⟩, e1, e⟩ := bind_ok e
  dsimp only at e
  cases x with
  | none =>
    cases e
    exact ⟨none, s.ft, rfl, rfl, rfl, rfl⟩
  | some ip =>
    dsimp only at e
    split at e
    · obtain ⟨fs', -, e⟩ := bind_ok e
      cases e
      exact ⟨none, s.ft, rfl, rfl, rfl, rfl⟩
    · rename_i hdev
      obtain ⟨ft, e2, h⟩ := allocFile_table (s := { s with fs := fs }) (hdir ip fs e1) hdev e
      exact ⟨_, ft, e2, h⟩

/-- The rest of sys_open fails without a trace but for the locked inode, which it puts. -/
theorem allocFile_delta {s s' : Sys} {omode ip : Nat}
    (hclosed : ∀ f, (s.ft.file f).ref = 0 → (s.ft.file f).type = .FD_NONE)
    (e : allocFile sb L p omode ip s = .ok (-1, s')) :
    Delta s.fs s'.fs (-one ip) (-one ip) ∧ (∀ f, (s'.ft.file f).ref = (s.ft.file f).ref) ∧
      s'.ft.ofile = s.ft.ofile := by
  unfold allocFile at e
  cases hf : Ftable.filealloc s.ft L.NFILE 0 with
  | mk r ft =>
    rw [hf] at e
    cases r with
    | none =>
      obtain ⟨h1, h2⟩ := openBad_delta e
      rw [h2, filealloc_none hf]
      exact ⟨h1, fun _ => rfl, rfl⟩
    | some f =>
      obtain ⟨h0, rfl⟩ := filealloc_some hf
      dsimp only at e
      rcases Ftable.fdalloc_cases (L := L) f p (s.ft.setFile f { s.ft.file f with ref := 1 }) L.NOFILE 0 rfl with hd |
        ⟨fd, -, -, hd⟩
      · rw [hd] at e
        obtain ⟨s1, e1, e⟩ := bind_ok e
        obtain ⟨h1, h2, h3⟩ := close_allocated (s.ft.setFile f { s.ft.file f with ref := 1 })
          (by rw [Ftable.setFile_self]) (by rw [Ftable.setFile_self]; exact hclosed f h0)
          (fun g hg => by rw [Ftable.setFile_ne _ _ hg]) h0 rfl e1
        obtain ⟨h4, h5⟩ := openBad_delta e
        rw [h5, ← h1]
        exact ⟨h4, h2, h3⟩
      · rw [hd] at e
        dsimp only at e
        unfold install at e
        obtain ⟨fs, -, e⟩ := bind_ok e
        obtain ⟨fs', -, e⟩ := bind_ok e
        cases e

/-- A failing open leaves no trace in references, locks, files and descriptors exactly when it
    does not follow ten targets in a row. -/
theorem open_leaks_nothing {s : Sys} (hclosed : ∀ f, (s.ft.file f).ref = 0 → (s.ft.file f).type = .FD_NONE)
    (args : Option (List UInt8 × Nat)) :
    (∀ s', sys_open sb L p junk args s = .ok (-1, s') → Unleaked s s') ↔
      ∀ path omode, args = some (path, omode) → ¬ TenHops sb junk s.cwd path omode s.fs := by
  constructor
  · intro h path omode ha ht
    subst ha
    obtain ⟨q, fs, e, hd⟩ := ht.open
    have hu := h { s with fs := fs } (by
      unfold sys_open
      dsimp only
      rw [e, ok_bind])
    have h1 := hu.ref q
    have h2 := hd.ref q
    rw [one_self] at h2
    dsimp only at h1
    omega
  · intro hno s' e
    unfold sys_open at e
    cases args with
    | none =>
      cases e
      exact ⟨fun _ => rfl, fun _ => rfl, fun _ _ => ⟨rfl, rfl⟩, fun _ => rfl, rfl⟩
    | some a =>
      obtain ⟨path, omode⟩ := a
      obtain ⟨⟨x, fs⟩, e1, e⟩ := bind_ok e
      have h1 := openInode_delta (hno path omode rfl) e1
      cases x with
      | none =>
        cases e
        exact Delta.unleaked h1 (fun _ => rfl) rfl
      | some ip =>
        dsimp only at e
        split at e
        · obtain ⟨h2, h3⟩ := openBad_delta e
          refine Delta.unleaked ((h1.trans h2 (one_nonneg ip)).congr (fun i => ?_) fun i => ?_) (fun _ => ?_) ?_
          · exact Int.add_right_neg _
          · exact Int.add_right_neg _
          · rw [h3]
          · rw [h3]
        · obtain ⟨h2, h3, h4⟩ := allocFile_delta (s := { s with fs := fs }) hclosed e
          exact Delta.unleaked ((h1.trans h2 (one_nonneg ip)).congr (fun i => Int.add_right_neg _) fun i =>
            Int.add_right_neg _) h3 h4

end

/-! ## A symbolic link to itself -/

/-- The root directory, in block 10, has the entry `a` for inode 2, a symbolic link whose
    target, in block 11, is `a`. -/
def linkCycle : Mem := fun x =>
  match x with
  | 2112 => 1 | 2118 => 1 | 2120 => 16 | 2124 => 10
  | 2176 => 4 | 2182 => 1 | 2184 => 128 | 2188 => 11
  | 3072 => 255 | 3073 => 12
  | 10240 => 2 | 10242 => 97
  | 11264 => 97
  | _ => 0

/-- A process in the root directory, which it alone has open. -/
def atRoot (disk : Mem) : Sys :=
  ⟨⟨disk, [], fun i =>
    if i = 0 then ⟨1, 1, 1, false, true, loadDinode disk 2112⟩
    else ⟨0, 0, 0, false, false, loadDinode (fun _ => 0) 0⟩⟩, Ftable.Sys.init, 0⟩

def small : Ftable.Limits := ⟨1, 16, 100, by decide⟩

theorem atRoot_closed (disk : Mem) (f : Nat) : ((atRoot disk).ft.file f).ref = 0 →
    ((atRoot disk).ft.file f).type = .FD_NONE := fun _ => rfl

/-- The result of a call, and the references to slot 1 after it. -/
def outcome (x : Except String (Int × Sys)) : Option (Int × Int) :=
  match x with
  | .ok (r, s) => some (r, (s.fs.inode 1).ref)
  | .error _ => none

theorem outcome_some {x : Except String (Int × Sys)} {r n : Int} (h : outcome x = some (r, n)) :
    ∃ s', x = .ok (r, s') ∧ (s'.fs.inode 1).ref = n := by
  cases x with
  | error e => cases h
  | ok a =>
    cases h
    exact ⟨a.2, rfl, rfl⟩

/-- There is no `b`. -/
theorem open_leaks_nothing_missing : ∃ s',
    sys_open smallDisk small 0 (fun _ => []) (some ([98], O_RDONLY)) (atRoot linkCycle) = .ok (-1, s') ∧
    Unleaked (atRoot linkCycle) s' := by
  have hrun : outcome (sys_open smallDisk small 0 (fun _ => []) (some ([98], O_RDONLY)) (atRoot linkCycle)) =
    some (-1, 0) := by decide +kernel
  obtain ⟨s', e, -⟩ := outcome_some hrun
  have hno : (namei smallDisk 0 [98] (atRoot linkCycle).fs).toOption.map (·.1) = some none := by decide +kernel
  refine ⟨s', e, (open_leaks_nothing (atRoot_closed _) _).mpr (fun path omode ha ht => ?_) s' e⟩
  cases ha
  obtain ⟨-, -, ip, s1, -, e1, -⟩ := ht
  rw [show (atRoot linkCycle).cwd = 0 from rfl] at e1
  rw [e1] at hno
  cases hno

/-- Opening a symbolic link to itself fails and leaves it locked, with a reference. -/
theorem link_cycle_leaks : ¬ ∀ (sb : Superblock) (L : Ftable.Limits) (p : Nat) (junk : Nat → List UInt8) (s : Sys)
    (args : Option (List UInt8 × Nat)),
    (∀ f, (s.ft.file f).ref = 0 → (s.ft.file f).type = .FD_NONE) → ∀ s', sys_open sb L p junk args s = .ok (-1, s') →
      Unleaked s s' := by
  intro h
  have hrun : outcome (sys_open smallDisk small 0 (fun _ => []) (some ([97], O_RDONLY)) (atRoot linkCycle)) =
    some (-1, 1) := by decide +kernel
  obtain ⟨s', e, h1⟩ := outcome_some hrun
  have h2 := (h _ _ _ _ _ _ (atRoot_closed _) s' e).ref 1
  rw [h1] at h2
  exact absurd h2 (by decide)

end Xv6Labs.Fs.Disk
