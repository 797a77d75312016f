/-
  Xv6Labs.Fs.Counts — link counts are exact.

  `Exact`: a link count is the number of entries that name the inode, and of the directories in
  it; the root directory, which nothing names, has one more. Nlink has that counts are large
  enough.

  - `links_exact`: sys_link, sys_unlink, sys_mkdir and sys_mknod keep this, in any order, while
    the counts they raise are not the greatest short.
-/

import Xv6Labs.Fs.Nlink

namespace Xv6Labs.Fs.Disk

open Lib

namespace Graph

structure Exact (g : Graph) (N root : Nat) : Prop where
  alloc : g.node root ≠ .free
  count : ∀ i < N, g.node i ≠ .free → short (g.nlink i) = g.links N i + g.kids i + if i = root then 1 else 0

variable {g g' : Graph} {N d i a n root : Nat} {busy : Nat → Prop} {t : Entries} {k : List UInt8} {m : Node}

/-! ## The calls on the graph -/

theorem Exact.link (hx : g.Exact N root) (hd : d < N) (hnd : g.node d = .dir t) (hni : g.node i = .file)
    (hp : plain k = true) (hn : short (g.nlink i) < 32767) :
    (g.link d t k i).Exact N root := by
  refine ⟨(dir_free hnd root).not.mpr hx.alloc, fun j hj h0 => ?_⟩
  have := hx.count j hj ((dir_free hnd j).not.mp h0)
  rw [link_links hd hnd hp, link_kids hnd hni hp, link_nlink hn]
  split <;> omega

theorem Exact.enters (hx : g.Exact N root) (h : Enters g N d t k a m g') (hz : g.links N a = 0)
    (hn : ∀ j, short (g'.nlink j) = if j = a then 1 else short (g.nlink j) + if j = d ∧
      m.isDir = true then 1 else 0) : g'.Exact N root := by
  refine ⟨fun e => hx.alloc ((h.free root).mp e).2, fun j hj h0 => ?_⟩
  rw [hn, h.links, h.kids hz hj]
  by_cases hja : j = a
  · have hroot : j ≠ root := fun e => hx.alloc (by rw [← e, hja, h.unused])
    rw [if_pos hja, if_pos hja, if_pos hja, if_neg fun e => h.ne (hja.symm.trans e.1), if_neg hroot, hja, hz]
    rfl
  · have := hx.count j hj fun e => h0 ((h.free j).mpr ⟨hja, e⟩)
    rw [if_neg hja, if_neg hja, if_neg hja]
    split <;> omega

theorem Exact.unlink (hx : g.Exact N root) (h : Unlinks g N d t n i) (hs : Sane g N busy) :
    (g.unlink d t n i).Exact N root := by
  refine ⟨(dir_free h.node root).not.mpr hx.alloc, fun j hj h0 => ?_⟩
  have h1 := hx.count j hj ((dir_free h.node j).not.mp h0)
  have h2 := h.links j
  have h3 := h.kids j
  rw [h.nlink hs]
  by_cases hji : j = i
  · have hjd : ¬ (j = d ∧ (g.node i).isDir = true) := fun e => h.ne (hji.symm.trans e.1)
    rw [if_pos hji] at h2 ⊢
    rw [if_neg hjd] at h3 ⊢
    omega
  · rw [if_neg hji] at h2 ⊢
    by_cases hjd : j = d ∧ (g.node i).isDir = true
    · rw [if_pos hjd] at h3 ⊢
      omega
    · rw [if_neg hjd] at h3 ⊢
      omega

/-- What goes has no count, so that nothing names it and it is not the root. -/
theorem Exact.drop (hx : g.Exact N root) (hi : i < N) (h0 : g.node i ≠ .free) (hbare : BareNode (g.node i))
    (hgo : g.nlink i = 0) : (g.drop i).Exact N root := by
  have hzero := hx.count i hi h0
  rw [short_zero.mpr hgo] at hzero
  have hz : g.links N i = 0 := by
    split at hzero <;> omega
  have hroot : root ≠ i := fun e => by
    rw [if_pos e.symm] at hzero
    omega
  have hself : (g.drop i).node i = .free := Function.update_self ..
  refine ⟨?_, fun j hj h1 => ?_⟩
  · show Function.update g.node i .free root ≠ .free
    rw [Function.update_of_ne hroot]
    exact hx.alloc
  · have hne : j ≠ i := fun e => h1 (e ▸ hself)
    have hnode : (g.drop i).node j = g.node j := Function.update_of_ne hne _ _
    rw [hnode] at h1
    have hlinks : (g.drop i).links N j = g.links N j := bare_links hi hbare (fun t e => by cases e) j
    have hkids : (g.drop i).kids j = g.kids j := bare_kids hz hj hne
    rw [hlinks, hkids]
    exact hx.count j hj h1

/-! ## One call -/

theorem LinkStep.exact (h : LinkStep N i g g') (hs : Sane g N busy) (hx : g.Exact N root)
    (hn : short (g.nlink i) < 32767) : g'.Exact N root := by
  cases h with
  | link hd hnd hni hk => exact hx.link hd hnd hni (hs.plain hd hnd hk) hn

theorem MkdirStep.exact (h : MkdirStep N d g g') (hs : Sane g N busy) (hx : g.Exact N root)
    (hn : short (g.nlink d) < 32767) : g'.Exact N root := by
  cases h with
  | mkdir hd ha hnd hna hk =>
    exact hx.enters (mkdir_enters hd hnd ha hna (hs.plain hd hnd hk)) (hs.free _ ha hna) (mkdir_nlink hn)

theorem MknodStep.exact (h : MknodStep N g g') (hs : Sane g N busy) (hx : g.Exact N root) : g'.Exact N root := by
  cases h with
  | mknod hd ha hnd hna hk =>
    exact hx.enters (mknod_enters hd hnd ha hna (hs.plain hd hnd hk)) (hs.free _ ha hna) mknod_nlink

theorem UnlinkStep.exact (h : UnlinkStep N busy g g') (hs : Sane g N busy) (hx : g.Exact N root) :
    g'.Exact N root := by
  cases h with
  | stays hu _ => exact hx.unlink hu hs
  | @goes d n i t hu hb hgo =>
    have hstill : (g.unlink d t n i).node i = g.node i := Function.update_of_ne hu.ne _ _
    have halloc : g.node i ≠ .free := fun e => by
      have h1 := hu.linked
      rw [hs.free i hu.lt e] at h1
      omega
    exact (hx.unlink hu hs).drop hu.lt (hstill ▸ halloc) (hstill ▸ hu.empty) hgo

end Graph

section

variable {sb : Superblock} {s s' : St}

/-! ## The volume -/

/-- Entries for inode `i`, over all directories, without `.` and `..`. -/
def named (sb : Superblock) (disk : Mem) (i : Nat) : Nat := (graph sb disk).links sb.ninodes i

/-- Directories in inode `i`. -/
def subdirs (sb : Superblock) (disk : Mem) (i : Nat) : Nat := (graph sb disk).kids i

structure LinksExact (sb : Superblock) (s : St) : Prop where
  root : (inodeOf sb s.disk ROOTINO).type ≠ 0
  count : ∀ i < sb.ninodes, (inodeOf sb s.disk i).type ≠ 0 →
    links sb s i = named sb s.disk i + subdirs sb s.disk i + if i = ROOTINO then 1 else 0

theorem linksExact_graph (h : Consistent sb s) : LinksExact sb s ↔ (graph sb s.disk).Exact sb.ninodes ROOTINO := by
  have hroot := h.volume.root
  constructor
  · intro hx
    refine ⟨(node_free hroot).not.mpr hx.root, fun i hi h0 => ?_⟩
    rw [links_graph hi h0]
    exact hx.count i hi ((node_free hi).not.mp h0)
  · intro hx
    refine ⟨(node_free hroot).not.mp hx.alloc, fun i hi h0 => ?_⟩
    have h0 := (node_free hi).not.mpr h0
    rw [← links_graph hi h0]
    exact hx.count i hi h0

/-! ## Runs -/

inductive TreeCall where
  | links (c : Call)
  | mknod (cwd : Nat) (args : Option (List UInt8 × UInt16 × UInt16)) (ret : Int)

variable (sb) in
def TreeCall.Step : TreeCall → St → St → Prop
  | links c, s, s' => CallStep sb c s s'
  | mknod cwd args ret, s, s' => 0 < (s.inode cwd).ref ∧ sys_mknod sb cwd args s = .ok (ret, s')

variable (sb) in
def TreeCall.Room : TreeCall → St → Prop
  | links c, s => Disk.Room sb c s
  | mknod _ _ _, _ => True

/-- A call that failed, or did what keeps the counts exact. -/
theorem Returned.exact {done : Graph → Prop} {x : Int} (hr : Returned sb s done x s') (h : Consistent sb s)
    (hc' : Consistent sb s') (hx : LinksExact sb s)
    (hdone : x = 0 → done (Disk.graph sb s'.disk) → (Disk.graph sb s'.disk).Exact sb.ninodes ROOTINO) :
      LinksExact sb s' := by
  refine (linksExact_graph hc').mpr ?_
  rcases hr.graph with ⟨-, hg⟩ | ⟨h0, hg⟩
  · rw [hg]
    exact (linksExact_graph h).mp hx
  · exact hdone h0 hg

theorem call_exact (hl : Layout sb) (h : Consistent sb s) (hx : LinksExact sb s) {c : Call}
    (hstep : CallStep sb c s s') (hroom : Room sb c s) : LinksExact sb s' := by
  obtain ⟨hc', -⟩ := call_step hl h hstep hroom
  have hg := (linksExact_graph h).mp hx
  obtain ⟨cwd, op, r⟩ := c
  cases op with
  | link old new =>
    refine (sys_link_graph hl h hstep.1 hstep.2).exact h hc' hx fun h0 _ => ?_
    change r = 0 at h0
    subst h0
    obtain ⟨i, hi, hraised, hlink⟩ := link_done hl h hstep
    have hlt := hroom i hraised
    rw [← links_graph hi hlink.raises.before] at hlt
    exact hlink.exact h.sane hg hlt
  | unlink path => exact (sys_unlink_graph hl h hstep.1 hstep.2).exact h hc' hx fun _ hdone => hdone.exact h.sane hg
  | mkdir path =>
    refine (sys_mkdir_graph hl h hstep.1 hstep.2).exact h hc' hx fun h0 _ => ?_
    change r = 0 at h0
    subst h0
    obtain ⟨d, hd, hraised, hmkdir⟩ := mkdir_done hl h hstep
    have hlt := hroom d hraised
    rw [← links_graph hd hmkdir.raises.before] at hlt
    exact hmkdir.exact h.sane hg hlt

theorem treeCall_step (hl : Layout sb) (h : Consistent sb s) (hx : LinksExact sb s) {c : TreeCall}
    (hstep : c.Step sb s s') (hroom : c.Room sb s) :
    Consistent sb s' ∧ LinksExact sb s' := by
  cases c with
  | links c => exact ⟨(call_step hl h hstep hroom).1, call_exact hl h hx hstep hroom⟩
  | mknod cwd args ret =>
    have hr := sys_mknod_graph hl h hstep.1 hstep.2
    have hc' : Consistent sb s' := hr.consistent h fun _ hdone => hdone.sane h.sane
    exact ⟨hc', hr.exact h hc' hx fun _ hdone => hdone.exact h.sane ((linksExact_graph h).mp hx)⟩

/-- While every call has room, link counts stay exact; and an inode with no links is one that
    somebody holds. -/
theorem links_exact {cs : List TreeCall} (hl : Layout sb) (h : Consistent sb s) (hx : LinksExact sb s)
    (hrun : Runs (fun c s s' => c.Step sb s s' ∧ c.Room sb s) cs s s') :
    LinksExact sb s' ∧ ∀ i < sb.ninodes, (inodeOf sb s'.disk i).type ≠ 0 → links sb s' i = 0 → InUse s' i := by
  induction hrun with
  | nil s =>
    refine ⟨hx, fun i hi ht h0 => (h.kept hi ht).resolve_left fun hpos => ?_⟩
    change 0 < links sb s i at hpos
    omega
  | cons hstep _ ih =>
    obtain ⟨h1, hx1⟩ := treeCall_step hl h hx hstep.1 hstep.2
    exact ih h1 hx1

end

/-! ## A new volume -/

/-- The root directory, in block 10, has `.` and `..`. -/
def newDisk : Mem := fun x =>
  match x with
  | 2112 => 1 | 2118 => 1 | 2120 => 32 | 2124 => 10
  | 3072 => 255 | 3073 => 7
  | 10240 => 1 | 10242 => 46
  | 10256 => 1 | 10258 => 46 | 10259 => 46
  | _ => 0

def newVolume : St := (atRoot newDisk).fs

theorem newDisk_inodes : ∀ i < 15, (inodeOf smallDisk newDisk i).type ≠ 0 → i = 1 := by decide

theorem newDisk_addrs : ∀ k, k ≠ 0 → (inodeOf smallDisk newDisk 1).addrs k = 0 := by decide

theorem newDisk_size : (inodeOf smallDisk newDisk 1).size = 32 := by decide

/-- `.` and `..` are the entries. -/
theorem newDisk_entry {n : Nat} {x : List UInt8 × Nat}
    (h : ((inodeOf smallDisk newDisk 1).slots newDisk).entry n = some x) :
    n = 0 ∧ x = (dot, 1) ∨ n = 1 ∧ x = (dotdot, 1) := by
  have hn : n < (inodeOf smallDisk newDisk 1).size / 16 := Slots.lt_of_entry h
  rw [newDisk_size] at hn
  have h0 : ((inodeOf smallDisk newDisk 1).slots newDisk).entry 0 = some (dot, 1) := by decide
  have h1 : ((inodeOf smallDisk newDisk 1).slots newDisk).entry 1 = some (dotdot, 1) := by decide
  have hcases : n = 0 ∨ n = 1 := by omega
  rcases hcases with rfl | rfl
  · rw [h0] at h
    cases h
    exact Or.inl ⟨rfl, rfl⟩
  · rw [h1] at h
    cases h
    exact Or.inr ⟨rfl, rfl⟩

theorem newDisk_volume : Volume smallDisk newDisk := by
  have hone : ∀ {i}, i < 15 → (inodeOf smallDisk newDisk i).type = T_DIR → i = 1 := fun hi ht =>
    newDisk_inodes _ hi fun e => absurd (e.symm.trans ht) (by decide)
  have hat : ∀ p, (inodeOf smallDisk newDisk 1).at newDisk p ≠ 0 → p = .addr 0 ∧
    (inodeOf smallDisk newDisk 1).at newDisk p = 10 := fun p h0 => by
    rw [at_single newDisk_addrs] at h0 ⊢
    split at h0
    · rename_i hp
      exact ⟨hp, by rw [if_pos hp]; decide⟩
    · exact absurd rfl h0
  refine ⟨by decide, by decide, (by decide : ∀ c < 4, used smallDisk newDisk c = true), by decide, fun i hi h0 => ?_,
    fun i hi j hj hne h0 h1 => ?_,
    fun i hi ht k hk => ?_, fun i hi ht => ?_, fun i hi ht n x hx => ?_⟩
  · rw [newDisk_inodes i hi h0]
    refine ⟨fun p hp => ?_, fun p q hp e => ?_⟩
    · rw [(hat p hp).2]
      decide
    · rw [(hat p hp).1, (hat q (e ▸ hp)).1]
  · exact absurd ((newDisk_inodes i hi h0).trans (newDisk_inodes j hj h1).symm) hne
  · rw [hone hi ht, newDisk_size] at hk
    rw [hone hi ht]
    exact (by decide : ∀ k < 32, k < MAXFILE * BSIZE ∧
      (inodeOf smallDisk newDisk 1).at newDisk (slotOf (k / BSIZE)) ≠ 0) k hk
  · rw [hone hi ht, newDisk_size]
  · rw [hone hi ht] at hx
    rcases newDisk_entry hx with ⟨-, rfl⟩ | ⟨-, rfl⟩ <;> decide

/-- Nothing is named but by `.` and `..`. -/
theorem newDisk_bare : ∀ i < 15, ∀ t, (graph smallDisk newDisk).node i = .dir t → Graph.Bare t :=
  fun i hi t e n x hx => by
  obtain ⟨ht, rfl⟩ := type_of_node hi e
  rw [newDisk_inodes i hi fun h0 => absurd (h0.symm.trans ht) (by decide)] at hx
  rcases newDisk_entry hx with ⟨-, rfl⟩ | ⟨-, rfl⟩ <;> decide

theorem newDisk_counts (i : Nat) (hi : i < 15) : (graph smallDisk newDisk).links 15 i = 0 ∧
    (graph smallDisk newDisk).kids i = 0 := by
  constructor
  · refine Graph.links_zero.mpr fun j hj t e n x hx hp => ?_
    rw [newDisk_bare j hj t e n x hx] at hp
    cases hp
  · exact (show Graph.BareNode ((graph smallDisk newDisk).node i) from newDisk_bare i hi).tally 0 |>.2

theorem newVolume_consistent : Consistent smallDisk newVolume := by
  have hroot : (inodeOf smallDisk newDisk 1).type = T_DIR := by decide
  have hnode : ∀ i < 15, (graph smallDisk newDisk).node i = .free ↔ (inodeOf smallDisk newDisk i).type = 0 :=
    fun i hi => node_free hi
  have hfree : ∀ i < 15, (graph smallDisk newDisk).node i ≠ .free → i = 1 :=
    fun i hi h0 => newDisk_inodes i hi ((hnode i hi).not.mp h0)
  have hcount : short ((graph smallDisk newDisk).nlink 1) = 1 := by decide
  refine ⟨⟨⟨fun k => ?_, fun k hk => ?_, fun j k hj hk _ => (atRoot_ref hj).trans (atRoot_ref hk).symm,
    fun k hk _ => ?_⟩, newDisk_volume⟩,
    fun i hi h0 => ?_, fun i hi h0 _ => ?_, fun i hi _ => (newDisk_counts i hi).1, fun i hi t e => ?_,
      fun i hi hb => ?_⟩
  · by_cases hne : k = 0
    · rw [hne]
      decide
    · exact Int.le_of_eq (atRoot_empty hne).symm
  · rw [atRoot_ref hk]
    decide
  · rw [atRoot_ref hk]
    exact ⟨rfl, by decide⟩
  · rw [hfree i hi h0]
    show ((graph smallDisk newDisk).links 15 1 + (graph smallDisk newDisk).kids 1 : Int) ≤ short
      ((graph smallDisk newDisk).nlink 1)
    rw [(newDisk_counts 1 (by decide)).1, (newDisk_counts 1 (by decide)).2, hcount]
    decide
  · rw [hfree i hi h0]
    show ((graph smallDisk newDisk).kids 1 : Int) < short ((graph smallDisk newDisk).nlink 1)
    rw [(newDisk_counts 1 (by decide)).2, hcount]
    decide
  · obtain ⟨ht, rfl⟩ := type_of_node hi e
    rw [newDisk_inodes i hi fun h0 => absurd (h0.symm.trans ht) (by decide)]
    exact ⟨⟨1, by decide⟩, 1, by decide⟩
  · obtain ⟨k, hk, rfl⟩ := hb
    rw [atRoot_ref hk]
    exact (hnode 1 (by decide)).not.mpr fun e => absurd (hroot.symm.trans e) (by decide)

theorem newVolume_exact : LinksExact smallDisk newVolume := by
  refine ⟨by decide, fun i hi h0 => ?_⟩
  rw [newDisk_inodes i hi h0]
  show links smallDisk newVolume 1 = ((graph smallDisk newDisk).links 15 1 :
    Int) + ((graph smallDisk newDisk).kids 1 : Int) + 1
  rw [(newDisk_counts 1 (by decide)).1, (newDisk_counts 1 (by decide)).2]
  decide

/-- `a` is made a directory, and `b` a device. -/
theorem links_exact_new : ∃ s', Runs (TreeCall.Step smallDisk) [.links ⟨0, .mkdir (some [97]), 0⟩,
    .mknod 0 (some ([98], 1, 1)) 0] newVolume s' ∧
    LinksExact smallDisk s' ∧ ∀ i < smallDisk.ninodes, (inodeOf smallDisk s'.disk i).type ≠ 0 →
      links smallDisk s' i = 0 → InUse s' i := by
  have hrun : (sys_mkdir smallDisk 0 (some [97]) newVolume).toOption.map (fun x => (x.1, (x.2.inode 0).ref,
      (sys_mknod smallDisk 0 (some ([98], 1, 1)) x.2).toOption.map (·.1))) = some (0, 1, some 0) := by decide +kernel
  cases e : sys_mkdir smallDisk 0 (some [97]) newVolume with
  | error m =>
    rw [e] at hrun
    cases hrun
  | ok x =>
    rw [e] at hrun
    have h := Option.some.inj hrun
    simp only [Prod.mk.injEq] at h
    obtain ⟨h1, h2, h3⟩ := h
    cases e' : sys_mknod smallDisk 0 (some ([98], 1, 1)) x.2 with
    | error m =>
      rw [e'] at h3
      cases h3
    | ok y =>
      rw [e'] at h3
      have hfirst : TreeCall.Step smallDisk (.links ⟨0, .mkdir (some [97]), 0⟩) newVolume x.2 :=
        ⟨by decide, e.trans (congrArg _ (Prod.ext h1 rfl))⟩
      have hsecond : TreeCall.Step smallDisk (.mknod 0 (some ([98], 1, 1)) 0) x.2 y.2 :=
        ⟨by omega, e'.trans (congrArg _ (Prod.ext (Option.some.inj h3) rfl))⟩
      have hroom : TreeCall.Room smallDisk (.links ⟨0, .mkdir (some [97]), 0⟩) newVolume := fun i hi => by
        have hraised : Call.raised smallDisk ⟨0, .mkdir (some [97]), 0⟩ newVolume = some 1 := by decide +kernel
        rw [hraised] at hi
        cases hi
        decide
      exact ⟨y.2, .cons hfirst (.cons hsecond (.nil _)),
        links_exact smallDisk_layout newVolume_consistent newVolume_exact
          (.cons ⟨hfirst, hroom⟩ (.cons ⟨hsecond, trivial⟩ (.nil _)))⟩

end Xv6Labs.Fs.Disk
