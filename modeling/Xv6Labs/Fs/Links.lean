/-
  Xv6Labs.Fs.Links — the disk as a graph, and what writes to it do to the graph.

  `graph`: the inodes of a disk and their link counts. `Volume`: inodes have blocks of their own,
  directories no holes, and entries are for inodes. A write is for one inode; `Others` says that
  the rest stays, so that the graph differs in that inode alone.

  - `Sound.counts`, `Sound.entered`, `Sound.ialloc`, `Sound.freed`: the four kinds of writes.
-/

import Xv6Labs.Fs.Graph
import Xv6Labs.Fs.Symlink

namespace Xv6Labs.Fs.Disk

open Lib
open Ftable (one one_self one_ne one_nonneg)

section

variable {sb : Superblock} {s s' s0 s1 : St} {ip dp cwd a i n : Nat} {r l r' l' : Nat → Int} {disk disk' : Mem}
    {d : Dinode} {name : List UInt8}

/-! ## The disk as a graph -/

variable (sb) in
def nodeOf (disk : Mem) (i : Nat) : Node :=
  if (inodeOf sb disk i).type = 0 then .free
  else if (inodeOf sb disk i).type = T_DIR then .dir ((inodeOf sb disk i).slots disk)
  else .file

variable (sb) in
def nlinkOf (disk : Mem) (i : Nat) : UInt16 := if (inodeOf sb disk i).type = 0 then 0 else (inodeOf sb disk i).nlink

variable (sb) in
def graph (disk : Mem) : Graph where
  node i := if i < sb.ninodes then nodeOf sb disk i else .free
  nlink i := if i < sb.ninodes then nlinkOf sb disk i else 0

structure Volume (sb : Superblock) (disk : Mem) : Prop where
  root : ROOTINO < sb.ninodes
  numbers : sb.ninodes ≤ 65536
  reserved : Reserved sb disk
  zero : (inodeOf sb disk 0).type = 0
  whole : ∀ i < sb.ninodes, (inodeOf sb disk i).type ≠ 0 → Whole sb disk (inodeOf sb disk i)
  apart : ∀ i < sb.ninodes, ∀ j < sb.ninodes, i ≠ j → (inodeOf sb disk i).type ≠ 0 → (inodeOf sb disk j).type ≠ 0 →
    ∀ p q, (inodeOf sb disk i).at disk p ≠ 0 → (inodeOf sb disk i).at disk p ≠ (inodeOf sb disk j).at disk q
  mapped : ∀ i < sb.ninodes, (inodeOf sb disk i).type = T_DIR → Mapped disk (inodeOf sb disk i)
  aligned : ∀ i < sb.ninodes, (inodeOf sb disk i).type = T_DIR → (inodeOf sb disk i).size % 16 = 0
  entries : ∀ i < sb.ninodes, (inodeOf sb disk i).type = T_DIR → ∀ n x,
    ((inodeOf sb disk i).slots disk).entry n = some x → x.2 < sb.ninodes

theorem graph_node (hi : i < sb.ninodes) : (graph sb disk).node i = nodeOf sb disk i := if_pos hi

theorem graph_nlink (hi : i < sb.ninodes) : (graph sb disk).nlink i = nlinkOf sb disk i := if_pos hi

theorem nlinkOf_eq (h : (inodeOf sb disk i).type ≠ 0) : nlinkOf sb disk i = (inodeOf sb disk i).nlink := if_neg h

theorem node_free (hi : i < sb.ninodes) : (graph sb disk).node i = .free ↔ (inodeOf sb disk i).type = 0 := by
  rw [graph_node hi]
  unfold nodeOf
  split_ifs with h0 h1
  · exact iff_of_true rfl h0
  · exact iff_of_false (fun e => by cases e) h0
  · exact iff_of_false (fun e => by cases e) h0

theorem nodeOf_dir (h : (inodeOf sb disk i).type = T_DIR) :
    nodeOf sb disk i = .dir ((inodeOf sb disk i).slots disk) := by
  unfold nodeOf
  rw [if_neg (by rw [h]; decide), if_pos h]

theorem node_dir (hi : i < sb.ninodes) (h : (inodeOf sb disk i).type = T_DIR) :
    (graph sb disk).node i = .dir ((inodeOf sb disk i).slots disk) :=
  (graph_node hi).trans (nodeOf_dir h)

theorem type_of_node {t : Entries} (hi : i < sb.ninodes) (h : (graph sb disk).node i = .dir t) :
    (inodeOf sb disk i).type = T_DIR ∧ t = (inodeOf sb disk i).slots disk := by
  rw [graph_node hi] at h
  unfold nodeOf at h
  split_ifs at h with h0 h1
  cases h
  exact ⟨h1, rfl⟩

theorem node_file (hi : i < sb.ninodes) (h0 : (inodeOf sb disk i).type ≠ 0) (h1 : (inodeOf sb disk i).type ≠ T_DIR) :
    (graph sb disk).node i = .file := by
  rw [graph_node hi]
  unfold nodeOf
  rw [if_neg h0, if_neg h1]

theorem slots_congr (hb : ∀ k, d.byte disk' k = d.byte disk k) : d.slots disk' = d.slots disk := by
  unfold Dinode.slots Dinode.entryAt
  simp only [hb]

/-! ## The other inodes -/

/-- All inodes but `a` are as they were. -/
structure Others (sb : Superblock) (a : Nat) (disk disk' : Mem) : Prop where
  inode : ∀ i < sb.ninodes, i ≠ a → inodeOf sb disk' i = inodeOf sb disk i
  slot : ∀ i < sb.ninodes, i ≠ a → (inodeOf sb disk i).type ≠ 0 → ∀ p,
    (inodeOf sb disk i).at disk' p = (inodeOf sb disk i).at disk p
  byte : ∀ i < sb.ninodes, i ≠ a → (inodeOf sb disk i).type ≠ 0 → ∀ k,
    (inodeOf sb disk i).byte disk' k = (inodeOf sb disk i).byte disk k
  used : ∀ i < sb.ninodes, i ≠ a → (inodeOf sb disk i).type ≠ 0 → ∀ p, (inodeOf sb disk i).at disk p ≠ 0 →
    used sb disk' ((inodeOf sb disk i).at disk p) = true

/-- What is written and freed is free or the inode's own. -/
theorem Volume.others (hv : Volume sb disk) (ha : a < sb.ninodes)
    (hin : ∀ i < sb.ninodes, i ≠ a → inodeOf sb disk' i = inodeOf sb disk i)
    (hb : ∀ c o, dataStart sb ≤ c → c < sb.size → used sb disk c = true →
      ((inodeOf sb disk a).type ≠ 0 → ∀ p, (inodeOf sb disk a).at disk p ≠ c) →
      o < BSIZE → disk' (c * BSIZE + o) = disk (c * BSIZE + o))
    (hu : ∀ c < sb.size, used sb disk c = true →
      ((inodeOf sb disk a).type ≠ 0 → ∀ p, (inodeOf sb disk a).at disk p ≠ c) → used sb disk' c = true) :
    Others sb a disk disk' := by
  have hother : ∀ i < sb.ninodes, i ≠ a → (inodeOf sb disk i).type ≠ 0 → ∀ p, (inodeOf sb disk i).at disk p ≠ 0 →
    (inodeOf sb disk a).type ≠ 0 →
      ∀ q, (inodeOf sb disk a).at disk q ≠ (inodeOf sb disk i).at disk p := fun i hi hne ht p h0 hta q e =>
    hv.apart i hi a ha hne ht hta p q h0 e.symm
  have hfile : ∀ i < sb.ninodes, i ≠ a → (inodeOf sb disk i).type ≠ 0 →
    (∀ p, (inodeOf sb disk i).at disk' p = (inodeOf sb disk i).at disk p) ∧
      ∀ k, (inodeOf sb disk i).byte disk' k = (inodeOf sb disk i).byte disk k :=
        fun i hi hne ht => file_kept fun p h0 o ho => by
    obtain ⟨h1, h2, h3⟩ := (hv.whole i hi ht).data p h0
    exact hb _ o h1 h2 h3 (hother i hi hne ht p h0) ho
  refine ⟨hin, fun i hi hne ht => (hfile i hi hne ht).1, fun i hi hne ht => (hfile i hi hne ht).2,
    fun i hi hne ht p h0 => ?_⟩
  obtain ⟨-, h2, h3⟩ := (hv.whole i hi ht).data p h0
  exact hu _ h2 h3 (hother i hi hne ht p h0)

theorem Others.graph (h : Others sb a disk disk') (ha : a < sb.ninodes) : Disk.graph sb disk' =
    ⟨Function.update (Disk.graph sb disk).node a (nodeOf sb disk' a),
      Function.update (Disk.graph sb disk).nlink a (nlinkOf sb disk' a)⟩ := by
  have hnode : ∀ i, (Disk.graph sb disk').node i =
    Function.update (Disk.graph sb disk).node a (nodeOf sb disk' a) i := fun i => by
    by_cases hne : i = a
    · rw [hne, Function.update_self, graph_node ha]
    rw [Function.update_of_ne hne]
    by_cases hi : i < sb.ninodes
    · rw [graph_node hi, graph_node hi]
      unfold nodeOf
      rw [h.inode i hi hne]
      split_ifs with h0 h1
      · rfl
      · rw [slots_congr (h.byte i hi hne h0)]
      · rfl
    · exact (if_neg hi).trans (if_neg hi).symm
  have hnlink : ∀ i, (Disk.graph sb disk').nlink i =
    Function.update (Disk.graph sb disk).nlink a (nlinkOf sb disk' a) i := fun i => by
    by_cases hne : i = a
    · rw [hne, Function.update_self, graph_nlink ha]
    rw [Function.update_of_ne hne]
    by_cases hi : i < sb.ninodes
    · rw [graph_nlink hi, graph_nlink hi]
      unfold nlinkOf
      rw [h.inode i hi hne]
    · exact (if_neg hi).trans (if_neg hi).symm
  rw [← funext hnode, ← funext hnlink]

/-- One inode was written. -/
theorem Volume.replace (hv : Volume sb disk) (ho : Others sb a disk disk') (h0 : a ≠ 0) (hr : Reserved sb disk')
    (hnew : (inodeOf sb disk' a).type ≠ 0 → Whole sb disk' (inodeOf sb disk' a) ∧
      ∀ i < sb.ninodes, i ≠ a → (inodeOf sb disk i).type ≠ 0 → ∀ p q, (inodeOf sb disk i).at disk p ≠ 0 →
        (inodeOf sb disk i).at disk p ≠ (inodeOf sb disk' a).at disk' q)
    (hdir : (inodeOf sb disk' a).type = T_DIR → Mapped disk' (inodeOf sb disk' a) ∧
      (inodeOf sb disk' a).size % 16 = 0 ∧
      ∀ n x, ((inodeOf sb disk' a).slots disk').entry n = some x → x.2 < sb.ninodes) : Volume sb disk' := by
  have hdirne : ∀ i, (inodeOf sb disk i).type = T_DIR → (inodeOf sb disk i).type ≠ 0 := fun i e => by
    rw [e]
    decide
  have hsame : ∀ i < sb.ninodes, i ≠ a → (inodeOf sb disk i).type ≠ 0 → ∀ p,
    (inodeOf sb disk' i).at disk' p = (inodeOf sb disk i).at disk p :=
    fun i hi hne ht p => by rw [ho.inode i hi hne, ho.slot i hi hne ht]
  refine ⟨hv.root, hv.numbers, hr, ?_, fun i hi ht => ?_, fun i hi j hj hij hti htj p q hp => ?_, fun i hi ht => ?_,
    fun i hi ht => ?_, fun i hi ht => ?_⟩
  · rw [ho.inode 0 (Nat.lt_trans (by decide) hv.root) (Ne.symm h0)]
    exact hv.zero
  · by_cases hne : i = a
    · subst hne
      exact (hnew ht).1
    · rw [ho.inode i hi hne] at ht ⊢
      have hw := hv.whole i hi ht
      refine ⟨fun p hp => ?_, fun p q hp e => ?_⟩
      · rw [ho.slot i hi hne ht] at hp ⊢
        exact ⟨(hw.data p hp).1, (hw.data p hp).2.1, ho.used i hi hne ht p hp⟩
      · rw [ho.slot i hi hne ht] at hp e
        rw [ho.slot i hi hne ht] at e
        exact hw.apart p q hp e
  · by_cases hne : i = a
    · subst hne
      have hj' := Ne.symm hij
      rw [ho.inode j hj hj'] at htj
      intro e
      rw [hsame j hj hj' htj] at e
      exact (hnew hti).2 j hj hj' htj q p (by rw [← e]; exact hp) e.symm
    · rw [ho.inode i hi hne] at hti
      rw [hsame i hi hne hti] at hp ⊢
      by_cases hje : j = a
      · subst hje
        exact (hnew htj).2 i hi hij hti p q hp
      · rw [ho.inode j hj hje] at htj
        rw [hsame j hj hje htj]
        exact hv.apart i hi j hj hij hti htj p q hp
  · by_cases hne : i = a
    · subst hne
      exact (hdir ht).1
    · rw [ho.inode i hi hne] at ht ⊢
      intro k hk
      rw [ho.slot i hi hne (hdirne i ht)]
      exact hv.mapped i hi ht k hk
  · by_cases hne : i = a
    · subst hne
      exact (hdir ht).2.1
    · rw [ho.inode i hi hne] at ht ⊢
      exact hv.aligned i hi ht
  · by_cases hne : i = a
    · subst hne
      exact (hdir ht).2.2
    · rw [ho.inode i hi hne] at ht ⊢
      rw [slots_congr (ho.byte i hi hne (hdirne i ht))]
      exact hv.entries i hi ht

/-! ## The inode table over it -/

structure Sound (sb : Superblock) (s : St) : Prop where
  table : Table sb s
  volume : Volume sb s.disk

/-- References and locks went by `r` and `l`, and copies stay valid. -/
structure Moved (s s' : St) (r l : Nat → Int) : Prop extends Delta s s' r l where
  valid : ∀ i, 0 < (s.inode i).ref → (s.inode i).valid = true → (s'.inode i).valid = true

/-- Slot `ip` has a reference to inode `i`, and a copy. -/
structure Loaded (s : St) (ip i : Nat) : Prop where
  live : 0 < (s.inode ip).ref
  valid : (s.inode ip).valid = true
  inum : (s.inode ip).inum = i

theorem Calm.moved (h : Calm sb s s' r l) : Moved s s' r l := ⟨h.toDelta, h.valid⟩

theorem Calm.sound (h : Calm sb s s' r l) (hs : Sound sb s) : Sound sb s' := ⟨h.table, h.disk ▸ hs.volume⟩

theorem Loaded.moved (h : Loaded s ip i) (hm : Moved s s' r l) (hr : 0 ≤ r ip) : Loaded s' ip i := by
  have := hm.ref ip
  have := h.live
  exact ⟨by omega, hm.valid ip h.live h.valid, (hm.key ip h.live).2.trans h.inum⟩

theorem Loaded.lt (h : Loaded s ip i) (hs : Sound sb s) : i < sb.ninodes := h.inum ▸ (hs.table.slot ip h.live).2.2

theorem Loaded.copy (h : Loaded s ip i) (hs : Sound sb s) : (s.inode ip).d = inodeOf sb s.disk i :=
  h.inum ▸ (hs.table.copy ip h.live h.valid).1

theorem Loaded.type (h : Loaded s ip i) (hs : Sound sb s) : (inodeOf sb s.disk i).type ≠ 0 :=
  h.copy hs ▸ (hs.table.copy ip h.live h.valid).2

theorem Loaded.pos (h : Loaded s ip i) (hs : Sound sb s) : i ≠ 0 := fun e => h.type hs (e ▸ hs.volume.zero)

theorem Loaded.directory (h : Loaded s dp i) (hs : Sound sb s) (ht : (inodeOf sb s.disk i).type = T_DIR) :
    Directory sb dp s := by
  have hi := h.lt hs
  have hd := h.copy hs
  refine ⟨by rw [hd]; exact ht, h.live, by rw [h.inum]; exact hi, ?_, ?_, ?_, hs.volume.reserved⟩
  · rw [hd]
    exact hs.volume.aligned i hi ht
  · rw [hd]
    exact hs.volume.mapped i hi ht
  · rw [hd]
    exact hs.volume.whole i hi (h.type hs)

theorem Loaded.slots (h : Loaded s dp i) (hs : Sound sb s) : s.slots dp = (inodeOf sb s.disk i).slots s.disk := by
  unfold St.slots
  rw [h.copy hs]

theorem Sound.ilock (hs : Sound sb s) (e : ilock sb ip s = .ok s') : Calm sb s s' 0 (one ip) ∧
    Loaded s' ip (s.inode ip).inum := by
  obtain ⟨hc, hv, hp⟩ := calm_ilock hs.table e
  have hp0 : 0 < (s.inode ip).ref := by
    have h : (s'.inode ip).ref = (s.inode ip).ref + 0 := hc.ref ip
    omega
  exact ⟨hc, hp, hv, (hc.key ip hp0).2⟩

/-! ## The writes -/

/-- iupdate of numbers that are not about the content. -/
theorem Sound.counts (hl : Layout sb) (hs : Sound sb s) (hp : Loaded s ip i) (major minor n : UInt16) :
    let s' := iupdate sb ip (s.setD ip { (s.inode ip).d with major := major, minor := minor, nlink := n })
    Sound sb s' ∧ Moved s s' 0 0 ∧ graph sb s'.disk =
      ⟨(graph sb s.disk).node, Function.update (graph sb s.disk).nlink i n⟩ := by
  intro s'
  have hi := hp.lt hs
  have ht := hp.type hs
  have hw := hs.volume.whole i hi ht
  have hd := hp.copy hs
  have hf0 : (inodeOf sb s.disk i).Fits := loadDinode_fits _ _
  have hf : ({ (s.inode ip).d with major := major, minor := minor, nlink := n } : Dinode).Fits := by
    rw [hd]
    exact ⟨hf0.size, hf0.addrs⟩
  have ht' : ({ (s.inode ip).d with major := major, minor := minor, nlink := n } : Dinode).type ≠ 0 := by
    rw [hd]
    exact ht
  obtain ⟨htab, hin⟩ := hs.table.iupdate hp.live hf ht'
  obtain ⟨hb, hu⟩ := iupdate_beside hl hs.table hp.live hf ht'
  rw [hp.inum] at hin hb
  have hq : Quiet s s' := (quiet_setD _ _ _).trans (iupdate_quiet _ _)
  have hvalid : ∀ k, (s'.inode k).valid = (s.inode k).valid := fun k => by
    show ((s.setD ip _).inode k).valid = _
    unfold St.setD
    by_cases hk : k = ip
    · rw [hk, setInode_self]
    · rw [setInode_ne hk]
  have ho := hs.volume.others hi hb.inode (fun c o h1 h2 h3 _ ho => hb.block c o h1 h2 h3 ho) fun c hc h3 _ =>
    (hu c hc).trans h3
  -- the content is the same
  have hown : inodeOf sb s'.disk i = { inodeOf sb s.disk i with major := major, minor := minor, nlink := n } := by
    rw [hin, if_pos rfl, hd]
  have hwn : Whole sb s.disk { inodeOf sb s.disk i with major := major, minor := minor, nlink := n } :=
    ⟨hw.data, hw.apart⟩
  obtain ⟨hat, hbyte⟩ := file_congr hwn hb.block
  have hat : ∀ p, (inodeOf sb s'.disk i).at s'.disk p = (inodeOf sb s.disk i).at s.disk p := fun p => by
    rw [hown]
    exact hat p
  have hslots : (inodeOf sb s'.disk i).slots s'.disk = (inodeOf sb s.disk i).slots s.disk := by
    rw [hown]
    exact slots_congr hbyte
  have htype : (inodeOf sb s'.disk i).type = (inodeOf sb s.disk i).type := by rw [hown]
  have hsize : (inodeOf sb s'.disk i).size = (inodeOf sb s.disk i).size := by rw [hown]
  refine ⟨⟨htab, hs.volume.replace ho (hp.pos hs)
    (fun c hc => (hu c (Nat.lt_of_lt_of_le hc hl.data)).trans (hs.volume.reserved c hc)) (fun _ => ⟨?_, ?_⟩)
    fun hdir => ?_⟩,
    ⟨hq.delta, fun k _ hv => (hvalid k).trans hv⟩, ?_⟩
  · refine ⟨fun p h0 => ?_, fun p q h0 e => ?_⟩
    · rw [hat] at h0 ⊢
      obtain ⟨h1, h2, h3⟩ := hw.data p h0
      exact ⟨h1, h2, (hu _ h2).trans h3⟩
    · rw [hat] at h0 e
      rw [hat] at e
      exact hw.apart p q h0 e
  · intro j hj hne htj p q h0
    rw [hat]
    exact hs.volume.apart j hj i hi hne htj ht p q h0
  · rw [htype] at hdir
    rw [hsize, hslots]
    refine ⟨fun k hk => ?_, hs.volume.aligned i hi hdir, hs.volume.entries i hi hdir⟩
    rw [hsize] at hk
    rw [hat]
    exact hs.volume.mapped i hi hdir k hk
  · rw [ho.graph hi]
    have hnode : nodeOf sb s'.disk i = nodeOf sb s.disk i := by
      unfold nodeOf
      rw [htype, hslots]
    rw [hnode, ← graph_node hi, Function.update_eq_self, nlinkOf_eq (by rw [htype]; exact ht), hown]

theorem Loaded.nlink (h : Loaded s ip i) (hs : Sound sb s) : (s.inode ip).d.nlink = (graph sb s.disk).nlink i := by
  rw [graph_nlink (h.lt hs), nlinkOf_eq (h.type hs), h.copy hs]

/-- A link count changed. -/
theorem Sound.setNlink (hl : Layout sb) (hs : Sound sb s) (hp : Loaded s ip i) (f : UInt16 → UInt16) :
    let s' := iupdate sb ip (s.setNlink ip f)
    Sound sb s' ∧ Moved s s' 0 0 ∧
      graph sb s'.disk = ⟨(graph sb s.disk).node,
        Function.update (graph sb s.disk).nlink i (f ((graph sb s.disk).nlink i))⟩ := by
  rw [← hp.nlink hs]
  exact hs.counts hl hp (s.inode ip).d.major (s.inode ip).d.minor (f (s.inode ip).d.nlink)

/-- An entry written. -/
theorem Sound.entered (hl : Layout sb) (hs : Sound sb s) (hp : Loaded s dp i) {t : Entries}
    (ht : (graph sb s.disk).node i = .dir t) {bs : List UInt8}
    (hlen : bs.length = 16) (hn : n ≤ t.size) (hx : ∀ x, (dirent bs).slot = some x → x.2 < sb.ninodes)
    (e : writei sb (kernelBytes bs) dp 0 (16 * n) 16 s = .ok (16, s')) : Sound sb s' ∧ Moved s s' 0 0 ∧
      graph sb s'.disk = ⟨Function.update (graph sb s.disk).node i (.dir (t.put n (dirent bs).slot)),
        (graph sb s.disk).nlink⟩ := by
  have hi := hp.lt hs
  obtain ⟨htype, rfl⟩ := type_of_node hi ht
  have hdir := hp.directory hs htype
  rw [← hp.slots hs] at hn ⊢
  obtain ⟨hdir', hslots, -, w⟩ := hdir.put hl hlen hn e
  have hsize : (s'.inode dp).d.size < 2 ^ 32 := Nat.lt_of_le_of_lt hdir'.size_le (by decide)
  have har := w.around hl hdir.inum hsize
  obtain ⟨hown, hin, hblock⟩ := har
  rw [hp.inum] at hown hin
  have hat0 : ∀ p, s.at dp p = (inodeOf sb s.disk i).at s.disk p := fun p => by
    unfold St.at
    rw [hp.copy hs]
  have hu : ∀ c < sb.size, used sb s.disk c = true → used sb s'.disk c = true := fun c hc => w.used hl hdir.inum hc
  have ho :=
    hs.volume.others hi hin (fun c o h1 h2 h3 hne ho =>
      hblock c o h1 h2 h3 (fun p => by rw [hat0]; exact hne (hp.type hs) p) ho) fun c hc h3 _ => hu c hc h3
  -- the slots of the table are the same, but for the copy in `dp`
  have hother : ∀ k, k ≠ dp → s'.inode k = s.inode k := fun k hk => by rw [w.inode, Function.update_of_ne hk]
  have hself : s'.inode dp = { s.inode dp with d := (s'.inode dp).d } := by
    conv_lhs => rw [w.inode, Function.update_self]
  have hquiet : Quiet s s' := by
    refine ⟨fun k => ?_, fun k => ?_, fun k => ?_, fun k => ?_⟩ <;>
    · by_cases hk : k = dp
      · rw [hk, hself]
      · rw [hother k hk]
  have hvalid : ∀ k, (s'.inode k).valid = (s.inode k).valid := fun k => by
    by_cases hk : k = dp
    · rw [hk, hself]
    · rw [hother k hk]
  have htab : Table sb s' := by
    refine ⟨fun k => ?_, fun k hk => ?_, fun k k' hk hk' e => ?_, fun k hk hv => ?_⟩
    · rw [hquiet.ref]
      exact hs.table.ref k
    · rw [hquiet.ref] at hk
      rw [hquiet.dev, hquiet.inum]
      exact hs.table.slot k hk
    · rw [hquiet.ref] at hk hk'
      rw [hquiet.inum, hquiet.inum] at e
      exact hs.table.apart k k' hk hk' e
    · rw [hquiet.ref] at hk
      rw [hquiet.inum]
      by_cases he : k = dp
      · rw [he, hp.inum, hown]
        exact ⟨rfl, by rw [hdir'.type]; decide⟩
      · rw [hother k he] at hv ⊢
        rw [hin _ (hs.table.slot k hk).2.2 fun h => he (hs.table.apart k dp hk hp.live (h.trans hp.inum.symm))]
        exact hs.table.copy k hk hv
  have hslots' : (inodeOf sb s'.disk i).slots s'.disk = (s.slots dp).put n (dirent bs).slot := by
    rw [hown]
    exact hslots
  refine ⟨⟨htab, hs.volume.replace ho (hp.pos hs) hdir'.reserved (fun _ => ⟨?_, ?_⟩) fun _ => ⟨?_, ?_, ?_⟩⟩,
    ⟨hquiet.delta, fun k _ hv => (hvalid k).trans hv⟩, ?_⟩
  · rw [hown]
    exact hdir'.whole
  · intro j hj hne htj p q h0 e'
    have hused := ((hs.volume.whole j hj htj).data p h0).2.2
    refine writei_apart hl hdir.whole hs.volume.reserved hdir.inum (kernelBytes_source (by decide) hlen) (by decide)
      (by decide) ?_ (Nat.le_refl 16) e
      (by decide) hused h0 (fun p' e => ?_) q ?_
    · have h1 : n ≤ (s.inode dp).d.size / 16 := hn
      have h2 := hdir.size_le
      simp only [MAXFILE, NINDIRECT2, NDIRECT, NINDIRECT, BSIZE] at h2
      omega
    · rw [hat0] at e
      exact hs.volume.apart j hj i hi hne htj (hp.type hs) p p' h0 e.symm
    · unfold St.at
      rw [← hown]
      exact e'.symm
  · rw [hown]
    exact hdir'.mapped
  · rw [hown]
    exact hdir'.aligned
  · intro m x hm
    rw [hslots'] at hm
    by_cases hmn : m = n
    · rw [hmn, Slots.put_self] at hm
      exact hx x hm
    · rw [Slots.put_ne hmn, hp.slots hs] at hm
      exact hs.volume.entries i hi htype m x hm
  · have htype : (inodeOf sb s'.disk i).type = T_DIR := by
      rw [hown]
      exact hdir'.type
    have hnlink : nlinkOf sb s'.disk i = (graph sb s.disk).nlink i := by
      rw [nlinkOf_eq (by rw [htype]; decide), graph_nlink hi, nlinkOf_eq (hp.type hs), hown, w.head]
      show (s.inode dp).d.nlink = _
      rw [hp.copy hs]
    rw [ho.graph hi, nodeOf_dir htype, hslots', hnlink, Function.update_eq_self]

/-- dirlink of a name that was not there. -/
theorem Sound.dirlink (hl : Layout sb) (hs : Sound sb s) (hp : Loaded s dp i) {t : Entries}
    (ht : (graph sb s.disk).node i = .dir t) (h1 : a ≠ 0)
    (h2 : a < sb.ninodes) {x : Int} (hx : ¬ x < 0) (e : Disk.dirlink sb dp name a s = .ok (x, s')) :
      t.lookup (key name) = none ∧ Sound sb s' ∧
      Moved s s' 0 0 ∧
        graph sb s'.disk = ⟨Function.update (graph sb s.disk).node i (.dir (t.put t.free (some (key name, a)))),
        (graph sb s.disk).nlink⟩ := by
  obtain ⟨htype, rfl⟩ := type_of_node (hp.lt hs) ht
  have hdir := hp.directory hs htype
  have hslots := hp.slots hs
  have h16 : a ≤ 65535 := Nat.le_of_lt_succ (Nat.lt_of_lt_of_le h2 hs.volume.numbers)
  have hpos : 1 ≤ a := Nat.one_le_iff_ne_zero.mpr h1
  obtain ⟨hnone, -⟩ := hdir.dirlink_added hl hpos h16 hx e
  have hslot : (dirent (Dirent.bytes ⟨UInt16.ofNat a, name⟩)).slot = some (key name, a) := slot_bytes hpos h16 name
  rw [hdir.dirlink_enter a hnone, hslots] at e
  obtain ⟨⟨y, s1⟩, e1, e⟩ := bind_ok e
  dsimp only at e
  split at e
  · cases e
  rename_i hy
  cases e
  rw [not_not.mp hy] at e1
  obtain ⟨hs', hm, hg⟩ := hs.entered hl hp ht (Dirent.bytes_length _) (Slots.free_le _) (fun z hz => by
    rw [hslot] at hz
    cases hz
    exact h2) e1
  rw [hslot] at hg
  exact ⟨hslots ▸ hnone, hs', hm, hg⟩

theorem blank_slots (type : UInt16) (disk : Mem) : (blank type).slots disk = ⟨0, fun _ => none, fun _ _ => rfl⟩ := by
  have hsize : ((blank type).slots disk).size = 0 := Nat.zero_div 16
  refine Slots.ext_entry hsize fun i h => ?_
  rw [hsize] at h
  exact absurd h (Nat.not_lt_zero i)

theorem blank_at (type : UInt16) (disk : Mem) (p : Slot) : (blank type).at disk p = 0 := by
  cases p <;> rfl

theorem ialloc_others {dev sp : Nat} {type : UInt16} {s2 : St} (e2 : ialloc sb dev type s = .ok (sp, s2))
    (e3 : ilock sb sp s2 = .ok s') {k : Nat} (hk : k ≠ sp) : s'.inode k = s.inode k := by
  have h3 : s'.inode k = s2.inode k := by
    unfold ilock at e3
    dsimp only at e3
    split_ifs at e3 <;> cases e3 <;> exact setInode_ne hk _ _
  have h2 : s2.inode k = s.inode k := by
    unfold ialloc at e2
    split at e2
    · cases e2
    · obtain ⟨x, rfl, -⟩ := iget_some e2
      exact setInode_ne hk _ _
  rw [h3, h2]

/-- A new inode, locked. -/
theorem Sound.ialloc (hl : Layout sb) (hs : Sound sb s)
    (halloc : ∀ k, 0 < (s.inode k).ref → (inodeOf sb s.disk (s.inode k).inum).type ≠ 0)
    {sp : Nat} {type : UInt16} {s2 : St} (e2 : Disk.ialloc sb ROOTDEV type s = .ok (sp, s2))
    (e3 : Disk.ilock sb sp s2 = .ok s') :
    ∃ a, a < sb.ninodes ∧ (graph sb s.disk).node a = .free ∧ Sound sb s' ∧ Moved s s' (one sp) (one sp) ∧
      Loaded s' sp a ∧
      inodeOf sb s'.disk a = blank type ∧ graph sb s'.disk =
        ⟨Function.update (graph sb s.disk).node a (nodeOf sb s'.disk a),
        Function.update (graph sb s.disk).nlink a 0⟩ := by
  obtain ⟨a, hnew⟩ := ialloc_fresh hl hs.table rfl halloc e2 e3
  have hpos : a ≠ 0 := Nat.one_le_iff_ne_zero.mp hnew.pos
  have hlive : 0 < (s'.inode sp).ref := by
    rw [hnew.ref]
    decide
  have hblank : inodeOf sb s'.disk a = blank type := by
    rw [← hnew.d, (hnew.table.copy sp hlive hnew.valid).1, hnew.key]
  have ho := hs.volume.others hnew.lt hnew.beside.inode (fun c o h1 h2 h3 _ ho => hnew.beside.block c o h1 h2 h3 ho)
    fun c hc h3 _ => (hnew.bits c hc).trans h3
  have hr : ∀ k, 0 < (s.inode k).ref → k ≠ sp := fun k hk e => by
    have h1 : (s'.inode sp).ref = (s.inode sp).ref + (one sp sp + 0) := hnew.delta.ref sp
    rw [hnew.ref, one_self] at h1
    rw [e] at hk
    omega
  have hmoved : Moved s s' (one sp) (one sp) :=
    ⟨hnew.delta.congr (fun k => Int.add_zero _) fun k => Int.zero_add _, fun k hk hv => by
    rw [ialloc_others e2 e3 (hr k hk)]
    exact hv⟩
  refine ⟨a, hnew.lt, (node_free hnew.lt).mpr hnew.free,
    ⟨hnew.table, hs.volume.replace ho hpos ?_ (fun _ => ⟨?_, ?_⟩) fun _ => ⟨?_, ?_, ?_⟩⟩, hmoved,
    ⟨hlive, hnew.valid, hnew.key⟩, hblank, ?_⟩
  · exact fun c hc => (hnew.bits c (Nat.lt_of_lt_of_le hc hl.data)).trans (hs.volume.reserved c hc)
  · rw [hblank]
    exact ⟨fun p h => absurd (blank_at type _ p) h, fun p q h => absurd (blank_at type _ p) h⟩
  · intro j hj hne htj p q h0
    rw [hblank, blank_at]
    exact h0
  · rw [hblank]
    exact fun k hk => absurd hk (Nat.not_lt_zero k)
  · rw [hblank]
    rfl
  · rw [hblank, blank_slots]
    intro n x h
    cases h
  · have hzero : nlinkOf sb s'.disk a = 0 := by
      unfold nlinkOf
      rw [hblank]
      exact ite_self 0
    rw [ho.graph hnew.lt, hzero]

/-- The inode goes with its last reference. -/
theorem Sound.freed (hl : Layout sb) (hs : Sound sb s) (hp : Loaded s ip i) (href : (s.inode ip).ref = 1)
    (hn : (inodeOf sb s.disk i).nlink = 0)
    (e : iput sb ip s = .ok s') : Sound sb s' ∧ graph sb s'.disk = (graph sb s.disk).drop i := by
  have hi := hp.lt hs
  have hw : Whole sb s.disk (s.inode ip).d := by
    rw [hp.copy hs]
    exact hs.volume.whole i hi (hp.type hs)
  have hn' : (s.inode ip).d.nlink = 0 := by
    rw [hp.copy hs]
    exact hn
  have h12 : (s.inode ip).d.addrs 12 = 0 := by
    unfold iput ifree at e
    rw [if_pos ⟨href, hp.valid, hn'⟩] at e
    obtain ⟨s1, e1, -⟩ := bind_ok e
    split at e1
    · cases e1
    obtain ⟨s2, e2, -⟩ := bind_ok e1
    have h := itrunc_single (by rw [setInode_self]; exact hw) e2
    rwa [setInode_self] at h
  obtain ⟨htab, hb, htype, hbits⟩ := iput_frees hl hs.table href hp.valid hn' hw h12 e
  rw [hp.inum] at hb htype
  rw [hp.copy hs] at hbits
  have ho := hs.volume.others hi hb.inode (fun c o h1 h2 h3 _ ho => hb.block c o h1 h2 h3 ho) fun c hc h3 hne =>
    (hbits c hc).mpr ⟨h3, fun hown => hown.2.elim (hne (hp.type hs))⟩
  refine ⟨⟨htab, hs.volume.replace ho (hp.pos hs) (fun c hc => ?_) (fun h => absurd htype h) fun h => ?_⟩, ?_⟩
  · refine (hbits c (Nat.lt_of_lt_of_le hc hl.data)).mpr ⟨hs.volume.reserved c hc, ?_⟩
    rintro ⟨h0, p, e⟩
    have := ((hs.volume.whole i hi (hp.type hs)).data p (by rw [e]; exact h0)).1
    omega
  · rw [htype] at h
    exact absurd h (by decide)
  · have hnode : nodeOf sb s'.disk i = .free := if_pos htype
    have hzero : nlinkOf sb s'.disk i = (graph sb s.disk).nlink i := by
      rw [graph_nlink hi, nlinkOf_eq (hp.type hs), hn]
      exact if_pos htype
    rw [ho.graph hi, hnode, hzero, Function.update_eq_self]
    rfl

end

end Xv6Labs.Fs.Disk
