/-
  Xv6Labs.Fs.Refines — sys_link, sys_unlink and sys_mkdir on the graph.

  `Consistent`: the state between two calls. A call that returns has written its operation of the
  graph, or nothing if it failed; the references that it took are back. That an inode goes with
  the last reference is possible for the inode that sys_unlink unlinks, and for no other.

  - `sys_link_graph`, `sys_unlink_graph`, `sys_mkdir_graph`: what each of them does.
-/

import Xv6Labs.Fs.Links

namespace Xv6Labs.Fs.Disk

open Lib
open Ftable (one one_self one_ne one_nonneg)

section

variable {sb : Superblock} {s s' s0 s1 : St} {ip dp cwd a i n : Nat} {r l r' l' : Nat → Int} {disk disk' : Mem}
    {name : List UInt8}

/-! ## Between two calls -/

/-- Somebody holds a reference to inode `i`. -/
def InUse (s : St) (i : Nat) : Prop := ∃ k, 0 < (s.inode k).ref ∧ (s.inode k).inum = i

structure Consistent (sb : Superblock) (s : St) : Prop extends Sound sb s where
  sane : (graph sb s.disk).Sane sb.ninodes (InUse s)

theorem inUse_congr (h : Delta s s' 0 0) : InUse s' = InUse s := by
  have href : ∀ k, (s'.inode k).ref = (s.inode k).ref := fun k => (h.ref k).trans (Int.add_zero _)
  funext i
  refine propext ⟨?_, ?_⟩
  · rintro ⟨k, hk, e⟩
    rw [href] at hk
    exact ⟨k, hk, (h.key k hk).2.symm.trans e⟩
  · rintro ⟨k, hk, e⟩
    exact ⟨k, by rw [href]; exact hk, (h.key k hk).2.trans e⟩

theorem Consistent.alloc (h : Consistent sb s) (k : Nat) (hk : 0 < (s.inode k).ref) :
    (inodeOf sb s.disk (s.inode k).inum).type ≠ 0 := by
  have hlt := (h.table.slot k hk).2.2
  exact (node_free hlt).not.mp (h.sane.alloc _ hlt ⟨k, hk, rfl⟩)

/-- An inode that nobody holds has links. -/
theorem Consistent.kept (h : Consistent sb s) (hi : i < sb.ninodes) (ht : (inodeOf sb s.disk i).type ≠ 0) :
    0 < short (inodeOf sb s.disk i).nlink ∨ InUse s i := by
  by_cases hb : InUse s i
  · exact Or.inr hb
  · have := h.sane.kept i hi ((node_free hi).not.mpr ht) hb
    rw [graph_nlink hi, nlinkOf_eq ht] at this
    exact Or.inl (by omega)

theorem ne_zero_of_short {x : UInt16} (h : 0 < short x) : x ≠ 0 := fun e => by
  rw [Graph.short_zero.mpr e] at h
  exact absurd h (Int.lt_irrefl 0)

theorem Consistent.spared (h : Consistent sb s) (hi : i < sb.ninodes) : Spared sb s i := by
  by_cases ht : (inodeOf sb s.disk i).type = 0
  · exact Or.inl ht
  · exact Or.inr ((h.kept hi ht).imp ne_zero_of_short id)

theorem Volume.lookup_eq (hv : Volume sb disk) (hi : i < sb.ninodes) (ht : (inodeOf sb disk i).type = T_DIR) :
    lookup sb disk i name = (((inodeOf sb disk i).slots disk).lookup (key name)).map fun x => (x.1, 16 * x.2) :=
  find_slots (hv.aligned i hi ht) _ 0

/-- What a directory has an entry for. -/
theorem Volume.lookup (hv : Volume sb disk) (hi : i < sb.ninodes) (ht : (inodeOf sb disk i).type = T_DIR)
    {x : Nat × Nat} (h : lookup sb disk i name = some x) : x.1 < sb.ninodes := by
  rw [hv.lookup_eq hi ht] at h
  obtain ⟨y, hy, rfl⟩ := Option.map_eq_some_iff.mp h
  exact hv.entries i hi ht _ _ (Slots.find_some hy)

theorem Volume.lookup_none (hv : Volume sb disk) (hi : i < sb.ninodes) {t : Entries}
    (ht : (graph sb disk).node i = .dir t) (h : t.lookup (key name) = none) :
    Disk.lookup sb disk i name = none := by
  obtain ⟨htype, rfl⟩ := type_of_node hi ht
  rw [hv.lookup_eq hi htype, h]
  rfl

theorem resolve_dir {path : List UInt8} (h : resolve sb disk true a path = some (i, name)) :
    (inodeOf sb disk i).type = T_DIR := by
  unfold resolve at h
  exact walk_dir (x := (i, name)) h

theorem Consistent.names (h : Consistent sb s) (hc : 0 < (s.inode cwd).ref) : Names sb cwd s := by
  refine ⟨h.table, hc, h.volume.mapped, fun i hi => ?_⟩
  suffices hlt : i < sb.ninodes from ⟨hlt, h.spared hlt⟩
  induction hi with
  | root => exact h.volume.root
  | start => exact (h.table.slot cwd hc).2.2
  | entry _ ht e ih => exact h.volume.lookup ih ht e

theorem Consistent.settled (h : Consistent sb s) (hc : 0 < (s.inode cwd).ref) : Settled sb cwd s :=
  ⟨h.names hc, h.volume.reserved, h.volume.whole, h.alloc⟩

/-- dirlookup, as the slots have it. -/
theorem Sound.dirlookup (hs : Sound sb s) (hd : Loaded s dp i) {t : Entries} (ht : (graph sb s.disk).node i = .dir t)
    {found : Option (Nat × Nat)}
    (e : Disk.dirlookup sb dp name s = .ok (found, s')) : found = none ∧ s' = s ∨ ∃ ip n a,
      found = some (ip, 16 * n) ∧ t.entry n = some (key name, a) ∧
      a < sb.ninodes ∧ Calm sb s s' (one ip) 0 ∧ (s'.inode ip).inum = a := by
  obtain ⟨htype, rfl⟩ := type_of_node (hd.lt hs) ht
  rw [(hd.directory hs htype).dirlookup_eq, hd.slots hs] at e
  cases hk : ((inodeOf sb s.disk i).slots s.disk).lookup (key name) with
  | none =>
    rw [hk] at e
    cases e
    exact Or.inl ⟨rfl, rfl⟩
  | some y =>
    obtain ⟨a, n⟩ := y
    have hn := Slots.find_some hk
    have ha : a < sb.ninodes := hs.volume.entries i (hd.lt hs) htype n _ hn
    rw [hk] at e
    obtain ⟨⟨ip, s1⟩, e1, e⟩ := bind_ok e
    cases e
    rw [(hs.table.slot dp hd.live).2.1] at e1
    obtain ⟨hc, hin⟩ := calm_iget hs.table ha e1
    exact Or.inr ⟨ip, n, a, rfl, hn, ha, hc, hin⟩

/-! ## References given back -/

theorem Delta.keep (h : Delta s0 s r l) (h' : Delta s s' 0 l') (hr : ∀ k, 0 ≤ r k) : Delta s0 s' r (l + l') :=
  (h.trans h' hr).congr (fun _ => Int.add_zero _) fun _ => rfl

/-- Who took a reference since `s0` puts it, and the inode stays. -/
theorem Sound.iput (hs : Sound sb s) (hd : Delta s0 s r l) (hr : ∀ k, 0 ≤ r k) (hp : Loaded s ip i) (h1 : 1 ≤ r ip)
    (hk : (inodeOf sb s.disk i).nlink ≠ 0 ∨ InUse s0 i) (e : iput sb ip s = .ok s') : Calm sb s s' (-one ip) 0 ∧
      Delta s0 s' (r + -one ip) l := by
  have hc := calm_iput hs.table hp.live (hd.stays hs.table hr h1 (by rw [hp.inum]; exact hk)) e
  exact ⟨hc, (hd.trans hc.toDelta hr).congr (fun _ => rfl) fun _ => Int.add_zero _⟩

theorem Sound.iunlockput (hs : Sound sb s) (hd : Delta s0 s r l) (hr : ∀ k, 0 ≤ r k) (hp : Loaded s ip i)
    (h1 : 1 ≤ r ip) (hk : (inodeOf sb s.disk i).nlink ≠ 0 ∨ InUse s0 i) (e : iunlockput sb ip s = .ok s') :
    Calm sb s s' (-one ip) (-one ip) ∧ Delta s0 s' (r + -one ip) (l + -one ip) := by
  unfold Disk.iunlockput at e
  obtain ⟨s1, e1, e⟩ := bind_ok e
  have hc1 := calm_iunlock hs.table e1
  have hd1 := hd.keep hc1.toDelta hr
  have hp1 := hp.moved hc1.moved (Int.le_refl 0)
  obtain ⟨hc, hd'⟩ := (hc1.sound hs).iput hd1 hr hp1 h1 (by rw [hc1.disk]; exact hk) e
  exact ⟨(hc1.then (fun _ => Int.le_refl 0) hc).congr (fun _ => Int.zero_add _) fun _ => Int.add_zero _, hd'⟩

theorem Loaded.disk_nlink (h : Loaded s ip i) (hs : Sound sb s) :
    (inodeOf sb s.disk i).nlink = (graph sb s.disk).nlink i := by
  rw [← h.nlink hs, h.copy hs]

theorem Consistent.stays (h : Consistent sb s) (hi : i < sb.ninodes) (ht : (inodeOf sb s.disk i).type ≠ 0) :
    0 < short ((graph sb s.disk).nlink i) ∨ InUse s i := by
  rw [graph_nlink hi, nlinkOf_eq ht]
  exact h.kept hi ht

/-! ## The parent -/

/-- nameiparent and ilock have led to the directory `d`. -/
structure Parent (sb : Superblock) (cwd : Nat) (s : St) (path : List UInt8) (dp d : Nat) (name : List UInt8)
    (t : Entries) (s1 : St) : Prop where
  calm : Calm sb s s1 (one dp) (one dp)
  dir : Loaded s1 dp d
  resolves : resolve sb s.disk true (s.inode cwd).inum path = some (d, name)
  node : (graph sb s.disk).node d = .dir t
  named : Named sb s.disk (s.inode cwd).inum (s1.inode dp).inum

theorem parent_of {path : List UInt8} {s2 : St} (hs : Sound sb s) (hN : Names sb cwd s)
    (e1 : nameiparent sb cwd path s = .ok (some (dp, name), s1))
    (e2 : ilock sb dp s1 = .ok s2) : ∃ d t, Parent sb cwd s path dp d name t s2 := by
  obtain ⟨h1, hres, hn⟩ := namex_calm hN e1
  have hn1 : Named sb s.disk (s.inode cwd).inum (s1.inode dp).inum := hn _ rfl
  obtain ⟨hc2, hd2⟩ := (h1.sound hs).ilock e2
  have h2 := (h1.then (one_nonneg dp) hc2).congr (a := one dp) (b := one dp) (fun _ => Int.add_zero _) fun _ =>
    Int.zero_add _
  have hres' : resolve sb s.disk true (s.inode cwd).inum path = some ((s1.inode dp).inum, name) := by
    rw [← hres, Option.map_some]
  refine ⟨_, _, h2, hd2, hres', node_dir (hd2.lt (h2.sound hs)) (resolve_dir hres'), ?_⟩
  rw [hd2.inum]
  exact hn1

/-! ## sys_link -/

/-- The link is taken back. -/
theorem linkBad_graph (hl : Layout sb) (h : Consistent sb s) {t : St} (ht : Sound sb t) (hd : Delta s t (one ip) 0)
    (hi : (t.inode ip).inum = i) (hty : (inodeOf sb s.disk i).type ≠ 0)
    (hg : graph sb t.disk = ⟨(graph sb s.disk).node,
      Function.update (graph sb s.disk).nlink i ((graph sb s.disk).nlink i + 1)⟩)
    {x : Int} (e : linkBad sb ip t = .ok (x, s')) : x = -1 ∧ Sound sb s' ∧ Delta s s' 0 0 ∧
      graph sb s'.disk = graph sb s.disk := by
  unfold linkBad at e
  obtain ⟨t1, e1, e⟩ := bind_ok e
  obtain ⟨t2, e2, e⟩ := bind_ok e
  cases e
  obtain ⟨hc1, hp1⟩ := ht.ilock e1
  rw [hi] at hp1
  have hs1 := hc1.sound ht
  have hd1 := (hd.keep hc1.toDelta (one_nonneg ip)).congr (b := one ip) (fun _ => rfl) fun _ => Int.zero_add _
  obtain ⟨hs2, hm2, hg2⟩ := hs1.setNlink hl hp1 (· - 1)
  generalize iupdate sb ip (t1.setNlink ip (· - 1)) = t3 at e2 hs2 hm2 hg2
  have hback : graph sb t3.disk = graph sb s.disk := by
    rw [hg2, hc1.disk, hg]
    dsimp only
    rw [Function.update_self, Function.update_idem, UInt16.add_sub_cancel, Function.update_eq_self]
  have hp3 := hp1.moved hm2 (Int.le_refl 0)
  have hd3 := (hd1.keep hm2.toDelta (one_nonneg ip)).congr (b := one ip) (fun _ => rfl) fun _ => Int.add_zero _
  have hstay : (inodeOf sb t3.disk i).nlink ≠ 0 ∨ InUse s i := by
    rw [hp3.disk_nlink hs2, hback]
    exact (h.stays (hp3.lt hs2) hty).imp ne_zero_of_short id
  obtain ⟨hc, hd'⟩ := hs2.iunlockput hd3 (one_nonneg ip) hp3 (by rw [one_self]) hstay e2
  exact ⟨rfl, hc.sound hs2, hd'.congr (fun _ => Int.add_right_neg _) fun _ => Int.add_right_neg _, hc.disk ▸ hback⟩

theorem add_one_ne_zero {x : UInt16} (h : 0 < short x) : x + 1 ≠ 0 := fun e => by
  have hx := x.toNat_lt
  have h1 : (x + 1).toNat = 0 := by
    rw [e]
    rfl
  rw [UInt16.toNat_add] at h1
  have h1 : (x.toNat + 1) % 2 ^ 16 = 0 := h1
  unfold short at h
  split_ifs at h <;> omega

/-- A call failed and did nothing, or did what it does. The references are back. -/
structure Returned (sb : Superblock) (s : St) (done : Graph → Prop) (x : Int) (s' : St) : Prop where
  sound : Sound sb s'
  delta : Delta s s' 0 0
  graph : x = -1 ∧ graph sb s'.disk = graph sb s.disk ∨ x = 0 ∧ done (graph sb s'.disk)

/-- The rest of sys_link, with the link counted. -/
theorem linkTo_graph (hl : Layout sb) (h : Consistent sb s) {s4 : St} (hN4 : Names sb cwd s4) (hs4 : Sound sb s4)
    (hd4 : Delta s s4 (one ip) 0) (hp4 : Loaded s4 ip i)
    (hty : (inodeOf sb s.disk i).type ≠ 0) (hfile : (inodeOf sb s.disk i).type ≠ T_DIR)
    (hg4 : graph sb s4.disk = ⟨(graph sb s.disk).node,
      Function.update (graph sb s.disk).nlink i ((graph sb s.disk).nlink i + 1)⟩)
    {new : List UInt8} {x : Int} (e : linkTo sb cwd ip new s4 = .ok (x, s')) :
    Returned sb s ((graph sb s.disk).LinkStep sb.ninodes i) x s' := by
  have hi := hp4.lt hs4
  -- from here on calls that leave the disk alone may fail
  have hbad : ∀ {t y}, Calm sb s4 t 0 0 → linkBad sb ip t = .ok (y, s') →
    Returned sb s ((graph sb s.disk).LinkStep sb.ninodes i) y s' := fun {t y} hc e => by
    have hd := hd4.keep hc.toDelta (one_nonneg ip)
    obtain ⟨hx, hs', hd', hg'⟩ := linkBad_graph hl h (hc.sound hs4) hd ((hc.key ip hp4.live).2.trans hp4.inum) hty
      (by rw [hc.disk]; exact hg4) e
    exact ⟨hs', hd', Or.inl ⟨hx, hg'⟩⟩
  unfold linkTo at e
  obtain ⟨⟨z, s5⟩, e5, e⟩ := bind_ok e
  cases z with
  | none => exact hbad (namex_calm hN4 e5).1 e
  | some f =>
    obtain ⟨dp, nm⟩ := f
    have hdp : 1 ≤ one dp dp := by rw [one_self]
    obtain ⟨s6, e6, e⟩ := bind_ok e
    obtain ⟨d, t, h6, hp6, -, hnd, hn6⟩ := parent_of hs4 hN4 e5 e6
    have hs6 := h6.sound hs4
    have hdlt := hp6.lt hs6
    dsimp only at e
    split at e
    · obtain ⟨s7, e7, e⟩ := bind_ok e
      exact hbad ((hN4.iunlockput h6 (one_nonneg dp) hdp hn6 e7).congr (fun _ => Int.add_right_neg _) fun _ =>
        Int.add_right_neg _) e
    obtain ⟨⟨w, s7⟩, e7, e⟩ := bind_ok e
    obtain ⟨s8, e8, e⟩ := bind_ok e
    dsimp only at e
    split at e
    · rename_i hneg
      have h7 := hN4.dirlink h6 (one_nonneg dp) hp6.live hp6.valid hn6 hneg e7
      have hk7 : (s7.inode dp).inum = (s6.inode dp).inum := ((dirlink_delta e7).key dp hp6.live).2
      exact hbad ((hN4.iunlockput h7 (one_nonneg dp) hdp (by rw [hk7]; exact hn6) e8).congr
        (fun _ => Int.add_right_neg _) fun _ => Int.add_right_neg _) e
    rename_i hpos
    obtain ⟨s9, e9, e⟩ := bind_ok e
    cases e
    have hnd6 : (graph sb s6.disk).node d = .dir t := by
      rw [h6.disk]
      exact hnd
    have hp6i := hp4.moved h6.moved (one_nonneg dp ip)
    rw [hp6i.inum] at e7
    obtain ⟨hnone, hs7, hm7, hg7⟩ := hs6.dirlink hl hp6 hnd6 (hp4.pos hs4) hi hpos e7
    rw [h6.disk, hg4] at hg7
    have hgd : (graph sb s.disk).node d = .dir t := by
      rw [hg4] at hnd
      exact hnd
    have hgi : (graph sb s.disk).node i = .file := node_file hi hty hfile
    have hdi : d ≠ i := fun e => by
      rw [e, hgi] at hgd
      cases hgd
    have hipdp : ip ≠ dp := fun e => hdi (by rw [← hp6.inum, ← e, hp6i.inum])
    have hr7 : ∀ k, 0 ≤ (one ip + one dp) k := fun k => Int.add_nonneg (one_nonneg ip k) (one_nonneg dp k)
    have hd7 : Delta s s7 (one ip + one dp) (one dp) :=
      ((hd4.trans h6.toDelta (one_nonneg ip)).keep hm7.toDelta hr7).congr (fun _ => rfl) fun k => by
        show (0 : Int) + one dp k + 0 = one dp k
        omega
    have hp7 := hp6.moved hm7 (Int.le_refl 0)
    have hdstay : (inodeOf sb s7.disk d).nlink ≠ 0 ∨ InUse s d := by
      rw [hp7.disk_nlink hs7, hg7]
      show Function.update (graph sb s.disk).nlink i _ d ≠ 0 ∨ _
      rw [Function.update_of_ne hdi]
      exact (h.stays hdlt (by rw [(type_of_node hdlt hgd).1]; decide)).imp ne_zero_of_short id
    have hone7 : 1 ≤ (one ip + one dp) dp := by
      show 1 ≤ one ip dp + one dp dp
      rw [one_self, one_ne hipdp.symm]
      decide
    obtain ⟨hc8, hd8⟩ := hs7.iunlockput hd7 hr7 hp7 hone7 hdstay e8
    have hs8 := hc8.sound hs7
    have hp8 := (hp6i.moved hm7 (Int.le_refl 0)).moved hc8.moved (by show 0 ≤ -one dp ip; rw [one_ne hipdp]; decide)
    have hd8' := hd8.congr (a := one ip) (b := 0) (fun k => Int.add_neg_cancel_right _ _) fun k => Int.add_right_neg _
    have histay : (inodeOf sb s8.disk i).nlink ≠ 0 ∨ InUse s i := by
      rw [hp8.disk_nlink hs8, hc8.disk, hg7]
      show Function.update (graph sb s.disk).nlink i _ i ≠ 0 ∨ _
      rw [Function.update_self]
      exact (h.stays hi hty).imp add_one_ne_zero id
    obtain ⟨hc9, hd9⟩ := hs8.iput hd8' (one_nonneg ip) hp8 (by rw [one_self]) histay e9
    refine ⟨hc9.sound hs8, hd9.congr (fun _ => Int.add_right_neg _) fun _ => rfl, Or.inr ⟨rfl, ?_⟩⟩
    rw [hc9.disk, hc8.disk, hg7]
    exact .link hdlt hgd hgi hnone

theorem sys_link_graph (hl : Layout sb) (h : Consistent sb s) (hc : 0 < (s.inode cwd).ref)
    {old new : Option (List UInt8)} {x : Int} (e : sys_link sb cwd old new s = .ok (x, s')) :
    Returned sb s (fun g => ∃ path i name, old = some path ∧ resolve sb s.disk false (s.inode cwd).inum path =
      some (i, name) ∧ i < sb.ninodes ∧
      (graph sb s.disk).LinkStep sb.ninodes i g) x s' := by
  have hN := h.names hc
  have hcalm : ∀ {t}, Calm sb s t 0 0 → Returned sb s (fun g => ∃ path i name, old = some path ∧
      resolve sb s.disk false (s.inode cwd).inum path = some (i, name) ∧ i < sb.ninodes ∧
        (graph sb s.disk).LinkStep sb.ninodes i g) (-1) t :=
    fun hc => ⟨hc.sound h.toSound, hc.toDelta, Or.inl ⟨rfl, by rw [hc.disk]⟩⟩
  unfold sys_link namei at e
  cases old with
  | none =>
    cases e
    exact hcalm (.refl h.table)
  | some old =>
  cases new with
  | none =>
    cases e
    exact hcalm (.refl h.table)
  | some new =>
    obtain ⟨⟨y, s1⟩, e1, e⟩ := bind_ok e
    obtain ⟨⟨z, s1'⟩, e1', e1⟩ := bind_ok e1
    cases e1
    obtain ⟨h1, hres, hn⟩ := namex_calm hN e1'
    cases z with
    | none =>
      cases e
      exact hcalm h1
    | some f =>
      obtain ⟨ip, nm⟩ := f
      have hn1 : Named sb s.disk (s.inode cwd).inum (s1.inode ip).inum := hn _ rfl
      have hone : 1 ≤ one ip ip := by rw [one_self]
      obtain ⟨s2, e2, e⟩ := bind_ok e
      obtain ⟨hc2, hp2⟩ := (h1.sound h.toSound).ilock e2
      have h2 := (h1.then (one_nonneg ip) hc2).congr (a := one ip) (b := one ip) (fun _ => Int.add_zero _) fun _ =>
        Int.zero_add _
      have hs2 := h2.sound h.toSound
      have hn2 : Named sb s.disk (s.inode cwd).inum (s2.inode ip).inum := by
        rw [hp2.inum]
        exact hn1
      dsimp only at e
      split at e
      · obtain ⟨s3, e3, e⟩ := bind_ok e
        cases e
        exact hcalm ((hN.iunlockput h2 (one_nonneg ip) hone hn2 e3).congr (fun _ => Int.add_right_neg _) fun _ =>
          Int.add_right_neg _)
      rename_i hdir
      obtain ⟨s4, e4, e⟩ := bind_ok e
      generalize hi : (s1.inode ip).inum = i at hp2
      have hd2 : (s2.inode ip).d = inodeOf sb s.disk (s2.inode ip).inum := by rw [hp2.copy hs2, h2.disk, hp2.inum]
      have hN4 := (counted hl (h.settled hc) h2 hp2.live hp2.valid hd2 hdir e4).names
      obtain ⟨hs3, hm3, hg3⟩ := hs2.setNlink hl hp2 (· + 1)
      generalize iupdate sb ip (s2.setNlink ip (· + 1)) = s3 at e4 hs3 hm3 hg3
      have hc4 := calm_iunlock hs3.table e4
      have hp4 := (hp2.moved hm3 (Int.le_refl 0)).moved hc4.moved (Int.le_refl 0)
      have hd4 : Delta s s4 (one ip) 0 :=
        ((h2.toDelta.keep hm3.toDelta (one_nonneg ip)).keep hc4.toDelta (one_nonneg ip)).congr (fun _ => rfl)
          fun k => by
        show one ip k + 0 + -one ip k = 0
        omega
      have hty := hp2.type hs2
      rw [h2.disk] at hty hg3
      rw [hd2, hp2.inum] at hdir
      obtain ⟨hs', hd', hg'⟩ := linkTo_graph hl h hN4 (hc4.sound hs3) hd4 hp4 hty hdir (by rw [hc4.disk]; exact hg3) e
      refine ⟨hs', hd', hg'.imp id fun hg => ⟨hg.1, old, i, nm, rfl, ?_, hp2.lt hs2, hg.2⟩⟩
      rw [← hres, Option.map_some, hi]

/-! ## sys_mkdir -/

/-- `.` and `..` go into the first two slots. -/
theorem dots_slots (a d : Nat) (t : Entries) (ht : t = ⟨0, fun _ => none, fun _ _ => rfl⟩) :
    t.put t.free (some (dot, a)) = t.put 0 (some (dot, a)) ∧
      (t.put 0 (some (dot, a))).put (t.put 0 (some (dot, a))).free (some (dotdot, d)) = Graph.fresh a d := by
  subst ht
  constructor <;> rfl

theorem dots_graph (hl : Layout sb) {d : Nat} (hs : Sound sb s) (hd : Loaded s dp d) (ha : Loaded s ip a)
    (hna : (graph sb s.disk).node a = .dir ⟨0, fun _ => none, fun _ _ => rfl⟩) (e : dots sb dp ip s = .ok s') :
      Sound sb s' ∧ Moved s s' 0 0 ∧ graph sb s'.disk =
      ⟨Function.update (graph sb s.disk).node a (.dir (Graph.fresh a d)),
        Function.update (graph sb s.disk).nlink d ((graph sb s.disk).nlink d + 1)⟩ := by
  have hzero : ∀ k, (0 : Int) ≤ (0 : Nat → Int) k := fun _ => Int.le_refl 0
  obtain ⟨hfirst, hsecond⟩ := dots_slots a d _ rfl
  unfold dots at e
  obtain ⟨hs1, hm1, hg1⟩ := hs.setNlink hl hd (· + 1)
  generalize iupdate sb dp (s.setNlink dp (· + 1)) = s1 at e hs1 hm1 hg1
  have hd1 := hd.moved hm1 (Int.le_refl 0)
  have ha1 := ha.moved hm1 (Int.le_refl 0)
  obtain ⟨⟨x, s2⟩, e2, e⟩ := bind_ok e
  rw [ha1.inum] at e2
  dsimp only at e
  split at e
  · cases e
  rename_i hx
  have hna1 : (graph sb s1.disk).node a = .dir ⟨0, fun _ => none, fun _ _ => rfl⟩ := by
    rw [hg1]
    exact hna
  obtain ⟨-, hs2, hm2, hg2⟩ := hs1.dirlink hl ha1 hna1 (ha.pos hs) (ha.lt hs) hx e2
  have hd2 := hd1.moved hm2 (Int.le_refl 0)
  have ha2 := ha1.moved hm2 (Int.le_refl 0)
  obtain ⟨⟨y, s3⟩, e3, e⟩ := bind_ok e
  rw [hd2.inum] at e3
  dsimp only at e
  split at e
  · cases e
  rename_i hy
  cases e
  rw [show key dot = dot from rfl, hfirst] at hg2
  have hna2 : (graph sb s2.disk).node a = .dir
    ((⟨0, fun _ => none, fun _ _ => rfl⟩ : Entries).put 0 (some (dot, a))) := by
    rw [hg2]
    exact Function.update_self ..
  obtain ⟨-, hs3, hm3, hg3⟩ := hs2.dirlink hl ha2 hna2 (hd.pos hs) (hd.lt hs) hy e3
  rw [show key dotdot = dotdot from rfl, hsecond, hg2, hg1] at hg3
  refine ⟨hs3, ⟨(hm1.toDelta.trans hm2.toDelta hzero).trans hm3.toDelta hzero, fun k hk hv => ?_⟩, ?_⟩
  · have h1 := hm1.ref k
    have h2 := hm2.ref k
    have hz : (0 : Nat → Int) k = 0 := rfl
    exact hm3.valid k (by omega) (hm2.valid k (by omega) (hm1.valid k hk hv))
  · rw [hg3, Function.update_idem]

/-- The entries of a new directory. -/
theorem filled_graph (hl : Layout sb) {d : Nat} (hs : Sound sb s) (hd : Loaded s dp d) (ha : Loaded s ip a)
    {type : UInt16} {f : Nat → Node} (hf : (graph sb s.disk).node = Function.update f a
      (if type = T_DIR then .dir ⟨0, fun _ => none, fun _ _ => rfl⟩ else .file))
    (e : (if type = T_DIR then dots sb dp ip s else .ok s) = .ok s') : Sound sb s' ∧ Moved s s' 0 0 ∧
      graph sb s'.disk =
      ⟨Function.update f a (if type = T_DIR then .dir (Graph.fresh a d) else .file),
        if type = T_DIR then Function.update (graph sb s.disk).nlink d ((graph sb s.disk).nlink d + 1) else
          (graph sb s.disk).nlink⟩ := by
  by_cases hdir : type = T_DIR
  · rw [if_pos hdir] at e hf
    rw [if_pos hdir, if_pos hdir]
    obtain ⟨hs1, hm1, hg1⟩ := dots_graph hl hs hd ha (by rw [hf]; exact Function.update_self ..) e
    rw [hf, Function.update_idem] at hg1
    exact ⟨hs1, hm1, hg1⟩
  · rw [if_neg hdir] at e hf
    rw [if_neg hdir, if_neg hdir]
    cases e
    exact ⟨hs, (Calm.refl hs.table).moved, by rw [← hf]⟩

/-- The part of create for a name that is not there. -/
theorem make_graph (hl : Layout sb) (h : Consistent sb s) {s1 : St} (hc1 : Calm sb s s1 (one dp) (one dp)) {d : Nat}
    (hd1 : Loaded s1 dp d) {t : Entries}
    (hnd : (graph sb s.disk).node d = .dir t) {type major minor : UInt16} (ht0 : type ≠ 0) {x : Option Nat}
    (e : make sb dp name type major minor s1 = .ok (x, s')) :
    ∃ ip a, x = some ip ∧ Sound sb s' ∧
      Delta s s' (one ip) (one ip) ∧ Loaded s' ip a ∧ a < sb.ninodes ∧ (graph sb s.disk).node a = .free ∧
        t.lookup (key name) = none ∧
      graph sb s'.disk = (graph sb s.disk).make (type = T_DIR) d t (key name) a := by
  have hs1 := hc1.sound h.toSound
  have hdlt := hd1.lt hs1
  unfold make at e
  obtain ⟨⟨ip, s2⟩, e2, e⟩ := bind_ok e
  obtain ⟨s3, e3, e⟩ := bind_ok e
  rw [(hs1.table.slot dp hd1.live).2.1] at e2
  have halloc : ∀ k, 0 < (s1.inode k).ref → (inodeOf sb s1.disk (s1.inode k).inum).type ≠ 0 := fun k hk => by
    by_cases hkd : k = dp
    · rw [hkd, hd1.inum]
      exact hd1.type hs1
    · have h1 := hc1.ref k
      rw [one_ne hkd] at h1
      have hk0 : 0 < (s.inode k).ref := by omega
      rw [(hc1.key k hk0).2, hc1.disk]
      exact h.alloc k hk0
  obtain ⟨a, halt, hna, hs3, hm3, ha3, hblank, hg3⟩ := hs1.ialloc hl halloc e2 e3
  rw [hc1.disk] at hna hg3
  have hda : d ≠ a := fun e => by
    rw [e, hna] at hnd
    cases hnd
  have hipdp : ip ≠ dp := fun e => hda (by
    have hd3 := hd1.moved hm3 (one_nonneg ip dp)
    rw [← hd3.inum, ← e, ha3.inum])
  have hd3 := hd1.moved hm3 (one_nonneg ip dp)
  have hempty : nodeOf sb s3.disk a = if type = T_DIR then .dir ⟨0, fun _ => none, fun _ _ => rfl⟩ else .file := by
    unfold nodeOf
    rw [hblank, blank_slots]
    exact if_neg ht0
  obtain ⟨hs4, hm4, hg4⟩ := hs3.counts hl ha3 major minor 1
  dsimp only at e
  generalize iupdate sb ip (s3.setD ip { (s3.inode ip).d with major := major, minor := minor, nlink := 1 }) =
    s4 at e hs4 hm4 hg4
  have hd4 := hd3.moved hm4 (Int.le_refl 0)
  have ha4 := ha3.moved hm4 (Int.le_refl 0)
  rw [hg3, hempty] at hg4
  obtain ⟨s5, e5, e⟩ := bind_ok e
  obtain ⟨hs5, hm5, hg5⟩ := filled_graph hl hs4 hd4 ha4 (by rw [hg4]) e5
  have hd5 := hd4.moved hm5 (Int.le_refl 0)
  have ha5 := ha4.moved hm5 (Int.le_refl 0)
  obtain ⟨⟨y, s6⟩, e6, e⟩ := bind_ok e
  rw [ha5.inum] at e6
  dsimp only at e
  split at e
  · cases e
  rename_i hy
  have hnd5 : (graph sb s5.disk).node d = .dir t := by
    rw [hg5]
    dsimp only
    rw [Function.update_of_ne hda, hnd]
  obtain ⟨hnone, hs6, hm6, hg6⟩ := hs5.dirlink hl hd5 hnd5 (ha5.pos hs5) halt hy e6
  have hd6 := hd5.moved hm6 (Int.le_refl 0)
  have ha6 := ha5.moved hm6 (Int.le_refl 0)
  have hgraph : graph sb s6.disk = (graph sb s.disk).make (type = T_DIR) d t (key name) a := by
    rw [hg6, hg5, hg4]
    unfold Graph.make Graph.mkdir Graph.mknod
    dsimp only
    rw [Function.update_idem, Function.update_of_ne hda, Function.update_comm hda]
    by_cases hdir : type = T_DIR
    · rw [if_pos hdir, if_pos hdir, if_pos (decide_eq_true hdir)]
    · rw [if_neg hdir, if_neg hdir, if_neg fun e => hdir (of_decide_eq_true e)]
  obtain ⟨s7, e7, e⟩ := bind_ok e
  cases e
  have hr : ∀ k, 0 ≤ (one dp + one ip) k := fun k => Int.add_nonneg (one_nonneg dp k) (one_nonneg ip k)
  have hdelta : Delta s s6 (one dp + one ip) (one dp + one ip) :=
    ((((hc1.toDelta.trans hm3.toDelta
      (one_nonneg dp)).keep hm4.toDelta hr).keep hm5.toDelta hr).keep hm6.toDelta hr).congr (fun _ => rfl) fun k => by
      show one dp k + one ip k + 0 + 0 + 0 = one dp k + one ip k
      omega
  have hone : 1 ≤ (one dp + one ip) dp := by
    show 1 ≤ one dp dp + one ip dp
    rw [one_self, one_ne hipdp.symm]
    decide
  have hstay : (inodeOf sb s6.disk d).nlink ≠ 0 ∨ InUse s d := by
    rw [hd6.disk_nlink hs6, hgraph]
    have hlinked := h.stays hdlt (by rw [(type_of_node hdlt hnd).1]; decide)
    by_cases hdir : type = T_DIR
    · rw [hdir]
      show Function.update (Function.update (graph sb s.disk).nlink d _) a 1 d ≠ 0 ∨ _
      rw [Function.update_of_ne hda, Function.update_self]
      exact hlinked.imp add_one_ne_zero id
    · rw [Graph.make, if_neg fun e => hdir (of_decide_eq_true e)]
      show Function.update (graph sb s.disk).nlink a 1 d ≠ 0 ∨ _
      rw [Function.update_of_ne hda]
      exact hlinked.imp ne_zero_of_short id
  obtain ⟨hc7, hdelta7⟩ := hs6.iunlockput hdelta hr hd6 hone hstay e7
  refine ⟨ip, a, rfl, hc7.sound hs6, hdelta7.congr (fun k => ?_) fun k => ?_, ha6.moved hc7.moved ?_, halt, hna,
    hnone, by rw [hc7.disk]; exact hgraph⟩
  · show one dp k + one ip k + -one dp k = one ip k
    omega
  · show one dp k + one ip k + -one dp k = one ip k
    omega
  · show 0 ≤ -one dp ip
    rw [one_ne hipdp]
    decide

/-- sys_mkdir and sys_mknod: a type that create does not open. -/
theorem mknode_graph (hl : Layout sb) (h : Consistent sb s) (hc : 0 < (s.inode cwd).ref)
    {args : Option (List UInt8 × UInt16 × UInt16)} {type : UInt16}
    (ht0 : type ≠ 0) (hfile : type ≠ T_FILE) {x : Int} (e : mknode sb cwd args type s = .ok (x, s')) :
    Returned sb s (fun g => ∃ p d name t a, args.map (·.1) = some p ∧
      resolve sb s.disk true (s.inode cwd).inum p = some (d, name) ∧
      lookup sb s.disk d name = none ∧ d < sb.ninodes ∧ a < sb.ninodes ∧ (graph sb s.disk).node d = .dir t ∧
        (graph sb s.disk).node a = .free ∧
      t.lookup (key name) = none ∧ g = (graph sb s.disk).make (type = T_DIR) d t (key name) a) x s' := by
  have hN := h.names hc
  unfold mknode at e
  cases args with
  | none =>
    cases e
    exact ⟨h.toSound, (Calm.refl h.table).toDelta, Or.inl ⟨rfl, rfl⟩⟩
  | some w =>
  obtain ⟨p, major, minor⟩ := w
  obtain ⟨⟨z, s1⟩, e1, e⟩ := bind_ok e
  cases z with
  | none =>
    cases e
    have hcalm := create_calm hN e1
    exact ⟨hcalm.sound h.toSound, hcalm.toDelta, Or.inl ⟨rfl, by rw [hcalm.disk]⟩⟩
  | some ip =>
  obtain ⟨s2, e2, e⟩ := bind_ok e
  cases e
  unfold create at e1
  obtain ⟨⟨f, t1⟩, e3, e1⟩ := bind_ok e1
  cases f with
  | none => cases e1
  | some f =>
  obtain ⟨dp, nm⟩ := f
  obtain ⟨t2, e4, e1⟩ := bind_ok e1
  obtain ⟨d, t, h2, hd2, hres, hnd, -⟩ := parent_of h.toSound hN e3 e4
  obtain ⟨⟨g, t3⟩, e5, e6⟩ := bind_ok e1
  have hs2 := h2.sound h.toSound
  have hdlt := hd2.lt hs2
  rcases hs2.dirlookup hd2 (by rw [h2.disk]; exact hnd) e5 with ⟨rfl, rfl⟩ | ⟨ip', n, a, rfl, -⟩
  · obtain ⟨ip', a, hip, hs', hdelta, hp, halt, hna, hnone, hg⟩ := make_graph hl h h2 hd2 hnd ht0 e6
    cases hip
    have hnlink : (inodeOf sb s1.disk a).nlink = 1 := by
      rw [hp.disk_nlink hs', hg]
      unfold Graph.make
      split <;> exact Function.update_self a 1 _
    have hstay : (inodeOf sb s1.disk a).nlink ≠ 0 ∨ InUse s a := Or.inl (by rw [hnlink]; decide)
    obtain ⟨hc', hd'⟩ := hs'.iunlockput hdelta (one_nonneg ip) hp (by rw [one_self]) hstay e2
    refine ⟨hc'.sound hs', hd'.congr (fun _ => Int.add_right_neg _) fun _ => Int.add_right_neg _,
      Or.inr ⟨rfl, p, d, nm, t, a, rfl, hres, h.volume.lookup_none hdlt hnd hnone, hdlt, halt, hnd, hna, hnone, ?_⟩⟩
    rw [hc'.disk, hg]
  · -- none is made where there is something
    obtain ⟨t4, -, e7⟩ := bind_ok e6
    obtain ⟨t5, -, e8⟩ := bind_ok e7
    split at e8
    · rename_i h1
      exact absurd h1.1 hfile
    · obtain ⟨t6, -, e9⟩ := bind_ok e8
      cases e9

theorem sys_mkdir_graph (hl : Layout sb) (h : Consistent sb s) (hc : 0 < (s.inode cwd).ref)
    {path : Option (List UInt8)} {x : Int} (e : sys_mkdir sb cwd path s = .ok (x, s')) :
    Returned sb s (fun g => ∃ p d name, path = some p ∧ resolve sb s.disk true (s.inode cwd).inum p = some (d, name) ∧
      lookup sb s.disk d name = none ∧
      d < sb.ninodes ∧ (graph sb s.disk).MkdirStep sb.ninodes d g) x s' := by
  obtain ⟨hs', hd', hg⟩ := mknode_graph hl h hc (by decide) (by decide) e
  refine ⟨hs', hd', hg.imp id fun hdone => ?_⟩
  obtain ⟨rfl, p, d, name, t, a, hargs, hres, hnone, hd, ha, hnd, hna, hk, hg⟩ := hdone
  rw [Option.map_map] at hargs
  have hpath : path = some p := by
    cases path with
    | none => cases hargs
    | some q =>
      cases hargs
      rfl
  rw [hg]
  exact ⟨rfl, p, d, name, hpath, hres, hnone, hd, .mkdir hd ha hnd hna hk⟩

theorem sys_mknod_graph (hl : Layout sb) (h : Consistent sb s) (hc : 0 < (s.inode cwd).ref)
    {args : Option (List UInt8 × UInt16 × UInt16)} {x : Int}
    (e : sys_mknod sb cwd args s = .ok (x, s')) : Returned sb s ((graph sb s.disk).MknodStep sb.ninodes) x s' := by
  obtain ⟨hs', hd', hg⟩ := mknode_graph hl h hc (by decide) (by decide) e
  refine ⟨hs', hd', hg.imp id fun hdone => ?_⟩
  obtain ⟨rfl, p, d, name, t, a, -, -, -, hd, ha, hnd, hna, hk, hg⟩ := hdone
  rw [hg]
  exact ⟨rfl, .mknod hd ha hnd hna hk⟩

/-! ## sys_unlink -/

/-- sys_unlink has locked the directory `d` and the inode `i` that entry `n` names. -/
structure Found (sb : Superblock) (s : St) (dp ip d i n : Nat) (t : Entries) (s1 : St) : Prop where
  calm : Calm sb s s1 (one dp + one ip) (one dp + one ip)
  dir : Loaded s1 dp d
  inode : Loaded s1 ip i
  node : (graph sb s.disk).node d = .dir t
  entry : ∃ k, Graph.plain k = true ∧ t.entry n = some (k, i)
  ne : ip ≠ dp

theorem held_le (s : St) (k : Nat) : 0 ≤ held s k ∧ held s k ≤ 1 := by
  unfold held
  split <;> decide

theorem plain_of_names (h1 : sameName name dot = false) (h2 : sameName name dotdot = false) :
    Graph.plain (key name) = true := by
  have hd : key dot = dot := rfl
  have hdd : key dotdot = dotdot := rfl
  refine decide_eq_true ⟨fun e => ?_, fun e => ?_⟩
  · rw [sameName_iff.mpr (e.trans hd.symm)] at h1
    cases h1
  · rw [sameName_iff.mpr (e.trans hdd.symm)] at h2
    cases h2

theorem found_of {d off : Nat} {s2 s3 s4 : St} (hs : Sound sb s) (e2 : ilock sb dp s1 = .ok s2)
    (h2 : Calm sb s s2 (one dp) (one dp)) (hd2 : Loaded s2 dp d) {t : Entries}
    (hnd : (graph sb s.disk).node d = .dir t) (hname : ¬ (sameName name dot || sameName name dotdot) = true)
    (e3 : dirlookup sb dp name s2 = .ok (some (ip, off), s3))
    (e4 : ilock sb ip s3 = .ok s4) : ∃ i n, off = 16 * n ∧ Found sb s dp ip d i n t s4 := by
  rw [Bool.or_eq_true, not_or, Bool.not_eq_true, Bool.not_eq_true] at hname
  have hs2 := h2.sound hs
  rcases hs2.dirlookup hd2 (by rw [h2.disk]; exact hnd) e3 with ⟨h, -⟩ | ⟨ip', n, i, hf, hn, -, hc3, hi⟩
  · cases h
  cases hf
  obtain ⟨hc4, hp4⟩ := (hc3.sound hs2).ilock e4
  rw [hi] at hp4
  have hd4 := (hd2.moved hc3.moved (one_nonneg ip dp)).moved hc4.moved (Int.le_refl 0)
  have hne : ip ≠ dp := fun e => by
    -- the lock of `dp` is held
    have h1 := (held_le s1 dp).1
    have h2 := (ilock_delta e2).lock dp
    have h3 : held s3 dp = held s2 dp + 0 := hc3.lock dp
    have h4 := hc4.lock dp
    have h5 := (held_le s4 dp).2
    rw [e, one_self] at h4
    rw [one_self] at h2
    omega
  have hr : ∀ k, 0 ≤ (one dp + one ip) k := fun k => Int.add_nonneg (one_nonneg dp k) (one_nonneg ip k)
  refine ⟨i, n, rfl, ⟨((h2.then (one_nonneg dp) hc3).then hr hc4).congr (fun k => Int.add_zero _) fun k => ?_, hd4,
    hp4, hnd, ⟨_, plain_of_names hname.1 hname.2, hn⟩, hne⟩⟩
  show one dp k + 0 + one ip k = one dp k + one ip k
  omega

/-- The panic of sys_unlink is not for a linked inode. -/
theorem Found.pos {d : Nat} {t : Entries} (hf : Found sb s dp ip d i n t s1) (h : Consistent sb s) :
    1 ≤ short (s1.inode ip).d.nlink := by
  have hs1 := hf.calm.sound h.toSound
  obtain ⟨k, hk, he⟩ := hf.entry
  rw [hf.inode.nlink hs1, hf.calm.disk]
  exact (h.sane.linked (hf.dir.lt hs1) hf.node he hk (hf.inode.lt hs1)).2

theorem isdirempty_true (h : Directory sb dp s) : ∀ n i, (s.slots dp).size < i + n →
    isdirempty sb dp n (16 * i) s = .ok (true, s') →
    ∀ j, i ≤ j → (s.slots dp).entry j = none := by
  intro n
  induction n with
  | zero => exact fun i hi _ j hj => (s.slots dp).beyond j (by omega)
  | succ n ih =>
    intro i hi e j hj
    unfold isdirempty at e
    have hal := h.aligned
    by_cases hlt : i < (s.slots dp).size
    · have hlt' : i < (s.inode dp).d.size / 16 := hlt
      obtain ⟨bs, eb, hlen, hde⟩ := h.readi_eq hlt
      rw [if_pos (by omega), eb, ok_bind] at e
      dsimp only at e
      rw [if_neg (not_not.mpr hlen), hde] at e
      split at e
      · cases e
      rename_i hz
      by_cases hij : j = i
      · rw [hij]
        exact (slots_entry hlt).trans (slot_none.mpr (not_not.mp hz))
      · exact ih (i + 1) (by omega) e j (by omega)
    · exact (s.slots dp).beyond j (by omega)

/-- An empty directory, or none. -/
theorem busy_false (hs : Sound sb s) (hp : Loaded s ip i)
    (hdots : ∀ t, (graph sb s.disk).node i = .dir t → Graph.Dots t)
    (e : busy sb ip s = .ok (false, s')) : Graph.BareNode ((graph sb s.disk).node i) := by
  intro t ht
  obtain ⟨htype, rfl⟩ := type_of_node (hp.lt hs) ht
  unfold busy at e
  rw [if_pos (by rw [hp.copy hs]; exact htype)] at e
  obtain ⟨⟨x, s1⟩, e1, e2⟩ := bind_ok e
  have hx : x = true := by
    cases x with
    | true => rfl
    | false => cases e2
  rw [hx] at e1
  have hsize : (s.slots ip).size = (s.inode ip).d.size / 16 := rfl
  refine Graph.bare_of_empty (hdots _ ht) fun j hj => ?_
  rw [← hp.slots hs]
  exact isdirempty_true (hp.directory hs htype) _ 2 (by omega) e1 j hj

/-- The last reference goes, or the inode stays. -/
theorem put_unlinked (hl : Layout sb) (hs : Sound sb s) (hd : Delta s0 s (one ip) (one ip)) (hp : Loaded s ip i)
    (e : iunlockput sb ip s = .ok s') :
    Sound sb s' ∧ Delta s0 s' 0 0 ∧ ((InUse s0 i ∨ (graph sb s.disk).nlink i ≠ 0) ∧
      graph sb s'.disk = graph sb s.disk ∨
      ¬ InUse s0 i ∧ (graph sb s.disk).nlink i = 0 ∧ graph sb s'.disk = (graph sb s.disk).drop i) := by
  have hd' : Delta s0 s' 0 0 := (hd.trans (iunlockput_delta e) (one_nonneg ip)).congr (fun _ => Int.add_right_neg _)
    fun _ => Int.add_right_neg _
  by_cases hk : (inodeOf sb s.disk i).nlink ≠ 0 ∨ InUse s0 i
  · obtain ⟨hc, -⟩ := hs.iunlockput hd (one_nonneg ip) hp (by rw [one_self]) hk e
    rw [hp.disk_nlink hs] at hk
    exact ⟨hc.sound hs, hd', Or.inl ⟨hk.symm, by rw [hc.disk]⟩⟩
  · rw [not_or, not_not] at hk
    unfold iunlockput at e
    obtain ⟨s1, e1, e2⟩ := bind_ok e
    have hc1 := calm_iunlock hs.table e1
    have hp1 := hp.moved hc1.moved (Int.le_refl 0)
    have href : (s1.inode ip).ref = 1 := by
      have h1 := hd.ref ip
      have h2 : (s1.inode ip).ref = (s.inode ip).ref + 0 := hc1.ref ip
      rw [one_self] at h1
      have h3 : ¬ 0 < (s0.inode ip).ref := fun h0 => hk.2 ⟨ip, h0, (hd.key ip h0).2.symm.trans hp.inum⟩
      have h4 := hp1.live
      omega
    obtain ⟨hs', hg⟩ := (hc1.sound hs).freed hl hp1 href (by rw [hc1.disk]; exact hk.1) e2
    rw [hc1.disk] at hg
    exact ⟨hs', hd', Or.inr ⟨hk.2, by rw [← hp.disk_nlink hs]; exact hk.1, hg⟩⟩

theorem remove_graph (hl : Layout sb) (h : Consistent sb s) {d : Nat} {t : Entries} (hf : Found sb s dp ip d i n t s1)
    (hbare : Graph.BareNode ((graph sb s.disk).node i)) {x : Int} (e : remove sb dp ip (16 * n) s1 = .ok (x, s')) :
    Returned sb s ((graph sb s.disk).UnlinkStep sb.ninodes (InUse s)) x s' := by
  have hs1 := hf.calm.sound h.toSound
  have hdlt := hf.dir.lt hs1
  have hilt := hf.inode.lt hs1
  have hid : i ≠ d :=
    fun e => hf.ne (hs1.table.apart ip dp hf.inode.live hf.dir.live (by rw [hf.inode.inum, hf.dir.inum, e]))
  obtain ⟨k, hk, hn⟩ := hf.entry
  have hU : Graph.Unlinks (graph sb s.disk) sb.ninodes d t n i := ⟨hdlt, hf.node, ⟨k, hk, hn⟩, hilt, hid, hbare⟩
  have hslot : (dirent (List.replicate 16 0)).slot = none := rfl
  unfold remove at e
  obtain ⟨⟨r, s2⟩, e2, e3⟩ := bind_ok e
  dsimp only at e3
  split at e3
  · cases e3
  rename_i hr
  rw [not_not.mp hr] at e2
  obtain ⟨hs2, hm2, hg2⟩ := hs1.entered hl hf.dir (by rw [hf.calm.disk]; exact hf.node) List.length_replicate
    (Nat.le_of_lt (Slots.lt_of_entry hn))
    (fun z hz => by rw [hslot] at hz; cases hz) e2
  rw [hslot, hf.calm.disk] at hg2
  have hd2 := hf.dir.moved hm2 (Int.le_refl 0)
  have hi2 := hf.inode.moved hm2 (Int.le_refl 0)
  have hzero : ∀ k, (0 : Int) ≤ (0 : Nat → Int) k := fun _ => Int.le_refl 0
  obtain ⟨s3, e3', hs3, hm3, hg3⟩ : ∃ s3,
    (if (s2.inode ip).d.type = T_DIR then iupdate sb dp (s2.setNlink dp (· - 1)) else s2) = s3 ∧ Sound sb s3 ∧
      Moved s2 s3 0 0 ∧ graph sb s3.disk = ⟨(graph sb s2.disk).node,
        if ((graph sb s.disk).node i).isDir then Function.update (graph sb s.disk).nlink d
          ((graph sb s.disk).nlink d - 1) else (graph sb s.disk).nlink⟩ := by
    have hdir : (s2.inode ip).d.type = T_DIR ↔ ((graph sb s.disk).node i).isDir = true := by
      rw [hi2.copy hs2]
      have hsame : (graph sb s2.disk).node i = (graph sb s.disk).node i := by
        rw [hg2]
        exact Function.update_of_ne hid _ _
      rw [← hsame]
      constructor
      · intro h
        rw [node_dir hilt h]
        rfl
      · intro h
        cases hnode : (graph sb s2.disk).node i with
        | free =>
          rw [hnode] at h
          cases h
        | file =>
          rw [hnode] at h
          cases h
        | dir t => exact (type_of_node hilt hnode).1
    by_cases htype : (s2.inode ip).d.type = T_DIR
    · obtain ⟨hs3, hm3, hg3⟩ := hs2.setNlink hl hd2 (· - 1)
      refine ⟨_, if_pos htype, hs3, hm3, ?_⟩
      rw [if_pos (hdir.mp htype), hg3, hg2]
    · refine ⟨_, if_neg htype, hs2, ⟨(Quiet.refl s2).delta, fun _ _ hv => hv⟩, ?_⟩
      rw [if_neg (hdir.not.mp htype), hg2]
  rw [e3'] at e3
  have hd3 := hd2.moved hm3 (Int.le_refl 0)
  have hi3 := hi2.moved hm3 (Int.le_refl 0)
  obtain ⟨s4, e4, e5⟩ := bind_ok e3
  have hr : ∀ k, 0 ≤ (one dp + one ip) k := fun k => Int.add_nonneg (one_nonneg dp k) (one_nonneg ip k)
  have hdelta3 : Delta s s3 (one dp + one ip) (one dp + one ip) :=
    ((hf.calm.toDelta.keep hm2.toDelta hr).keep hm3.toDelta hr).congr (fun _ => rfl) fun k => by
      show one dp k + one ip k + 0 + 0 = one dp k + one ip k
      omega
  have hone : 1 ≤ (one dp + one ip) dp := by
    show 1 ≤ one dp dp + one ip dp
    rw [one_self, one_ne hf.ne.symm]
    decide
  have hstay : (inodeOf sb s3.disk d).nlink ≠ 0 ∨ InUse s d := by
    by_cases hb : InUse s d
    · exact Or.inr hb
    left
    have hfree : ((graph sb s.disk).unlink d t n i).node d ≠ .free := fun e => by
      have := (Graph.dir_free hf.node d).mp e
      rw [hf.node] at this
      cases this
    have hkept := hU.kept h.sane d hdlt hid.symm hfree hb
    have hsame : (graph sb s3.disk).nlink d = ((graph sb s.disk).unlink d t n i).nlink d := by
      rw [hg3]
      exact (Function.update_of_ne hid.symm _ _).symm
    rw [hd3.disk_nlink hs3, hsame]
    exact ne_zero_of_short (by omega)
  obtain ⟨hc4, hdelta4⟩ := hs3.iunlockput hdelta3 hr hd3 hone hstay e4
  have hs4 := hc4.sound hs3
  have hi4 := hi3.moved hc4.moved (by show 0 ≤ -one dp ip; rw [one_ne hf.ne]; decide)
  have hdelta4 := hdelta4.congr (a := one ip) (b := one ip)
    (fun k => by show one dp k + one ip k + -one dp k = one ip k; omega) fun k => by
    show one dp k + one ip k + -one dp k = one ip k
    omega
  obtain ⟨hs5, hm5, hg5⟩ := hs4.setNlink hl hi4 (· - 1)
  obtain ⟨s6, e6, e7⟩ := bind_ok e5
  cases e7
  generalize iupdate sb ip (s4.setNlink ip (· - 1)) = s5 at e6 hs5 hm5 hg5
  have hgraph : graph sb s5.disk = (graph sb s.disk).unlink d t n i := by
    rw [hg5, hc4.disk, hg3, hg2]
    unfold Graph.unlink
    have hself : (if ((graph sb s.disk).node i).isDir then Function.update (graph sb s.disk).nlink d
      ((graph sb s.disk).nlink d - 1) else (graph sb s.disk).nlink) i =
        (graph sb s.disk).nlink i := by
      split
      · exact Function.update_of_ne hid _ _
      · rfl
    dsimp only
    rw [hself]
  have hdelta5 := (hdelta4.keep hm5.toDelta (one_nonneg ip)).congr (b := one ip) (fun _ => rfl) fun _ =>
    Int.add_zero _
  obtain ⟨hs', hd', hend⟩ := put_unlinked hl hs5 hdelta5 (hi4.moved hm5 (Int.le_refl 0)) e6
  rw [hgraph] at hend
  refine ⟨hs', hd', Or.inr ⟨rfl, ?_⟩⟩
  rcases hend with ⟨hstay, hg⟩ | ⟨hb, hz, hg⟩
  · rw [hg]
    exact .stays hU hstay
  · rw [hg]
    exact .goes hU hb hz

theorem sys_unlink_graph (hl : Layout sb) (h : Consistent sb s) (hc : 0 < (s.inode cwd).ref)
    {path : Option (List UInt8)} {x : Int} (e : sys_unlink sb cwd path s = .ok (x, s')) :
      Returned sb s ((graph sb s.disk).UnlinkStep sb.ninodes (InUse s)) x s' := by
  have hN := h.names hc
  have hcalm : ∀ {t}, Calm sb s t 0 0 → Returned sb s ((graph sb s.disk).UnlinkStep sb.ninodes (InUse s)) (-1) t :=
    fun hc => ⟨hc.sound h.toSound, hc.toDelta, Or.inl ⟨rfl, by rw [hc.disk]⟩⟩
  unfold sys_unlink at e
  cases path with
  | none =>
    cases e
    exact hcalm (.refl h.table)
  | some path =>
  obtain ⟨⟨f, s1⟩, e1, e2⟩ := bind_ok e
  cases f with
  | none =>
    cases e2
    exact hcalm (namex_calm hN e1).1
  | some f =>
  obtain ⟨dp, nm⟩ := f
  obtain ⟨s2, e3, e4⟩ := bind_ok e2
  obtain ⟨d, t, h2, hd2, -, hnd, hn2⟩ := parent_of h.toSound hN e1 e3
  have hs2 := h2.sound h.toSound
  have hbad : ∀ {y}, unlinkBad sb dp s2 = .ok (y, s') →
    Returned sb s ((graph sb s.disk).UnlinkStep sb.ninodes (InUse s)) y s' := fun {y} e => by
    have hc := unlinkBad_calm hN h2 hn2 e
    obtain ⟨s3, -, e'⟩ := bind_ok e
    cases e'
    exact hcalm hc
  dsimp only at e4
  split at e4
  · exact hbad e4
  rename_i hname
  obtain ⟨⟨g, s3⟩, e5, e6⟩ := bind_ok e4
  cases g with
  | none =>
    rcases hs2.dirlookup hd2 (by rw [h2.disk]; exact hnd) e5 with ⟨-, rfl⟩ | ⟨ip, n, a, hf, -⟩
    · exact hbad e6
    · cases hf
  | some g =>
  obtain ⟨ip, off⟩ := g
  obtain ⟨s4, e7, e8⟩ := bind_ok e6
  obtain ⟨i, n, rfl, hf⟩ := found_of h.toSound e3 h2 hd2 hnd hname e5 e7
  have hs4 := hf.calm.sound h.toSound
  split at e8
  · cases e8
  obtain ⟨⟨y, s5⟩, e9, e10⟩ := bind_ok e8
  have hm : (s4.inode ip).d.type = T_DIR → Mapped s4.disk (s4.inode ip).d := fun ht => by
    rw [hf.inode.copy hs4] at ht ⊢
    exact hs4.volume.mapped i (hf.inode.lt hs4) ht
  rw [busy_mapped hm e9] at e10
  cases y with
  | true =>
    obtain ⟨s6, e11, e12⟩ := bind_ok e10
    have hr : ∀ k, 0 ≤ (one dp + one ip) k := fun k => Int.add_nonneg (one_nonneg dp k) (one_nonneg ip k)
    have hone : 1 ≤ (one dp + one ip) ip := by
      show 1 ≤ one dp ip + one ip ip
      rw [one_self, one_ne hf.ne]
      decide
    have hstay : (inodeOf sb s4.disk i).nlink ≠ 0 ∨ InUse s i := by
      rw [hf.inode.disk_nlink hs4, hf.calm.disk]
      have := hf.inode.type hs4
      rw [hf.calm.disk] at this
      exact (h.stays (hf.inode.lt hs4) this).imp ne_zero_of_short id
    obtain ⟨hc6, hd6⟩ := hs4.iunlockput hf.calm.toDelta hr hf.inode hone hstay e11
    have h6 : Calm sb s s6 (one dp) (one dp) := (hf.calm.then hr hc6).congr (fun k => Int.add_neg_cancel_right _ _)
      fun k => Int.add_neg_cancel_right _ _
    have hk6 : (s6.inode dp).inum = (s2.inode dp).inum :=
      (hc6.key dp hf.dir.live).2.trans (hf.dir.inum.trans hd2.inum.symm)
    have hc := unlinkBad_calm hN h6 (by rw [hk6]; exact hn2) e12
    obtain ⟨s7, -, e13⟩ := bind_ok e12
    cases e13
    exact hcalm hc
  | false =>
    have hdots : ∀ t, (graph sb s4.disk).node i = .dir t → Graph.Dots t := fun t ht => by
      rw [hf.calm.disk] at ht
      exact h.sane.dots i (hf.inode.lt hs4) t ht
    have hbare := busy_false hs4 hf.inode hdots e9
    rw [hf.calm.disk] at hbare
    exact remove_graph hl h hf hbare e10

end

end Xv6Labs.Fs.Disk
