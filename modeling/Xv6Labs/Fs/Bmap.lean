/-
  Xv6Labs.Fs.Bmap — bmap only adds blocks.

  `Extended`: every slot that had a block keeps it, a slot that has one now and had none got
  one that was free, and blocks in use that are not the inode's do not change. `Grown`: new
  data blocks are zero besides, and the inode's own data blocks do not change either.

  - `bmap_spec`: bmap returns the block in the slot of its block number, and the inode grew.
-/

import Xv6Labs.Fs.Blocks
import Xv6Labs.Fs.Balance

namespace Xv6Labs.Fs.Disk

open Lib

section

variable {sb : Superblock} {ip : Nat} {s s' s1 : St} {disk disk' : Mem} {d : Dinode}

/-- Everything below the data blocks is marked in use. -/
def Reserved (sb : Superblock) (disk : Mem) : Prop := ∀ c < dataStart sb, used sb disk c = true

/-- The slots whose blocks hold block numbers. -/
def Slot.index : Slot → Prop
  | .addr i => i = 11 ∨ i = 12
  | .mid _ => True
  | _ => False

theorem index_cases {p : Slot} (h : p.index) : p = .addr 11 ∨ p = .addr 12 ∨ ∃ i, p = .mid i := by
  cases p with
  | addr i => rcases h with h | h <;> simp [h]
  | mid i => exact Or.inr (Or.inr ⟨i, rfl⟩)
  | ind j => exact absurd h id
  | leaf i j => exact absurd h id

/-! ## Words -/

theorem word_congr {c j : Nat} (hj : j < NINDIRECT) (h : ∀ o < BSIZE, disk' (c * BSIZE + o) = disk (c * BSIZE + o)) :
    word disk' c j = word disk c j := by
  unfold word
  refine Mem.loadLE_agree fun x h1 h2 => ?_
  obtain ⟨o, rfl⟩ := Nat.exists_eq_add_of_le (Nat.le_trans (Nat.le_add_right (c * BSIZE) (4 * j)) h1)
  refine h o ?_
  simp only [NINDIRECT, BSIZE] at *
  omega

theorem entry_congr {c j : Nat} (hj : j < NINDIRECT)
    (h : c ≠ 0 → ∀ o < BSIZE, disk' (c * BSIZE + o) = disk (c * BSIZE + o)) :
    entry disk' c j = entry disk c j := by
  unfold entry
  split
  · rfl
  · rename_i h0
    exact word_congr hj (h h0)

theorem word_store {B j b c k : Nat} (hj : j < NINDIRECT) (hk : k < NINDIRECT) (hb : b < 2 ^ 32) :
    word (disk.storeLE (B * BSIZE + 4 * j) 4 b) c k = if c = B ∧ k = j then b else word disk c k := by
  unfold word
  split
  · rename_i h
    rw [h.1, h.2]
    exact Mem.loadLE_storeLE_of_lt _ _ _ _ hb
  · refine Mem.loadLE_agree (Mem.agree_storeLE disk ?_)
    simp only [NINDIRECT, BSIZE] at *
    omega

theorem entry_store {B j b c k : Nat} (hB : B ≠ 0) (hj : j < NINDIRECT) (hk : k < NINDIRECT) (hb : b < 2 ^ 32) :
    entry (disk.storeLE (B * BSIZE + 4 * j) 4 b) c k = if c = B ∧ k = j then b else entry disk c k := by
  unfold entry
  by_cases hc : c = 0
  · rw [if_pos hc, if_pos hc, if_neg fun h : c = B ∧ k = j => hB (h.1 ▸ hc)]
  · rw [if_neg hc, if_neg hc, word_store hj hk hb]

theorem entry_zero {b k : Nat} (hk : k < NINDIRECT) (h : ∀ o < BSIZE, disk (b * BSIZE + o) = 0) :
    entry disk b k = 0 := by
  unfold entry word
  split
  · rfl
  · refine Mem.loadLE_zero fun x h1 h2 => ?_
    obtain ⟨o, rfl⟩ := Nat.exists_eq_add_of_le (Nat.le_trans (Nat.le_add_right (b * BSIZE) (4 * k)) h1)
    refine h o ?_
    simp only [NINDIRECT, BSIZE] at *
    omega

/-! ## What balloc leaves alone -/

variable {b : Nat}

theorem ne_zero_of_data (h : dataStart sb ≤ b) : b ≠ 0 := Nat.ne_of_gt (Nat.lt_of_lt_of_le (Nat.succ_pos _) h)

theorem Reserved.fresh (hr : Reserved sb s.disk) (h : Allocated sb b s s') : dataStart sb ≤ b := by
  by_contra hn
  have := hr b (by omega)
  rw [h.free] at this
  cases this

theorem Allocated.disk_byte (h : Allocated sb b s s') {x : Nat} (h1 : x < b * BSIZE ∨ b * BSIZE + BSIZE ≤ x)
    (h2 : x ≠ byteOf sb b) : s'.disk x = s.disk x := by
  rw [h.disk, Mem.agree_set (b := x) (n := 1) _ _ (by omega) x (Nat.le_refl _) (by omega), setBit_ne h2]

theorem Allocated.used_iff (h : Allocated sb b s s') (hd : dataStart sb ≤ b) {c : Nat} (hc : c < sb.size) :
    used sb s'.disk c = true ↔ used sb s.disk c = true ∨ c = b := by
  have hb := byteOf_bounds hc
  have hle := Nat.mul_le_mul_right BSIZE hd
  have hbyte : s'.disk (byteOf sb c) = setBit s.disk (BBLOCK sb b) (b % BPB) (byteOf sb c) := by
    rw [h.disk, Mem.agree_set (b := byteOf sb c) (n := 1) _ _ (by omega) _ (Nat.le_refl _) (by omega)]
  rw [used_congr hbyte, used_setBit, Bool.or_eq_true, decide_eq_true_eq]
  exact or_congr_right eq_comm

theorem Allocated.bytes (h : Allocated sb b s s') {c o : Nat} (hc : dataStart sb ≤ c) (hne : c ≠ b) (ho : o < BSIZE) :
    s'.disk (c * BSIZE + o) = s.disk (c * BSIZE + o) := by
  have hb := byteOf_bounds h.lt
  have hle := Nat.mul_le_mul_right BSIZE hc
  refine h.disk_byte ?_ (by omega)
  unfold BSIZE at *
  omega

theorem Allocated.zero (h : Allocated sb b s s') {o : Nat} (ho : o < BSIZE) : s'.disk (b * BSIZE + o) = 0 := by
  rw [h.disk]
  exact Mem.set_in _ _ (Nat.le_add_right _ _) (by omega)

theorem Allocated.low (h : Allocated sb b s s') (hd : dataStart sb ≤ b) {x : Nat} (hx : x < sb.bmapstart * BSIZE) :
    s'.disk x = s.disk x := by
  have hb := byteOf_bounds h.lt
  have hle := Nat.mul_le_mul_right BSIZE hd
  have hlt : sb.bmapstart * BSIZE ≤ dataStart sb * BSIZE :=
    Nat.mul_le_mul_right _ (Nat.le_succ_of_le (Nat.le_add_left _ _))
  exact h.disk_byte (Or.inl (Nat.lt_of_lt_of_le hx (Nat.le_trans hlt hle)))
    (Nat.ne_of_lt (Nat.lt_of_lt_of_le hx hb.1))

/-! ## Growth -/

/-- The number in slot `q` of inode `ip`. -/
def St.at (s : St) (ip : Nat) (q : Slot) : Nat := (s.inode ip).d.at s.disk q

/-- Slots keep their blocks, those that were empty may have a block that was free, and blocks in
    use that are not the inode's are as they were. -/
structure Extended (sb : Superblock) (ip : Nat) (s s' : St) : Prop where
  whole : Whole sb s'.disk (s'.inode ip).d
  keep : ∀ q, s.at ip q ≠ 0 → s'.at ip q = s.at ip q
  fresh : ∀ q, s.at ip q = 0 → s'.at ip q ≠ 0 → used sb s.disk (s'.at ip q) = false
  used : ∀ c < sb.size, used sb s'.disk c = true ↔ used sb s.disk c = true ∨ ∃ q, s.at ip q = 0 ∧ s'.at ip q = c ∧
    c ≠ 0
  others : ∀ c o, dataStart sb ≤ c → c < sb.size → o < BSIZE → Disk.used sb s.disk c = true → (∀ q, s.at ip q ≠ c) →
    s'.disk (c * BSIZE + o) = s.disk (c * BSIZE + o)
  low : ∀ x < sb.bmapstart * BSIZE, s'.disk x = s.disk x
  inode : ∃ a, s'.inode = Function.update s.inode ip { s.inode ip with d := { (s.inode ip).d with addrs := a } }

/-- And new data blocks are zero, and those that were there are as they were. -/
structure Grown (sb : Superblock) (ip : Nat) (s s' : St) : Prop extends Extended sb ip s s' where
  zero : ∀ q, s.at ip q = 0 → s'.at ip q ≠ 0 → ¬ q.index → ∀ o < BSIZE, s'.disk (s'.at ip q * BSIZE + o) = 0
  data : ∀ q, s.at ip q ≠ 0 → ¬ q.index → ∀ o < BSIZE,
    s'.disk (s.at ip q * BSIZE + o) = s.disk (s.at ip q * BSIZE + o)

theorem Extended.up (h : Extended sb ip s s') {c : Nat} (hc : c < sb.size) (hu : Disk.used sb s.disk c = true) :
    Disk.used sb s'.disk c = true :=
  (h.used c hc).mpr (Or.inl hu)

/-- A block in use that was not the inode's is not. -/
theorem Extended.apart (h : Extended sb ip s s') {c : Nat} (hu : Disk.used sb s.disk c = true) (h0 : c ≠ 0)
    (hq : ∀ q, s.at ip q ≠ c) (q : Slot) : s'.at ip q ≠ c := by
  intro e
  by_cases hz : s.at ip q = 0
  · have := h.fresh q hz (e ▸ h0)
    rw [e, hu] at this
    cases this
  · exact hq q ((h.keep q hz).symm.trans e)

theorem Extended.refl (h : Whole sb s.disk (s.inode ip).d) : Extended sb ip s s := by
  refine ⟨h, fun _ _ => rfl, fun _ h0 h1 => absurd h0 h1, fun c _ => ⟨Or.inl, fun hc => ?_⟩, fun _ _ _ _ _ _ _ => rfl,
    fun _ _ => rfl, (s.inode ip).d.addrs, (Function.update_eq_self ip s.inode).symm⟩
  rcases hc with hc | ⟨q, h0, h1, h2⟩
  · exact hc
  · exact absurd (h1.symm.trans h0) h2

theorem Extended.trans (h : Extended sb ip s s1) (h' : Extended sb ip s1 s') : Extended sb ip s s' := by
  refine ⟨h'.whole, fun q hq => ?_, fun q h0 h1 => ?_, fun c hc => ?_, fun c o hc hlt ho hu hq => ?_, fun x hx => ?_,
    ?_⟩
  · rw [h'.keep q (by rw [h.keep q hq]; exact hq), h.keep q hq]
  · by_cases h2 : s1.at ip q = 0
    · have hf := h'.fresh q h2 h1
      by_contra hn
      rw [Bool.not_eq_false] at hn
      have := h.up (h'.whole.data q h1).2.1 hn
      unfold St.at at hf this
      rw [hf] at this
      cases this
    · rw [h'.keep q h2]
      exact h.fresh q h0 h2
  · rw [h'.used c hc, h.used c hc]
    constructor
    · intro hu
      rcases hu with (hu | ⟨q, h0, h1, h2⟩) | ⟨q, h0, h1, h2⟩
      · exact Or.inl hu
      · exact Or.inr ⟨q, h0, (h'.keep q (h1 ▸ h2)).trans h1, h2⟩
      · by_cases h3 : s.at ip q = 0
        · exact Or.inr ⟨q, h3, h1, h2⟩
        · exact absurd ((h.keep q h3).symm.trans h0) h3
    · intro hu
      rcases hu with hu | ⟨q, h0, h1, h2⟩
      · exact Or.inl (Or.inl hu)
      · by_cases h3 : s1.at ip q = 0
        · exact Or.inr ⟨q, h3, h1, h2⟩
        · exact Or.inl (Or.inr ⟨q, h0, (h'.keep q h3).symm.trans h1, h2⟩)
  · exact (h'.others c o hc hlt ho (h.up hlt hu) (h.apart hu (ne_zero_of_data hc) hq)).trans
      (h.others c o hc hlt ho hu hq)
  · exact (h'.low x hx).trans (h.low x hx)
  · obtain ⟨a, ha⟩ := h.inode
    obtain ⟨a', ha'⟩ := h'.inode
    refine ⟨a', ?_⟩
    rw [ha', ha, Function.update_self, Function.update_idem]

theorem Grown.refl (h : Whole sb s.disk (s.inode ip).d) : Grown sb ip s s :=
  ⟨.refl h, fun _ h0 h1 => absurd h0 h1, fun _ _ _ _ _ => rfl⟩

theorem Grown.trans (h : Grown sb ip s s1) (h' : Grown sb ip s1 s') : Grown sb ip s s' := by
  refine ⟨h.toExtended.trans h'.toExtended, fun q h0 h1 hi o ho => ?_, fun q h0 hi o ho => ?_⟩
  · by_cases h2 : s1.at ip q = 0
    · exact h'.zero q h2 h1 hi o ho
    · rw [h'.keep q h2]
      exact (h'.data q h2 hi o ho).trans (h.zero q h0 h2 hi o ho)
  · have h1 := h.keep q h0
    rw [← h.data q h0 hi o ho, ← h1]
    exact h'.data q (by rw [h1]; exact h0) hi o ho

/-! ## One slot filled -/

theorem Allocated.ne_at (h : Allocated sb b s s1) (hw : Whole sb s.disk (s.inode ip).d) {q : Slot}
    (hq : s.at ip q ≠ 0) : s.at ip q ≠ b := fun e => by
  have hu := (hw.data q hq).2.2
  unfold St.at at e
  rw [e, h.free] at hu
  cases hu

/-- balloc leaves the index blocks alone. -/
theorem Allocated.entry (h : Allocated sb b s s1) (hw : Whole sb s.disk (s.inode ip).d) (q : Slot) {j : Nat}
    (hj : j < NINDIRECT) :
    Disk.entry s1.disk (s.at ip q) j = Disk.entry s.disk (s.at ip q) j :=
  entry_congr hj fun hc _ ho => h.bytes (hw.data q hc).1 (h.ne_at hw hc) ho

theorem Grown.fill (hw : Whole sb s.disk (s.inode ip).d) (hr : Reserved sb s.disk) (h : Allocated sb b s s1)
    {p : Slot} (hp : s.at ip p = 0) (hat : ∀ q, s'.at ip q = if q = p then b else s.at ip q)
    (hused : ∀ c < sb.size, Disk.used sb s'.disk c = Disk.used sb s1.disk c)
    (hbytes : ∀ c o, dataStart sb ≤ c → o < BSIZE → (∀ q : Slot, q.index → s.at ip q ≠ c) →
      s'.disk (c * BSIZE + o) = s1.disk (c * BSIZE + o))
    (hlow : ∀ x < sb.bmapstart * BSIZE, s'.disk x = s1.disk x)
    (hinode : ∃ a, s'.inode = Function.update s.inode ip
      { s.inode ip with d := { (s.inode ip).d with addrs := a } }) : Grown sb ip s s' := by
  have hd := hr.fresh h
  have hu : ∀ c < sb.size, Disk.used sb s'.disk c = true ↔ Disk.used sb s.disk c = true ∨ c = b := fun c hc => by
    rw [hused c hc]
    exact h.used_iff hd hc
  have hb0 := ne_zero_of_data hd
  have hself : s'.at ip p = b := by rw [hat, if_pos rfl]
  have hother : ∀ q, q ≠ p → s'.at ip q = s.at ip q := fun q hq => by rw [hat, if_neg hq]
  have hold : ∀ c o, dataStart sb ≤ c → o < BSIZE → Disk.used sb s.disk c = true →
    (∀ q : Slot, q.index → s.at ip q ≠ c) →
      s'.disk (c * BSIZE + o) = s.disk (c * BSIZE + o) := fun c o hc ho hc' hq => by
    have hne : c ≠ b := fun e => by
      rw [e, h.free] at hc'
      cases hc'
    exact (hbytes c o hc ho hq).trans (h.bytes hc hne ho)
  refine ⟨⟨⟨fun q hq => ?_, fun q r hq e => ?_⟩, fun q hq => ?_, fun q h0 h1 => ?_, fun c hc => ?_,
    fun c o hc hlt ho hc' hq => hold c o hc ho hc' fun q _ => hq q,
    fun x hx => (hlow x hx).trans (h.low hd hx), hinode⟩, fun q h0 h1 hi o ho => ?_, fun q h0 hi o ho => ?_⟩
  · by_cases e : q = p
    · subst e
      show dataStart sb ≤ s'.at ip q ∧ s'.at ip q < sb.size ∧ Disk.used sb s'.disk (s'.at ip q) = true
      rw [hself]
      exact ⟨hd, h.lt, (hu b h.lt).mpr (Or.inr rfl)⟩
    · have hq' : s'.at ip q ≠ 0 := hq
      rw [hother q e] at hq'
      obtain ⟨h1, h2, h3⟩ := hw.data q hq'
      show dataStart sb ≤ s'.at ip q ∧ s'.at ip q < sb.size ∧ Disk.used sb s'.disk (s'.at ip q) = true
      rw [hother q e]
      exact ⟨h1, h2, (hu _ h2).mpr (Or.inl h3)⟩
  · have hq' : s'.at ip q ≠ 0 := hq
    have e' : s'.at ip q = s'.at ip r := e
    by_cases e1 : q = p <;> by_cases e2 : r = p
    · rw [e1, e2]
    · rw [e1, hself, hother r e2] at e'
      exact absurd e'.symm (h.ne_at hw fun hz => hb0 (e'.trans hz))
    · rw [e2, hself, hother q e1] at e'
      exact absurd e' (h.ne_at hw fun hz => hb0 (e'.symm.trans hz))
    · rw [hother q e1] at hq' e'
      rw [hother r e2] at e'
      exact hw.apart q r hq' e'
  · exact hother q fun e => hq (e ▸ hp)
  · have e : q = p := by
      by_contra hn
      exact h1 ((hother q hn).trans h0)
    rw [e, hself]
    exact h.free
  · rw [hu c hc]
    refine or_congr_right ⟨fun e => ⟨p, hp, hself.trans e.symm, e ▸ hb0⟩, fun hq => ?_⟩
    obtain ⟨q, h0, h1, h2⟩ := hq
    have e : q = p := by
      by_contra hn
      exact h2 (h1.symm.trans ((hother q hn).trans h0))
    rw [← h1, e, hself]
  · have e : q = p := by
      by_contra hn
      exact h1 ((hother q hn).trans h0)
    rw [e, hself, hbytes b o hd ho fun r hr' e' => ?_]
    · exact h.zero ho
    · exact h.ne_at hw (fun hz => hb0 (e'.symm.trans hz)) e'
  · obtain ⟨h1, h2, h3⟩ := hw.data q h0
    exact hold _ o h1 ho h3 fun r hr' e => hi (hw.apart q r h0 e.symm ▸ hr')

/-- The slot for entry `j` of the block in an index slot. -/
def Slot.child : Slot → Fin NINDIRECT → Slot
  | .addr i, j => if i = 11 then .ind j else .mid j
  | .mid i, j => .leaf i j
  | q, _ => q

/-- The slot of the block that a slot is in, if it is not in the inode. -/
def Slot.parent : Slot → Option Slot
  | .addr _ => none
  | .ind _ => some (.addr 11)
  | .mid _ => some (.addr 12)
  | .leaf i _ => some (.mid i)

/-- The first free block was put into slot `p`: it and its bitmap block are logged, and the block
    that the slot is in. -/
structure Filled (sb : Superblock) (ip : Nat) (p : Slot) (b : Nat) (s s' : St) : Prop where
  empty : s.at ip p = 0
  lt : b < sb.size
  free : Disk.used sb s.disk b = false
  first : ∀ c < b, Disk.used sb s.disk c = true
  slots : ∀ q, s'.at ip q = if q = p then b else s.at ip q
  log : s'.log = (p.parent.toList.map (s.at ip)) ++ b :: BBLOCK sb b :: s.log

/-- Slot `p` has block `b` now: it had it, or a new one was put there. -/
inductive Visited (sb : Superblock) (ip : Nat) (p : Slot) : Nat → St → St → Prop
  | old {s : St} : s.at ip p ≠ 0 → Visited sb ip p (s.at ip p) s s
  | new {b : Nat} {s s' : St} : Filled sb ip p b s s' → Grown sb ip s s' → Visited sb ip p b s s'

theorem Visited.spec (h : Visited sb ip p b s s') (hw : Whole sb s.disk (s.inode ip).d) (hr : Reserved sb s.disk) :
    Grown sb ip s s' ∧ s'.at ip p = b ∧ b ≠ 0 := by
  cases h with
  | old h => exact ⟨.refl hw, rfl, h⟩
  | new h g =>
    have hat : s'.at ip p = b := by rw [h.slots, if_pos rfl]
    refine ⟨g, hat, fun h0 => ?_⟩
    have hz := h.free
    rw [h0, hr 0 (Nat.succ_pos _)] at hz
    cases hz

/-- addrOf returns what is in the address then. -/
theorem addrOf_spec (hw : Whole sb s.disk (s.inode ip).d) (hr : Reserved sb s.disk) {i : Fin (NDIRECT + 2)} {b : Nat}
    (e : addrOf sb ip i s = .ok (b, s')) :
    Visited sb ip (.addr i) b s s' := by
  unfold addrOf at e
  split at e
  · rename_i hz
    obtain ⟨⟨b1, s1⟩, e1, e⟩ := bind_ok e
    cases e
    have h := balloc_ok e1
    have hself : (s1.setD ip { (s1.inode ip).d with addrs := Function.update (s1.inode ip).d.addrs i b }).inode ip =
        { s.inode ip with d := { (s.inode ip).d with addrs := Function.update (s.inode ip).d.addrs i b } } := by
      unfold St.setD
      rw [setInode_self, h.inode]
    have hzero : ∀ j < NINDIRECT, entry s1.disk b j = 0 := fun j hj => entry_zero hj fun o ho => h.zero ho
    have hat : ∀ q, (s1.setD ip { (s1.inode ip).d with addrs := Function.update (s1.inode ip).d.addrs i b }).at ip q =
      if q = .addr i then b else s.at ip q := by
      intro q
      unfold St.at
      rw [hself]
      cases q with
      | addr k =>
        show Function.update (s.inode ip).d.addrs i b k = _
        by_cases hk : k = i
        · rw [hk, Function.update_self, if_pos rfl]
        · rw [Function.update_of_ne hk, if_neg fun e => hk (Slot.addr.inj e)]
          rfl
      | ind j =>
        rw [if_neg (by simp)]
        show entry s1.disk (Function.update (s.inode ip).d.addrs i b 11) j = entry s.disk ((s.inode ip).d.addrs 11) j
        by_cases hk : (11 : Fin (NDIRECT + 2)) = i
        · rw [← hk, Function.update_self, hzero j j.isLt]
          rw [← hk] at hz
          exact (if_pos hz).symm
        · rw [Function.update_of_ne hk]
          exact h.entry hw (.addr 11) j.isLt
      | mid j =>
        rw [if_neg (by simp)]
        show entry s1.disk (Function.update (s.inode ip).d.addrs i b 12) j = entry s.disk ((s.inode ip).d.addrs 12) j
        by_cases hk : (12 : Fin (NDIRECT + 2)) = i
        · rw [← hk, Function.update_self, hzero j j.isLt]
          rw [← hk] at hz
          exact (if_pos hz).symm
        · rw [Function.update_of_ne hk]
          exact h.entry hw (.addr 12) j.isLt
      | leaf k j =>
        rw [if_neg (by simp)]
        show entry s1.disk (entry s1.disk (Function.update (s.inode ip).d.addrs i b 12) k) j =
          entry s.disk (entry s.disk ((s.inode ip).d.addrs 12) k) j
        by_cases hk : (12 : Fin (NDIRECT + 2)) = i
        · rw [← hk] at hz
          rw [← hk, Function.update_self, hzero k k.isLt,
            show entry s.disk ((s.inode ip).d.addrs 12) k = 0 from if_pos hz]
          rfl
        · rw [Function.update_of_ne hk]
          have hmid : entry s1.disk ((s.inode ip).d.addrs 12) k = s.at ip (.mid k) := h.entry hw (.addr 12) k.isLt
          rw [hmid]
          exact h.entry hw (.mid k) j.isLt
    refine .new ⟨hz, h.lt, h.free, h.first, hat, h.log⟩
      (Grown.fill hw hr h (show s.at ip (.addr i) = 0 from hz) hat (fun _ _ => rfl) (fun _ _ _ _ _ => rfl)
      (fun _ _ => rfl) ⟨Function.update (s.inode ip).d.addrs i b, ?_⟩)
    unfold St.setD St.setInode
    dsimp only
    rw [h.inode]
  · rename_i hz
    cases e
    exact .old hz

theorem parent_child {q : Slot} (hi : q.index) (j : Fin NINDIRECT) : (q.child j).parent = some q := by
  rcases index_cases hi with e | e | ⟨i, e⟩ <;> rw [e] <;> rfl

theorem at_child {q : Slot} (hi : q.index) (j : Fin NINDIRECT) :
    s.at ip (q.child j) = entry s.disk (s.at ip q) j := by
  rcases index_cases hi with e | e | ⟨i, e⟩ <;> rw [e] <;> rfl

/-- A new block in an entry that had none. -/
theorem store_at (hw : Whole sb s.disk (s.inode ip).d) (h : Allocated sb b s s1) (hlt : b < 2 ^ 32) {p : Slot}
    (hi : p.index) {j : Fin NINDIRECT} (hp : s.at ip p ≠ 0) (hz : s.at ip (p.child j) = 0) (q : Slot) :
    (s.inode ip).d.at (s1.disk.storeLE (s.at ip p * BSIZE + 4 * j) 4 b) q =
      if q = p.child j then b else s.at ip q := by
  -- an entry of a block, before and after; `b` is in no slot yet
  have hstore : ∀ (c : Nat) (k : Fin NINDIRECT), entry (s1.disk.storeLE (s.at ip p * BSIZE + 4 * j) 4 b) c k =
      if c = s.at ip p ∧ k = j then b else entry s1.disk c k := fun c k => by
    rw [entry_store hp j.isLt k.isLt hlt]
    simp only [Fin.ext_iff]
  have hold : ∀ (r : Slot) (k : Fin NINDIRECT), r ≠ p →
    entry (s1.disk.storeLE (s.at ip p * BSIZE + 4 * j) 4 b) (s.at ip r) k = entry s.disk (s.at ip r) k :=
    fun r k hr => by
      rw [hstore, if_neg fun hc => hr (hw.apart p r hp hc.1.symm).symm]
      exact h.entry hw r k.isLt
  have hat : ∀ k : Fin NINDIRECT, entry (s1.disk.storeLE (s.at ip p * BSIZE + 4 * j) 4 b) (s.at ip p) k =
    if k = j then b else entry s.disk (s.at ip p) k :=
    fun k => by
      rw [hstore, h.entry hw p k.isLt]
      simp only [true_and]
  have hnew : ∀ k : Fin NINDIRECT, entry (s1.disk.storeLE (s.at ip p * BSIZE + 4 * j) 4 b) b k = 0 := fun k => by
    rw [hstore, if_neg fun hc => h.ne_at hw hp hc.1.symm]
    exact entry_zero k.isLt fun o ho => h.zero ho
  rcases index_cases hi with e | e | ⟨i0, e⟩ <;> subst e
  · cases q with
    | addr i => rw [if_neg (by simp [Slot.child])]; rfl
    | ind k =>
      refine (hat k).trans ?_
      simp only [Slot.child, if_true, Slot.ind.injEq]
      rfl
    | mid k =>
      rw [if_neg (by simp [Slot.child])]
      exact hold (.addr 12) k (by decide)
    | leaf i k =>
      have hmid := hold (.addr 12) i (by decide)
      rw [if_neg (by simp [Slot.child])]
      show entry _ (entry _ (s.at ip (.addr 12)) i) k = _
      rw [hmid]
      exact hold (.mid i) k (by simp)
  · cases q with
    | addr i => rw [if_neg (by simp [Slot.child])]; rfl
    | ind k =>
      rw [if_neg (by simp [Slot.child])]
      exact hold (.addr 11) k (by decide)
    | mid k =>
      refine (hat k).trans ?_
      simp only [Slot.child, if_neg (show ¬ (12 : Fin (NDIRECT + 2)) = 11 by decide), Slot.mid.injEq]
      rfl
    | leaf i k =>
      rw [if_neg (by simp [Slot.child])]
      show entry _ (entry _ (s.at ip (.addr 12)) i) k = _
      rw [hat i]
      by_cases hij : i = j
      · subst hij
        have hz' : s.at ip (.mid i) = 0 := hz
        rw [if_pos rfl, hnew k]
        exact (if_pos hz').symm
      · rw [if_neg hij]
        exact hold (.mid i) k (by simp)
  · cases q with
    | addr i => rw [if_neg (by simp [Slot.child])]; rfl
    | ind k =>
      rw [if_neg (by simp [Slot.child])]
      exact hold (.addr 11) k (by simp)
    | mid k =>
      rw [if_neg (by simp [Slot.child])]
      exact hold (.addr 12) k (by simp)
    | leaf i k =>
      have hmid := hold (.addr 12) i (by simp)
      show entry _ (entry _ (s.at ip (.addr 12)) i) k = _
      rw [hmid]
      by_cases hi0 : i = i0
      · subst hi0
        refine (hat k).trans ?_
        simp only [Slot.child, Slot.leaf.injEq, true_and]
        rfl
      · rw [if_neg (by simp [Slot.child, hi0])]
        exact hold (.mid i) k (by simp [hi0])

/-- entryOf returns what is in the entry then. -/
theorem entryOf_spec (hl : Layout sb) (hw : Whole sb s.disk (s.inode ip).d) (hr : Reserved sb s.disk) {p : Slot}
    (hi : p.index) (hp : s.at ip p ≠ 0) {j : Fin NINDIRECT} {b : Nat} (e : entryOf sb (s.at ip p) j s = .ok (b, s')) :
      Visited sb ip (p.child j) b s s' := by
  have hword : word s.disk (s.at ip p) j = s.at ip (p.child j) := by
    rw [at_child hi]
    exact (if_neg hp).symm
  unfold entryOf at e
  split at e
  · rename_i hz
    rw [hword] at hz
    obtain ⟨⟨b1, s1⟩, e1, e⟩ := bind_ok e
    cases e
    have h := balloc_ok e1
    have hd := hr.fresh h
    have hlt : b < 2 ^ 32 := Nat.lt_trans h.lt (Nat.lt_trans hl.small (by decide))
    have hdata := (hw.data p hp).1
    have hne : ∀ x, x < sb.bmapstart * BSIZE ∨ sb.bmapstart * BSIZE ≤ x ∧ x < dataStart sb * BSIZE →
        (s1.disk.storeLE (s.at ip p * BSIZE + 4 * j) 4 b) x = s1.disk x := fun x hx => by
      have h1 : sb.bmapstart * BSIZE ≤ dataStart sb * BSIZE :=
        Nat.mul_le_mul_right _ (Nat.le_succ_of_le (Nat.le_add_left _ _))
      have h2 : dataStart sb * BSIZE ≤ s.at ip p * BSIZE := Nat.mul_le_mul_right _ hdata
      have h3 : x < s.at ip p * BSIZE := by
        rcases hx with hx | hx
        · exact Nat.lt_of_lt_of_le hx (Nat.le_trans h1 h2)
        · exact Nat.lt_of_lt_of_le hx.2 h2
      exact Mem.storeLE_ne (Or.inl (Nat.lt_of_lt_of_le h3 (Nat.le_add_right _ _)))
    have hat : ∀ q,
      St.at (St.log_write (s.at ip p) { s1 with disk := s1.disk.storeLE (s.at ip p * BSIZE + 4 * j) 4 b }) ip q =
        if q = p.child j then b else s.at ip q := fun q => by
      unfold St.at St.log_write
      rw [h.inode]
      exact store_at hw h hlt hi hp hz q
    refine .new ⟨hz, h.lt, h.free, h.first, hat, ?_⟩
      (Grown.fill hw hr h hz hat (fun c hc => ?_) (fun c o hc ho hq => ?_) (fun x hx => hne x (Or.inl hx))
      ⟨(s.inode ip).d.addrs, ?_⟩)
    · rw [parent_child hi]
      exact congrArg (s.at ip p :: ·) h.log
    · exact used_congr (hne _ (Or.inr (byteOf_bounds hc)))
    · refine Mem.storeLE_ne ?_
      have hpc := hq p hi
      have := j.isLt
      simp only [NINDIRECT, BSIZE] at *
      omega
    · show s1.inode = _
      rw [h.inode]
      exact (Function.update_eq_self ip s.inode).symm
  · rename_i hz
    cases e
    rw [hword] at hz ⊢
    exact .old hz

theorem Extended.reserved (h : Extended sb ip s s') (hl : Layout sb) (hr : Reserved sb s.disk) :
    Reserved sb s'.disk :=
  fun c hc => h.up (Nat.lt_of_lt_of_le hc hl.data) (hr c hc)

/-! ## bmap -/

theorem direct_lt {bn : Nat} (h : bn < NDIRECT) : bn < NDIRECT + 2 := Nat.lt_add_right 2 h

/-- The slot of block `bn` of a file. -/
def slotOf (bn : Nat) : Slot :=
  if h : bn < NDIRECT then .addr ⟨bn, direct_lt h⟩
  else if h : bn - NDIRECT < NINDIRECT then .ind ⟨bn - NDIRECT, h⟩
  else .leaf ⟨(bn - NDIRECT - NINDIRECT) / NINDIRECT % NINDIRECT, Nat.mod_lt _ (by decide)⟩
    ⟨(bn - NDIRECT - NINDIRECT) % NINDIRECT, Nat.mod_lt _ (by decide)⟩

theorem slotOf_direct {bn : Nat} (h : bn < 11) : slotOf bn = .addr ⟨bn, Nat.lt_add_right 2 h⟩ := dif_pos h

theorem slotOf_ind {bn : Nat} (h1 : 11 ≤ bn) (h2 : bn - 11 < 256) : slotOf bn = .ind ⟨bn - 11, h2⟩ := by
  unfold slotOf
  rw [dif_neg (Nat.not_lt.mpr h1), dif_pos h2]

theorem slotOf_leaf {bn : Nat} (h1 : 267 ≤ bn) (h2 : bn < MAXFILE) :
    slotOf bn = .leaf ⟨(bn - 11 - 256) / 256, by simp only [MAXFILE, NINDIRECT2, NDIRECT, NINDIRECT] at *; omega⟩
      ⟨(bn - 11 - 256) % 256, Nat.mod_lt _ (by decide)⟩ := by
  have h3 : (bn - 11 - 256) / 256 % 256 = (bn - 11 - 256) / 256 :=
    Nat.mod_eq_of_lt (by simp only [MAXFILE, NINDIRECT2, NDIRECT, NINDIRECT] at *; omega)
  unfold slotOf
  rw [dif_neg (by simp only [NDIRECT]; omega), dif_neg (by simp only [NDIRECT, NINDIRECT]; omega)]
  congr 2

theorem slotOf_not_index (bn : Nat) : ¬ (slotOf bn).index := by
  by_cases h : bn < 11
  · rw [slotOf_direct h]
    intro hi
    rcases hi with e | e
    · exact absurd (congrArg Fin.val e) (Nat.ne_of_lt h)
    · exact absurd (congrArg Fin.val e) (Nat.ne_of_lt (Nat.lt_succ_of_lt h))
  · unfold slotOf
    rw [dif_neg h]
    split <;> exact id

theorem slotOf_inj {bn bn' : Nat} (h : bn < MAXFILE) (h' : bn' < MAXFILE) (e : slotOf bn = slotOf bn') :
    bn = bn' := by
  have hcases : ∀ n, n < 11 ∨ (11 ≤ n ∧ n - 11 < 256) ∨ 267 ≤ n := fun n => by omega
  rcases hcases bn with h1 | ⟨h1, h2⟩ | h1 <;> rcases hcases bn' with h3 | ⟨h3, h4⟩ | h3
  · rw [slotOf_direct h1, slotOf_direct h3] at e
    exact congrArg Fin.val (Slot.addr.inj e)
  · rw [slotOf_direct h1, slotOf_ind h3 h4] at e
    cases e
  · rw [slotOf_direct h1, slotOf_leaf h3 h'] at e
    cases e
  · rw [slotOf_ind h1 h2, slotOf_direct h3] at e
    cases e
  · rw [slotOf_ind h1 h2, slotOf_ind h3 h4] at e
    have := congrArg Fin.val (Slot.ind.inj e)
    dsimp only at this
    omega
  · rw [slotOf_ind h1 h2, slotOf_leaf h3 h'] at e
    cases e
  · rw [slotOf_leaf h1 h, slotOf_direct h3] at e
    cases e
  · rw [slotOf_leaf h1 h, slotOf_ind h3 h4] at e
    cases e
  · rw [slotOf_leaf h1 h, slotOf_leaf h3 h'] at e
    have h5 := congrArg Fin.val (Slot.leaf.inj e).1
    have h6 := congrArg Fin.val (Slot.leaf.inj e).2
    dsimp only at h5 h6
    omega

/-- The slots on the way to block `bn`. -/
def path (bn : Nat) : List Slot :=
  if bn < NDIRECT then [slotOf bn]
  else if bn - NDIRECT < NINDIRECT then [.addr 11, slotOf bn]
  else [.addr 12, .mid ⟨(bn - NDIRECT - NINDIRECT) / NINDIRECT % NINDIRECT, Nat.mod_lt _ (by decide)⟩, slotOf bn]

theorem path_last (bn : Nat) : (path bn).getLast? = some (slotOf bn) := by
  unfold path
  split
  · rfl
  · split <;> rfl

/-- Slots visited one after the other, with the block in the last. -/
inductive Visits (sb : Superblock) (ip : Nat) : List Slot → Nat → St → St → Prop
  | last {p : Slot} {b : Nat} {s s' : St} : Visited sb ip p b s s' → Visits sb ip [p] b s s'
  | cons {p : Slot} {L : List Slot} {b b' : Nat} {s s1 s' : St} : Visited sb ip p b s s1 → Visits sb ip L b' s1 s' →
      Visits sb ip (p :: L) b' s s'

theorem Visits.spec (hl : Layout sb) {L : List Slot} {b : Nat} (h : Visits sb ip L b s s')
    (hw : Whole sb s.disk (s.inode ip).d) (hr : Reserved sb s.disk) :
    Grown sb ip s s' ∧ (∀ q ∈ L.getLast?, s'.at ip q = b) ∧ b ≠ 0 := by
  induction h with
  | last h =>
    obtain ⟨g, h1, h2⟩ := h.spec hw hr
    refine ⟨g, fun q hq => ?_, h2⟩
    cases hq
    exact h1
  | cons h hrest ih =>
    obtain ⟨g, -, -⟩ := h.spec hw hr
    obtain ⟨g', h1, h2⟩ := ih g.whole (g.reserved hl hr)
    refine ⟨g.trans g', fun q hq => h1 q ?_, h2⟩
    cases hrest <;> exact hq

theorem bmap_visits (hl : Layout sb) (hw : Whole sb s.disk (s.inode ip).d) (hr : Reserved sb s.disk) {bn b : Nat}
    (hbn : bn < MAXFILE) (e : bmap sb ip bn s = .ok (b, s')) : Visits sb ip (path bn) b s s' := by
  unfold bmap at e
  unfold path
  by_cases h1 : bn < 11
  · rw [dif_pos h1] at e
    rw [if_pos h1, slotOf_direct h1]
    exact .last (addrOf_spec hw hr e)
  rw [dif_neg h1] at e
  rw [if_neg h1]
  dsimp only at e
  by_cases h2 : bn - 11 < 256
  · rw [if_pos h2] at e ⊢
    obtain ⟨⟨b1, s1⟩, e1, e⟩ := bind_ok e
    have v1 := addrOf_spec hw hr e1
    obtain ⟨g1, h3, h4⟩ := v1.spec hw hr
    rw [slotOf_ind (by omega) h2]
    subst h3
    exact .cons v1
      (.last (entryOf_spec hl g1.whole (g1.reserved hl hr) (p := .addr 11) (Or.inl rfl) h4 (j := ⟨bn - 11, h2⟩) e))
  rw [if_neg h2] at e ⊢
  have h3 : bn - 11 - 256 < NINDIRECT2 := by simp only [MAXFILE, NINDIRECT2, NDIRECT, NINDIRECT] at *; omega
  rw [if_pos h3] at e
  obtain ⟨⟨b1, s1⟩, e1, e⟩ := bind_ok e
  obtain ⟨⟨b2, s2⟩, e2, e⟩ := bind_ok e
  have v1 := addrOf_spec hw hr e1
  obtain ⟨g1, h4, h5⟩ := v1.spec hw hr
  subst h4
  have h7 : (bn - 11 - 256) / 256 < 256 := by simp only [NINDIRECT2, NINDIRECT] at h3; omega
  have hr1 := g1.reserved hl hr
  have v2 := entryOf_spec hl g1.whole hr1 (p := .addr 12) (Or.inr rfl) h5 (j := ⟨(bn - 11 - 256) / 256, h7⟩) e2
  obtain ⟨g2, h8, h9⟩ := v2.spec g1.whole hr1
  subst h8
  have v3 := entryOf_spec hl g2.whole (g2.reserved hl hr1) (p := .mid ⟨(bn - 11 - 256) / 256, h7⟩) trivial h9
    (j := ⟨(bn - 11 - 256) % 256, Nat.mod_lt _ (by decide)⟩) e
  have hmod : (⟨(bn - NDIRECT - NINDIRECT) / NINDIRECT % NINDIRECT, Nat.mod_lt _ (by decide)⟩ : Fin NINDIRECT) =
    ⟨(bn - 11 - 256) / 256, h7⟩ :=
    Fin.ext (Nat.mod_eq_of_lt h7)
  rw [slotOf_leaf (by omega) hbn, hmod]
  exact .cons v1 (.cons v2 (.last v3))

theorem bmap_spec (hl : Layout sb) (hw : Whole sb s.disk (s.inode ip).d) (hr : Reserved sb s.disk) {bn b : Nat}
    (hbn : bn < MAXFILE) (e : bmap sb ip bn s = .ok (b, s')) : Grown sb ip s s' ∧ s'.at ip (slotOf bn) = b ∧
      b ≠ 0 := by
  obtain ⟨g, h1, h2⟩ := (bmap_visits hl hw hr hbn e).spec hl hw hr
  exact ⟨g, h1 _ (by rw [path_last]; rfl), h2⟩

end

end Xv6Labs.Fs.Disk
