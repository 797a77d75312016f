/-
  Xv6Labs.Fs.File — what readi sees and what writei stores.

  `St.byte`: a byte of a file, through the block map; a block that the file does not have yet
  is full of zeros, which is what bmap gives it.

  - `readi_spec`: readi returns the file's bytes and changes none.
  - `writeiLoop_spec`: from a source with `r` readable bytes writei stores all `r` of them, and
    counts those before the block in which the source ended.
-/

import Xv6Labs.Lib.Lists
import Xv6Labs.Fs.Bmap

namespace Xv6Labs.Fs.Disk

open Lib

section

variable {sb : Superblock} {ip : Nat} {s s' s1 : St}

/-- Byte `k` of a file. -/
def St.byte (s : St) (ip k : Nat) : UInt8 :=
  if s.at ip (slotOf (k / BSIZE)) = 0 then 0 else s.disk (s.at ip (slotOf (k / BSIZE)) * BSIZE + k % BSIZE)

theorem Grown.byte (h : Grown sb ip s s') (k : Nat) : s'.byte ip k = s.byte ip k := by
  have hi := slotOf_not_index (k / BSIZE)
  have ho := Nat.mod_lt k (by decide : 0 < BSIZE)
  unfold St.byte
  by_cases h0 : s.at ip (slotOf (k / BSIZE)) = 0
  · rw [if_pos h0]
    split
    · rfl
    · rename_i h1
      exact h.zero _ h0 h1 hi _ ho
  · rw [h.keep _ h0, if_neg h0, if_neg h0]
    exact h.data _ h0 hi _ ho

variable (s s') in
/-- The block map is in addrs and the index blocks. -/
theorem at_congr (ha : (s'.inode ip).d.addrs = (s.inode ip).d.addrs)
    (hd : ∀ p : Slot, p.index → s.at ip p ≠ 0 → ∀ o < BSIZE,
      s'.disk (s.at ip p * BSIZE + o) = s.disk (s.at ip p * BSIZE + o)) (q : Slot) :
    s'.at ip q = s.at ip q := by
  have hentry : ∀ p : Slot, p.index → ∀ j : Fin NINDIRECT, entry s'.disk (s.at ip p) j = entry s.disk (s.at ip p) j :=
    fun p hp j =>
    entry_congr j.isLt fun h0 => hd p hp h0
  have hmid : ∀ i : Fin NINDIRECT, entry s'.disk ((s'.inode ip).d.addrs 12) i = s.at ip (.mid i) := fun i => by
    rw [ha]
    exact hentry (.addr 12) (Or.inr rfl) i
  cases q with
  | addr i => exact congrFun ha i
  | ind j =>
    show entry s'.disk ((s'.inode ip).d.addrs 11) j = _
    rw [ha]
    exact hentry (.addr 11) (Or.inl rfl) j
  | mid i => exact hmid i
  | leaf i j =>
    show entry s'.disk (entry s'.disk ((s'.inode ip).d.addrs 12) i) j = _
    rw [hmid i]
    exact hentry (.mid i) trivial j

theorem whole_congr (hw : Whole sb s.disk (s.inode ip).d) (ha : ∀ q, s'.at ip q = s.at ip q)
    (hu : ∀ c < sb.size, used sb s'.disk c = used sb s.disk c) :
    Whole sb s'.disk (s'.inode ip).d := by
  refine ⟨fun p hp => ?_, fun p q hp e => ?_⟩
  · have e := ha p
    unfold St.at at e
    rw [e] at hp ⊢
    obtain ⟨h1, h2, h3⟩ := hw.data p hp
    exact ⟨h1, h2, (hu _ h2).trans h3⟩
  · have e1 := ha p
    have e2 := ha q
    unfold St.at at e1 e2
    rw [e1] at hp e
    rw [e2] at e
    exact hw.apart p q hp e

/-- Nothing of a file lies below the bitmap. -/
theorem high_congr (hw : Whole sb s.disk (s.inode ip).d) (ha : (s'.inode ip).d.addrs = (s.inode ip).d.addrs)
    (hd : ∀ x, sb.bmapstart * BSIZE ≤ x → s'.disk x = s.disk x) :
    (∀ q, s'.at ip q = s.at ip q) ∧ Whole sb s'.disk (s'.inode ip).d ∧ ∀ k, s'.byte ip k = s.byte ip k := by
  have hle : ∀ {c}, dataStart sb ≤ c → ∀ o, sb.bmapstart * BSIZE ≤ c * BSIZE + o := fun hc o =>
    Nat.le_trans (Nat.mul_le_mul_right _ (Nat.le_trans (Nat.le_succ_of_le (Nat.le_add_left _ _)) hc))
      (Nat.le_add_right _ _)
  have hat := at_congr s s' ha fun p _ h0 o _ => hd _ (hle (hw.data p h0).1 o)
  refine ⟨hat, whole_congr hw hat fun c hc => used_congr (hd _ (byteOf_bounds hc).1), fun k => ?_⟩
  unfold St.byte
  rw [hat]
  split
  · rfl
  · rename_i h0
    exact hd _ (hle (hw.data _ h0).1 _)

/-! ## readi -/

theorem bmap_lt {bn b : Nat} (e : bmap sb ip bn s = .ok (b, s')) : bn < MAXFILE := by
  unfold bmap at e
  by_cases h1 : bn < NDIRECT
  · exact Nat.lt_of_lt_of_le h1 (by decide)
  rw [dif_neg h1] at e
  dsimp only at e
  by_cases h2 : bn - NDIRECT < NINDIRECT
  · simp only [MAXFILE, NINDIRECT2, NDIRECT, NINDIRECT] at *
    omega
  rw [if_neg h2] at e
  by_cases h3 : bn - NDIRECT - NINDIRECT < NINDIRECT2
  · simp only [MAXFILE, NINDIRECT2, NDIRECT, NINDIRECT] at *
    omega
  · rw [if_neg h3] at e
    cases e

theorem readiLoop_spec (hl : Layout sb) : ∀ {r off n s s' bs}, n ≤ r → Whole sb s.disk (s.inode ip).d →
    Reserved sb s.disk →
    readiLoop sb ip r off n s = .ok (bs, s') →
    Grown sb ip s s' ∧ bs = (List.range n).map (fun i => s.byte ip (off + i)) ∧
      (n = 0 ∨ off + n ≤ MAXFILE * BSIZE) := by
  intro r
  induction r with
  | zero =>
    intro off n s s' bs hn hw hr e
    cases e
    obtain rfl : n = 0 := Nat.le_zero.mp hn
    exact ⟨.refl hw, rfl, Or.inl rfl⟩
  | succ r ih =>
    intro off n s s' bs hn hw hr e
    unfold readiLoop at e
    split at e
    · rename_i h0
      cases e
      rw [h0]
      exact ⟨.refl hw, rfl, Or.inl rfl⟩
    · rename_i h0
      obtain ⟨⟨b, s1⟩, e1, e⟩ := bind_ok e
      obtain ⟨⟨bs2, s2⟩, e2, e⟩ := bind_ok e
      have hlt := bmap_lt e1
      obtain ⟨g1, hat, hb⟩ := bmap_spec hl hw hr hlt e1
      have hmod := Nat.mod_lt off (by decide : 0 < BSIZE)
      dsimp only at e e2
      generalize hm : min n (BSIZE - off % BSIZE) = m at e e2
      have hm1 : m ≤ n := by omega
      have hm2 : off % BSIZE + m ≤ BSIZE := by omega
      have hm3 : m = n ∨ off % BSIZE + m = BSIZE := by omega
      cases e
      obtain ⟨g2, rfl, hbound⟩ := ih (by omega) g1.whole (g1.reserved hl hr) e2
      refine ⟨g1.trans g2, ?_, Or.inr ?_⟩
      · have hfirst : (List.range m).map (fun i => s1.disk (b * BSIZE + off % BSIZE + i)) = (List.range m).map
          fun i => s.byte ip (off + i) := by
          refine List.map_congr_left fun i hi => ?_
          have hi := List.mem_range.mp hi
          have hdiv : (off + i) / BSIZE = off / BSIZE := by unfold BSIZE at *; omega
          have hmod : (off + i) % BSIZE = off % BSIZE + i := by unfold BSIZE at *; omega
          rw [← g1.byte (off + i)]
          unfold St.byte
          rw [hdiv, hmod, hat, if_neg hb, Nat.add_assoc]
        have hrest : (List.range (n - m)).map (fun i => s1.byte ip (off + m + i)) = (List.range (n - m)).map fun i =>
          s.byte ip (off + (m + i)) :=
          List.map_congr_left fun i _ => by rw [g1.byte, Nat.add_assoc]
        rw [hfirst, hrest]
        exact map_range_split (fun i => s.byte ip (off + i)) hm1
      · rcases hbound with hb | hb
        · unfold BSIZE at *
          omega
        · omega

/-- readi returns bytes of the file, as many as there are and were asked for. -/
theorem readi_spec (hl : Layout sb) (hw : Whole sb s.disk (s.inode ip).d) (hr : Reserved sb s.disk) {off n : Nat}
    {bs : List UInt8} (hoff : off < 2 ^ 32) (hn : n < 2 ^ 32) (e : readi sb ip off n s = .ok (bs, s')) :
    Grown sb ip s s' ∧ bs = (List.range bs.length).map (fun i => s.byte ip (off + i)) ∧
      (bs = [] ∨ off + bs.length ≤ (s.inode ip).d.size ∧ off + bs.length ≤ MAXFILE * BSIZE) := by
  unfold readi at e
  dsimp only at e
  split at e
  · cases e
    exact ⟨.refl hw, rfl, Or.inl rfl⟩
  · rename_i h
    have h : ¬ (off > (s.inode ip).d.size ∨ u32 (off + n) < off) := h
    have hsum : u32 (off + n) = off + n := Nat.mod_eq_of_lt (by unfold u32 at h; omega)
    rw [hsum] at e h
    generalize hm : (if off + n > (s.inode ip).d.size then (s.inode ip).d.size - off else n) = m at e
    have hmn : m ≤ n ∧ off + m ≤ (s.inode ip).d.size := by
      split at hm <;> omega
    obtain ⟨g, rfl, hb⟩ := readiLoop_spec hl (Nat.le_refl _) hw hr e
    rw [List.length_map, List.length_range]
    refine ⟨g, rfl, ?_⟩
    rcases hb with hb | hb
    · exact Or.inl (by rw [hb]; rfl)
    · exact Or.inr ⟨hmn.2, hb⟩

variable (sb) in
/-- bmap of a block that is there. -/
theorem bmap_mapped {bn : Nat} (hbn : bn < MAXFILE) (h : s.at ip (slotOf bn) ≠ 0) :
    bmap sb ip bn s = .ok (s.at ip (slotOf bn), s) := by
  have haddr : ∀ i, (s.inode ip).d.addrs i ≠ 0 → addrOf sb ip i s = .ok ((s.inode ip).d.addrs i, s) :=
    fun i hi => if_neg hi
  have hentry : ∀ {b j}, entry s.disk b j ≠ 0 → b ≠ 0 ∧ entryOf sb b j s = .ok (entry s.disk b j, s) :=
    fun {b j} hi => by
    by_cases hb : b = 0
    · exact absurd (if_pos hb) hi
    · have e : entry s.disk b j = word s.disk b j := if_neg hb
      rw [e] at hi ⊢
      exact ⟨hb, if_neg hi⟩
  unfold bmap
  by_cases h1 : bn < 11
  · rw [dif_pos h1]
    rw [slotOf_direct h1] at h ⊢
    exact haddr _ h
  rw [dif_neg h1]
  dsimp only
  by_cases h2 : bn - 11 < 256
  · rw [if_pos h2]
    rw [slotOf_ind (by omega) h2] at h ⊢
    obtain ⟨h3, h4⟩ := hentry h
    rw [haddr 11 h3, ok_bind]
    exact h4
  · have h3 : bn - 11 - 256 < NINDIRECT2 := by simp only [MAXFILE, NINDIRECT2, NDIRECT, NINDIRECT] at *; omega
    rw [if_neg h2, if_pos h3]
    rw [slotOf_leaf (by omega) hbn] at h ⊢
    obtain ⟨h4, h5⟩ := hentry h
    obtain ⟨h6, h7⟩ := hentry h4
    rw [haddr 12 h6, ok_bind]
    dsimp only
    rw [h7, ok_bind]
    exact h5

variable (sb) in
theorem readiLoop_mapped : ∀ {r off n}, n ≤ r →
    (∀ k, off ≤ k → k < off + n → k < MAXFILE * BSIZE ∧ s.at ip (slotOf (k / BSIZE)) ≠ 0) →
    readiLoop sb ip r off n s = .ok ((List.range n).map fun i => s.byte ip (off + i), s) := by
  intro r
  induction r with
  | zero =>
    intro off n hn _
    obtain rfl : n = 0 := Nat.le_zero.mp hn
    rfl
  | succ r ih =>
    intro off n hn hm
    unfold readiLoop
    by_cases h0 : n = 0
    · rw [if_pos h0, h0]
      rfl
    rw [if_neg h0]
    obtain ⟨hmax, hat⟩ := hm off (Nat.le_refl off) (by omega)
    have hmod := Nat.mod_lt off (by decide : 0 < BSIZE)
    rw [bmap_mapped sb (Nat.div_lt_of_lt_mul (by rwa [Nat.mul_comm] at hmax)) hat, ok_bind]
    dsimp only
    generalize hmin : min n (BSIZE - off % BSIZE) = m
    have hle : m ≤ n := by omega
    have hin : off % BSIZE + m ≤ BSIZE := by omega
    rw [ih (by omega) fun k h1 h2 => hm k (by omega) (by omega), ok_bind]
    have hfirst : (List.range m).map (fun i => s.disk (s.at ip (slotOf (off / BSIZE)) * BSIZE + off % BSIZE + i)) =
        (List.range m).map fun i => s.byte ip (off + i) := by
      refine List.map_congr_left fun i hi => ?_
      have hi := List.mem_range.mp hi
      have hdiv : (off + i) / BSIZE = off / BSIZE := by unfold BSIZE at *; omega
      have hmod : (off + i) % BSIZE = off % BSIZE + i := by unfold BSIZE at *; omega
      unfold St.byte
      rw [hdiv, hmod, if_neg hat, Nat.add_assoc]
    have hrest : (List.range (n - m)).map (fun i => s.byte ip (off + m + i)) = (List.range (n - m)).map fun i =>
      s.byte ip (off + (m + i)) :=
      List.map_congr_left fun i _ => by rw [Nat.add_assoc]
    dsimp only
    rw [hfirst, hrest, map_range_split (fun i => s.byte ip (off + i)) hle]

variable (sb) in
/-- readi of bytes that all have their blocks changes nothing. -/
theorem readi_mapped {off n : Nat} (hn : off + n < 2 ^ 32)
    (hm : ∀ k, off ≤ k → k < (s.inode ip).d.size → k < off + n → k < MAXFILE * BSIZE ∧
      s.at ip (slotOf (k / BSIZE)) ≠ 0) :
    readi sb ip off n s = .ok ((List.range (min n ((s.inode ip).d.size - off))).map fun i => s.byte ip (off + i),
      s) := by
  have hsum : u32 (off + n) = off + n := Nat.mod_eq_of_lt hn
  unfold readi
  dsimp only
  rw [hsum]
  by_cases h : off > (s.inode ip).d.size ∨ off + n < off
  · have h0 : (s.inode ip).d.size - off = 0 := by omega
    rw [if_pos h, h0, Nat.min_zero]
    rfl
  · rw [if_neg h]
    have hmin : (if off + n > (s.inode ip).d.size then (s.inode ip).d.size - off else n) =
      min n ((s.inode ip).d.size - off) := by
      split <;> omega
    rw [hmin]
    exact readiLoop_mapped sb (Nat.le_refl _) fun k h1 h2 => hm k h1 (by omega) (by omega)

/-! ## Stores in a data block -/

variable {q : Slot} {o : Nat} {bs : List UInt8}

theorem put_ne {m : Mem} {a x : Nat} (h : x < a ∨ a + bs.length ≤ x) : m.put a bs x = m x :=
  Mem.agree_put (b := x) (n := 1) m bs (by omega) x (Nat.le_refl _) (by omega)

theorem put_block {m : Mem} {b c o' : Nat} (ho : o + bs.length ≤ BSIZE) (hc : c ≠ b) (ho' : o' < BSIZE) :
    m.put (b * BSIZE + o) bs (c * BSIZE + o') = m (c * BSIZE + o') := by
  refine put_ne ?_
  unfold BSIZE at *
  omega

theorem put_at (hw : Whole sb s.disk (s.inode ip).d) (hi : ¬ q.index) (ho : o + bs.length ≤ BSIZE) (p : Slot) :
    St.at { s with disk := s.disk.put (s.at ip q * BSIZE + o) bs } ip p = s.at ip p := by
  refine at_congr s { s with disk := s.disk.put (s.at ip q * BSIZE + o) bs } rfl (fun p' hp' h0 _ ho' => ?_) p
  exact put_block ho (fun e => hi (hw.apart p' q h0 e ▸ hp')) ho'

theorem put_low (hw : Whole sb s.disk (s.inode ip).d) (hq : s.at ip q ≠ 0) {x : Nat} (hx : x < dataStart sb * BSIZE) :
    s.disk.put (s.at ip q * BSIZE + o) bs x = s.disk x :=
  put_ne (Or.inl
    (Nat.lt_of_lt_of_le hx (Nat.le_trans (Nat.mul_le_mul_right _ (hw.data q hq).1) (Nat.le_add_right _ _))))

theorem put_used (hw : Whole sb s.disk (s.inode ip).d) (hq : s.at ip q ≠ 0) {c : Nat} (hc : c < sb.size) :
    used sb (s.disk.put (s.at ip q * BSIZE + o) bs) c = used sb s.disk c :=
  used_congr (put_low hw hq (byteOf_bounds hc).2)

/-- A store in a data block of the file. -/
theorem Extended.put (hw : Whole sb s.disk (s.inode ip).d) (hi : ¬ q.index) (hq : s.at ip q ≠ 0)
    (ho : o + bs.length ≤ BSIZE) :
    Extended sb ip s { s with disk := s.disk.put (s.at ip q * BSIZE + o) bs } := by
  have hat : ∀ p, _ = s.at ip p := put_at hw hi ho
  have hu : ∀ c < sb.size, Disk.used sb (s.disk.put (s.at ip q * BSIZE + o) bs) c = Disk.used sb s.disk c :=
    fun c hc => put_used hw hq hc
  refine ⟨whole_congr hw hat hu, fun p _ => hat p, fun p h0 h1 => absurd ((hat p).trans h0) h1, fun c hc => ?_,
    fun c o' hc hlt ho' _ hne => ?_,
    fun x hx => put_low hw hq ?_, (s.inode ip).d.addrs, (Function.update_eq_self ip s.inode).symm⟩
  · rw [hu c hc]
    refine ⟨Or.inl, fun h => ?_⟩
    rcases h with h | ⟨p, h0, h1, h2⟩
    · exact h
    · exact absurd (h1.symm.trans ((hat p).trans h0)) h2
  · exact put_block ho (fun e => hne q e.symm) ho'
  · exact Nat.lt_of_lt_of_le hx (Nat.mul_le_mul_right _ (Nat.le_succ_of_le (Nat.le_add_left _ _)))

/-- The bytes of the file after the store. -/
theorem put_byte (hw : Whole sb s.disk (s.inode ip).d) {off k : Nat} (hoff : off / BSIZE < MAXFILE)
    (hk : k < MAXFILE * BSIZE) (hq : s.at ip (slotOf (off / BSIZE)) ≠ 0) (ho : off % BSIZE + bs.length ≤ BSIZE) :
    St.byte { s with disk := s.disk.put (s.at ip (slotOf (off / BSIZE)) * BSIZE + off % BSIZE) bs } ip k =
      if off ≤ k ∧ k < off + bs.length then bs.getD (k - off) 0 else s.byte ip k := by
  have hkm := Nat.mod_lt k (by decide : 0 < BSIZE)
  have hkd : k / BSIZE < MAXFILE := Nat.div_lt_of_lt_mul (by rwa [Nat.mul_comm])
  have hat : St.at { s with disk := s.disk.put (s.at ip (slotOf (off / BSIZE)) * BSIZE + off % BSIZE) bs } ip
    (slotOf (k / BSIZE)) = s.at ip (slotOf (k / BSIZE)) :=
    put_at hw (slotOf_not_index _) ho (slotOf (k / BSIZE))
  unfold St.byte
  rw [hat]
  by_cases hb : k / BSIZE = off / BSIZE
  · rw [hb, if_neg hq, if_neg hq]
    -- the same block: the offsets decide
    have hpos : off ≤ k ∧ k < off + bs.length ↔ off % BSIZE ≤ k % BSIZE ∧ k % BSIZE < off % BSIZE + bs.length := by
      unfold BSIZE at *
      omega
    have hsub : k % BSIZE - off % BSIZE = k - off := by unfold BSIZE at *; omega
    show s.disk.put _ bs _ = _
    unfold Mem.put
    split
    · rename_i h
      rw [if_pos (hpos.mpr ⟨by omega, by omega⟩), ← hsub]
      congr 1
      omega
    · rename_i h
      rw [if_neg fun hp => h (by have := hpos.mp hp; omega)]
  · have hout : ¬ (off ≤ k ∧ k < off + bs.length) := fun hp => hb (by clear hk hkd hoff; unfold BSIZE at *; omega)
    rw [if_neg hout]
    split
    · rfl
    · rename_i h0
      exact put_block ho (fun e => hb (slotOf_inj hkd hoff (hw.apart _ _ h0 e))) hkm

/-! ## writei -/

/-- A source of `n` bytes of which the first `r` can be read, `f` from address `src` on: a copy
    moves what can be read of what it is asked for, and fails if that is not all. -/
def Source (copyin : Nat → Nat → Int × List UInt8) (src r n : Nat) (f : Nat → UInt8) : Prop :=
  ∀ u m, u ≤ r → u + m ≤ n → copyin (u64 (src + u)) m =
    (if u + m ≤ r then 0 else -1, (List.range (min m (r - u))).map fun i => f (u + i))

variable {copyin : Nat → Nat → Int × List UInt8} {src r N off : Nat} {f : Nat → UInt8}

theorem getD_range_map {n i : Nat} {g : Nat → UInt8} (h : i < n) : ((List.range n).map g).getD i 0 = g i := by
  simp [List.getD, h]

/-- What the loop has stored when it is done with the bytes of the source from `u` on, and how
    many of these it counts. -/
structure Stored (sb : Superblock) (ip off r : Nat) (f : Nat → UInt8) (u n tot : Nat) (s s' : St) :
    Prop extends Extended sb ip s s' where
  byte : ∀ k < MAXFILE * BSIZE, s'.byte ip k = if off + u ≤ k ∧ k < off + r then f (k - off) else s.byte ip k
  mapped : ∀ k, off + u ≤ k → k < off + r → s'.at ip (slotOf (k / BSIZE)) ≠ 0
  tot_le : u + tot ≤ r
  tot_all : r = u + n → tot = n
  tot_iff : r < u + n → ∀ i, u ≤ i → i < r → (i < u + tot ↔ (off + i) / BSIZE ≠ (off + r) / BSIZE)

theorem writeiLoop_spec (hl : Layout sb) (hc : Source copyin src r N f) : ∀ {k u n s s' tot}, n ≤ k → u ≤ r → r ≤ N →
    u + n = N →
    Whole sb s.disk (s.inode ip).d → Reserved sb s.disk → writeiLoop sb copyin ip k (u64 (src + u)) (off + u) n s =
      .ok (tot, s') →
    Stored sb ip off r f u n tot s s' := by
  intro k
  induction k with
  | zero =>
    intro u n s s' tot hn hu hrn hN hw hr e
    cases e
    obtain rfl : n = 0 := Nat.le_zero.mp hn
    exact ⟨.refl hw, fun x _ => (if_neg (by omega)).symm, fun x h1 h2 => by omega, by omega, fun _ => rfl,
      fun h => by omega⟩
  | succ k ih =>
    intro u n s s' tot hn hu hrn hN hw hr e
    unfold writeiLoop at e
    split at e
    · rename_i h0
      cases e
      exact ⟨.refl hw, fun x _ => (if_neg (by omega)).symm, fun x h1 h2 => by omega, by omega, fun _ => h0.symm,
        fun h => by omega⟩
    rename_i h0
    obtain ⟨⟨b, s1⟩, e1, e⟩ := bind_ok e
    have hlt := bmap_lt e1
    obtain ⟨g1, rfl, hb⟩ := bmap_spec hl hw hr hlt e1
    have hmod := Nat.mod_lt (off + u) (by decide : 0 < BSIZE)
    dsimp only at e
    generalize hm : min n (BSIZE - (off + u) % BSIZE) = m at e
    have hm1 : m ≤ n := by omega
    have hm2 : (off + u) % BSIZE + m ≤ BSIZE := by omega
    have hm3 : m = n ∨ (off + u) % BSIZE + m = BSIZE := by omega
    rw [hc u m hu (by omega)] at e
    dsimp only at e
    generalize hbs : (List.range (min m (r - u))).map (fun i => f (u + i)) = bs at e
    have hlen : bs.length = min m (r - u) := by rw [← hbs, List.length_map, List.length_range]
    have hfit : (off + u) % BSIZE + bs.length ≤ BSIZE := by omega
    have g2 :
      Extended sb ip s
      { s1 with disk := s1.disk.put (s1.at ip (slotOf ((off + u) / BSIZE)) * BSIZE + (off + u) % BSIZE) bs } :=
      g1.toExtended.trans (.put g1.whole (slotOf_not_index _) hb hfit)
    have hbyte : ∀ k < MAXFILE * BSIZE, St.byte
      { s1 with disk := s1.disk.put (s1.at ip (slotOf ((off + u) / BSIZE)) * BSIZE + (off + u) % BSIZE) bs } ip k =
        if off + u ≤ k ∧ k < off + u + min m (r - u) then f (k - off) else s.byte ip k := fun k hk => by
      rw [put_byte g1.whole hlt hk hb hfit, g1.byte, hlen]
      split
      · rename_i h
        rw [← hbs, getD_range_map (by omega)]
        congr 1
        omega
      · rfl
    have hat : ∀ q, _ = s1.at ip q := put_at g1.whole (slotOf_not_index ((off + u) / BSIZE)) hfit
    have hmapped : ∀ k, off + u ≤ k → k < off + u + m →
      St.at { s1 with disk := s1.disk.put (s1.at ip (slotOf ((off + u) / BSIZE)) * BSIZE + (off + u) % BSIZE) bs } ip
      (slotOf (k / BSIZE)) ≠ 0 :=
      fun k h1 h2 => by
        rw [hat, show k / BSIZE = (off + u) / BSIZE by unfold BSIZE at *; omega]
        exact hb
    generalize hs2 :
      ({ s1 with disk := s1.disk.put (s1.at ip (slotOf ((off + u) / BSIZE)) * BSIZE + (off + u) % BSIZE) bs } : St) =
      s2 at e g2 hbyte hmapped
    by_cases hok : u + m ≤ r
    · rw [if_pos hok, if_neg (by decide)] at e
      obtain ⟨⟨tot1, s3⟩, e3, e⟩ := bind_ok e
      cases e
      have hsrc : u64 (u64 (src + u) + m) = u64 (src + (u + m)) := by unfold u64; omega
      rw [hsrc, Nat.add_assoc] at e3
      have hw2 : Whole sb (St.log_write (s1.at ip (slotOf ((off + u) / BSIZE))) s2).disk
        ((St.log_write (s1.at ip (slotOf ((off + u) / BSIZE))) s2).inode ip).d := g2.whole
      have h := ih (by omega) hok hrn (by omega) hw2 (g2.reserved hl hr) e3
      have g3 : Extended sb ip s2 s3 := ⟨h.whole, h.keep, h.fresh, h.used, h.others, h.low, h.inode⟩
      refine ⟨g2.trans g3, fun k hk => ?_, fun k h1 h2 => ?_, ?_, fun e => ?_, fun hlt i h1 h2 => ?_⟩
      · rw [h.byte k hk]
        show (if _ then _ else s2.byte ip k) = _
        rw [hbyte k hk]
        split
        · rw [if_pos (by omega)]
        · split
          · rw [if_pos (by omega)]
          · rw [if_neg (by omega)]
      · by_cases hk : k < off + u + m
        · rw [g3.keep _ (hmapped k h1 hk)]
          exact hmapped k h1 hk
        · exact h.mapped k (by omega) h2
      · have := h.tot_le
        omega
      · have := h.tot_all (by omega)
        omega
      · by_cases hi : i < u + m
        · refine ⟨fun _ => ?_, fun _ => by omega⟩
          have := hm3.resolve_left (by omega)
          unfold BSIZE at *
          omega
        · have := h.tot_iff (by omega) i (by omega) h2
          rw [← this]
          omega
    · rw [if_neg hok, if_pos rfl] at e
      cases e
      have hmin : min m (r - u) = r - u := by omega
      rw [hmin] at hbyte
      refine ⟨g2, fun k hk => ?_, fun k h1 h2 => hmapped k h1 (by omega), by omega, fun e => by omega,
        fun hlt i h1 h2 => ?_⟩
      · rw [hbyte k hk, show off + u + (r - u) = off + r by omega]
      · have hsame : (off + i) / BSIZE = (off + r) / BSIZE := by unfold BSIZE at *; omega
        exact ⟨fun h => by omega, fun h => absurd hsame h⟩

/-- iupdate writes below the bitmap. -/
theorem iupdate_high (hl : Layout sb) (hi : (s.inode ip).inum < sb.ninodes) {x : Nat}
    (hx : sb.bmapstart * BSIZE ≤ x) :
    (iupdate sb ip s).disk x = s.disk x :=
  storeDinode_ne (Or.inr (Nat.le_trans (dinode_bound hl hi) hx))

theorem Extended.inum (h : Extended sb ip s s') : (s'.inode ip).inum = (s.inode ip).inum := by
  obtain ⟨a, e⟩ := h.inode
  rw [e, Function.update_self]

theorem Extended.size (h : Extended sb ip s s') : (s'.inode ip).d.size = (s.inode ip).d.size := by
  obtain ⟨a, e⟩ := h.inode
  rw [e, Function.update_self]

/-- A call of writei that did not refuse. -/
theorem writei_ok {n : Nat} {tot : Int} (hn : n < 2 ^ 32) (hoff : off < 2 ^ 32)
    (e : writei sb copyin ip src off n s = .ok (tot, s')) (h0 : 0 ≤ tot) :
    ∃ (t : Nat) (s1 : St), tot = t ∧ writeiLoop sb copyin ip n src off n s = .ok (t, s1) ∧ off ≤ (s.inode ip).d.size ∧
      off + n ≤ MAXFILE * BSIZE ∧
      s' = iupdate sb ip (if off + t > (s1.inode ip).d.size then s1.setD ip
        { (s1.inode ip).d with size := off + t } else s1) := by
  unfold writei at e
  split at e
  · cases e
    exact absurd h0 (by decide)
  rename_i h1
  have hsum : u32 (off + n) = off + n := Nat.mod_eq_of_lt (by unfold u32 at h1; omega)
  rw [hsum] at e
  split at e
  · cases e
    exact absurd h0 (by decide)
  rename_i h2
  obtain ⟨⟨t, s1⟩, e1, e⟩ := bind_ok e
  cases e
  exact ⟨t, s1, rfl, e1, by omega, by omega, rfl⟩

/-- What writei has done: the file's bytes, its size, and what it returns. -/
structure Wrote (sb : Superblock) (ip off r : Nat) (f : Nat → UInt8) (n tot : Nat) (s s' : St) : Prop where
  whole : Whole sb s'.disk (s'.inode ip).d
  reserved : Reserved sb s'.disk
  inode : s'.inode = Function.update s.inode ip { s.inode ip with d := (s'.inode ip).d }
  size : (s'.inode ip).d.size = max (s.inode ip).d.size (off + tot)
  byte : ∀ k < MAXFILE * BSIZE, s'.byte ip k = if off ≤ k ∧ k < off + r then f (k - off) else s.byte ip k
  mapped : ∀ k, off ≤ k → k < off + r → s'.at ip (slotOf (k / BSIZE)) ≠ 0
  keep : ∀ q, s.at ip q ≠ 0 → s'.at ip q = s.at ip q
  head : (s'.inode ip).d = { (s.inode ip).d with size := (s'.inode ip).d.size, addrs := (s'.inode ip).d.addrs }
  stored : ∃ s1, Extended sb ip s s1 ∧ s'.disk = storeDinode s1.disk (dinode sb (s.inode ip).inum) (s'.inode ip).d
  start : off ≤ (s.inode ip).d.size
  fits : off + n ≤ MAXFILE * BSIZE
  tot_le : tot ≤ r
  tot_all : r = n → tot = n
  tot_iff : r < n → ∀ i < r, i < tot ↔ (off + i) / BSIZE ≠ (off + r) / BSIZE

theorem writei_spec (hl : Layout sb) (hw : Whole sb s.disk (s.inode ip).d) (hr : Reserved sb s.disk)
    (hi : (s.inode ip).inum < sb.ninodes)
    {n : Nat} {tot : Int} (hc : Source copyin src r n f) (hsrc : src < 2 ^ 64) (hn : n < 2 ^ 32) (hoff : off < 2 ^ 32)
    (hrn : r ≤ n) (e : writei sb copyin ip src off n s = .ok (tot, s')) (h0 : 0 ≤ tot) : ∃ t :
      Nat, tot = t ∧ Wrote sb ip off r f n t s s' := by
  obtain ⟨t, s1, ht, e1, h1, h2, rfl⟩ := writei_ok hn hoff e h0
  have hsrc0 : u64 (src + 0) = src := Nat.mod_eq_of_lt hsrc
  have e2 : writeiLoop sb copyin ip n (u64 (src + 0)) (off + 0) n s = .ok (t, s1) := by rw [hsrc0]; exact e1
  have h := writeiLoop_spec hl hc (Nat.le_refl n) (Nat.zero_le r) hrn (Nat.zero_add n) hw hr e2
  generalize hs2 :
    (if off + t > (s1.inode ip).d.size then s1.setD ip { (s1.inode ip).d with size := off + t } else s1) = s2
  -- the size, and besides nothing
  have hs : s2.disk = s1.disk ∧ (s2.inode ip).inum = (s1.inode ip).inum ∧
    (s2.inode ip).d.addrs = (s1.inode ip).d.addrs ∧
      (s2.inode ip).d.size = max (s1.inode ip).d.size (off + t) ∧
        s2.inode = Function.update s1.inode ip { s1.inode ip with d := (s2.inode ip).d } ∧
      (s2.inode ip).d = { (s1.inode ip).d with size := (s2.inode ip).d.size } := by
    rw [← hs2]
    split
    · rename_i hlt
      unfold St.setD
      rw [setInode_self]
      exact ⟨rfl, rfl, rfl, by dsimp only; omega, rfl, rfl⟩
    · exact ⟨rfl, rfl, rfl, by omega, (Function.update_eq_self ip s1.inode).symm, rfl⟩
  obtain ⟨hd, hinum, haddrs, hsize, hinode, hhead⟩ := hs
  have hhigh : ∀ x, sb.bmapstart * BSIZE ≤ x → (iupdate sb ip s2).disk x = s1.disk x := fun x hx =>
    (iupdate_high hl (by rw [hinum, h.inum]; exact hi) hx).trans (congrFun hd x)
  obtain ⟨hat, hwhole, hbyte⟩ : (∀ q, (iupdate sb ip s2).at ip q = s1.at ip q) ∧
    Whole sb (iupdate sb ip s2).disk ((iupdate sb ip s2).inode ip).d ∧
      ∀ k, (iupdate sb ip s2).byte ip k = s1.byte ip k := high_congr h.whole haddrs hhigh
  refine ⟨t, ht, hwhole, fun c hc => ?_, ?_, ?_, fun k hk => ?_, fun k hk1 hk2 => ?_,
    fun q hq => (hat q).trans (h.keep q hq), ?_, ⟨s1, h.toExtended, ?_⟩, h1, h2, ?_,
    fun e => h.tot_all (by omega), fun hlt i hi => ?_⟩
  · rw [used_congr (hhigh _ (byteOf_bounds (Nat.lt_of_lt_of_le hc hl.data)).1)]
    exact h.toExtended.reserved hl hr c hc
  · show s2.inode = _
    obtain ⟨a, ha⟩ := h.inode
    rw [hinode, ha, Function.update_idem, Function.update_self]
    rfl
  · show (s2.inode ip).d.size = _
    rw [hsize, h.toExtended.size]
  · rw [hbyte]
    exact h.byte k hk
  · rw [hat]
    exact h.mapped k hk1 hk2
  · obtain ⟨a, ha⟩ := h.inode
    show (s2.inode ip).d = { (s.inode ip).d with size := (s2.inode ip).d.size, addrs := (s2.inode ip).d.addrs }
    rw [hhead, ha, Function.update_self]
  · show storeDinode s2.disk (dinode sb (s2.inode ip).inum) (s2.inode ip).d = _
    rw [hd, hinum, h.inum]
    rfl
  · have := h.tot_le
    omega
  · have := h.tot_iff (by omega) i (Nat.zero_le _) hi
    rw [Nat.zero_add] at this
    exact this

/-- No block in use comes to the file. -/
theorem writei_apart (hl : Layout sb) (hw : Whole sb s.disk (s.inode ip).d) (hr : Reserved sb s.disk)
    (hi : (s.inode ip).inum < sb.ninodes)
    {n : Nat} {tot : Int} (hc : Source copyin src r n f) (hsrc : src < 2 ^ 64) (hn : n < 2 ^ 32) (hoff : off < 2 ^ 32)
    (hrn : r ≤ n)
    (e : writei sb copyin ip src off n s = .ok (tot, s')) (h0 : 0 ≤ tot) {c : Nat} (hu : used sb s.disk c = true)
    (hc0 : c ≠ 0) (hq : ∀ q, s.at ip q ≠ c) (q : Slot) : s'.at ip q ≠ c := by
  obtain ⟨t, s1, -, e1, -, -, rfl⟩ := writei_ok hn hoff e h0
  have hsrc0 : u64 (src + 0) = src := Nat.mod_eq_of_lt hsrc
  have e2 : writeiLoop sb copyin ip n (u64 (src + 0)) (off + 0) n s = .ok (t, s1) := by rw [hsrc0]; exact e1
  have h := writeiLoop_spec hl hc (Nat.le_refl n) (Nat.zero_le r) hrn (Nat.zero_add n) hw hr e2
  have hs : ∀ s2,
    s2 = (if off + t > (s1.inode ip).d.size then s1.setD ip { (s1.inode ip).d with size := off + t } else s1) →
      s2.disk = s1.disk ∧ (s2.inode ip).inum = (s1.inode ip).inum ∧
        (s2.inode ip).d.addrs = (s1.inode ip).d.addrs := by
    rintro _ rfl
    split
    · unfold St.setD
      rw [setInode_self]
      exact ⟨rfl, rfl, rfl⟩
    · exact ⟨rfl, rfl, rfl⟩
  have hat : ∀ s2, s2.disk = s1.disk ∧ (s2.inode ip).inum = (s1.inode ip).inum ∧
    (s2.inode ip).d.addrs = (s1.inode ip).d.addrs →
      (iupdate sb ip s2).at ip q = s1.at ip q := fun s2 ⟨hd, hinum, haddrs⟩ => by
    have haddrs' : ((iupdate sb ip s2).inode ip).d.addrs = (s1.inode ip).d.addrs := haddrs
    exact (high_congr h.whole haddrs' fun x hx =>
      (iupdate_high hl (by rw [hinum, h.inum]; exact hi) hx).trans (congrFun hd x)).1 q
  rw [hat _ (hs _ rfl)]
  exact h.toExtended.apart hu hc0 hq q

end

end Xv6Labs.Fs.Disk
