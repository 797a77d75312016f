/-
  Xv6Labs.Fs.Chunks — a write in pieces is one write.

  filewrite writes at most `maxPiece` bytes at a time, at the offset of the file, which each piece
  moves on by what writei counted. A source that ends early ends the last piece early: its bytes
  of the block in which the source ends are moved and not counted, as by any writei.

  - `filewriteLoop_spec`: what is written and counted after any number of pieces.
  - `chunks_are_one_write`: the result, the offset and the file afterwards; if the source can be
    read and the file may be that long, as after a single writei.
-/

import Xv6Labs.Fs.Directory
import Xv6Labs.Fs.Filewrite

namespace Xv6Labs.Fs.Disk

open Lib

section

variable {sb : Superblock} {ip : Nat} {s s' s0 s1 t : St} {copyin : Nat → Nat → Int × List UInt8}
    {addr src off n r N i k : Nat} {f : Nat → UInt8} {r' : Int}

/-! ## One piece -/

/-- A part of a source. -/
theorem Source.sub (h : Source copyin src r N f) (hi : i ≤ r) (hk : i + k ≤ N) :
    Source copyin (u64 (src + i)) (min k (r - i)) k fun j => f (i + j) := by
  intro u m hu hm
  have haddr : u64 (u64 (src + i) + u) = u64 (src + (i + u)) := by unfold u64; omega
  have hmin : min m (r - (i + u)) = min m (min k (r - i) - u) := by omega
  rw [haddr, h (i + u) m (by omega) (by omega), hmin]
  congr 1
  · exact if_congr (by omega) rfl rfl
  · exact List.map_congr_left fun j _ => by rw [Nat.add_assoc]

/-- The only panic of writei. -/
theorem writei_error {m : String} (hn : n < 2 ^ 32) (e : writei sb copyin ip src off n s = .error m) :
    m = "balloc: out of blocks" := by
  have hloop : ∀ {k src off n s}, off + n ≤ MAXFILE * BSIZE → writeiLoop sb copyin ip k src off n s = .error m →
    m = "balloc: out of blocks" := by
    intro k
    induction k with
    | zero =>
      intro src off n s _ e
      cases e
    | succ k ih =>
      intro src off n s hfit e
      unfold writeiLoop at e
      split at e
      · cases e
      rename_i h0
      rcases bind_error e with e | ⟨⟨b, s1⟩, -, e⟩
      · exact bmap_error (Nat.div_lt_of_lt_mul (by rw [Nat.mul_comm]; omega)) e
      dsimp only at e
      split at e
      · cases e
      rcases bind_error e with e | ⟨⟨tot, s2⟩, -, e⟩
      · exact ih (by omega) e
      · cases e
  unfold writei at e
  split at e
  · cases e
  rename_i h1
  have hsum : u32 (off + n) = off + n := by unfold u32 at h1 ⊢; omega
  split at e
  · cases e
  rename_i h2
  rcases bind_error e with e | ⟨⟨tot, s1⟩, -, e⟩
  · exact hloop (by omega) e
  · cases e

/-! ## The pieces so far -/

/-- Locked or not, a file has its bytes. -/
theorem byte_locked (hd : s'.disk = s.disk) {b : Bool} (hi : s'.inode ip = { s.inode ip with lock := b }) (x : Nat) :
    s'.byte ip x = s.byte ip x := by
  unfold St.byte St.at
  rw [hd, hi]

theorem byte_setLock (b : Bool) (x : Nat) :
    (s.setInode ip { s.inode ip with lock := b }).byte ip x = s.byte ip x := by
  have hd : (s.setInode ip { s.inode ip with lock := b }).disk = s.disk := rfl
  exact byte_locked hd (setInode_self ..) x

/-- `c` bytes are counted and `w` are written, from offset `off` on; the file is open and
    unlocked. -/
structure Partway (sb : Superblock) (ip off : Nat) (f : Nat → UInt8) (s0 : St) (c w : Nat) (s : St) : Prop where
  good : Good sb ip s
  ref : 0 < (s.inode ip).ref
  lock : (s.inode ip).lock = false
  size : (s.inode ip).d.size = if c = 0 then (s0.inode ip).d.size else max (s0.inode ip).d.size (off + c)
  fits : c = 0 ∨ off + c ≤ MAXFILE * BSIZE
  byte : ∀ k < MAXFILE * BSIZE, s.byte ip k = if off ≤ k ∧ k < off + w then f (k - off) else s0.byte ip k

theorem Partway.ilock {c w : Nat} (h : Partway sb ip off f s0 c w s) :
    ∃ s1, ilock sb ip { s with log := [] } = .ok s1 ∧ s1.disk = s.disk ∧
      s1.inode ip = { s.inode ip with lock := true } := by
  have hv : ({ s with log := [] } : St).inode ip = s.inode ip := rfl
  unfold Disk.ilock
  dsimp only
  rw [hv, if_neg (by have := h.ref; omega), h.lock, if_neg (by decide), if_pos h.good.valid]
  exact ⟨_, rfl, rfl, setInode_self ..⟩

/-- writei did nothing. -/
theorem writei_refused (e : writei sb copyin ip src off n s = .ok (r', s')) (h : ¬ 0 ≤ r') :
    s' = s ∧ r' = -1 ∧ ¬ (off ≤ (s.inode ip).d.size ∧ off + n ≤ MAXFILE * BSIZE) := by
  unfold writei at e
  split at e
  · rename_i h1
    cases e
    refine ⟨rfl, rfl, fun hc => ?_⟩
    simp only [MAXFILE, NINDIRECT2, NDIRECT, NINDIRECT, BSIZE] at hc
    unfold u32 at h1
    omega
  rename_i h1
  split at e
  · rename_i h2
    cases e
    refine ⟨rfl, rfl, fun hc => ?_⟩
    unfold u32 at h1 h2
    omega
  obtain ⟨⟨t, s1⟩, -, e⟩ := bind_ok e
  cases e
  exact absurd (Int.natCast_nonneg t) h

/-- The lock is given back. -/
theorem Partway.unlock {c w : Nat} (h : Partway sb ip off f s0 c w s)
    (e1 : Disk.ilock sb ip { s with log := [] } = .ok s1) (hd : s1.disk = s.disk)
    (hs : s1.inode ip = { s.inode ip with lock := true }) : ∃ u, iunlock ip s1 = .ok u ∧
      Partway sb ip off f s0 c w u := by
  obtain ⟨hg1, -⟩ := Good.ilock (s := { s with log := [] }) (h.good.congr rfl rfl rfl rfl) e1
  have hrefpos := h.ref
  have e3 : iunlock ip s1 = .ok (s1.setInode ip { s1.inode ip with lock := false }) := by
    unfold iunlock
    refine if_neg fun hno => ?_
    rw [hs] at hno
    exact hno.elim (by simp) (by dsimp only; omega)
  refine ⟨_, e3, ⟨hg1.iunlock e3, ?_, ?_, ?_, h.fits, fun x hx => ?_⟩⟩
  · rw [setInode_self, hs]
    exact hrefpos
  · rw [setInode_self]
  · rw [setInode_self, hs]
    exact h.size
  · rw [byte_setLock, byte_locked hd hs]
    exact h.byte x hx

/-- The next piece, of `k` bytes. -/
theorem Partway.next (hl : Layout sb) (h : Partway sb ip off f s0 i i s) (hc : Source copyin addr r N f) (hi : i ≤ r)
    (hk : i + k ≤ N) (hkm : k < 2 ^ 32)
    (hoff : off + i < 2 ^ 32) (e1 : Disk.ilock sb ip { s with log := [] } = .ok s1) (hd : s1.disk = s.disk)
    (hs : s1.inode ip = { s.inode ip with lock := true })
    {tot : Nat} (e2 : writei sb copyin ip (u64 (addr + i)) (off + i) k s1 = .ok ((tot : Int), t)) :
    ∃ u, iunlock ip t = .ok u ∧ Partway sb ip off f s0 (i + tot) (i + min k (r - i)) u ∧ tot ≤ min k (r - i) ∧
      (min k (r - i) = k → tot = k) ∧
      off + i ≤ (s.inode ip).d.size ∧ off + i + k ≤ MAXFILE * BSIZE := by
  have hsub := hc.sub hi hk
  have hsrc : u64 (addr + i) < 2 ^ 64 := Nat.mod_lt _ (by decide)
  obtain ⟨hg1, -⟩ := Good.ilock (s := { s with log := [] }) (h.good.congr rfl rfl rfl rfl) e1
  obtain ⟨tot', ht, w⟩ := writei_spec hl hg1.whole hg1.reserved hg1.inum hsub hsrc hkm hoff (Nat.min_le_left _ _) e2
    (Int.natCast_nonneg tot)
  obtain rfl : tot = tot' := Int.ofNat.inj ht
  have hti : t.inode ip = { s.inode ip with lock := true, d := (t.inode ip).d } := by
    have := congrFun w.inode ip
    rwa [Function.update_self, hs] at this
  have hrefpos := h.ref
  have e3 : iunlock ip t = .ok (t.setInode ip { t.inode ip with lock := false }) := by
    unfold iunlock
    refine if_neg fun hno => ?_
    rw [hti] at hno
    exact hno.elim (by simp) (by dsimp only; omega)
  have hsize := w.size
  have hstart := w.start
  rw [hs] at hsize hstart
  dsimp only at hsize hstart
  have hfits := w.fits
  have htot := w.tot_le
  refine ⟨_, e3, ⟨(hg1.writei hl hsub hsrc hkm hoff (Nat.min_le_left _ _) e2).iunlock e3, ?_, ?_, ?_, by omega,
    fun x hx => ?_⟩, htot, w.tot_all, hstart, hfits⟩
  · rw [setInode_self]
    dsimp only
    rw [hti]
    exact hrefpos
  · rw [setInode_self]
  · rw [setInode_self]
    show (t.inode ip).d.size = _
    have hcur := h.size
    rw [hsize]
    split at hcur <;> split <;> omega
  · rw [byte_setLock, w.byte x hx, byte_locked hd hs, h.byte x hx]
    by_cases h1 : off + i ≤ x ∧ x < off + i + min k (r - i)
    · rw [if_pos h1, if_pos (by omega)]
      congr 1
      omega
    · rw [if_neg h1]
      exact if_congr (by omega) rfl rfl

/-! ## The loop -/

variable (sb copyin ip) in
/-- What writei returned. -/
def Op.result (c : Op) : Int :=
  match writei sb copyin ip c.src c.off c.n c.before with
  | .ok (r, _) => r
  | .error _ => 0

variable (sb copyin ip) in
/-- How many bytes writei counted. -/
def writtenBy (ops : List Op) : Nat := (ops.map fun c => (c.result sb ip copyin).toNat).sum

/-- How a run of the loop ends, that began when `i` bytes were written: with all of them, or with
    a piece that writei did not complete. -/
structure Pieces (sb : Superblock) (copyin : Nat → Nat → Int × List UInt8) (ip off r N : Nat) (f : Nat → UInt8)
    (s0 : St) (i i' off' : Nat) (ops : List Op) (s' : St) : Prop where
  partway : ∃ w ≤ r, i + writtenBy sb ip copyin ops ≤ w ∧ Partway sb ip off f s0 (i + writtenBy sb ip copyin ops) w s'
  offset : off' = off + (i + writtenBy sb ip copyin ops)
  ends : (i' = N ∧ i + writtenBy sb ip copyin ops = N ∧ ∀ c ∈ ops, c.result sb ip copyin = c.n) ∨
    (i' < N ∧ (∃ c ∈ ops, c.result sb ip copyin ≠ c.n) ∧
      ¬ (r = N ∧ off ≤ (s0.inode ip).d.size ∧ off + N ≤ MAXFILE * BSIZE))

theorem writtenBy_cons (c : Op) (ops : List Op) :
    writtenBy sb ip copyin (c :: ops) = (c.result sb ip copyin).toNat + writtenBy sb ip copyin ops := by
  unfold writtenBy
  rw [List.map_cons, List.sum_cons]

/-- Nothing is left to write. -/
theorem Pieces.done (h : Partway sb ip off f s0 i i s) (hi : i ≤ r) (hN : i = N) :
    Pieces sb copyin ip off r N f s0 i i (off + i) [] s :=
  ⟨⟨i, hi, Nat.le_refl i, h⟩, rfl, Or.inl ⟨hN, hN, fun _ hc => absurd hc List.not_mem_nil⟩⟩

/-- A piece that writei completed. -/
theorem Pieces.cons {c : Op} {i' off' : Nat} {ops : List Op} (hres : c.result sb ip copyin = c.n)
    (h : Pieces sb copyin ip off r N f s0 (i + c.n) i' off' ops s') :
    Pieces sb copyin ip off r N f s0 i i' off' (c :: ops) s' := by
  have hsum : i + writtenBy sb ip copyin (c :: ops) = i + c.n + writtenBy sb ip copyin ops := by
    rw [writtenBy_cons, hres, Int.toNat_natCast, Nat.add_assoc]
  refine ⟨by rw [hsum]; exact h.partway, by rw [hsum]; exact h.offset, ?_⟩
  rw [hsum]
  refine h.ends.imp (fun ⟨h1, h2, h3⟩ => ⟨h1, h2, fun d hd => ?_⟩) fun ⟨h1, ⟨d, hd, hne⟩, h3⟩ =>
    ⟨h1, ⟨d, List.mem_cons_of_mem _ hd, hne⟩, h3⟩
  rcases List.mem_cons.mp hd with rfl | hd
  · exact hres
  · exact h3 d hd

/-- One that it did not complete. -/
theorem Pieces.failed {c : Op} {tot w : Nat} (hres : (c.result sb ip copyin).toNat = tot)
    (hne : c.result sb ip copyin ≠ c.n) (h : Partway sb ip off f s0 (i + tot) w s)
    (hw : w ≤ r) (htw : i + tot ≤ w) (hlt : i < N)
    (hno : ¬ (r = N ∧ off ≤ (s0.inode ip).d.size ∧ off + N ≤ MAXFILE * BSIZE)) :
    Pieces sb copyin ip off r N f s0 i i (off + (i + tot)) [c] s := by
  have hsum : writtenBy sb ip copyin [c] = tot := by
    rw [writtenBy_cons, hres]
    rfl
  exact ⟨⟨w, hw, by rw [hsum]; exact htw, by rw [hsum]; exact h⟩, by rw [hsum],
    Or.inr ⟨hlt, ⟨c, List.mem_singleton.mpr rfl, hne⟩, hno⟩⟩

theorem filewriteLoop_spec (hl : Layout sb) (hc : Source copyin addr r N f) (hrN : r ≤ N) :
    ∀ {m i s}, N - i ≤ m → i ≤ r → off + i < 2 ^ 32 →
    Partway sb ip off f s0 i i s →
    (∀ msg, filewriteLoop sb copyin ip addr N m i (off + i) s = .error msg → msg = "balloc: out of blocks" ∧
      freeCount sb s < 3 * (N - i)) ∧
    ∀ i' off' ops s', filewriteLoop sb copyin ip addr N m i (off + i) s = .ok (i', off', ops, s') →
      Pieces sb copyin ip off r N f s0 i i' off' ops s' := by
  intro m
  induction m with
  | zero =>
    intro i s hm hi hoff h
    refine ⟨fun msg e => (by cases e), fun i' off' ops s' e => ?_⟩
    cases e
    exact .done h hi (by omega)
  | succ m ih =>
    intro i s hm hi hoff h
    unfold filewriteLoop
    split
    · rename_i hlt
      dsimp only
      generalize hk : min (N - i) maxPiece = k
      have hmax : maxPiece = 3072 := rfl
      obtain ⟨s1, e1, hd, hs⟩ := h.ilock
      obtain ⟨hg1, -⟩ := Good.ilock (s := { s with log := [] }) (h.good.congr rfl rfl rfl rfl) e1
      have hfree : freeCount sb s1 = freeCount sb s := freeCount_congr fun c _ => by rw [hd]
      have hsub := hc.sub hi (by omega : i + k ≤ N)
      have hsrc : u64 (addr + i) < 2 ^ 64 := Nat.mod_lt _ (by decide)
      rw [e1, ok_bind]
      cases e2 : writei sb copyin ip (u64 (addr + i)) (off + i) k s1 with
      | error msg =>
        refine ⟨fun msg' e => ?_, fun i' off' ops s' e => (by cases e)⟩
        cases e
        have hshort := writei_short hl hg1.whole hg1.reserved hg1.inum hsub hsrc hoff (by omega)
          (Nat.min_le_left _ _) e2
        exact ⟨writei_error (by omega) e2, by omega⟩
      | ok a =>
        obtain ⟨tot, t⟩ := a
        rw [ok_bind]
        dsimp only
        have hres : Op.result sb ip copyin ⟨u64 (addr + i), off + i, k, s1, t⟩ = tot := by
          unfold Op.result
          rw [e2]
        by_cases h0 : 0 ≤ tot
        · obtain ⟨T, rfl⟩ := Int.eq_ofNat_of_zero_le h0
          obtain ⟨u, e3, hp, hle, hall, hstart, hfits⟩ := h.next hl hc hi (by omega) (by omega) hoff e1 hd hs e2
          have hbound : off + i + k < 2 ^ 32 := by
            simp only [MAXFILE, NINDIRECT2, NDIRECT, NINDIRECT, BSIZE] at hfits; omega
          have hoff' : (if 0 < (T : Int) then u32 (off + i + (T : Int).toNat) else off + i) = off + (i + T) := by
            rw [Int.toNat_natCast]
            split
            · exact (Nat.mod_eq_of_lt (by omega)).trans (Nat.add_assoc ..)
            · omega
          rw [e3, ok_bind, hoff']
          by_cases hT : T = k
          · -- the piece is complete
            subst hT
            have hmin : min T (r - i) = T := by omega
            rw [hmin] at hp
            rw [if_neg (fun hne => hne rfl)]
            have htook := writei_free hl hg1.whole hg1.reserved hg1.inum hsub hsrc hoff (by omega)
              (Nat.min_le_left _ _) e2
            have hkeep : freeCount sb u = freeCount sb t := freeCount_congr fun c _ => by rw [iunlock_disk e3]
            obtain ⟨herr, hok⟩ := @ih (i + T) u (by omega) (by omega) (by omega) hp
            refine ⟨fun msg e => ?_, fun i' off' ops s' e => ?_⟩
            · rcases bind_error e with e | ⟨a, -, e⟩
              · obtain ⟨hmsg, hshort⟩ := herr msg e
                exact ⟨hmsg, by omega⟩
              · cases e
            obtain ⟨⟨i1, off1, ops1, s2⟩, e4, e⟩ := bind_ok e
            cases e
            exact .cons hres (hok _ _ _ _ e4)
          · -- the source ends in it
            rw [if_pos (by omega)]
            refine ⟨fun msg e => (by cases e), fun i' off' ops s' e => ?_⟩
            cases e
            exact .failed (by rw [hres, Int.toNat_natCast]) (by rw [hres]; dsimp only; omega) hp (by omega)
              (by omega) hlt fun hc => hT (hall (by omega))
        · -- writei refused it
          obtain ⟨ht, rfl, hno⟩ := writei_refused e2 h0
          subst ht
          obtain ⟨u, e3, hp⟩ := h.unlock e1 hd hs
          rw [e3, ok_bind, if_pos (show (-1 : Int) ≠ (k : Int) by omega), if_neg (show ¬ (0 : Int) < -1 by decide)]
          refine ⟨fun msg e => (by cases e), fun i' off' ops s' e => ?_⟩
          cases e
          have hzero : (Op.result sb ip copyin ⟨u64 (addr + i), off + i, k, t, t⟩).toNat = 0 := by
            rw [hres]
            rfl
          refine .failed hzero (by rw [hres]; dsimp only; omega) hp hi (Nat.le_refl i) hlt fun hc => hno ?_
          have hsize := h.size
          rw [hs]
          dsimp only
          split at hsize <;> omega
    · rename_i hge
      refine ⟨fun msg e => (by cases e), fun i' off' ops s' e => ?_⟩
      cases e
      exact .done h hi (by omega)

/-! ## filewrite -/

variable {κ : Type} {A : Lab κ} {pt : Nat} {m : Mach κ}

/-- How a call of filewrite for `n` bytes at offset `off` ends. -/
structure Chunked (sb : Superblock) (copyin : Nat → Nat → Int × List UInt8) (ip addr off r n : Nat) (f : Nat → UInt8)
    (s : St) (ret : Int) (off' : Nat) (ops : List Op) (s' : St) : Prop where
  fails : (∃ c ∈ ops, c.result sb ip copyin ≠ c.n) → ret = -1
  offset : off' = off + writtenBy sb ip copyin ops
  bytes : ∀ k, off ≤ k → k < off' → s'.byte ip k = f (k - off)
  rest : ∀ k < MAXFILE * BSIZE, k < off ∨ off + r ≤ k → s'.byte ip k = s.byte ip k
  size : (s'.inode ip).d.size = if off' = off then (s.inode ip).d.size else max (s.inode ip).d.size off'
  all : r = n → off ≤ (s.inode ip).d.size → off + n ≤ MAXFILE * BSIZE → ret = n ∧ off' = off + n ∧
    ((writei sb copyin ip addr off n s = .error "balloc: out of blocks" ∧ freeCount sb s < 3 * n) ∨ ∃ s1,
      writei sb copyin ip addr off n s = .ok ((n : Int), s1) ∧
      (s'.inode ip).d.size = (s1.inode ip).d.size ∧ ∀ k < MAXFILE * BSIZE, s'.byte ip k = s1.byte ip k)

theorem Pieces.chunked (hl : Layout sb) (h : Good sb ip s) (hc : Source copyin addr r n f) (ha : addr < 2 ^ 64)
    (hoff : off < 2 ^ 32) (hn : n < 2 ^ 31) (hrn : r ≤ n)
    {i' off' : Nat} {ops : List Op} (hp : Pieces sb copyin ip off r n f s 0 i' off' ops s') :
    Chunked sb copyin ip addr off r n f s (if (i' : Int) = n then n else -1) off' ops s' := by
  obtain ⟨w, hw, hcw, hpart⟩ := hp.partway
  have hoffset := hp.offset
  have hends := hp.ends
  rw [Nat.zero_add] at hcw hpart hoffset hends
  have hfits := hpart.fits
  have hsize := hpart.size
  refine ⟨fun ⟨c, hc, hne⟩ => ?_, hoffset, fun k h1 h2 => ?_, fun k hk ho => ?_, ?_, fun hr hstart hfit => ?_⟩
  · rcases hends with ⟨-, -, hall⟩ | ⟨hlt, -⟩
    · exact absurd (hall c hc) hne
    · exact if_neg (by omega)
  · rw [hpart.byte k (by omega), if_pos (by omega)]
  · rw [hpart.byte k hk, if_neg (by omega)]
  · split at hsize <;> split <;> omega
  · obtain ⟨rfl, hcount, -⟩ := hends.resolve_right fun hf => hf.2.2 ⟨hr, hstart, hfit⟩
    refine ⟨if_pos rfl, by omega, ?_⟩
    cases e : writei sb copyin ip addr off i' s with
    | error msg => exact Or.inl ⟨by rw [writei_error (by omega) e],
        writei_short hl h.whole h.reserved h.inum hc ha hoff (by omega) hrn e⟩
    | ok a =>
      obtain ⟨tot, s1⟩ := a
      by_cases h0 : 0 ≤ tot
      · obtain ⟨T, rfl, hwrote⟩ := writei_spec hl h.whole h.reserved h.inum hc ha (by omega) hoff hrn e h0
        obtain rfl := hwrote.tot_all hr
        refine Or.inr ⟨s1, rfl, ?_, fun k hk => ?_⟩
        · rw [hwrote.size]
          split at hsize <;> omega
        · rw [hwrote.byte k hk, hpart.byte k hk]
          exact if_congr (by omega) rfl rfl
      · exact absurd ⟨hstart, hfit⟩ (writei_refused e h0).2.2

/-- filewrite of an open file, with three free blocks for each byte: if a piece is not completed the
    result is -1, and the offset moves by what was counted. If all can be read, and the file can be
    that long, all is written as by one writei. -/
theorem chunks_are_one_write (hl : Layout sb) (h : Good sb ip s) (href : 0 < (s.inode ip).ref)
    (hlock : (s.inode ip).lock = false) (ha : addr < 2 ^ 64) (hoff : off < 2 ^ 32) (hn : n < 2 ^ 31) :
    (filewrite sb (either_copyin A pt m) ip addr true n off s = .error "balloc: out of blocks" ∧
      freeCount sb s < 3 * n) ∨
    ∃ ret off' ops s', filewrite sb (either_copyin A pt m) ip addr true n off s = .ok (ret, off', ops, s') ∧
      Chunked sb (either_copyin A pt m) ip addr off (Vm.readable m.mem pt addr n) n
        (sourceByte pt m addr) s ret off' ops s' := by
  have hc := source_user A pt m addr n
  have hrn := Vm.readable_le m.mem pt addr n
  have hstart : Partway sb ip off (sourceByte pt m addr) s 0 0 s :=
    ⟨h, href, hlock, rfl, Or.inl rfl, fun k _ => (if_neg (by omega)).symm⟩
  obtain ⟨herr, hok⟩ := @filewriteLoop_spec _ _ _ _ _ _ _ _ _ hl hc hrn n 0 s (Nat.sub_le n 0) (Nat.zero_le _)
    (by omega) hstart
  unfold filewrite
  rw [if_neg (by decide), Int.toNat_natCast]
  cases e : filewriteLoop sb (either_copyin A pt m) ip addr n n 0 off s with
  | error msg =>
    obtain ⟨rfl, hshort⟩ := herr msg e
    exact Or.inl ⟨rfl, hshort⟩
  | ok a =>
    obtain ⟨i', off', ops, s'⟩ := a
    exact Or.inr ⟨_, _, _, _, rfl, (hok _ _ _ _ e).chunked hl h hc ha hoff hn hrn⟩

end

def oneFile : St := oneBlock.setInode 0 { oneBlock.inode 0 with lock := false }

/-- A page is written in two pieces. -/
theorem chunks_are_one_write_page : ∃ ops s',
    filewrite smallDisk (either_copyin (Plain.lab image false) 4096 onePage) 0 0 true (4096 : Nat) 8 oneFile =
      .ok (4096, 4104, ops, s') ∧
    ops.length = 2 ∧
    Chunked smallDisk (either_copyin (Plain.lab image false) 4096 onePage) 0 0 8
      (Vm.readable onePage.mem 4096 0 4096) 4096 (sourceByte 4096 onePage 0) oneFile 4096 4104 ops s' := by
  have hgood : Good smallDisk 0 oneFile := ⟨oneBlock_whole, oneBlock_reserved, by decide, rfl⟩
  have hrun : opCount (filewrite smallDisk (either_copyin (Plain.lab image false) 4096 onePage) 0 0 true
    (4096 : Nat) 8 oneFile) = some 2 := by decide +kernel
  have hmain := @chunks_are_one_write smallDisk 0 oneFile 0 8 4096 _
    (Plain.lab image false) 4096 onePage smallDisk_layout hgood (by decide) rfl (by decide) (by decide)
    (by decide)
  rcases hmain with ⟨e, -⟩ | ⟨ret, off', ops, s', e, hc⟩
  · rw [e] at hrun
    cases hrun
  · obtain ⟨rfl, rfl, -⟩ := hc.all (onePage_readable (Nat.le_refl _)) (by decide) (by decide)
    rw [e] at hrun
    exact ⟨ops, s', e, Option.some.inj hrun, hc⟩

/-- A file that is not open for writing. -/
theorem unwritable_refused : Vm.readable onePage.mem 4096 0 4 = 4 ∧ 8 ≤ (oneFile.inode 0).d.size ∧
    8 + 4 ≤ MAXFILE * BSIZE ∧
    filewrite smallDisk (either_copyin (Plain.lab image false) 4096 onePage) 0 0 false (4 : Nat) 8 oneFile =
      .ok (-1, 8, [], oneFile) :=
  ⟨onePage_readable (by decide), by decide, by decide, rfl⟩

end Xv6Labs.Fs.Disk
