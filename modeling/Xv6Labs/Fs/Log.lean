/-
  Xv6Labs.Fs.Log — the blocks that a write logs.

  `Tally`: what is in the log when the slots of `V` were visited and the data blocks in those of
  `D` stored, told from the state before: new blocks with their bitmap blocks and the index
  blocks that they were entered in, and the data.

  - `writeiLoop_tally`: a write visits the slots on the way to its blocks.
  - `first_free`: the blocks that it takes are the first free ones.
-/

import Xv6Labs.Lib.Lists
import Xv6Labs.Fs.File
import Mathlib.Data.Finset.Union
import Mathlib.Data.Finset.Option

namespace Xv6Labs.Fs.Disk

open Lib

section

variable {sb : Superblock} {ip : Nat} {s0 s s' s1 : St} {V D : Set Slot} {p : Slot} {b : Nat}

structure Tally (sb : Superblock) (ip : Nat) (V D : Set Slot) (s0 s : St) : Prop where
  ext : Extended sb ip s0 s
  here : ∀ q, s.at ip q ≠ 0 ↔ s0.at ip q ≠ 0 ∨ q ∈ V
  up : ∀ q ∈ V, ∀ r, q.parent = some r → s.at ip r ≠ 0
  log : ∀ x, x ∈ s.log ↔ x ∈ s0.log ∨
    (∃ q ∈ V, s0.at ip q = 0 ∧ (x = s.at ip q ∨ x = BBLOCK sb (s.at ip q) ∨ ∃ r, q.parent = some r ∧ x = s.at ip r)) ∨
      ∃ q ∈ D, x = s.at ip q
  first : ∀ q ∈ V, s0.at ip q = 0 → ∀ c < s.at ip q, used sb s0.disk c = true ∨ ∃ r ∈ V, s0.at ip r = 0 ∧
    s.at ip r = c
  data : D ⊆ V

theorem Tally.start (h : Whole sb s.disk (s.inode ip).d) : Tally sb ip ∅ ∅ s s := by
  refine ⟨.refl h, fun q => ⟨Or.inl, fun h => h.resolve_right id⟩, fun q hq => hq.elim,
    fun x => ⟨Or.inl, fun h => ?_⟩, fun q hq => hq.elim, Set.Subset.refl _⟩
  rcases h with h | ⟨q, hq, -⟩ | ⟨q, hq, -⟩
  · exact h
  · exact hq.elim
  · exact hq.elim

theorem Tally.visit (t : Tally sb ip V D s0 s) (v : Visited sb ip p b s s') (hr : Reserved sb s.disk)
    (hp : ∀ r, p.parent = some r → s.at ip r ≠ 0) : Tally sb ip (insert p V) D s0 s' := by
  have hspec := v.spec t.ext.whole hr
  cases v with
  | old hne =>
    have hV : s0.at ip p = 0 → p ∈ V := fun h0 => ((t.here p).mp hne).resolve_left fun h => h h0
    refine ⟨t.ext, fun q => ?_, fun q hq => ?_, fun x => ?_, fun q hq h0 c hc => ?_,
      t.data.trans (Set.subset_insert p V)⟩
    · rw [t.here q]
      refine or_congr_right' fun h0 => ⟨Or.inr, fun hq => ?_⟩
      rcases hq with rfl | hq
      · exact hV (not_not.mp h0)
      · exact hq
    · rcases hq with rfl | hq
      · exact hp
      · exact t.up q hq
    · rw [t.log x]
      refine or_congr_right (or_congr_left ⟨fun h => ?_, fun h => ?_⟩)
      · obtain ⟨q, hq, h⟩ := h
        exact ⟨q, Or.inr hq, h⟩
      · obtain ⟨q, rfl | hq, h⟩ := h
        · exact ⟨q, hV h.1, h⟩
        · exact ⟨q, hq, h⟩
    · have hq : q ∈ V := by
        rcases hq with rfl | hq
        · exact hV h0
        · exact hq
      rcases t.first q hq h0 c hc with h | ⟨r, hr, h⟩
      · exact Or.inl h
      · exact Or.inr ⟨r, Or.inr hr, h⟩
  | new f g =>
    have h0 : s0.at ip p = 0 := by
      by_contra hne
      exact (t.here p).mpr (Or.inl hne) f.empty
    have hpV : p ∉ V := fun hV => (t.here p).mpr (Or.inr hV) f.empty
    have hself : s'.at ip p = b := by rw [f.slots, if_pos rfl]
    have hother : ∀ q, s.at ip q ≠ 0 → s'.at ip q = s.at ip q :=
      fun q hq => by rw [f.slots, if_neg fun e : q = p => hq (by rw [e]; exact f.empty)]
    have hb := hspec.2.2
    have hmem : ∀ q ∈ V, s.at ip q ≠ 0 := fun q hq => (t.here q).mpr (Or.inr hq)
    refine ⟨t.ext.trans g.toExtended, fun q => ?_, fun q hq r hr => ?_, fun x => ?_, fun q hq hz c hc => ?_,
      t.data.trans (Set.subset_insert p V)⟩
    · rw [f.slots]
      split
      · rename_i e
        exact ⟨fun _ => Or.inr (Or.inl e), fun _ => hb⟩
      · rename_i e
        rw [t.here q]
        exact or_congr_right ⟨Or.inr, fun h => h.resolve_left e⟩
    · have hr' : s.at ip r ≠ 0 := by
        rcases hq with rfl | hq
        · exact hp r hr
        · exact t.up q hq r hr
      rw [hother r hr']
      exact hr'
    · rw [f.log, List.mem_append, List.mem_cons, List.mem_cons, t.log x]
      constructor
      · intro h
        rcases h with h | rfl | rfl | h | ⟨q, hq, hz, h⟩ | ⟨q, hq, rfl⟩
        · obtain ⟨r, hr, rfl⟩ := List.mem_map.mp h
          have hr := Option.mem_toList.mp hr
          exact Or.inr (Or.inl ⟨p, Or.inl rfl, h0, Or.inr (Or.inr ⟨r, hr, (hother r (hp r hr)).symm⟩)⟩)
        · exact Or.inr (Or.inl ⟨p, Or.inl rfl, h0, Or.inl hself.symm⟩)
        · exact Or.inr (Or.inl ⟨p, Or.inl rfl, h0, Or.inr (Or.inl (by rw [hself]))⟩)
        · exact Or.inl h
        · refine Or.inr (Or.inl ⟨q, Or.inr hq, hz, ?_⟩)
          rw [hother q (hmem q hq)]
          rcases h with h | h | ⟨r, hr, h⟩
          · exact Or.inl h
          · exact Or.inr (Or.inl h)
          · exact Or.inr (Or.inr ⟨r, hr, by rw [hother r (t.up q hq r hr)]; exact h⟩)
        · exact Or.inr (Or.inr ⟨q, hq, (hother q (hmem q (t.data hq))).symm⟩)
      · intro h
        rcases h with h | ⟨q, rfl | hq, hz, h⟩ | ⟨q, hq, rfl⟩
        · exact Or.inr (Or.inr (Or.inr (Or.inl h)))
        · rcases h with h | h | ⟨r, hr, h⟩
          · exact Or.inr (Or.inl (h.trans hself))
          · exact Or.inr (Or.inr (Or.inl (by rw [h, hself])))
          · refine Or.inl (List.mem_map.mpr ⟨r, Option.mem_toList.mpr hr, ?_⟩)
            rw [h, hother r (hp r hr)]
        · rw [hother q (hmem q hq)] at h
          refine Or.inr (Or.inr (Or.inr (Or.inr (Or.inl ⟨q, hq, hz, ?_⟩))))
          rcases h with h | h | ⟨r, hr, h⟩
          · exact Or.inl h
          · exact Or.inr (Or.inl h)
          · exact Or.inr (Or.inr ⟨r, hr, by rw [h, hother r (t.up q hq r hr)]⟩)
        · exact Or.inr (Or.inr (Or.inr (Or.inr (Or.inr ⟨q, hq, hother q (hmem q (t.data hq))⟩))))
    · rcases hq with rfl | hq
      · -- below the first free block all were in use
        rw [hself] at hc
        rcases (t.ext.used c (Nat.lt_trans hc f.lt)).mp (f.first c hc) with h | ⟨r, hr0, hr1, hr2⟩
        · exact Or.inl h
        · have hrV : r ∈ V := ((t.here r).mp (hr1 ▸ hr2)).resolve_left fun h => h hr0
          exact Or.inr ⟨r, Or.inr hrV, hr0, (hother r (hr1 ▸ hr2)).trans hr1⟩
      · rw [hother q (hmem q hq)] at hc
        rcases t.first q hq hz c hc with h | ⟨r, hr, hr0, hr1⟩
        · exact Or.inl h
        · exact Or.inr ⟨r, Or.inr hr, hr0, (hother r (hmem r hr)).trans hr1⟩

/-- Each slot is one of the block in the slot before. -/
inductive Linked : Option Slot → List Slot → Prop
  | nil {o : Option Slot} : Linked o []
  | cons {o : Option Slot} {p : Slot} {L : List Slot} : p.parent = o → Linked (some p) L → Linked o (p :: L)

theorem path_linked (bn : Nat) : Linked none (path bn) := by
  unfold path
  split
  · rename_i h
    rw [slotOf_direct h]
    exact .cons rfl .nil
  · rename_i h
    unfold slotOf
    rw [dif_neg h]
    split
    · exact .cons rfl (.cons rfl .nil)
    · exact .cons rfl (.cons rfl (.cons rfl .nil))

theorem Tally.visits (hl : Layout sb) {L : List Slot} (v : Visits sb ip L b s s') :
    ∀ {V : Set Slot} {o : Option Slot}, Tally sb ip V D s0 s → Reserved sb s.disk →
    Linked o L → (∀ r, o = some r → s.at ip r ≠ 0) → Tally sb ip (V ∪ {q | q ∈ L}) D s0 s' := by
  induction v with
  | @last p b s s' v =>
    intro V o t hr hlink ho
    cases hlink with
    | cons hp _ =>
      have h := t.visit v hr fun r e => ho r (hp.symm.trans e)
      have hV : insert p V = V ∪ {q | q ∈ [p]} := Set.ext fun q => by
        simp only [Set.mem_insert_iff, Set.mem_union, Set.mem_ofPred_eq, List.mem_singleton, or_comm]
      rw [← hV]
      exact h
  | @cons p L b b' s s1 s' v vs ih =>
    intro V o t hr hlink ho
    cases hlink with
    | cons hp hlink =>
      have h := t.visit v hr fun r e => ho r (hp.symm.trans e)
      obtain ⟨g, hat, hb⟩ := v.spec t.ext.whole hr
      have h' := ih h (g.reserved hl hr) hlink fun r e => by
        cases e
        rw [hat]
        exact hb
      have hV : insert p V ∪ {q | q ∈ L} = V ∪ {q | q ∈ p :: L} := Set.ext fun q => by
        simp only [Set.mem_insert_iff, Set.mem_union, Set.mem_ofPred_eq, List.mem_cons, or_assoc, or_left_comm]
      rw [← hV]
      exact h'

/-! ## Data -/

theorem Tally.put (t : Tally sb ip V D s0 s) {q : Slot} {o : Nat} {bs : List UInt8} (hi : ¬ q.index)
    (hq : s.at ip q ≠ 0) (ho : o + bs.length ≤ BSIZE) :
    Tally sb ip V D s0 { s with disk := s.disk.put (s.at ip q * BSIZE + o) bs } := by
  have hat : ∀ p, St.at { s with disk := s.disk.put (s.at ip q * BSIZE + o) bs } ip p = s.at ip p :=
    put_at t.ext.whole hi ho
  have hext := t.ext.trans (.put t.ext.whole hi hq ho)
  generalize hs : ({ s with disk := s.disk.put (s.at ip q * BSIZE + o) bs } : St) = s1 at hat hext
  have hlog : s1.log = s.log := by rw [← hs]
  refine ⟨hext, ?_, ?_, ?_, ?_, t.data⟩
  · simp only [hat]
    exact t.here
  · simp only [hat]
    exact t.up
  · simp only [hat, hlog]
    exact t.log
  · simp only [hat]
    exact t.first

theorem Tally.log_write (t : Tally sb ip V D s0 s) {q : Slot} (hq : q ∈ V) :
    Tally sb ip V (insert q D) s0 (s.log_write (s.at ip q)) := by
  refine ⟨⟨t.ext.whole, t.ext.keep, t.ext.fresh, t.ext.used, t.ext.others, t.ext.low, t.ext.inode⟩, t.here, t.up,
    fun x => ?_, t.first, fun r hr => ?_⟩
  · show x ∈ s.at ip q :: s.log ↔ _
    rw [List.mem_cons, t.log x]
    constructor
    · intro h
      rcases h with h | h | h | ⟨r, hr, h⟩
      · exact Or.inr (Or.inr ⟨q, Or.inl rfl, h⟩)
      · exact Or.inl h
      · exact Or.inr (Or.inl h)
      · exact Or.inr (Or.inr ⟨r, Or.inr hr, h⟩)
    · intro h
      rcases h with h | h | ⟨r, rfl | hr, h⟩
      · exact Or.inr (Or.inl h)
      · exact Or.inr (Or.inr (Or.inl h))
      · exact Or.inl h
      · exact Or.inr (Or.inr (Or.inr ⟨r, hr, h⟩))
  · rcases hr with rfl | hr
    · exact hq
    · exact t.data hr

/-! ## The loop -/

/-- The slots on the way to the bytes from `a` to `c`. -/
def pathsOf (a c : Nat) : Set Slot := {q | ∃ k, a ≤ k ∧ k ≤ c ∧ q ∈ path (k / BSIZE)}

/-- Those of the blocks of the bytes from `a` on that are copied whole. -/
def storedOf (off r N a : Nat) : Set Slot :=
  {q | ∃ k, a ≤ k ∧ k < off + r ∧ (r = N ∨ k / BSIZE ≠ (off + r) / BSIZE) ∧ q = slotOf (k / BSIZE)}

variable {copyin : Nat → Nat → Int × List UInt8} {src r N off : Nat} {f : Nat → UInt8}

theorem slotOf_mem (bn : Nat) : slotOf bn ∈ path bn := List.mem_of_getLast? (path_last bn)

theorem paths_done (hrn : r ≤ N) (hN : 0 < N) : pathsOf (off + N) (off + min r (N - 1)) = ∅ ∧
    storedOf off r N (off + N) = ∅ := by
  refine ⟨Set.eq_empty_of_forall_notMem fun q hq => ?_, Set.eq_empty_of_forall_notMem fun q hq => ?_⟩
  · obtain ⟨k, h1, h2, -⟩ := hq
    omega
  · obtain ⟨k, h1, h2, -⟩ := hq
    omega

/-- From byte `a` on through a block and then through the others. -/
theorem paths_step {a m c : Nat} (hm : a % BSIZE + m ≤ BSIZE) (h0 : 0 < m) (hc : a + m ≤ c + 1) :
    {q | q ∈ path (a / BSIZE)} ∪ pathsOf (a + m) c = pathsOf a c := by
  have hblock : ∀ k, a ≤ k → k < a + m → k / BSIZE = a / BSIZE := fun k h1 h2 => by unfold BSIZE at *; omega
  refine Set.ext fun q => ⟨fun hq => ?_, fun hq => ?_⟩
  · rcases hq with hq | ⟨k, h1, h2, hq⟩
    · exact ⟨a, Nat.le_refl _, by omega, hq⟩
    · exact ⟨k, by omega, h2, hq⟩
  · obtain ⟨k, h1, h2, hq⟩ := hq
    by_cases hk : k < a + m
    · rw [hblock k h1 hk] at hq
      exact Or.inl hq
    · exact Or.inr ⟨k, by omega, h2, hq⟩

theorem stored_step {a m : Nat} (hm : a % BSIZE + m ≤ BSIZE) (h0 : 0 < m) (hr : a + m ≤ off + r)
    (hall : r = N ∨ a % BSIZE + m = BSIZE) :
    insert (slotOf (a / BSIZE)) (storedOf off r N (a + m)) = storedOf off r N a := by
  have hblock : ∀ k, a ≤ k → k < a + m → k / BSIZE = a / BSIZE := fun k h1 h2 => by unfold BSIZE at *; omega
  refine Set.ext fun q => ⟨fun hq => ?_, fun hq => ?_⟩
  · rcases hq with hq | ⟨k, h1, h2, h3, hq⟩
    · refine ⟨a, Nat.le_refl _, by omega, hall.imp_right fun h => ?_, hq⟩
      unfold BSIZE at *
      omega
    · exact ⟨k, by omega, h2, h3, hq⟩
  · obtain ⟨k, h1, h2, h3, hq⟩ := hq
    by_cases hk : k < a + m
    · rw [hblock k h1 hk] at hq
      exact Or.inl hq
    · exact Or.inr ⟨k, by omega, h2, h3, hq⟩

theorem writeiLoop_tally (hl : Layout sb) (hr : Reserved sb s0.disk) (hc : Source copyin src r N f) (hN : 0 < N)
    (hrn : r ≤ N) : ∀ {k u n V D s s' tot}, n ≤ k → u ≤ r →
    u + n = N → Tally sb ip V D s0 s → writeiLoop sb copyin ip k (u64 (src + u)) (off + u) n s = .ok (tot, s') →
    Tally sb ip (V ∪ pathsOf (off + u) (off + min r (N - 1))) (D ∪ storedOf off r N (off + u)) s0 s' := by
  intro k
  induction k with
  | zero =>
    intro u n V D s s' tot hn hu hN' t e
    cases e
    obtain rfl : u = N := by omega
    rw [(paths_done hrn hN).1, (paths_done hrn hN).2, Set.union_empty, Set.union_empty]
    exact t
  | succ k ih =>
    intro u n V D s s' tot hn hu hN' t e
    unfold writeiLoop at e
    split at e
    · rename_i h0
      cases e
      obtain rfl : u = N := by omega
      rw [(paths_done hrn hN).1, (paths_done hrn hN).2, Set.union_empty, Set.union_empty]
      exact t
    rename_i h0
    obtain ⟨⟨b, s1⟩, e1, e⟩ := bind_ok e
    have hr1 := t.ext.reserved hl hr
    have hv := bmap_visits hl t.ext.whole hr1 (bmap_lt e1) e1
    obtain ⟨-, rfl, hb⟩ := bmap_spec hl t.ext.whole hr1 (bmap_lt e1) e1
    have t1 := t.visits hl hv hr1 (path_linked _) (fun _ e => by cases e)
    have hmod := Nat.mod_lt (off + u) (by decide : 0 < BSIZE)
    dsimp only at e
    generalize hm : min n (BSIZE - (off + u) % BSIZE) = m at e
    have hm0 : 0 < m := by omega
    have hm2 : (off + u) % BSIZE + m ≤ BSIZE := by omega
    have hm3 : m = n ∨ (off + u) % BSIZE + m = BSIZE := by omega
    rw [hc u m hu (by omega)] at e
    dsimp only at e
    generalize hbs : (List.range (min m (r - u))).map (fun i => f (u + i)) = bs at e
    have hlen : bs.length = min m (r - u) := by rw [← hbs, List.length_map, List.length_range]
    have t2 := t1.put (slotOf_not_index _) hb (by omega : (off + u) % BSIZE + bs.length ≤ BSIZE)
    have hat := put_at (q := slotOf ((off + u) / BSIZE)) t1.ext.whole (slotOf_not_index _)
      (by omega : (off + u) % BSIZE + bs.length ≤ BSIZE) (slotOf ((off + u) / BSIZE))
    by_cases hok : u + m ≤ r
    · rw [if_pos hok, if_neg (by decide)] at e
      obtain ⟨⟨tot1, s3⟩, e3, e⟩ := bind_ok e
      cases e
      have hsrc : u64 (u64 (src + u) + m) = u64 (src + (u + m)) := by unfold u64; omega
      rw [hsrc, Nat.add_assoc] at e3
      have t3 := t2.log_write (q := slotOf ((off + u) / BSIZE)) (Or.inr (slotOf_mem _))
      rw [hat] at t3
      have t4 := ih (by omega) hok (by omega) t3 e3
      rw [← Nat.add_assoc, Set.union_assoc, paths_step hm2 hm0 (by omega), Set.insert_union, ← Set.union_insert,
        stored_step hm2 hm0 (by omega) (by omega)] at t4
      exact t4
    · rw [if_neg hok, if_pos rfl] at e
      cases e
      -- the source ends in this block
      have hsame : ∀ k, off + u ≤ k → k ≤ off + r → k / BSIZE = (off + u) / BSIZE := fun k h1 h2 => by
        unfold BSIZE at *; omega
      have hmin : min r (N - 1) = r := by omega
      have h1 : {q | q ∈ path ((off + u) / BSIZE)} = pathsOf (off + u) (off + min r (N - 1)) := by
        rw [hmin]
        refine Set.ext fun q => ⟨fun hq => ⟨off + u, Nat.le_refl _, by omega, hq⟩, fun hq => ?_⟩
        obtain ⟨k, h1, h2, hq⟩ := hq
        rw [hsame k h1 h2] at hq
        exact hq
      have h2 : storedOf off r N (off + u) = ∅ := Set.eq_empty_of_forall_notMem fun q hq => by
        obtain ⟨k, h1, h2, h3, -⟩ := hq
        rcases h3 with h3 | h3
        · omega
        · exact h3 ((hsame k h1 (by omega)).trans (hsame _ (by omega) (Nat.le_refl _)).symm)
      rw [h2, Set.union_empty, ← h1]
      exact t2

/-! ## Enough free blocks -/

variable (sb) in
def freeCount (s : St) : Nat := ((Finset.range sb.size).filter fun c => used sb s.disk c = false).card

theorem balloc_total (h : 0 < freeCount sb s) : ∃ b s', balloc sb s = .ok (b, s') := by
  rcases balloc_spec sb s with ⟨b, s', e, -⟩ | ⟨hall, -⟩
  · exact ⟨b, s', e⟩
  · obtain ⟨c, hc⟩ := Finset.card_pos.mp h
    obtain ⟨h1, h2⟩ := Finset.mem_filter.mp hc
    rw [hall c (Finset.mem_range.mp h1)] at h2
    cases h2

variable (ip) in
theorem addrOf_total (h : 0 < freeCount sb s) (i : Fin (NDIRECT + 2)) : ∃ b s', addrOf sb ip i s = .ok (b, s') := by
  unfold addrOf
  split
  · obtain ⟨b, s1, e⟩ := balloc_total h
    rw [e]
    exact ⟨_, _, rfl⟩
  · exact ⟨_, _, rfl⟩

theorem entryOf_total (h : 0 < freeCount sb s) (c j : Nat) : ∃ b s', entryOf sb c j s = .ok (b, s') := by
  unfold entryOf
  split
  · obtain ⟨b, s1, e⟩ := balloc_total h
    rw [e]
    exact ⟨_, _, rfl⟩
  · exact ⟨_, _, rfl⟩

theorem freeCount_congr (h : ∀ c < sb.size, used sb s'.disk c = used sb s.disk c) :
    freeCount sb s' = freeCount sb s := by
  unfold freeCount
  refine congrArg Finset.card (Finset.filter_congr fun c hc => ?_)
  rw [h c (Finset.mem_range.mp hc)]

theorem Visited.free (v : Visited sb ip p b s s') : freeCount sb s ≤ freeCount sb s' + 1 := by
  cases v with
  | old h => exact Nat.le_succ _
  | new f g =>
    refine (Finset.card_le_card fun c hc => ?_).trans (Finset.card_insert_le b _)
    obtain ⟨h1, h2⟩ := Finset.mem_filter.mp hc
    by_cases hb : c = b
    · exact Finset.mem_insert.mpr (Or.inl hb)
    · refine Finset.mem_insert_of_mem (Finset.mem_filter.mpr ⟨h1, ?_⟩)
      by_contra hn
      rcases (g.used c (Finset.mem_range.mp h1)).mp (by simpa using hn) with hu | ⟨q, h3, h4, h5⟩
      · rw [hu] at h2
        cases h2
      · rw [f.slots] at h4
        split at h4
        · exact hb h4.symm
        · exact h5 (h4.symm.trans h3)

theorem bmap_total (hl : Layout sb) (hw : Whole sb s.disk (s.inode ip).d) (hr : Reserved sb s.disk)
    (h : 3 ≤ freeCount sb s) {bn : Nat} (hbn : bn < MAXFILE) :
    ∃ b s', bmap sb ip bn s = .ok (b, s') ∧ freeCount sb s ≤ freeCount sb s' + 3 := by
  unfold bmap
  by_cases h1 : bn < NDIRECT
  · rw [dif_pos h1]
    obtain ⟨b, s1, e⟩ := addrOf_total ip (by omega : 0 < freeCount sb s) ⟨bn, Nat.lt_add_right 2 h1⟩
    exact ⟨b, s1, e, by have := (addrOf_spec hw hr e).free; omega⟩
  rw [dif_neg h1]
  dsimp only
  by_cases h2 : bn - NDIRECT < NINDIRECT
  · rw [if_pos h2]
    obtain ⟨b1, s1, e1⟩ := addrOf_total ip (by omega : 0 < freeCount sb s) 11
    have v1 := addrOf_spec hw hr e1
    obtain ⟨g1, rfl, hb1⟩ := v1.spec hw hr
    have hf1 := v1.free
    obtain ⟨b2, s2, e2⟩ := entryOf_total (by omega : 0 < freeCount sb s1) (s1.at ip (.addr 11)) (bn - NDIRECT)
    have v2 := entryOf_spec hl g1.whole (g1.reserved hl hr) (p := .addr 11) (Or.inl rfl) hb1
      (j := ⟨bn - NDIRECT, h2⟩) e2
    have hf2 := v2.free
    rw [e1, ok_bind]
    exact ⟨b2, s2, e2, by omega⟩
  have h3 : bn - NDIRECT - NINDIRECT < NINDIRECT2 := by
    simp only [MAXFILE, NINDIRECT2, NDIRECT, NINDIRECT] at *; omega
  have h4 : (bn - NDIRECT - NINDIRECT) / NINDIRECT < NINDIRECT := Nat.div_lt_of_lt_mul h3
  rw [if_neg h2, if_pos h3]
  obtain ⟨b1, s1, e1⟩ := addrOf_total ip (by omega : 0 < freeCount sb s) 12
  have v1 := addrOf_spec hw hr e1
  obtain ⟨g1, rfl, hb1⟩ := v1.spec hw hr
  have hf1 := v1.free
  have hr1 := g1.reserved hl hr
  obtain ⟨b2, s2, e2⟩ := entryOf_total (by omega : 0 < freeCount sb s1) (s1.at ip (.addr 12))
    ((bn - NDIRECT - NINDIRECT) / NINDIRECT)
  have v2 := entryOf_spec hl g1.whole hr1 (p := .addr 12) (Or.inr rfl) hb1 (j := ⟨_, h4⟩) e2
  obtain ⟨g2, rfl, hb2⟩ := v2.spec g1.whole hr1
  have hf2 := v2.free
  obtain ⟨b3, s3, e3⟩ := entryOf_total (by omega : 0 < freeCount sb s2) (s2.at ip (Slot.child (.addr 12) ⟨_, h4⟩))
    ((bn - NDIRECT - NINDIRECT) % NINDIRECT)
  have v3 := entryOf_spec hl g2.whole (g2.reserved hl hr1) (p := .mid ⟨_, h4⟩) trivial hb2
    (j := ⟨_, Nat.mod_lt _ (by decide)⟩) e3
  have hf3 := v3.free
  rw [e1, ok_bind]
  dsimp only
  rw [e2, ok_bind]
  exact ⟨b3, s3, e3, by omega⟩

/-- With three free blocks for each byte the loop of writei gets through, and takes no more. -/
theorem writeiLoop_total (hl : Layout sb) (hr : Reserved sb s0.disk) (hc : Source copyin src r N f) (hrn : r ≤ N)
    (hfit : off + N ≤ MAXFILE * BSIZE) :
    ∀ {k u n s}, n ≤ k → u ≤ r → u + n = N → Extended sb ip s0 s → 3 * n ≤ freeCount sb s →
    ∃ tot s', writeiLoop sb copyin ip k (u64 (src + u)) (off + u) n s = .ok (tot, s') ∧ Extended sb ip s0 s' ∧
      freeCount sb s ≤ freeCount sb s' + 3 * n := by
  intro k
  induction k with
  | zero => exact fun _ _ _ g _ => ⟨_, _, rfl, g, Nat.le_add_right _ _⟩
  | succ k ih =>
    intro u n s hn hu hN g hfree
    unfold writeiLoop
    split
    · exact ⟨_, _, rfl, g, Nat.le_add_right _ _⟩
    rename_i h0
    have hr1 := g.reserved hl hr
    obtain ⟨b, s1, e1, hf1⟩ := bmap_total hl g.whole hr1 (by omega)
      (Nat.div_lt_of_lt_mul (by rw [Nat.mul_comm]; omega) : (off + u) / BSIZE < MAXFILE)
    obtain ⟨g1, rfl, hb⟩ := bmap_spec hl g.whole hr1 (bmap_lt e1) e1
    rw [e1, ok_bind]
    dsimp only
    have hmod := Nat.mod_lt (off + u) (by decide : 0 < BSIZE)
    generalize hm : min n (BSIZE - (off + u) % BSIZE) = m
    have hm0 : 0 < m := by omega
    rw [hc u m hu (by omega)]
    dsimp only
    generalize hbs : (List.range (min m (r - u))).map (fun i => f (u + i)) = bs
    have hlen : bs.length = min m (r - u) := by rw [← hbs, List.length_map, List.length_range]
    have g2 :=
      g.trans (g1.toExtended.trans (.put g1.whole (slotOf_not_index ((off + u) / BSIZE)) hb
        (by omega : (off + u) % BSIZE + bs.length ≤ BSIZE)))
    have hfree' :
      freeCount sb
      { s1 with disk := s1.disk.put (s1.at ip (slotOf ((off + u) / BSIZE)) * BSIZE + (off + u) % BSIZE) bs } =
      freeCount sb s1 :=
      freeCount_congr fun c hc => put_used g1.whole hb hc
    by_cases hok : u + m ≤ r
    · rw [if_pos hok, if_neg (by decide)]
      have hsrc : u64 (u64 (src + u) + m) = u64 (src + (u + m)) := by unfold u64; omega
      rw [hsrc, Nat.add_assoc]
      have g3 : Extended sb ip s0 (St.log_write (s1.at ip (slotOf ((off + u) / BSIZE)))
          { s1 with disk := s1.disk.put (s1.at ip (slotOf ((off + u) / BSIZE)) * BSIZE + (off + u) % BSIZE) bs }) :=
        ⟨g2.whole, g2.keep, g2.fresh, g2.used, g2.others, g2.low, g2.inode⟩
      have hfree2 : freeCount sb (St.log_write (s1.at ip (slotOf ((off + u) / BSIZE)))
          { s1 with disk := s1.disk.put (s1.at ip (slotOf ((off + u) / BSIZE)) * BSIZE + (off + u) % BSIZE) bs }) =
            freeCount sb s1 := hfree'
      obtain ⟨tot, s2, e2, g4, hf2⟩ := @ih (u + m) (n - m) _ (by omega) hok (by omega) g3 (by omega)
      rw [e2]
      exact ⟨m + tot, s2, rfl, g4, by omega⟩
    · rw [if_neg hok, if_pos rfl]
      exact ⟨_, _, rfl, g2, by omega⟩

/-! ## How many -/

variable (sb ip) in
/-- The slots of `V` that get a block. -/
def newSlots (s : St) (V : Finset Slot) : Finset Slot := V.filter fun q => s.at ip q = 0

variable (sb ip) in
/-- The slots whose blocks are logged: new ones, index blocks with a new entry, and data. -/
def loggedSlots (s : St) (V D : Finset Slot) : Finset Slot :=
  newSlots ip s V ∪ ((newSlots ip s V).biUnion fun q => q.parent.toFinset) ∪ D

variable (sb) in
/-- The bitmap blocks of the first `k` free blocks. -/
def bitmapBlocks (s : St) (k : Nat) : Finset Nat :=
  (Lib.first (fun c => used sb s.disk c = false) k sb.size).image (BBLOCK sb)

variable {W E : Finset Slot}

theorem Tally.new_ne (t : Tally sb ip ↑W ↑E s0 s) : ∀ q ∈ loggedSlots ip s0 W E, s.at ip q ≠ 0 := by
  intro q hq
  unfold loggedSlots newSlots at hq
  rw [Finset.mem_union, Finset.mem_union, Finset.mem_biUnion] at hq
  rcases hq with (hq | ⟨p, hp, hq⟩) | hq
  · exact (t.here q).mpr (Or.inr (Finset.mem_filter.mp hq).1)
  · exact t.up p (Finset.mem_filter.mp hp).1 q (Option.mem_toFinset.mp hq)
  · exact (t.here q).mpr (Or.inr (t.data hq))

/-- The blocks that were taken are the first free ones. -/
theorem Tally.first_free (t : Tally sb ip ↑W ↑E s0 s) :
    (newSlots ip s0 W).image (s.at ip) = Lib.first (fun c => used sb s0.disk c = false)
    (newSlots ip s0 W).card sb.size := by
  have hnew : ∀ q ∈ newSlots ip s0 W, q ∈ W ∧ s0.at ip q = 0 ∧ s.at ip q ≠ 0 := fun q hq => by
    obtain ⟨h1, h2⟩ := Finset.mem_filter.mp hq
    exact ⟨h1, h2, (t.here q).mpr (Or.inr h1)⟩
  have hcard : ((newSlots ip s0 W).image (s.at ip)).card = (newSlots ip s0 W).card :=
    Finset.card_image_of_injOn fun q hq r _ e => t.ext.whole.apart q r (hnew q hq).2.2 e
  have h := eq_first (p := fun c => used sb s0.disk c = false) (n := sb.size)
    (S := (newSlots ip s0 W).image (s.at ip)) (fun c hc => ?_) fun c hc d hd hfree => ?_
  · rw [hcard] at h
    exact h
  · obtain ⟨q, hq, rfl⟩ := Finset.mem_image.mp hc
    obtain ⟨-, h0, h1⟩ := hnew q hq
    exact ⟨(t.ext.whole.data q h1).2.1, t.ext.fresh q h0 h1⟩
  · obtain ⟨q, hq, rfl⟩ := Finset.mem_image.mp hc
    obtain ⟨hW, h0, -⟩ := hnew q hq
    rcases t.first q hW h0 d hd with h | ⟨r, hr, hr0, rfl⟩
    · rw [h] at hfree
      cases hfree
    · exact Finset.mem_image.mpr ⟨r, Finset.mem_filter.mpr ⟨hr, hr0⟩, rfl⟩

theorem Tally.log_eq (t : Tally sb ip ↑W ↑E s0 s) (h0 : s0.log = []) :
    s.log.toFinset = (loggedSlots ip s0 W E).image (s.at ip) ∪ bitmapBlocks sb s0 (newSlots ip s0 W).card := by
  unfold bitmapBlocks
  rw [← t.first_free, Finset.image_image]
  refine Finset.ext fun x => ?_
  rw [List.mem_toFinset, t.log x, h0, Finset.mem_union, Finset.mem_image, Finset.mem_image]
  unfold loggedSlots
  constructor
  · intro h
    rcases h with h | ⟨q, hq, hz, h⟩ | ⟨q, hq, h⟩
    · cases h
    · have hn : q ∈ newSlots ip s0 W := Finset.mem_filter.mpr ⟨hq, hz⟩
      rcases h with h | h | ⟨r, hr, h⟩
      · exact Or.inl ⟨q, Finset.mem_union_left _ (Finset.mem_union_left _ hn), h.symm⟩
      · exact Or.inr ⟨q, hn, h.symm⟩
      · exact Or.inl ⟨r, Finset.mem_union_left _
          (Finset.mem_union_right _ (Finset.mem_biUnion.mpr ⟨q, hn, Option.mem_toFinset.mpr hr⟩)), h.symm⟩
    · exact Or.inl ⟨q, Finset.mem_union_right _ hq, h.symm⟩
  · intro h
    rcases h with ⟨q, hq, h⟩ | ⟨q, hq, h⟩
    · rw [Finset.mem_union, Finset.mem_union, Finset.mem_biUnion] at hq
      rcases hq with (hq | ⟨p, hp, hq⟩) | hq
      · obtain ⟨h1, h2⟩ := Finset.mem_filter.mp hq
        exact Or.inr (Or.inl ⟨q, h1, h2, Or.inl h.symm⟩)
      · obtain ⟨h1, h2⟩ := Finset.mem_filter.mp hp
        exact Or.inr (Or.inl ⟨p, h1, h2, Or.inr (Or.inr ⟨q, Option.mem_toFinset.mp hq, h.symm⟩)⟩)
      · exact Or.inr (Or.inr ⟨q, hq, h.symm⟩)
    · obtain ⟨h1, h2⟩ := Finset.mem_filter.mp hq
      exact Or.inr (Or.inl ⟨q, h1, h2, Or.inr (Or.inl h.symm)⟩)

theorem iblock_lt (hl : Layout sb) {inum : Nat} (h : inum < sb.ninodes) : IBLOCK sb inum < sb.bmapstart := by
  have := hl.inodes
  unfold IBLOCK IPB at *
  omega

theorem bblock_bounds {c : Nat} (h : c < sb.size) : sb.bmapstart ≤ BBLOCK sb c ∧ BBLOCK sb c < dataStart sb := by
  unfold BBLOCK dataStart BPB
  omega

/-- The log with the inode's block. -/
theorem Tally.card (t : Tally sb ip ↑W ↑E s0 s) (h0 : s0.log = []) (hl : Layout sb) {inum : Nat}
    (hi : inum < sb.ninodes) :
    (IBLOCK sb inum :: s.log).toFinset.card =
    (loggedSlots ip s0 W E).card + (bitmapBlocks sb s0 (newSlots ip s0 W).card).card + 1 := by
  have hdata : ∀ x ∈ (loggedSlots ip s0 W E).image (s.at ip), dataStart sb ≤ x := fun x hx => by
    obtain ⟨q, hq, rfl⟩ := Finset.mem_image.mp hx
    exact (t.ext.whole.data q (t.new_ne q hq)).1
  have hbits : ∀ x ∈ bitmapBlocks sb s0 (newSlots ip s0 W).card, sb.bmapstart ≤ x ∧ x < dataStart sb := fun x hx => by
    obtain ⟨c, hc, rfl⟩ := Finset.mem_image.mp hx
    exact bblock_bounds (Finset.mem_range.mp (Finset.mem_filter.mp hc).1)
  have hlt := iblock_lt hl hi
  have hstart : sb.bmapstart < dataStart sb := Nat.lt_succ_of_le (Nat.le_add_left _ _)
  rw [List.toFinset_cons, t.log_eq h0, Finset.card_insert_of_notMem, Finset.card_union_of_disjoint,
    Finset.card_image_of_injOn]
  · exact fun q hq r _ e => t.ext.whole.apart q r (t.new_ne q hq) e
  · refine Finset.disjoint_left.mpr fun x h1 h2 => ?_
    exact Nat.not_lt.mpr (hdata x h1) (hbits x h2).2
  · intro h
    rcases Finset.mem_union.mp h with h | h
    · have := hdata _ h
      omega
    · have := (hbits _ h).1
      omega

end

end Xv6Labs.Fs.Disk
