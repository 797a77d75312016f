/-
  Xv6Labs.Locks.Kinit — what kinit of the locks lab hands out.

  The range from `end` to PHYSTOP is cut into NCPU parts of `chunk` bytes, and freerange
  rounds each part to pages on its own. The parts overlap by what the division leaves over,
  fewer than NCPU bytes.

  - `kinit_hands_out`: all of memory is handed out exactly when no page lies across a
    boundary between two parts.
  - `kinit_loses_a_page`: for some values of `end` one does.
-/

import Xv6Labs.Locks.Kalloc

namespace Xv6Labs.Locks

open Lib

variable {E : Link} {ls ls' : Nat → List Nat} {s : Kmem}

/-- The lists are what the heads lead to. -/
theorem Lists.unique (h : Lists E ls s) (h' : Lists E ls' s) {id : Nat} (hid : id < NCPU) : ls id = ls' id :=
  (h.chain id hid).unique (h'.chain id hid) (fun _ hp => (h.page id hid _ hp).ne_zero) fun _ hp =>
    (h'.page id hid _ hp).ne_zero

theorem Listed.congr (h : ∀ id < NCPU, ls id = ls' id) (p : Nat) : Listed ls p ↔ Listed ls' p := by
  constructor
  · intro hp
    obtain ⟨id, hid, hp⟩ := hp
    exact ⟨id, hid, h id hid ▸ hp⟩
  · intro hp
    obtain ⟨id, hid, hp⟩ := hp
    exact ⟨id, hid, (h id hid).symm ▸ hp⟩

/-- The whole pages of the memory kinit is to hand out. -/
def Whole (E : Link) (p : Nat) : Prop := p % 4096 = 0 ∧ E.kend ≤ p ∧ p + 4096 ≤ PHYSTOP

/-- The boundary below part `k` is a page boundary, or the part below reaches the next one. -/
def Clean (E : Link) (k : Nat) : Prop :=
  (E.kend + k * chunk E) % 4096 = 0 ∨ 4096 ≤ (E.kend + k * chunk E) % 4096 + (PHYSTOP - E.kend) % NCPU

instance (E : Link) (k : Nat) : Decidable (Clean E k) := inferInstanceAs (Decidable (_ ∨ _))

theorem InChunk.whole {id q : Nat} (h : InChunk E id q) : Whole E q := by
  have h1 := h.2.1
  have h2 := h.2.2
  exact ⟨h.1, by omega, by omega⟩

/-- The part an address lies in. -/
theorem chunk_at {q : Nat} (hc : 0 < chunk E) (h : E.kend ≤ q) : ∃ k, E.kend + k * chunk E ≤ q ∧
    q < E.kend + k * chunk E + chunk E := by
  have h1 := Nat.div_add_mod' (q - E.kend) (chunk E)
  have h2 := Nat.mod_lt (q - E.kend) hc
  exact ⟨(q - E.kend) / chunk E, by omega, by omega⟩

/-- A page across no boundary is in one of the ranges. -/
theorem Whole.inChunk {q : Nat} (hE : E.kend + NCPU * 4096 ≤ PHYSTOP) (hcl : ∀ k, 1 ≤ k → k < NCPU → Clean E k)
    (hq : Whole E q) :
    ∃ id < NCPU, InChunk E id q := by
  obtain ⟨hal, hlo, hhi⟩ := hq
  have hb := chunk_bounds E
  have hrem : (PHYSTOP - E.kend) % NCPU < 8 := Nat.mod_lt _ (by decide)
  obtain ⟨k, h1, h2⟩ := chunk_at (E := E) (q := q) (by simp only [NCPU] at *; omega) hlo
  have hk : k < NCPU := by
    by_contra hk
    have := Nat.mul_le_mul_right (chunk E) (Nat.le_of_not_lt hk)
    omega
  refine ⟨k, hk, hal, h1, ?_⟩
  have hend := chunk_end E hk
  have hsucc : (k + 1) * chunk E = k * chunk E + chunk E := Nat.succ_mul _ _
  by_cases hl : k + 1 < NCPU
  · -- the next boundary is behind the page, unless it is in its middle
    rcases hcl (k + 1) (by omega) hl with h | h <;> omega
  · have h0 : NCPU - k - 1 = 0 := by omega
    rw [h0, Nat.zero_mul]
    omega

/-- The page across a boundary is in none of them. -/
theorem lost_page (hE : E.kend + NCPU * 4096 ≤ PHYSTOP) {k : Nat} (h1 : 1 ≤ k) (hk : k < NCPU) (hcl : ¬ Clean E k) :
    ∃ q, Whole E q ∧ ¬ ∃ id < NCPU, InChunk E id q := by
  have hb := chunk_bounds E
  have hc : 4096 ≤ chunk E := by simp only [NCPU] at *; omega
  have hlow : chunk E ≤ k * chunk E := Nat.le_mul_of_pos_left _ h1
  have hhigh : k * chunk E + chunk E ≤ NCPU * chunk E := by
    rw [← Nat.succ_mul]
    exact Nat.mul_le_mul_right _ hk
  have hstop : PHYSTOP % 4096 = 0 := rfl
  refine ⟨E.kend + k * chunk E - (E.kend + k * chunk E) % 4096, ⟨by omega, by omega, by omega⟩, fun h => ?_⟩
  obtain ⟨id, hid, hin⟩ := h
  have hlo := hin.2.1
  have hhi := hin.2.2
  rw [chunk_end E hid] at hhi
  have hlt : id < k := by
    by_contra hn
    have := Nat.mul_le_mul_right (chunk E) (Nat.le_of_not_lt hn)
    simp only [Clean, not_or] at hcl
    omega
  have := Nat.mul_le_mul_right (chunk E) (show id + 1 ≤ k by omega)
  simp only [Clean, not_or] at hcl
  omega

/-- kinit puts every whole page between `end` and PHYSTOP on one of the lists, and nothing
    else, exactly when every boundary is clean. -/
theorem kinit_hands_out (E : Link) (m : Mem) (hE : E.kend + NCPU * 4096 ≤ PHYSTOP) :
    (∃ s ls, kinit E (boot m) = .ok s ∧ Lists E ls s ∧ ∀ p, Listed ls p ↔ Whole E p) ↔
      ∀ k, 1 ≤ k → k < NCPU → Clean E k := by
  obtain ⟨s, ls, e, h, hl⟩ := kinit_spec E m
  constructor
  · intro hh k h1 hk
    obtain ⟨s', ls', e', h', hl'⟩ := hh
    rw [e] at e'
    cases e'
    by_contra hn
    obtain ⟨q, hq, hno⟩ := lost_page hE h1 hk hn
    have hsame : Listed ls q ↔ Listed ls' q := Listed.congr (fun id hid => h.unique h' hid) q
    exact hno ((hl q).mp (hsame.mpr ((hl' q).mpr hq)))
  · intro hcl
    refine ⟨s, ls, e, h, fun p => (hl p).trans ⟨fun hp => ?_, fun hp => hp.inChunk hE hcl⟩⟩
    obtain ⟨id, -, hp⟩ := hp
    exact hp.whole

/-- A kernel that ends at 0x80028000. -/
def rounded : Link := ⟨⟨0x80028000, by decide⟩, by decide⟩

theorem kinit_hands_out_rounded : ∃ s ls, kinit rounded (boot fun _ => 0) = .ok s ∧ Lists rounded ls s ∧ ∀ p,
    Listed ls p ↔ Whole rounded p :=
  (kinit_hands_out rounded (fun _ => 0) (by decide)).mpr (by decide)

/-- A kernel that ends at 0x80025000: the page at 0x81020000 is on no list. -/
def uneven : Link := ⟨⟨0x80025000, by decide⟩, by decide⟩

theorem kinit_loses_a_page : ¬ ∀ (E : Link) (m : Mem), E.kend + NCPU * 4096 ≤ PHYSTOP →
    ∃ s ls, kinit E (boot m) = .ok s ∧ Lists E ls s ∧ ∀ p, Listed ls p ↔ Whole E p := by
  intro h
  obtain ⟨s', ls', e', h', hl'⟩ := h uneven (fun _ => 0) (by decide)
  obtain ⟨s, ls, e, h, hl⟩ := kinit_spec uneven fun _ => 0
  rw [e] at e'
  cases e'
  have hq : Listed ls 0x81020000 := (Listed.congr (fun id hid => h.unique h' hid) _).mpr
    ((hl' _).mpr (by unfold Whole; decide))
  have hn : ¬ ∃ id < NCPU, InChunk uneven id 0x81020000 := by
    unfold InChunk
    decide
  exact hn ((hl _).mp hq)

end Xv6Labs.Locks
