/-
  Xv6Labs.User.Heap — what malloc and free keep true of the heap.

  The memory from sbrk is a row of segments, free ones and allocations, and the free list goes
  through the free ones in order of address. Every operation takes the row apart at one segment.
-/

import Xv6Labs.Lib.Tiling
import Xv6Labs.User.Malloc

namespace Xv6Labs.Umalloc

open Lib

/-- A stretch of the heap with its header: free, or the allocation of `want` bytes. -/
structure Seg where
  addr : Nat
  units : Nat
  want : Option Nat

namespace Seg

def len (s : Seg) : Nat := sizeofHeader * s.units

def isFree (s : Seg) : Bool := s.want.isNone

end Seg

/-- The free blocks, by address. -/
def frees (segs : List Seg) : List Nat := (segs.filter Seg.isFree).map Seg.addr

variable {σ : Type} {base lo hi : Nat} {h h' : Heap σ} {segs pre post : List Seg} {s t : Seg} {p q n fuel : Nat}

theorem frees_append (pre post : List Seg) : frees (pre ++ post) = frees pre ++ frees post := by
  unfold frees
  rw [List.filter_append, List.map_append]

theorem frees_free (hs : s.isFree = true) : frees (s :: segs) = s.addr :: frees segs := by
  unfold frees
  rw [List.filter_cons_of_pos hs, List.map_cons]

theorem frees_used (hs : s.isFree = false) : frees (s :: segs) = frees segs := by
  unfold frees
  rw [List.filter_cons_of_neg (by rw [hs]; exact Bool.false_ne_true)]

theorem frees_sublist (segs : List Seg) : (frees segs).Sublist (segs.map Seg.addr) := List.filter_sublist.map _

theorem mem_frees : p ∈ frees segs ↔ ∃ s ∈ segs, s.isFree = true ∧ s.addr = p := by
  unfold frees
  simp only [List.mem_map, List.mem_filter, and_assoc]

/-- The segments fill what sbrk granted, and the headers have their sizes. A size is a uint: all
    of the memory is less than 2^32 headers. -/
structure Laid (base lo hi : Nat) (h : Heap σ) (segs : List Seg) : Prop where
  below : base + sizeofHeader ≤ lo
  above : hi < lo + 2 ^ 36
  tiles : Tiles Seg.addr Seg.len lo segs hi
  sized : ∀ s ∈ segs, h.size s.addr = s.units ∧ 0 < s.units
  baseSize : h.size base = 0
  usable : ∀ s ∈ segs, ∀ n, s.want = some n → n + sizeofHeader ≤ s.len

/-- What holds between two calls. -/
structure Inv (base lo hi : Nat) (h : Heap σ) (segs : List Seg) : Prop extends Laid base lo hi h segs where
  merged : segs.IsChain fun s t => s.isFree = false ∨ t.isFree = false
  ring : Links h.ptr (base :: frees segs ++ [base])
  rover : h.freep ∈ base :: frees segs

namespace Laid

theorem rises (hl : Laid base lo hi h segs) : (base :: segs.map Seg.addr).Pairwise (· < ·) := by
  refine .cons (fun a ha => ?_) (hl.tiles.rises fun s hs => ?_)
  · obtain ⟨s, hs, rfl⟩ := List.mem_map.mp ha
    have h1 := (hl.tiles.bounds hs).1
    have h2 := hl.below
    unfold sizeofHeader at h2
    omega
  · have := (hl.sized s hs).2
    unfold Seg.len sizeofHeader
    omega

theorem nodes_rise (hl : Laid base lo hi h segs) : (base :: frees segs).Pairwise (· < ·) :=
  hl.rises.sublist ((frees_sublist segs).cons_cons base)

/-- Headers at one address are one segment. -/
theorem addr_inj (hl : Laid base lo hi h segs) (hs : s ∈ segs) (ht : t ∈ segs) (e : s.addr = t.addr) : s = t := by
  by_contra hne
  have h1 := hl.tiles.disjoint ht hs hne
  have h2 := (hl.sized s hs).2
  have h3 := (hl.sized t ht).2
  unfold Seg.len sizeofHeader at h1
  omega

/-- Nothing grows past a uint. -/
theorem units_lt (hl : Laid base lo hi h segs) {k : Nat} (hk : lo + sizeofHeader * k ≤ hi) : k < 2 ^ 32 := by
  have := hl.above
  unfold sizeofHeader at hk
  omega

theorem base_lt (hl : Laid base lo hi h segs) (hs : s ∈ segs) : base < s.addr :=
  (List.pairwise_cons.mp hl.rises).1 _ (List.mem_map_of_mem hs)

end Laid

/-! ## Where a block belongs -/

/-- What lies behind the nodes of the lower part of the row: a node of the upper part, or `base`. -/
theorem belongs_last (hr : Links h.ptr (base :: frees pre ++ (frees post ++ [base])))
    (hpost : ∀ b ∈ frees post, n < b)
    (hpre : ∀ a ∈ base :: frees pre, base ≤ a ∧ a < n) (hp : p ∈ (base :: frees pre).getLast?) :
      belongs h n p = true := by
  have hpn := hpre p (List.mem_of_getLast? hp)
  cases e : frees post with
  | nil =>
    have := (links_append.mp hr).2.2 p hp base (by simp [e])
    simp only [belongs, this, Bool.or_eq_true, Bool.and_eq_true, decide_eq_true_eq]
    omega
  | cons b bs =>
    have := (links_append.mp hr).2.2 p hp b (by simp [e])
    have := hpost b (by simp [e])
    simp only [belongs, ‹h.ptr p = b›, Bool.or_eq_true, Bool.and_eq_true, decide_eq_true_eq]
    omega

theorem belongs_only (hr : Links h.ptr (base :: frees pre ++ (frees post ++ [base])))
    (hrise : (base :: frees pre ++ frees post).Pairwise (· < ·))
    (hb : base < n) (hpost : ∀ b ∈ frees post, n < b) (hpre : ∀ a ∈ base :: frees pre, a < n)
    (hq : q ∈ base :: frees pre ++ frees post) (hbel : belongs h n q = true) : q ∈ (base :: frees pre).getLast? := by
  simp only [belongs, Bool.or_eq_true, Bool.and_eq_true, decide_eq_true_eq] at hbel
  rcases List.mem_append.mp hq with hq | hq
  · obtain ⟨l, r, e⟩ := List.append_of_mem hq
    cases r with
    | nil =>
      rw [e, List.getLast?_concat]
      rfl
    | cons y r =>
      -- the next node still lies below the block
      have hl : Links h.ptr (l ++ q :: y :: (r ++ (frees post ++ [base]))) := by
        rw [e] at hr
        simpa using hr
      have hn := hl.next
      have hy := hpre y (by rw [e]; simp)
      have hlt : q < y := by
        rw [e] at hrise
        exact List.rel_of_pairwise_cons (List.pairwise_append.mp (List.pairwise_append.mp hrise).1).2.1
          (List.mem_cons_self ..)
      have := hpre q (by rw [e]; simp)
      omega
  · obtain ⟨l, r, e⟩ := List.append_of_mem hq
    have hqn := hpost q hq
    cases r with
    | nil =>
      have hl : Links h.ptr ((base :: frees pre ++ l) ++ q :: base :: []) := by
        rw [e] at hr
        simpa using hr
      have hn := hl.next
      omega
    | cons y r =>
      have hl : Links h.ptr ((base :: frees pre ++ l) ++ q :: y :: (r ++ [base])) := by
        rw [e] at hr
        simpa using hr
      have hn := hl.next
      have hlt : q < y := by
        rw [e] at hrise
        exact List.rel_of_pairwise_cons (List.pairwise_append.mp (List.pairwise_append.mp hrise).2.1).2.1
          (List.mem_cons_self ..)
      omega

theorem freeLoop_eq_followTo (h : Heap σ) (bp fuel p : Nat) :
    freeLoop h bp fuel p = followTo (belongs h bp) h.ptr fuel p := by
  induction fuel generalizing p with
  | zero => rfl
  | succ fuel ih =>
    unfold freeLoop followTo
    split
    · rfl
    · exact ih (h.ptr p)

namespace Laid

theorem before (hl : Laid base lo hi h (pre ++ s :: post)) (ht : t ∈ pre) : t.addr < s.addr := by
  have h1 := hl.rises
  rw [List.map_append, List.map_cons] at h1
  exact (List.pairwise_append.mp (List.pairwise_cons.mp h1).2).2.2 _ (List.mem_map_of_mem ht) _
    (List.mem_cons_self ..)

theorem behind (hl : Laid base lo hi h (pre ++ s :: post)) (ht : t ∈ post) : s.addr < t.addr := by
  have h1 := hl.rises
  rw [List.map_append, List.map_cons] at h1
  exact List.rel_of_pairwise_cons (List.pairwise_append.mp (List.pairwise_cons.mp h1).2).2.1 (List.mem_map_of_mem ht)

theorem lower (hl : Laid base lo hi h (pre ++ s :: post)) (hp : p ∈ base :: frees pre) : base ≤ p ∧ p < s.addr := by
  rcases List.mem_cons.mp hp with rfl | hp
  · exact ⟨Nat.le_refl _, hl.base_lt (by simp)⟩
  · obtain ⟨t, ht, -, rfl⟩ := mem_frees.mp hp
    exact ⟨Nat.le_of_lt (hl.base_lt (by simp [ht])), hl.before ht⟩

theorem upper (hl : Laid base lo hi h (pre ++ s :: post)) (hp : p ∈ frees post) : s.addr < p := by
  obtain ⟨t, ht, -, rfl⟩ := mem_frees.mp hp
  exact hl.behind ht

/-- The segment behind another one starts where it ends. -/
theorem follows (hl : Laid base lo hi h (pre ++ s :: t :: post)) : s.addr + s.len = t.addr := by
  obtain ⟨m, -, rfl, e, -⟩ := tiles_append.mp hl.tiles
  exact e.symm

end Laid

theorem nodes_split (pre : List Seg) (hs : s.isFree = false) (post : List Seg) :
    base :: frees (pre ++ s :: post) ++ [base] = base :: frees pre ++ (frees post ++ [base]) := by
  rw [frees_append, frees_used hs]
  simp

/-- The loop of free ends at the last node below the block. -/
theorem freeLoop_spec (hv : Inv base lo hi h (pre ++ s :: post)) (hs : s.isFree = false) :
    ∃ p ∈ (base :: frees pre).getLast?, ∀ fuel, (base :: frees (pre ++ s :: post)).length ≤ fuel →
      freeLoop h s.addr fuel h.freep = some p := by
  have hr := hv.ring
  rw [nodes_split pre hs] at hr
  have hrise := hv.nodes_rise
  rw [frees_append, frees_used hs, ← List.cons_append] at hrise
  obtain ⟨p, hp⟩ : ∃ p, p ∈ (base :: frees pre).getLast? := ⟨_, List.getLast?_eq_some_getLast (List.cons_ne_nil _ _)⟩
  have hbel := belongs_last hr (fun b => hv.upper) (fun a => hv.lower) hp
  have hmem : p ∈ base :: frees (pre ++ s :: post) := by
    rw [frees_append, ← List.cons_append]
    exact List.mem_append_left _ (List.mem_of_getLast? hp)
  have hex : ∃ q ∈ base :: frees (pre ++ s :: post), belongs h s.addr q = true := ⟨p, hmem, hbel⟩
  obtain ⟨q, hq, hstop, hw⟩ := followTo_ring hv.ring rfl hv.rover hex
  rw [frees_append, frees_used hs, ← List.cons_append] at hq
  have hqp := belongs_only hr hrise (hv.base_lt (by simp)) (fun b => hv.upper) (fun a ha => (hv.lower ha).2) hq hstop
  obtain rfl : q = p := Option.mem_unique hqp hp
  refine ⟨q, hp, fun fuel hf => ?_⟩
  rw [freeLoop_eq_followTo]
  exact hw fuel hf

/-! ## Joining the neighbours -/

/-- The block has been joined with what lies behind it, and points to the next node; the node
    below it, `p`, does not point to it yet. -/
structure Parted (base lo hi : Nat) (h : Heap σ) (pre : List Seg) (s : Seg) (post : List Seg) (p : Nat) :
    Prop extends Laid base lo hi h (pre ++ s :: post) where
  last : p ∈ (base :: frees pre).getLast?
  used : s.isFree = false
  lowerMerged : pre.IsChain fun s t => s.isFree = false ∨ t.isFree = false
  upperMerged : post.IsChain fun s t => s.isFree = false ∨ t.isFree = false
  next : ∀ t ∈ post.head?, t.isFree = false
  ring : Links (Function.update h.ptr p (h.ptr s.addr)) (base :: frees pre ++ (frees post ++ [base]))

/-- The nodes in front of the last one are others. -/
theorem dropLast_ne (hl : Laid base lo hi h (pre ++ s :: post)) (hp : p ∈ (base :: frees pre).getLast?) {a : Nat}
    (ha : a ∈ (base :: frees pre).dropLast) :
    a ≠ p ∧ a ≠ s.addr := by
  have hpw : (base :: frees pre).Pairwise (· < ·) := by
    have := hl.nodes_rise
    rw [frees_append, ← List.cons_append] at this
    exact (List.pairwise_append.mp this).1
  rw [← List.dropLast_append_getLast? p hp] at hpw
  have h1 := (List.pairwise_append.mp hpw).2.2 a ha p (List.mem_singleton.mpr rfl)
  have h2 := (hl.lower (List.mem_of_getLast? hp)).2
  omega

theorem upper_ne (hl : Laid base lo hi h (pre ++ s :: post)) (hp : p ∈ (base :: frees pre).getLast?) {b : Nat}
    (hb : b ∈ frees post) : b ≠ p ∧ b ≠ s.addr := by
  have h1 := hl.upper hb
  have h2 := (hl.lower (List.mem_of_getLast? hp)).2
  omega

/-- What the node below the block leads to. -/
theorem next_of_last (hr : Links h.ptr (base :: frees pre ++ (frees post ++ [base])))
    (hp : p ∈ (base :: frees pre).getLast?) :
    ∀ q ∈ (frees post ++ [base]).head?, h.ptr p = q := (links_append.mp hr).2.2 p hp

/-- The test of the first join fails when there is no free block right above. -/
theorem upper_misses (hl : Laid base lo hi h (pre ++ s :: post))
    (hr : Links h.ptr (base :: frees pre ++ (frees post ++ [base])))
    (hp : p ∈ (base :: frees pre).getLast?) (hnext : ∀ t ∈ post.head?, t.isFree = false) :
      s.addr + sizeofHeader * h.size s.addr ≠ h.ptr p := by
  have hsize := (hl.sized s (by simp)).1
  rw [hsize]
  change s.addr + s.len ≠ h.ptr p
  cases hpost : frees post with
  | nil =>
    have e : h.ptr p = base := next_of_last hr hp base (by simp [hpost])
    have := hl.base_lt (s := s) (by simp)
    omega
  | cons b bs =>
    have e : h.ptr p = b := next_of_last hr hp b (by simp [hpost])
    obtain ⟨t, ht, hfree, rfl⟩ := mem_frees.mp (hpost ▸ List.mem_cons_self .. : b ∈ frees post)
    cases post with
    | nil => cases ht
    | cons u post =>
      have hu : u.isFree = false := hnext u rfl
      have ht : t ∈ post := (List.mem_cons.mp ht).resolve_left fun e => by rw [e, hu] at hfree; cases hfree
      have h1 := hl.follows
      have hl' : Laid base lo hi h ((pre ++ [s]) ++ u :: post) := by simpa using hl
      have h2 := hl'.upper (p := t.addr) (mem_frees.mpr ⟨t, ht, hfree, rfl⟩)
      omega

/-- One header is rewritten, to the size its segment has in the new row. -/
theorem Laid.resize (hl : Laid base lo hi h segs) (htiles : Tiles Seg.addr Seg.len lo (pre ++ s :: post) hi)
    (hpos : 0 < s.units) (hne : base ≠ s.addr)
    (hsize : h'.size s.addr = s.units) (hother : ∀ a, a ≠ s.addr → h'.size a = h.size a)
    (hrest : ∀ t ∈ pre ++ post, t ∈ segs ∧ t.addr ≠ s.addr)
    (huse : ∀ n, s.want = some n → n + sizeofHeader ≤ s.len) : Laid base lo hi h' (pre ++ s :: post) := by
  have hmem : ∀ t ∈ pre ++ s :: post, t = s ∨ t ∈ pre ++ post := fun t ht => by
    simp only [List.mem_append, List.mem_cons] at ht ⊢
    tauto
  refine ⟨hl.below, hl.above, htiles, fun t ht => ?_, (hother base hne).trans hl.baseSize, fun t ht => ?_⟩
  · rcases hmem t ht with rfl | ht
    · exact ⟨hsize, hpos⟩
    · obtain ⟨hm, ha⟩ := hrest t ht
      rw [hother _ ha]
      exact hl.sized t hm
  · rcases hmem t ht with rfl | ht
    · exact huse
    · exact hl.usable t (hrest t ht).1

/-- Two neighbours as one segment. -/
theorem Laid.glue (hl : Laid base lo hi h (pre ++ s :: t :: post)) :
    Tiles Seg.addr Seg.len lo (pre ++ { s with units := s.units + t.units } :: post) hi := by
  obtain ⟨m, h1, e, e', h2⟩ := tiles_append.mp hl.tiles
  refine tiles_append.mpr ⟨m, h1, e, ?_⟩
  have : m + Seg.len { s with units := s.units + t.units } = m + s.len + t.len := by
    simp only [Seg.len, Nat.mul_add, Nat.add_assoc]
  rw [this]
  exact h2

theorem Laid.glue_lt (hl : Laid base lo hi h (pre ++ s :: t :: post)) : s.units + t.units < 2 ^ 32 := by
  have h1 := (Tiles.bounds hl.glue (List.mem_append_right _ (List.mem_cons_self ..)))
  exact hl.units_lt (Nat.le_trans (Nat.add_le_add_right h1.1 _) h1.2)

theorem joinUpper_spec (hv : Inv base lo hi h (pre ++ s :: post)) (hs : s.isFree = false)
    (hp : p ∈ (base :: frees pre).getLast?) :
    ∃ s' post', Parted base lo hi (joinUpper h s.addr p) pre s' post' p ∧ s'.addr = s.addr ∧ s.units ≤ s'.units ∧
      (joinUpper h s.addr p).os = h.os ∧ ∀ t, t.isFree = false → (t ∈ post' ↔ t ∈ post) := by
  have hr := hv.ring
  rw [nodes_split pre hs] at hr
  have hps : s.addr ≠ p := by
    have := (hv.lower (List.mem_of_getLast? hp)).2
    omega
  have hchain := List.isChain_append.mp hv.merged
  have hbs := hv.base_lt (s := s) (by simp)
  by_cases hnext : ∀ t ∈ post.head?, t.isFree = false
  · have hj : joinUpper h s.addr p = h.setPtr s.addr (h.ptr p) := if_neg (upper_misses hv.toLaid hr hp hnext)
    rw [hj]
    refine ⟨s, post, ⟨⟨hv.below, hv.above, hv.tiles, fun t ht => ?_, ?_, hv.usable⟩, hp, hs, hchain.1,
      hchain.2.1.tail, hnext, ?_⟩, rfl, Nat.le_refl _, rfl,
      fun _ _ => Iff.rfl⟩
    · rw [Heap.setPtr_size]
      exact hv.sized t ht
    · rw [Heap.setPtr_size]
      exact hv.baseSize
    · refine hr.congr_ring (fun a ha => ?_) fun b hb => ?_
      · by_cases e : a = p
        · rw [e, Function.update_self, Heap.setPtr_ptr]
        · have := (hv.lower ha).2
          rw [Function.update_of_ne e, Heap.setPtr_ptr_ne _ _ _ (by omega)]
      · obtain ⟨h1, h2⟩ := upper_ne hv.toLaid hp hb
        rw [Function.update_of_ne h1, Heap.setPtr_ptr_ne _ _ _ h2]
  · obtain ⟨t, post, rfl, ht⟩ : ∃ t post1, post = t :: post1 ∧ t.isFree = true := by
      cases post with
      | nil => exact absurd (fun _ h => by cases h) hnext
      | cons t post => exact ⟨t, post, rfl, by simpa using hnext⟩
    have hptr : h.ptr p = t.addr := next_of_last hr hp t.addr (by rw [frees_free ht]; rfl)
    have hst := hv.follows
    have hlt := hv.glue_lt
    have hsize := (hv.sized s (by simp)).1
    have htsize := (hv.sized t (by simp)).1
    have hspos := (hv.sized s (by simp)).2
    have hne : t.addr ≠ s.addr := by
      unfold Seg.len sizeofHeader at hst
      omega
    have hj : joinUpper h s.addr p = (h.setSize s.addr (s.units + t.units)).setPtr s.addr (h.ptr t.addr) := by
      unfold joinUpper
      rw [if_pos (by rw [hsize, hptr]; exact hst)]
      simp only [Heap.setSize_ptr, hptr, hsize, htsize, u32, Nat.mod_eq_of_lt hlt]
    rw [hj]
    refine ⟨{ s with units := s.units + t.units }, post,
      ⟨?_, hp, hs, hchain.1, hchain.2.1.tail.tail, fun u hu => ?_, ?_⟩, rfl, Nat.le_add_right .., rfl, fun u hu => ?_⟩
    · refine hv.toLaid.resize hv.glue (by simp only; omega) (by simp only; omega) (by simp) (fun a ha => by simp [ha])
        (fun u hu => ?_) fun n hn => ?_
      · rcases List.mem_append.mp hu with hu | hu
        · exact ⟨by simp [hu], Nat.ne_of_lt (hv.before hu)⟩
        · exact ⟨by simp [hu], Nat.ne_of_gt (hv.behind (by simp [hu]))⟩
      · have := hv.usable s (by simp) n hn
        unfold Seg.len sizeofHeader at this ⊢
        simp only
        omega
    · -- two free blocks are not neighbours
      have := (List.isChain_cons.mp hchain.2.1.tail).1 u hu
      rw [ht] at this
      exact this.resolve_left Bool.noConfusion
    · rw [frees_free ht] at hr
      have hr' : Links h.ptr (base :: frees pre ++ t.addr :: (frees post ++ [base])) := by simpa using hr
      refine hr'.unlink hp (fun a ha => ?_) (fun b hb => ?_) ?_
      · obtain ⟨h1, h2⟩ := dropLast_ne hv.toLaid hp ha
        rw [Function.update_of_ne h1, Heap.setPtr_ptr_ne _ _ _ h2, Heap.setSize_ptr]
      · rw [List.dropLast_concat] at hb
        obtain ⟨h1, h2⟩ := upper_ne hv.toLaid hp (by rw [frees_free ht]; exact List.mem_cons_of_mem _ hb)
        rw [Function.update_of_ne h1, Heap.setPtr_ptr_ne _ _ _ h2, Heap.setSize_ptr]
      · rw [Function.update_self, Heap.setPtr_ptr]
    · rw [List.mem_cons]
      refine ⟨Or.inr, fun h => h.resolve_left fun e => ?_⟩
      rw [e, ht] at hu
      cases hu

/-- The last node is the segment right below the block, if that one is free. -/
theorem last_free (ht : t.isFree = true) (hp : p ∈ (base :: frees (pre ++ [t])).getLast?) : p = t.addr := by
  rw [frees_append, frees_free ht, ← List.cons_append] at hp
  rw [show frees [] = [] from rfl, List.getLast?_concat] at hp
  exact (Option.some.inj hp).symm

/-- The test of the second join fails when there is no free block right below. -/
theorem lower_misses (hl : Laid base lo hi h (pre ++ s :: post)) (hp : p ∈ base :: frees pre)
    (hlast : ∀ t ∈ pre.getLast?, t.isFree = false) :
    p + sizeofHeader * h.size p ≠ s.addr := by
  rcases List.mem_cons.mp hp with rfl | hp
  · have := hl.base_lt (s := s) (by simp)
    rw [hl.baseSize]
    omega
  · obtain ⟨t, ht, hfree, rfl⟩ := mem_frees.mp hp
    obtain ⟨l, u, rfl⟩ : ∃ l u, pre = l ++ [u] := ⟨_, _, (List.dropLast_append_getLast (List.ne_nil_of_mem ht)).symm⟩
    have hu : u.isFree = false := hlast u (by simp)
    have htl : t ∈ l := by
      rcases List.mem_append.mp ht with ht | ht
      · exact ht
      · rw [List.mem_singleton.mp ht, hu] at hfree
        cases hfree
    rw [(hl.sized t (by simp [htl])).1]
    -- it ends before `u`, and `u` lies below the block
    have hl' : Laid base lo hi h (l ++ u :: s :: post) := by simpa using hl
    have h1 := hl'.before htl
    have h2 := hl'.behind (t := s) (by simp)
    have h3 := hl'.tiles.disjoint (x := t) (y := u) (by simp [htl]) (by simp) (by rintro rfl; omega)
    have h4 := (hl'.sized u (by simp)).2
    unfold Seg.len sizeofHeader at *
    omega

/-- The block stands for itself, or is part of the one below it. -/
theorem joinLower_spec (hv : Parted base lo hi h pre s post p) :
    ∃ segs, Inv base lo hi ((joinLower h s.addr p).setFreep p) segs ∧ (joinLower h s.addr p).os = h.os ∧
      (∀ t, t.isFree = false → (t ∈ segs ↔ t ∈ pre ++ post)) ∧ ∃ t ∈ segs, t.isFree = true ∧ s.units ≤ t.units := by
  have hmem := List.mem_of_getLast? hv.last
  have hps := (hv.lower hmem).2
  by_cases hlast : ∀ t ∈ pre.getLast?, t.isFree = false
  · have hj : joinLower h s.addr p = h.setPtr p s.addr := if_neg (lower_misses hv.toLaid hmem hlast)
    have hfree : Seg.isFree { s with want := none } = true := rfl
    have hnodes : base :: frees (pre ++ { s with want := none } :: post) ++ [base] =
      base :: frees pre ++ s.addr :: (frees post ++ [base]) := by
      rw [frees_append, frees_free hfree]
      simp
    rw [hj]
    refine ⟨pre ++ { s with want := none } :: post, ⟨?_, ?_, ?_, ?_⟩, rfl, fun t ht => ?_,
      ⟨_, by simp, hfree, Nat.le_refl _⟩⟩
    · have hsized := hv.sized s (by simp)
      refine hv.toLaid.resize ?_ hsized.2 (Nat.ne_of_lt (hv.base_lt (s := s) (by simp))) (by simpa using hsized.1)
        (by simp) (fun t ht => ?_) fun _ hn => by cases hn
      · obtain ⟨m, h1, h2⟩ := tiles_append.mp hv.tiles
        exact tiles_append.mpr ⟨m, h1, h2⟩
      · rcases List.mem_append.mp ht with ht | ht
        · exact ⟨by simp [ht], Nat.ne_of_lt (hv.before ht)⟩
        · exact ⟨by simp [ht], Nat.ne_of_gt (hv.behind ht)⟩
    · exact List.isChain_append.mpr ⟨hv.lowerMerged,
        List.isChain_cons.mpr ⟨fun t ht => Or.inr (hv.next t ht), hv.upperMerged⟩,
        fun t ht _ _ => Or.inl (hlast t ht)⟩
    · rw [hnodes]
      refine hv.ring.insert hv.last (fun a ha => ?_) (fun b hb => ?_) ?_ ?_
      · obtain ⟨h1, -⟩ := dropLast_ne hv.toLaid hv.last ha
        rw [Function.update_of_ne h1, Heap.setFreep_ptr, Heap.setPtr_ptr_ne _ _ _ h1]
      · rw [List.dropLast_concat] at hb
        obtain ⟨h1, -⟩ := upper_ne hv.toLaid hv.last hb
        rw [Function.update_of_ne h1, Heap.setFreep_ptr, Heap.setPtr_ptr_ne _ _ _ h1]
      · rw [Heap.setFreep_ptr, Heap.setPtr_ptr]
      · rw [Function.update_self, Heap.setFreep_ptr, Heap.setPtr_ptr_ne _ _ _ (by omega)]
    · rw [Heap.setFreep_freep, frees_append, ← List.cons_append]
      exact List.mem_append_left _ hmem
    · have hne : t ≠ { s with want := none } := by
        rintro rfl
        cases ht
      simp [hne]
  · obtain ⟨l, t, rfl, ht⟩ : ∃ l t, pre = l ++ [t] ∧ t.isFree = true := by
      rcases List.eq_nil_or_concat pre with rfl | ⟨l, t, rfl⟩
      · exact absurd (fun _ h => by cases h) hlast
      · exact ⟨l, t, by simp, by simpa using hlast⟩
    obtain rfl := last_free ht hv.last
    have hl : Laid base lo hi h (l ++ t :: s :: post) := by simpa using hv.toLaid
    have hts := hl.follows
    have hlt := hl.glue_lt
    have hsize := (hl.sized s (by simp)).1
    have htsize := (hl.sized t (by simp)).1
    have htpos := (hl.sized t (by simp)).2
    have hbt := hl.base_lt (s := t) (by simp)
    have hj : joinLower h s.addr t.addr = (h.setSize t.addr (t.units + s.units)).setPtr t.addr (h.ptr s.addr) := by
      unfold joinLower
      rw [if_pos (by rw [htsize]; exact hts)]
      simp only [Heap.setSize_ptr, hsize, htsize, u32, Nat.mod_eq_of_lt hlt]
    have hfree : Seg.isFree { t with units := t.units + s.units } = true := ht
    have hnodes : base :: frees (l ++ { t with units := t.units + s.units } :: post) ++ [base] =
      base :: frees (l ++ [t]) ++ (frees post ++ [base]) := by
      rw [frees_append, frees_free hfree, frees_append, frees_free ht]
      simp [frees]
    rw [hj]
    refine ⟨l ++ { t with units := t.units + s.units } :: post, ⟨?_, ?_, ?_, ?_⟩, rfl, fun u hu => ?_,
      ⟨_, by simp, hfree, Nat.le_add_left ..⟩⟩
    · refine hl.resize hl.glue (by simp only; omega) (Nat.ne_of_lt hbt) (by simp) (fun a ha => by simp [ha])
        (fun u hu => ?_) fun n hn => ?_
      · rcases List.mem_append.mp hu with hu | hu
        · exact ⟨by simp [hu], Nat.ne_of_lt (hl.before hu)⟩
        · exact ⟨by simp [hu], Nat.ne_of_gt (hl.behind (by simp [hu]))⟩
      · have := hl.usable t (by simp) n hn
        unfold Seg.len sizeofHeader at this ⊢
        simp only
        omega
    · obtain ⟨h1, -, h2⟩ := List.isChain_append.mp hv.lowerMerged
      refine List.isChain_append.mpr ⟨h1, List.isChain_cons.mpr ⟨fun u hu => Or.inr (hv.next u hu), hv.upperMerged⟩,
        fun u hu v hv' => ?_⟩
      obtain rfl : { t with units := t.units + s.units } = v := by simpa using hv'
      exact h2 u hu t (by simp)
    · rw [hnodes]
      refine hv.ring.congr_ring (fun a ha => ?_) fun b hb => ?_
      · by_cases e : a = t.addr
        · rw [e, Function.update_self, Heap.setFreep_ptr, Heap.setPtr_ptr]
        · rw [Function.update_of_ne e, Heap.setFreep_ptr, Heap.setPtr_ptr_ne _ _ _ e, Heap.setSize_ptr]
      · obtain ⟨h1, -⟩ := upper_ne hv.toLaid hv.last hb
        rw [Function.update_of_ne h1, Heap.setFreep_ptr, Heap.setPtr_ptr_ne _ _ _ h1, Heap.setSize_ptr]
    · rw [Heap.setFreep_freep, frees_append, frees_free hfree]
      simp
    · have h1 : u ≠ { t with units := t.units + s.units } := by
        rintro rfl
        rw [hfree] at hu
        cases hu
      have h2 : u ≠ t := by
        rintro rfl
        rw [ht] at hu
        cases hu
      simp [h1, h2]

/-- free puts the block among the free ones, and no other allocation changes. -/
theorem free_spec (hv : Inv base lo hi h (pre ++ s :: post)) (hs : s.isFree = false) :
    ∃ h' segs, Inv base lo hi h' segs ∧ h'.os = h.os ∧
      (∀ fuel, (base :: frees (pre ++ s :: post)).length ≤ fuel → free fuel (s.addr + sizeofHeader) h = some h') ∧
      (∀ t, t.isFree = false → (t ∈ segs ↔ t ∈ pre ++ post)) ∧ ∃ t ∈ segs, t.isFree = true ∧ s.units ≤ t.units := by
  obtain ⟨p, hp, hloop⟩ := freeLoop_spec hv hs
  obtain ⟨s', post', hparted, haddr, hle, hos, hpost⟩ := joinUpper_spec hv hs hp
  obtain ⟨segs, hv', hos', hused, t, ht, hfree, hle'⟩ := joinLower_spec hparted
  rw [haddr] at hv' hos'
  refine ⟨_, segs, hv', hos'.trans hos, fun fuel hf => ?_, fun u hu => ?_, t, ht, hfree, Nat.le_trans hle hle'⟩
  · unfold free
    simp only [Nat.add_sub_cancel, hloop fuel hf]
  · rw [hused u hu, List.mem_append, List.mem_append, hpost u hu]

/-! ## Taking a block -/

/-- The node that leads to a free block is the last one below it. -/
theorem prev_last (hv : Inv base lo hi h (pre ++ s :: post)) (hs : s.isFree = true)
    (hq : q ∈ base :: frees (pre ++ s :: post)) (hptr : h.ptr q = s.addr) :
    q ∈ (base :: frees pre).getLast? := by
  obtain ⟨p, hp⟩ : ∃ p, p ∈ (base :: frees pre).getLast? := ⟨_, List.getLast?_eq_some_getLast (List.cons_ne_nil _ _)⟩
  have hr : Links h.ptr (base :: frees pre ++ s.addr :: (frees post ++ [base])) := by
    have := hv.ring
    rw [frees_append, frees_free hs] at this
    simpa using this
  have hps : h.ptr p = s.addr := (links_append.mp hr).2.2 p hp s.addr rfl
  have hmem : p ∈ base :: frees (pre ++ s :: post) := by
    rw [frees_append, ← List.cons_append]
    exact List.mem_append_left _ (List.mem_of_getLast? hp)
  have hnodup : (base :: frees (pre ++ s :: post)).Nodup := hv.nodes_rise.imp Nat.ne_of_lt
  rwa [hv.ring.inj rfl hnodup hq hmem (hptr.trans hps.symm)]

/-- What a request gets: an allocation of its own, while the other ones stay. -/
structure Taken (base lo hi : Nat) (segs : List Seg) (nunits nbytes : Nat) (r : Nat) (h' : Heap σ)
    (segs' : List Seg) : Prop where
  inv : Inv base lo hi h' segs'
  used : ∀ t, t.isFree = false → (t ∈ segs' ↔
    t ∈ segs ∨ t = { addr := r - sizeofHeader, units := nunits, want := some nbytes })
  result : sizeofHeader ≤ r
  apart : ∀ t ∈ segs, t.isFree = false → t.addr ≠ r - sizeofHeader

theorem take_whole (hv : Inv base lo hi h (pre ++ s :: post)) (hs : s.isFree = true)
    (hq : q ∈ base :: frees (pre ++ s :: post)) (hptr : h.ptr q = s.addr)
    {nbytes : Nat} (hn : nbytes + sizeofHeader ≤ s.len) :
    ∃ segs, Taken base lo hi (pre ++ s :: post) s.units nbytes (s.addr + sizeofHeader)
      ((h.setPtr q (h.ptr s.addr)).setFreep q) segs := by
  have hp := prev_last hv hs hq hptr
  have hsized := hv.sized s (by simp)
  have hmem : ∀ t, t.isFree = false → t ≠ s := by
    rintro t ht rfl
    rw [hs] at ht
    cases ht
  refine ⟨pre ++ { s with want := some nbytes } :: post,
    ⟨⟨?_, ?_, ?_, ?_⟩, fun t ht => ?_, by omega, fun t ht hused => ?_⟩⟩
  · refine hv.toLaid.resize ?_ hsized.2 (Nat.ne_of_lt (hv.base_lt (s := s) (by simp))) (by simpa using hsized.1)
      (by simp) (fun t ht => ?_) fun n hn' => ?_
    · obtain ⟨m, h1, h2⟩ := tiles_append.mp hv.tiles
      exact tiles_append.mpr ⟨m, h1, h2⟩
    · rcases List.mem_append.mp ht with ht | ht
      · exact ⟨by simp [ht], Nat.ne_of_lt (hv.before ht)⟩
      · exact ⟨by simp [ht], Nat.ne_of_gt (hv.behind ht)⟩
    · obtain rfl : nbytes = n := by simpa using hn'
      exact hn
  · obtain ⟨h1, h2, -⟩ := List.isChain_append.mp hv.merged
    exact List.isChain_append.mpr ⟨h1, List.isChain_cons.mpr ⟨fun _ _ => Or.inl rfl, h2.tail⟩,
      fun _ _ t ht => Or.inr (by
      obtain rfl : { s with want := some nbytes } = t := by simpa using ht
      rfl)⟩
  · have hr : Links h.ptr (base :: frees pre ++ s.addr :: (frees post ++ [base])) := by
      have := hv.ring
      rw [frees_append, frees_free hs] at this
      simpa using this
    have hused : Seg.isFree { s with want := some nbytes } = false := rfl
    rw [nodes_split pre hused]
    refine hr.unlink hp (fun a ha => ?_) (fun b hb => ?_) ?_
    · obtain ⟨h1, -⟩ := dropLast_ne hv.toLaid hp ha
      rw [Heap.setFreep_ptr, Heap.setPtr_ptr_ne _ _ _ h1]
    · rw [List.dropLast_concat] at hb
      obtain ⟨h1, -⟩ := upper_ne hv.toLaid hp hb
      rw [Heap.setFreep_ptr, Heap.setPtr_ptr_ne _ _ _ h1]
    · rw [Heap.setFreep_ptr, Heap.setPtr_ptr]
  · rw [Heap.setFreep_freep, frees_append, ← List.cons_append]
    exact List.mem_append_left _ (List.mem_of_getLast? hp)
  · rw [Nat.add_sub_cancel]
    have := hmem t ht
    simp only [List.mem_append, List.mem_cons]
    tauto
  · rw [Nat.add_sub_cancel]
    exact fun e => hmem t hused (hv.addr_inj ht (by simp) e)

/-- The tail of a larger block is cut off. -/
theorem take_tail (hv : Inv base lo hi h (pre ++ s :: post)) (hs : s.isFree = true)
    (hq : q ∈ base :: frees (pre ++ s :: post)) {k nunits nbytes : Nat}
    (hk : s.units = k + nunits) (hkpos : 0 < k) (hpos : 0 < nunits)
    (hn : nbytes + sizeofHeader ≤ sizeofHeader * nunits) :
    ∃ segs, Taken base lo hi (pre ++ s :: post) nunits nbytes (s.addr + sizeofHeader * k + sizeofHeader)
      (((h.setSize s.addr k).setSize (s.addr + sizeofHeader * k) nunits).setFreep q) segs := by
  have hlen : s.len = sizeofHeader * k + sizeofHeader * nunits := by
    unfold Seg.len
    rw [hk, Nat.mul_add]
  have hcut : s.addr < s.addr + sizeofHeader * k := by
    unfold sizeofHeader
    omega
  have hbs := hv.base_lt (s := s) (by simp)
  have hbehind : ∀ t ∈ post, s.addr + sizeofHeader * k < t.addr := fun t ht => by
    have h1 := hv.tiles.disjoint (x := s) (y := t) (by simp) (by simp [ht])
      (by rintro rfl; exact absurd (hv.behind ht) (Nat.lt_irrefl _))
    have h2 := hv.behind ht
    have h3 := (hv.sized t (by simp [ht])).2
    unfold Seg.len sizeofHeader at *
    omega
  have hmem : ∀ t, t.isFree = false → t ≠ s ∧ t ≠ { s with units := k } := by
    intro t ht
    constructor <;>
    · rintro rfl
      exact absurd (ht.symm.trans hs) Bool.false_ne_true
  have hfree : Seg.isFree { s with units := k } = true := hs
  have hused : Seg.isFree { addr := s.addr + sizeofHeader * k, units := nunits, want := some nbytes } = false := rfl
  have hnodes :
    frees (pre ++ { s with units := k } ::
    { addr := s.addr + sizeofHeader * k, units := nunits, want := some nbytes } :: post) =
    frees (pre ++ s :: post) := by
    rw [frees_append, frees_free hfree, frees_used hused, frees_append, frees_free hs]
  refine ⟨pre ++ { s with units := k } ::
    { addr := s.addr + sizeofHeader * k, units := nunits, want := some nbytes } :: post,
    ⟨⟨⟨hv.below, hv.above, ?_, fun t ht => ?_, ?_, fun t ht n hn' => ?_⟩, ?_, ?_, ?_⟩, fun t ht => ?_, by omega,
      fun t ht hus => ?_⟩⟩
  · obtain ⟨m, h1, rfl, h2⟩ := tiles_append.mp hv.tiles
    refine tiles_append.mpr ⟨s.addr, h1, rfl, rfl, ?_⟩
    rw [hlen, ← Nat.add_assoc] at h2
    exact h2
  · simp only [List.mem_append, List.mem_cons] at ht
    rcases ht with ht | rfl | rfl | ht
    · have := hv.before ht
      rw [Heap.setFreep_size, Heap.setSize_size_ne _ _ _ (by omega), Heap.setSize_size_ne _ _ _ (by omega)]
      exact hv.sized t (by simp [ht])
    · rw [Heap.setFreep_size, Heap.setSize_size_ne _ _ _ (by simp only; omega)]
      exact ⟨Heap.setSize_size .., hkpos⟩
    · exact ⟨Heap.setSize_size .., hpos⟩
    · have := hbehind t ht
      rw [Heap.setFreep_size, Heap.setSize_size_ne _ _ _ (by omega), Heap.setSize_size_ne _ _ _ (by omega)]
      exact hv.sized t (by simp [ht])
  · rw [Heap.setFreep_size, Heap.setSize_size_ne _ _ _ (by omega), Heap.setSize_size_ne _ _ _ (by omega)]
    exact hv.baseSize
  · simp only [List.mem_append, List.mem_cons] at ht
    rcases ht with ht | rfl | rfl | ht
    · exact hv.usable t (by simp [ht]) n hn'
    · rw [show Seg.want { s with units := k } = none from Option.isNone_iff_eq_none.mp hs] at hn'
      cases hn'
    · obtain rfl : nbytes = n := by simpa using hn'
      exact hn
    · exact hv.usable t (by simp [ht]) n hn'
  · obtain ⟨h1, h2, h3⟩ := List.isChain_append.mp hv.merged
    refine List.isChain_append.mpr ⟨h1, List.isChain_cons_cons.mpr
      ⟨Or.inr hused, List.isChain_cons.mpr ⟨fun _ _ => Or.inl hused, h2.tail⟩⟩, fun t ht u hu => ?_⟩
    obtain rfl : { s with units := k } = u := by simpa using hu
    exact h3 t ht s rfl
  · rw [hnodes]
    exact hv.ring.congr fun a _ => by simp
  · rw [hnodes]
    exact hq
  · rw [Nat.add_sub_cancel]
    have := hmem t ht
    simp only [List.mem_append, List.mem_cons]
    tauto
  · rw [Nat.add_sub_cancel]
    simp only [List.mem_append, List.mem_cons] at ht
    rcases ht with ht | rfl | ht
    · have := hv.before ht
      omega
    · exact absurd rfl (hmem t hus).1
    · have := hbehind t ht
      omega

/-- malloc takes a block that is large enough, or the tail of it. -/
theorem take_spec (hv : Inv base lo hi h segs) (hq : q ∈ base :: frees segs) (hs : s ∈ segs) (hfree : s.isFree = true)
    (hptr : h.ptr q = s.addr) {nunits nbytes : Nat}
    (hpos : 0 < nunits) (hle : nunits ≤ s.units) (hn : nbytes + sizeofHeader ≤ sizeofHeader * nunits) :
    ∃ segs', Taken base lo hi segs nunits nbytes (take nunits q s.addr h).1 (take nunits q s.addr h).2 segs' ∧
      (take nunits q s.addr h).2.os = h.os := by
  obtain ⟨pre, post, rfl⟩ := List.append_of_mem hs
  have hsize := (hv.sized s hs).1
  unfold take
  split
  next e =>
    obtain rfl : s.units = nunits := hsize.symm.trans e
    obtain ⟨segs', ht⟩ := take_whole hv hfree hq hptr (by unfold Seg.len; exact hn)
    exact ⟨segs', ht, rfl⟩
  next e =>
    have hlt : s.units < 2 ^ 32 :=
      hv.units_lt (Nat.le_trans (Nat.add_le_add_right (hv.tiles.bounds hs).1 _) (hv.tiles.bounds hs).2)
    obtain ⟨segs', ht⟩ := take_tail hv hfree hq (k := s.units - nunits) (by omega) (by omega) hpos hn
    refine ⟨segs', ?_, rfl⟩
    have hk : u32 (h.size s.addr - nunits) = s.units - nunits := by
      rw [hsize]
      exact Nat.mod_eq_of_lt (by omega)
    simp only [hk, Heap.setSize_size]
    exact ht

/-! ## The search -/

/-- The loop of malloc passes over the blocks that are too small. -/
theorem mallocLoop_skip {sbrk : Sbrk σ} {nunits : Nat} {xs : List Nat} (hl : Links h.ptr (p :: xs ++ [q]))
    (hxs : ∀ a ∈ xs, h.size a < nunits ∧ a ≠ h.freep) :
    ∃ r ∈ p :: xs, h.ptr r = q ∧ ∀ fuel, mallocLoop sbrk nunits (fuel + xs.length) p (h.ptr p) h =
      mallocLoop sbrk nunits fuel r q h := by
  induction xs generalizing p with
  | nil =>
    have e : h.ptr p = q := (links_cons_cons.mp hl).1
    exact ⟨p, by simp, e, fun fuel => by rw [e]; rfl⟩
  | cons x xs ih =>
    obtain ⟨e, hl⟩ := links_cons_cons.mp hl
    obtain ⟨hsize, hne⟩ := hxs x (by simp)
    obtain ⟨r, hr, hrq, hloop⟩ := ih hl fun a ha => hxs a (by simp [ha])
    refine ⟨r, List.mem_cons_of_mem _ hr, hrq, fun fuel => ?_⟩
    rw [← hloop, e, List.length_cons, ← Nat.add_assoc]
    conv_lhs => unfold mallocLoop
    rw [if_neg (by omega), if_neg hne]

/-- The search from `freep` ends at a block that is large enough, or at `freep` when there is none. -/
theorem search (sbrk : Sbrk σ) (nunits : Nat) (hv : Inv base lo hi h segs) :
    (∃ r ∈ base :: frees segs, ∃ q ∈ base :: frees segs, ∃ k, h.ptr r = q ∧ nunits ≤ h.size q ∧
      ∀ fuel, mallocLoop sbrk nunits (fuel + 1 + k) h.freep (h.ptr h.freep) h = some (take nunits r q h)) ∨
    ((∀ q ∈ base :: frees segs, h.size q < nunits) ∧ ∃ r, ∀ fuel,
      mallocLoop sbrk nunits (fuel + 1 + (frees segs).length) h.freep (h.ptr h.freep) h =
      mallocLoop sbrk nunits (fuel + 1) r h.freep h) := by
  obtain ⟨l, r, e⟩ := List.append_of_mem hv.rover
  have hring : Links h.ptr (h.freep :: (r ++ l) ++ [h.freep]) := by
    have hr := hv.ring
    cases l with
    | nil =>
      obtain ⟨rfl, rfl⟩ := List.cons_eq_cons.mp e
      simpa using hr
    | cons y l =>
      obtain ⟨rfl, hfr⟩ := List.cons_eq_cons.mp e
      rw [e] at hr
      have hr : Links h.ptr ((base :: l) ++ h.freep :: r ++ (base :: l).head?.toList) := by simpa using hr
      simpa using hr.rotate (List.cons_ne_nil _ _)
  have hnodes : ∀ a, a ∈ r ++ l ++ [h.freep] ↔ a ∈ base :: frees segs := fun a => by
    rw [e]
    simp only [List.mem_append, List.mem_cons, List.not_mem_nil, or_false]
    tauto
  have hnodup : (r ++ l ++ [h.freep]).Nodup := by
    have h1 : (base :: frees segs).Nodup := hv.nodes_rise.imp Nat.ne_of_lt
    rw [e] at h1
    have h2 : (l ++ ([h.freep] ++ r)).Nodup := h1
    rw [List.nodup_append_comm, List.append_assoc, List.nodup_append_comm] at h2
    exact h2
  have hlen : (r ++ l).length = (frees segs).length := by
    have := congrArg List.length e
    simp only [List.length_append, List.length_cons] at this ⊢
    omega
  cases hfind : (r ++ l ++ [h.freep]).find? fun a => decide (nunits ≤ h.size a) with
  | some q =>
    obtain ⟨hq, ys, zs, e', hys⟩ := List.find?_eq_some_iff_append.mp hfind
    refine Or.inl ?_
    have hlast : h.freep ∈ q :: zs := by
      have h1 : (ys ++ q :: zs).getLast? = some h.freep := by rw [← e', List.getLast?_concat]
      rw [List.getLast?_append_of_ne_nil _ (List.cons_ne_nil q zs)] at h1
      exact List.mem_of_getLast? h1
    have hdis := (List.nodup_append.mp (e' ▸ hnodup)).2.2
    have hl : Links h.ptr ((h.freep :: ys ++ [q]) ++ zs) := by
      have h1 : Links h.ptr (h.freep :: (r ++ l ++ [h.freep])) := by simpa using hring
      rw [e'] at h1
      simpa using h1
    obtain ⟨p, hp, hptr, hloop⟩ := @mallocLoop_skip _ _ _ _ sbrk nunits _ (links_append.mp hl).1
      (fun a ha => ⟨by simpa using hys a ha, hdis a ha _ hlast⟩)
    refine ⟨p, ?_, q, (hnodes q).mp (by rw [e']; simp), ys.length, hptr, by simpa using hq, fun fuel => ?_⟩
    · rcases List.mem_cons.mp hp with rfl | hp
      · exact hv.rover
      · exact (hnodes p).mp (by rw [e']; simp [hp])
    · rw [hloop]
      unfold mallocLoop
      rw [if_pos (by simpa using hq)]
  | none =>
    rw [List.find?_eq_none] at hfind
    refine Or.inr ⟨fun q hq => by simpa using hfind q ((hnodes q).mpr hq), ?_⟩
    have hdis := (List.nodup_append.mp hnodup).2.2
    obtain ⟨p, -, -, hloop⟩ := @mallocLoop_skip _ _ _ _ sbrk nunits _ hring
      (fun a ha => ⟨by simpa using hfind a (by simp only [List.mem_append] at ha ⊢; tauto), hdis a ha _ (by simp)⟩)
    exact ⟨p, fun fuel => by rw [← hlen, hloop]⟩

/-! ## More memory -/

/-- sbrk gives the bytes right above the break, less than 2^36 in all, or fails. -/
def Grants (sbrk : Sbrk σ) (brk : σ → Nat) (lo : Nat) : Prop :=
  ∀ n s, 0 < n → ((sbrk n s).1 = failed ∧ brk (sbrk n s).2 = brk s) ∨
    ((sbrk n s).1 = brk s ∧ (brk (sbrk n s).2 : Int) = brk s + n ∧ brk (sbrk n s).2 < lo + 2 ^ 36)

/-- What morecore asks for. -/
def asked (nunits : Nat) : Nat := if nunits < 4096 then 4096 else nunits

theorem Inv.withOs (hv : Inv base lo hi h segs) (os : σ) : Inv base lo hi { h with os := os } segs :=
  ⟨⟨hv.below, hv.above, hv.tiles, hv.sized, hv.baseSize, hv.usable⟩, hv.merged, hv.ring, hv.rover⟩

theorem request_eq {nu : Nat} (h : nu < 2 ^ 27) : request nu = sizeofHeader * nu := by
  unfold request sizeofHeader
  rw [u64_of_lt (by omega), i32_of_range (by omega) (by omega)]
  omega

/-- The memory from sbrk is a segment of its own, until it is freed. -/
theorem grow_inv (hv : Inv base lo hi h segs) {nu : Nat} (hnu : 0 < nu)
    (hroom : hi + sizeofHeader * nu < lo + 2 ^ 36) :
    Inv base lo (hi + sizeofHeader * nu) (h.setSize hi nu)
      (segs ++ [{ addr := hi, units := nu, want := some 0 }]) := by
  have hle := hv.tiles.le
  have hbelow := hv.below
  have hused : Seg.isFree { addr := hi, units := nu, want := some 0 } = false := rfl
  have hnodes : frees (segs ++ [{ addr := hi, units := nu, want := some 0 }]) = frees segs := by
    rw [frees_append, frees_used hused]
    exact List.append_nil _
  refine ⟨⟨hv.below, hroom, tiles_append.mpr ⟨hi, hv.tiles, rfl, rfl⟩, fun t ht => ?_, ?_, fun t ht n hn => ?_⟩, ?_,
    ?_, ?_⟩
  · rcases List.mem_append.mp ht with ht | ht
    · have h1 := (hv.tiles.bounds ht).2
      have h2 := (hv.sized t ht).2
      have : t.addr ≠ hi := by
        unfold Seg.len sizeofHeader at h1
        omega
      rw [Heap.setSize_size_ne _ _ _ this]
      exact hv.sized t ht
    · rw [List.mem_singleton.mp ht]
      exact ⟨Heap.setSize_size .., hnu⟩
  · unfold sizeofHeader at hbelow
    rw [Heap.setSize_size_ne _ _ _ (by omega)]
    exact hv.baseSize
  · rcases List.mem_append.mp ht with ht | ht
    · exact hv.usable t ht n hn
    · rw [List.mem_singleton.mp ht] at hn ⊢
      obtain rfl : 0 = n := Option.some.inj hn
      unfold Seg.len sizeofHeader
      simp only
      omega
  · refine List.isChain_append.mpr ⟨hv.merged, .singleton _, fun _ _ t ht => ?_⟩
    obtain rfl : { addr := hi, units := nu, want := some 0 } = t := by simpa using ht
    exact Or.inr hused
  · rw [hnodes]
    exact hv.ring.congr fun a _ => by simp
  · rw [hnodes]
    exact hv.rover

theorem morecore_granted {sbrk : Sbrk σ} {nunits : Nat} (hne : (sbrk (request (asked nunits)) h.os).1 ≠ failed)
    (fuel : Nat) :
    morecore sbrk fuel nunits h =
      (free fuel ((sbrk (request (asked nunits)) h.os).1 + sizeofHeader)
        (({ h with os := (sbrk (request (asked nunits)) h.os).2 } : Heap σ).setSize
          (sbrk (request (asked nunits)) h.os).1 (asked nunits))).map
        fun h => (h.freep, h) := by
  unfold asked at hne ⊢
  unfold morecore
  simp only
  rw [if_neg hne]
  cases free fuel _ _ <;> rfl

/-- morecore gives up, or there is a free block of the size that was asked for. -/
theorem morecore_spec {sbrk : Sbrk σ} {brk : σ → Nat} (hg : Grants sbrk brk lo) (hlo : lo + 2 ^ 36 ≤ 2 ^ 63)
    (hv : Inv base lo (brk h.os) h segs) {nunits : Nat} (hnu : nunits < 2 ^ 27) :
    ∃ h', h'.os = (sbrk (request (asked nunits)) h.os).2 ∧
      (((∀ fuel, morecore sbrk fuel nunits h = some (0, h')) ∧ Inv base lo (brk h'.os) h' segs ∧ h'.freep = h.freep) ∨
      ∃ segs', (∀ fuel, (base :: frees segs).length ≤ fuel → morecore sbrk fuel nunits h = some (h'.freep, h')) ∧
        Inv base lo (brk h'.os) h' segs' ∧
        (∀ t, t.isFree = false → (t ∈ segs' ↔ t ∈ segs)) ∧ ∃ t ∈ segs', t.isFree = true ∧ nunits ≤ t.units) := by
  have hask : nunits ≤ asked nunits ∧ asked nunits < 2 ^ 27 ∧ 0 < asked nunits := by
    unfold asked
    split <;> omega
  have hreq := request_eq hask.2.1
  rcases hg (request (asked nunits)) h.os (by unfold sizeofHeader at hreq; omega) with ⟨hr, hb⟩ | ⟨hr, hb, hlt⟩
  · refine ⟨{ h with os := (sbrk (request (asked nunits)) h.os).2 }, rfl, Or.inl ⟨fun fuel => ?_, ?_, rfl⟩⟩
    · unfold morecore
      exact if_pos hr
    · rw [hb]
      exact hv.withOs _
  · have hbrk : brk (sbrk (request (asked nunits)) h.os).2 = brk h.os + sizeofHeader * asked nunits := by omega
    rw [hbrk] at hlt
    obtain ⟨h', segs', hv', hos, hfree, hused, t, ht, htf, hle⟩ :=
      @free_spec _ _ _ _ _ segs [] _ (grow_inv (hv.withOs (sbrk (request (asked nunits)) h.os).2) hask.2.2 hlt) rfl
    refine ⟨h', hos, Or.inr ⟨segs', fun fuel hf => ?_, ?_, fun t ht => ?_, t, ht, htf, Nat.le_trans hask.1 hle⟩⟩
    · have hne : (sbrk (request (asked nunits)) h.os).1 ≠ failed := by
        rw [hr]
        unfold failed
        omega
      have hnodes : frees (segs ++ [{ addr := brk h.os, units := asked nunits, want := some 0 }]) = frees segs := by
        rw [frees_append, frees_used rfl]
        exact List.append_nil _
      rw [hnodes] at hfree
      rw [morecore_granted hne, hr, hfree fuel hf]
      rfl
    · rw [hos]
      rw [← hbrk] at hv'
      exact hv'
    · rw [hused t ht, List.append_nil]

/-! ## malloc -/

theorem malloc_fits (sbrk : Sbrk σ) (hv : Inv base lo hi h segs) {nunits nbytes : Nat} (hpos : 0 < nunits)
    (hn : nbytes + sizeofHeader ≤ sizeofHeader * nunits) (hfit : ∃ t ∈ segs, t.isFree = true ∧ nunits ≤ t.units) :
    ∃ r h' segs' k, Taken base lo hi segs nunits nbytes r h' segs' ∧ h'.os = h.os ∧
      ∀ fuel, mallocLoop sbrk nunits (fuel + 1 + k) h.freep (h.ptr h.freep) h = some (r, h') := by
  rcases search sbrk nunits hv with ⟨r, hr, q, hq, k, hptr, hle, hloop⟩ | ⟨hnone, -⟩
  · have hqf : q ∈ frees segs := by
      rcases List.mem_cons.mp hq with rfl | hq
      · rw [hv.baseSize] at hle
        omega
      · exact hq
    obtain ⟨s, hs, hfree, rfl⟩ := mem_frees.mp hqf
    obtain ⟨segs', ht, hos⟩ := take_spec hv hr hs hfree hptr hpos (by rwa [(hv.sized s hs).1] at hle) hn
    exact ⟨_, _, segs', k, ht, hos, hloop⟩
  · obtain ⟨t, ht, hfree, hle⟩ := hfit
    have := hnone t.addr (List.mem_cons_of_mem _ (mem_frees.mpr ⟨t, ht, hfree, rfl⟩))
    rw [(hv.sized t ht).1] at this
    omega

/-- No block is large enough: malloc asks for memory, once. -/
theorem malloc_grows {sbrk : Sbrk σ} {brk : σ → Nat} (hg : Grants sbrk brk lo) (hlo : lo + 2 ^ 36 ≤ 2 ^ 63)
    (hbase : 0 < base)
    (hv : Inv base lo (brk h.os) h segs) {nunits nbytes : Nat} (hpos : 0 < nunits) (hlt : nunits < 2 ^ 27)
    (hn : nbytes + sizeofHeader ≤ sizeofHeader * nunits) (hfit : ¬ ∃ t ∈ segs, t.isFree = true ∧ nunits ≤ t.units) :
    ∃ r h' k, h'.os = (sbrk (request (asked nunits)) h.os).2 ∧
      (∀ fuel, mallocLoop sbrk nunits (fuel + k) h.freep (h.ptr h.freep) h = some (r, h')) ∧
      ((r = 0 ∧ Inv base lo (brk h'.os) h' segs) ∨ ∃ segs',
        Taken base lo (brk h'.os) segs nunits nbytes r h' segs') := by
  rcases search sbrk nunits hv with ⟨r, hr, q, hq, k, hptr, hle, -⟩ | ⟨hnone, r, hloop⟩
  · refine absurd ?_ hfit
    rcases List.mem_cons.mp hq with rfl | hq
    · rw [hv.baseSize] at hle
      omega
    · obtain ⟨s, hs, hfree, rfl⟩ := mem_frees.mp hq
      exact ⟨s, hs, hfree, by rwa [(hv.sized s hs).1] at hle⟩
  · have hunfold : ∀ fuel p h', morecore sbrk fuel nunits h = some (p, h') →
        mallocLoop sbrk nunits (fuel + 1) r h.freep h = if p = 0 then some (0, h') else mallocLoop sbrk nunits fuel p
          (h'.ptr p) h' := by
      intro fuel p h' e
      conv_lhs => unfold mallocLoop
      simp only [if_neg (Nat.not_le.mpr (hnone _ hv.rover)), if_true, e]
    obtain ⟨h', hos, ⟨hmore, hv', -⟩ | ⟨segs1, hmore, hv', hused, hfit'⟩⟩ := morecore_spec hg hlo hv hlt
    · refine ⟨0, h', 1 + (frees segs).length, hos, fun fuel => ?_, Or.inl ⟨rfl, hv'⟩⟩
      rw [← Nat.add_assoc, hloop, hunfold _ _ _ (hmore _), if_pos rfl]
    · obtain ⟨r', h2, segs2, k, htaken, hos2, hloop2⟩ := malloc_fits sbrk hv' hpos hn hfit'
      refine ⟨r', h2, (1 + k) + (base :: frees segs).length + 1 + (frees segs).length, hos2.trans hos, fun fuel => ?_,
        Or.inr ⟨segs2, ?_⟩⟩
      · have hne : h'.freep ≠ 0 := by
          rcases List.mem_cons.mp hv'.rover with e | hm
          · omega
          · obtain ⟨t, ht, -, e⟩ := mem_frees.mp hm
            have := hv'.base_lt ht
            omega
        have e : fuel + ((1 + k) + (base :: frees segs).length + 1 + (frees segs).length) =
          (fuel + (1 + k) + (base :: frees segs).length) + 1 + (frees segs).length := by omega
        rw [e, hloop, hunfold _ _ _ (hmore _ (by omega)), if_neg hne,
          show fuel + (1 + k) + (base :: frees segs).length = (fuel + (base :: frees segs).length) + 1 + k by omega]
        exact hloop2 _
      · rw [hos2]
        refine ⟨htaken.inv, fun t ht => ?_, htaken.result, fun t ht hus => ?_⟩
        · rw [htaken.used t ht, hused t ht]
        · exact htaken.apart t ((hused t hus).mpr ht) hus

end Xv6Labs.Umalloc
