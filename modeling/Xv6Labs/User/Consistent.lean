/-
  Xv6Labs.User.Consistent — runs of malloc and free (see `Xv6Labs.User.Heap`).

  - `heap_consistent`: from the first malloc on, the free list and the allocations fill what sbrk
    granted, and every call returns, as long as sbrk grants less than 2^36 bytes in all.
  - `sizes_wrap`: past that the size of a merged block no longer fits a uint.
-/

import Xv6Labs.User.Heap
import Xv6Labs.Riscv

namespace Xv6Labs.Umalloc

open Lib

variable {σ : Type} {sbrk : Sbrk σ} {brk : σ → Nat} {base lo : Nat} {h h0 h' : Heap σ} {segs : List Seg}
    {live : List (Nat × Nat)} {ok : Heap σ → Nat → Prop}
variable {nbytes nunits fuel p q ap n : Nat}

/-- The states reached by mallocs, of what `ok` allows, and by frees of what is allocated. `live`
    lists the allocations: the pointer and the bytes asked for. -/
inductive Reaches (sbrk : Sbrk σ) (base : Nat) (ok : Heap σ → Nat → Prop) (h0 : Heap σ) : Heap σ → List (Nat × Nat) →
    Prop
  | init : Reaches sbrk base ok h0 h0 []
  | malloc {h h' : Heap σ} {live : List (Nat × Nat)} {fuel nbytes r : Nat} : Reaches sbrk base ok h0 h live →
      ok h nbytes →
      malloc sbrk base fuel nbytes h = some (r, h') →
        Reaches sbrk base ok h0 h' (if r = 0 then live else (r, nbytes) :: live)
  | free {h h' : Heap σ} {live : List (Nat × Nat)} {fuel ap n : Nat} : Reaches sbrk base ok h0 h live →
      (ap, n) ∈ live →
      free fuel ap h = some h' → Reaches sbrk base ok h0 h' (live.filter fun e => e.1 ≠ ap)

/-- The header of a free block, or of an allocation. -/
def IsBlock (live : List (Nat × Nat)) (blocks : List Nat) (a : Nat) : Prop :=
  a ∈ blocks ∨ ∃ n, (a + sizeofHeader, n) ∈ live

/-- `blocks` are the free blocks: their list is circular through `base` and rises up to where it
    wraps; together with the allocations they fill the memory from sbrk, and no two meet. -/
structure Consistent (base lo hi : Nat) (h : Heap σ) (live : List (Nat × Nat)) (blocks : List Nat) : Prop where
  circle : Links h.ptr (base :: blocks ++ [base])
  rises : (base :: blocks).Pairwise (· < ·)
  rover : h.freep ∈ base :: blocks
  baseSize : h.size base = 0
  apart : ∀ a b, IsBlock live blocks a → IsBlock live blocks b → a ≠ b → a + sizeofHeader * h.size a ≤ b ∨
    b + sizeofHeader * h.size b ≤ a
  notLive : ∀ a ∈ blocks, ∀ n, (a + sizeofHeader, n) ∉ live
  merged : ∀ a ∈ blocks, a + sizeofHeader * h.size a ∉ blocks
  covers : ∀ v, lo ≤ v ∧ v < hi ↔ ∃ a, IsBlock live blocks a ∧ a ≤ v ∧ v < a + sizeofHeader * h.size a
  usable : ∀ ap n, (ap, n) ∈ live → sizeofHeader ≤ ap ∧ n + sizeofHeader ≤ sizeofHeader * h.size (ap - sizeofHeader)

/-! ## More fuel -/

theorem free_mono {k : Nat} (hf : free fuel ap h = some h') : free (fuel + k) ap h = some h' := by
  unfold free at hf ⊢
  simp only [freeLoop_eq_followTo] at hf ⊢
  cases hw : followTo (belongs h (ap - sizeofHeader)) h.ptr fuel h.freep with
  | none =>
    rw [hw] at hf
    cases hf
  | some p =>
    rw [hw] at hf
    rw [followTo_mono hw (Nat.le_add_right ..)]
    exact hf

theorem morecore_mono {k : Nat} {x : Nat × Heap σ} (hm : morecore sbrk fuel nunits h = some x) :
    morecore sbrk (fuel + k) nunits h = some x := by
  by_cases hne : (sbrk (request (asked nunits)) h.os).1 = failed
  · unfold morecore at hm ⊢
    unfold asked at hne
    simp only [if_pos hne] at hm ⊢
    exact hm
  · rw [morecore_granted hne] at hm ⊢
    obtain ⟨h1, hfree, rfl⟩ := Option.map_eq_some_iff.mp hm
    rw [free_mono hfree]
    rfl

theorem mallocLoop_mono {k : Nat} {x : Nat × Heap σ} (hm : mallocLoop sbrk nunits fuel p q h = some x) :
    mallocLoop sbrk nunits (fuel + k) p q h = some x := by
  induction fuel generalizing p q h with
  | zero => cases hm
  | succ fuel ih =>
    rw [Nat.add_right_comm]
    unfold mallocLoop at hm ⊢
    split
    next hle => rwa [if_pos hle] at hm
    next hle =>
      rw [if_neg hle] at hm
      split
      next hq =>
        rw [if_pos hq] at hm
        cases hmore : morecore sbrk fuel nunits h with
        | none =>
          simp only [hmore] at hm
          cases hm
        | some x =>
          simp only [hmore] at hm
          simp only [morecore_mono hmore]
          split
          next h0 => rwa [if_pos h0] at hm
          next h0 =>
            rw [if_neg h0] at hm
            exact ih hm
      next hq =>
        rw [if_neg hq] at hm
        exact ih hm

theorem malloc_mono {k : Nat} {x : Nat × Heap σ} (hm : malloc sbrk base fuel nbytes h = some x) :
    malloc sbrk base (fuel + k) nbytes h = some x := mallocLoop_mono hm

/-- The fuel does not matter: two results are the same. -/
theorem malloc_unique {fuel' : Nat} {x y : Nat × Heap σ} (hx : malloc sbrk base fuel nbytes h = some x)
    (hy : malloc sbrk base fuel' nbytes h = some y) : x = y := by
  have h1 := malloc_mono (k := fuel') hx
  have h2 := malloc_mono (k := fuel) hy
  rw [Nat.add_comm] at h2
  exact Option.some.inj (h1.symm.trans h2)

theorem free_unique {fuel' : Nat} {h1 h2 : Heap σ} (hx : free fuel ap h = some h1) (hy : free fuel' ap h = some h2) :
    h1 = h2 := by
  have e1 := free_mono (k := fuel') hx
  have e2 := free_mono (k := fuel) hy
  rw [Nat.add_comm] at e2
  exact Option.some.inj (e1.symm.trans e2)

/-! ## One call -/

/-- The row of segments behind a state of a run: its allocations are `live`. -/
structure Owned (base lo : Nat) (brk : σ → Nat) (h : Heap σ) (live : List (Nat × Nat)) (segs : List Seg) : Prop where
  inv : Inv base lo (brk h.os) (start base h) segs
  unused : h.freep = 0 → segs = []
  owns : ∀ ap n, (ap, n) ∈ live ↔ ∃ s ∈ segs, s.addr + sizeofHeader = ap ∧ s.want = some n

theorem start_os (base : Nat) (h : Heap σ) : (start base h).os = h.os := by
  unfold start
  split <;> rfl

theorem start_used (hf : h.freep ≠ 0) (base : Nat) : start base h = h := if_neg hf

theorem Inv.freep_ne {hi : Nat} (hv : Inv base lo hi h segs) (hb : 0 < base) : h.freep ≠ 0 := by
  rcases List.mem_cons.mp hv.rover with e | hm
  · omega
  · obtain ⟨t, ht, -, e⟩ := mem_frees.mp hm
    have := hv.base_lt ht
    omega

theorem Seg.used_iff {s : Seg} : s.isFree = false ↔ ∃ n, s.want = some n := by
  unfold Seg.isFree
  rw [← Option.isSome_iff_exists, ← Option.not_isSome, Bool.not_eq_false']

theorem owned_init (hbl : base + sizeofHeader ≤ lo) (h0 : h.freep = 0) (hbrk : brk h.os = lo) :
    Owned base lo brk h [] [] := by
  have hs : start base h = ((h.setPtr base base).setFreep base).setSize base 0 := if_pos h0
  refine ⟨?_, fun _ => rfl, fun ap n => by simp⟩
  rw [hs, hbrk]
  refine ⟨⟨hbl, by omega, rfl, fun s hs => absurd hs List.not_mem_nil, Heap.setSize_size ..,
    fun s hs => absurd hs List.not_mem_nil⟩, .nil, ?_, List.mem_cons_self ..⟩
  refine links_cons_cons.mpr ⟨?_, .singleton _⟩
  rw [Heap.setSize_ptr, Heap.setFreep_ptr, Heap.setPtr_ptr]

/-- The allocation that a call made is added. -/
theorem Taken.owned {hi r : Nat} {segs' : List Seg} (ht : Taken base lo hi segs nunits nbytes r h' segs')
    (hb : 0 < base) (hhi : hi = brk h'.os)
    (howns : ∀ ap n, (ap, n) ∈ live ↔ ∃ s ∈ segs, s.addr + sizeofHeader = ap ∧ s.want = some n) :
    r ≠ 0 ∧ Owned base lo brk h' ((r, nbytes) :: live) segs' := by
  have hf := ht.inv.freep_ne hb
  have hr := ht.result
  refine ⟨by unfold sizeofHeader at hr; omega, ?_, fun e => absurd e hf, fun ap n => ?_⟩
  · rw [start_used hf, ← hhi]
    exact ht.inv
  · rw [List.mem_cons, howns]
    constructor
    · intro hm
      rcases hm with e | ⟨s, hs, he, hw⟩
      · obtain ⟨rfl, rfl⟩ := Prod.mk.inj e
        refine ⟨{ addr := ap - sizeofHeader, units := nunits, want := some n }, (ht.used _ rfl).mpr (Or.inr rfl), ?_,
          rfl⟩
        simp only
        omega
      · exact ⟨s, (ht.used s (Seg.used_iff.mpr ⟨n, hw⟩)).mpr (Or.inl hs), he, hw⟩
    · intro ⟨s, hs, he, hw⟩
      rcases (ht.used s (Seg.used_iff.mpr ⟨n, hw⟩)).mp hs with hs | rfl
      · exact Or.inr ⟨s, hs, he, hw⟩
      · refine Or.inl (Prod.mk.injEq .. ▸ ⟨?_, (Option.some.inj hw).symm⟩)
        simp only at he
        omega

theorem units_eq (h : nbytes < 2 ^ 32) : units nbytes = (nbytes + 15) / 16 + 1 := by
  unfold units sizeofHeader
  rw [u64_of_lt (by omega)]
  unfold u32
  omega

/-- What malloc's search starts from. -/
theorem malloc_eq (h : Heap σ) : malloc sbrk base fuel nbytes h =
    mallocLoop sbrk (units nbytes) fuel (start base h).freep ((start base h).ptr (start base h).freep)
      (start base h) := rfl

/-- Some free block is large enough. -/
def Roomy (segs : List Seg) (nbytes : Nat) : Prop := ∃ t ∈ segs, t.isFree = true ∧ units nbytes ≤ t.units

theorem malloc_roomy (hb : 0 < base) (ho : Owned base lo brk h live segs) (hn : nbytes < 2 ^ 32)
    (hroom : Roomy segs nbytes) :
    ∃ r h' segs' k, r ≠ 0 ∧ (∀ fuel, malloc sbrk base (fuel + k) nbytes h = some (r, h')) ∧
      Owned base lo brk h' ((r, nbytes) :: live) segs' ∧ h'.os = h.os := by
  have hu := units_eq hn
  have hsize : nbytes + sizeofHeader ≤ sizeofHeader * units nbytes := by
    unfold sizeofHeader
    omega
  obtain ⟨r, h', segs', k, ht, hos, hloop⟩ := malloc_fits sbrk ho.inv (by omega) hsize hroom
  rw [start_os] at hos
  obtain ⟨hr, ho'⟩ := ht.owned hb (show brk h.os = brk h'.os by rw [hos]) ho.owns
  refine ⟨r, h', segs', 1 + k, hr, fun fuel => ?_, ho', hos⟩
  rw [malloc_eq, ← Nat.add_assoc]
  exact hloop fuel

theorem malloc_asks (hg : Grants sbrk brk lo) (hlo : lo + 2 ^ 36 ≤ 2 ^ 63) (hb : 0 < base)
    (ho : Owned base lo brk h live segs) (hn : nbytes ≤ 2 ^ 31 - 32) (hroom : ¬ Roomy segs nbytes) :
    ∃ r h' segs' k, (∀ fuel, malloc sbrk base (fuel + k) nbytes h = some (r, h')) ∧
      Owned base lo brk h' (if r = 0 then live else (r, nbytes) :: live) segs' ∧
      h'.os = (sbrk (request (asked (units nbytes))) h.os).2 := by
  have hu := units_eq (show nbytes < 2 ^ 32 by omega)
  have hv := ho.inv
  rw [← start_os base h] at hv
  have hsize : nbytes + sizeofHeader ≤ sizeofHeader * units nbytes := by
    unfold sizeofHeader
    omega
  obtain ⟨r, h', k, hos, hloop, hend⟩ := malloc_grows hg hlo hb hv (by omega) (by omega) hsize hroom
  rw [start_os] at hos
  rcases hend with ⟨rfl, hv'⟩ | ⟨segs', ht⟩
  · have hf := hv'.freep_ne hb
    exact ⟨0, h', segs, k, hloop, ⟨by rwa [start_used hf], fun e => absurd e hf, ho.owns⟩, hos⟩
  · obtain ⟨hr, ho'⟩ := ht.owned hb rfl ho.owns
    exact ⟨r, h', segs', k, hloop, by rwa [if_neg hr], hos⟩

theorem free_owned (ho : Owned base lo brk h live segs) (hap : (ap, n) ∈ live) (hb : 0 < base) :
    ∃ h' segs' k, free k ap h = some h' ∧ Owned base lo brk h' (live.filter fun e => e.1 ≠ ap) segs' ∧
      h'.os = h.os := by
  obtain ⟨s, hs, rfl, hw⟩ := (ho.owns ap n).mp hap
  have hf : h.freep ≠ 0 := fun e => by
    rw [ho.unused e] at hs
    cases hs
  have hv := ho.inv
  rw [start_used hf] at hv
  obtain ⟨pre, post, rfl⟩ := List.append_of_mem hs
  obtain ⟨h', segs', hv', hos, hfree, hused, -⟩ := free_spec hv (Seg.used_iff.mpr ⟨n, hw⟩)
  have hf' := hv'.freep_ne hb
  refine ⟨h', segs', _, hfree _ (Nat.le_refl _), ⟨?_, fun e => absurd e hf', fun ap' n' => ?_⟩, hos⟩
  · rw [start_used hf', hos]
    exact hv'
  · rw [List.mem_filter, ho.owns]
    have hne : ∀ t ∈ pre ++ post, t.addr ≠ s.addr := fun t ht => by
      rcases List.mem_append.mp ht with ht | ht
      · exact Nat.ne_of_lt (hv.before ht)
      · exact Nat.ne_of_gt (hv.behind ht)
    constructor
    · intro h
      obtain ⟨⟨t, ht, he, hw'⟩, hap'⟩ := h
      refine ⟨t, (hused t (Seg.used_iff.mpr ⟨n', hw'⟩)).mpr ?_, he, hw'⟩
      have : t ≠ s := by
        rintro rfl
        simp [he] at hap'
      simp only [List.mem_append, List.mem_cons] at ht ⊢
      tauto
    · intro h
      obtain ⟨t, ht, he, hw'⟩ := h
      have hm := (hused t (Seg.used_iff.mpr ⟨n', hw'⟩)).mp ht
      have := hne t hm
      refine ⟨⟨t, ?_, he, hw'⟩, by simp only [decide_eq_true_eq]; omega⟩
      simp only [List.mem_append, List.mem_cons] at hm ⊢
      tauto

/-! ## Runs -/

/-- Some block on the free list is large enough for the request. -/
def Listed (base : Nat) (h : Heap σ) (nbytes : Nat) : Prop :=
  ∃ k, units nbytes ≤ (start base h).size ((start base h).ptr^[k] (start base h).freep)

theorem roomy_iff (ho : Owned base lo brk h live segs) (hn : nbytes < 2 ^ 32) : Roomy segs nbytes ↔
    Listed base h nbytes := by
  have hu := units_eq hn
  have hv := ho.inv
  constructor
  · intro h
    obtain ⟨t, ht, hfree, hle⟩ := h
    have hm : t.addr ∈ base :: frees segs := List.mem_cons_of_mem _ (mem_frees.mpr ⟨t, ht, hfree, rfl⟩)
    obtain ⟨l, r, e⟩ := List.append_of_mem hv.rover
    -- along the list, from `freep` round to the block
    have hring : Links (start base h).ptr ((start base h).freep :: (r ++ l) ++ [(start base h).freep]) := by
      have hr := hv.ring
      cases l with
      | nil =>
        obtain ⟨e1, e2⟩ := List.cons_eq_cons.mp e
        rw [← e1]
        simpa [e2] using hr
      | cons y l =>
        obtain ⟨rfl, -⟩ := List.cons_eq_cons.mp e
        rw [e] at hr
        have hr :
          Links (start base h).ptr ((base :: l) ++ (start base h).freep :: r ++ (base :: l).head?.toList) := by
          simpa using hr
        simpa using hr.rotate (List.cons_ne_nil _ _)
    rw [e] at hm
    obtain ⟨k, hk⟩ := (links_append.mp hring).1.iterate (q := t.addr)
      (by simp only [List.mem_append, List.mem_cons] at hm ⊢; tauto)
    exact ⟨k, by rw [hk, (hv.sized t ht).1]; exact hle⟩
  · intro h
    obtain ⟨k, hk⟩ := h
    have hm := hv.ring.iterate_mem (List.mem_cons_self ..) hv.rover k
    rcases List.mem_cons.mp hm with e | hm
    · rw [e, hv.baseSize] at hk
      omega
    · obtain ⟨t, ht, hfree, e⟩ := mem_frees.mp hm
      rw [← e, (hv.sized t ht).1] at hk
      exact ⟨t, ht, hfree, hk⟩

/-- A request for which what reaches sbrk is what malloc means, if it gets there. -/
def Sound (base : Nat) (h : Heap σ) (nbytes : Nat) : Prop :=
  nbytes < 2 ^ 32 ∧ (Listed base h nbytes ∨ nbytes ≤ 2 ^ 31 - 32)

theorem malloc_owned (hg : Grants sbrk brk lo) (hlo : lo + 2 ^ 36 ≤ 2 ^ 63) (hb : 0 < base)
    (ho : Owned base lo brk h live segs) (hn : Sound base h nbytes) :
    ∃ r h' segs' k, (∀ fuel, malloc sbrk base (fuel + k) nbytes h = some (r, h')) ∧
      Owned base lo brk h' (if r = 0 then live else (r, nbytes) :: live) segs' := by
  by_cases hroom : Roomy segs nbytes
  · obtain ⟨r, h', segs', k, hr, hm, ho', -⟩ := @malloc_roomy _ sbrk _ _ _ _ _ _ _ hb ho hn.1 hroom
    exact ⟨r, h', segs', k, hm, by rwa [if_neg hr]⟩
  · have hle : nbytes ≤ 2 ^ 31 - 32 := hn.2.resolve_left fun hl => hroom ((roomy_iff ho hn.1).mpr hl)
    obtain ⟨r, h', segs', k, hm, ho', -⟩ := malloc_asks hg hlo hb ho hle hroom
    exact ⟨r, h', segs', k, hm, ho'⟩

theorem reaches_owned (hg : Grants sbrk brk lo) (hlo : lo + 2 ^ 36 ≤ 2 ^ 63) (hb : 0 < base)
    (hbl : base + sizeofHeader ≤ lo) (h00 : h0.freep = 0)
    (hbrk : brk h0.os = lo) (hok : ∀ h nbytes, ok h nbytes → Sound base h nbytes)
    (hr : Reaches sbrk base ok h0 h live) : ∃ segs, Owned base lo brk h live segs := by
  induction hr with
  | init => exact ⟨[], owned_init hbl h00 hbrk⟩
  | malloc _ hreq hm ih =>
    obtain ⟨segs, ho⟩ := ih
    obtain ⟨r, h', segs', k, hm', ho'⟩ := malloc_owned hg hlo hb ho (hok _ _ hreq)
    obtain ⟨rfl, rfl⟩ := Prod.mk.inj (malloc_unique hm (hm' 0))
    exact ⟨segs', ho'⟩
  | free _ hap hf ih =>
    obtain ⟨segs, ho⟩ := ih
    obtain ⟨h', segs', k, hf', ho', -⟩ := free_owned ho hap hb
    obtain rfl := free_unique hf hf'
    exact ⟨segs', ho'⟩

/-! ## What the runs keep -/

theorem isBlock_iff (ho : Owned base lo brk h live segs) {a : Nat} : IsBlock live (frees segs) a ↔
    ∃ s ∈ segs, s.addr = a := by
  unfold IsBlock
  rw [mem_frees]
  constructor
  · rintro (⟨s, hs, -, e⟩ | ⟨n, hn⟩)
    · exact ⟨s, hs, e⟩
    · obtain ⟨s, hs, e, -⟩ := (ho.owns _ _).mp hn
      exact ⟨s, hs, Nat.add_right_cancel e⟩
  · intro ⟨s, hs, e⟩
    cases hf : s.isFree with
    | true => exact Or.inl ⟨s, hs, hf, e⟩
    | false =>
      obtain ⟨n, hn⟩ := Seg.used_iff.mp hf
      exact Or.inr ⟨n, (ho.owns _ _).mpr ⟨s, hs, by rw [e], hn⟩⟩

theorem Owned.consistent (ho : Owned base lo brk h live segs) (hf : h.freep ≠ 0) :
    Consistent base lo (brk h.os) h live (frees segs) := by
  have hv := ho.inv
  rw [start_used hf] at hv
  refine ⟨hv.ring, hv.nodes_rise, hv.rover, hv.baseSize, fun a b ha hb hne => ?_, fun a ha n hn => ?_,
    fun a ha hm => ?_, fun v => ?_, fun ap n hap => ?_⟩
  · obtain ⟨s, hs, rfl⟩ := (isBlock_iff ho).mp ha
    obtain ⟨t, ht, rfl⟩ := (isBlock_iff ho).mp hb
    rw [(hv.sized s hs).1, (hv.sized t ht).1]
    exact hv.tiles.disjoint hs ht (by rintro rfl; exact hne rfl)
  · obtain ⟨s, hs, hsf, rfl⟩ := mem_frees.mp ha
    obtain ⟨t, ht, e, hw⟩ := (ho.owns _ _).mp hn
    obtain rfl := hv.addr_inj ht hs (Nat.add_right_cancel e)
    rw [Seg.used_iff.mpr ⟨n, hw⟩] at hsf
    cases hsf
  · obtain ⟨s, hs, hsf, rfl⟩ := mem_frees.mp ha
    obtain ⟨t, ht, htf, e⟩ := mem_frees.mp hm
    rw [(hv.sized s hs).1] at e
    -- the segment behind a free one is an allocation
    obtain ⟨pre, post, rfl⟩ := List.append_of_mem hs
    obtain ⟨m, h1, rfl, h2⟩ := tiles_append.mp hv.tiles
    cases post with
    | nil =>
      have h3 := (hv.tiles.bounds ht).2
      have h4 := (hv.sized t ht).2
      have h5 : s.addr + s.len = brk h.os := h2
      unfold Seg.len sizeofHeader at *
      omega
    | cons u post =>
      obtain rfl := hv.addr_inj ht (t := u) (by simp) (e.trans h2.1.symm)
      have := (List.isChain_cons_cons.mp (List.isChain_append.mp hv.merged).2.1).1
      rw [hsf, htf] at this
      simp at this
  · rw [hv.tiles.covers]
    constructor
    · intro ⟨s, hs, h1, h2⟩
      exact ⟨s.addr, (isBlock_iff ho).mpr ⟨s, hs, rfl⟩, h1, by rw [(hv.sized s hs).1]; exact h2⟩
    · intro ⟨a, ha, h1, h2⟩
      obtain ⟨s, hs, rfl⟩ := (isBlock_iff ho).mp ha
      exact ⟨s, hs, h1, by rwa [(hv.sized s hs).1] at h2⟩
  · obtain ⟨s, hs, rfl, hw⟩ := (ho.owns _ _).mp hap
    rw [Nat.add_sub_cancel, (hv.sized s hs).1]
    exact ⟨Nat.le_add_left .., hv.usable s hs n hw⟩

/-- malloc and free keep the heap consistent, from the first malloc on, and they return. -/
theorem heap_consistent (hg : Grants sbrk brk lo) (hlo : lo ≤ MAXVA) (hb : 0 < base) (hbl : base + sizeofHeader ≤ lo)
    (h00 : h0.freep = 0) (hbrk : brk h0.os = lo)
    (hr : Reaches sbrk base (fun _ nbytes => nbytes ≤ 2 ^ 30) h0 h live) :
    ((h.freep = 0 ∧ live = [] ∧ brk h.os = lo) ∨ ∃ blocks, Consistent base lo (brk h.os) h live blocks) ∧
      (∀ nbytes ≤ 2 ^ 30, ∃ fuel r, malloc sbrk base fuel nbytes h = some r) ∧ ∀ ap n, (ap, n) ∈ live → ∃ fuel h',
        free fuel ap h = some h' := by
  have hlo' : lo + 2 ^ 36 ≤ 2 ^ 63 := by
    unfold MAXVA at hlo
    omega
  have hok : ∀ (h : Heap σ) nbytes, nbytes ≤ 2 ^ 30 → Sound base h nbytes :=
    fun h nbytes hn => ⟨by omega, Or.inr (by omega)⟩
  obtain ⟨segs, ho⟩ := reaches_owned hg hlo' hb hbl h00 hbrk hok hr
  refine ⟨?_, fun nbytes hn => ?_, fun ap n hap => ?_⟩
  · by_cases hf : h.freep = 0
    · obtain rfl := ho.unused hf
      refine Or.inl ⟨hf, List.eq_nil_iff_forall_not_mem.mpr fun e he => ?_, ?_⟩
      · obtain ⟨s, hs, -⟩ := (ho.owns e.1 e.2).mp he
        cases hs
      · have : lo = brk h.os := ho.inv.tiles
        exact this.symm
    · exact Or.inr ⟨frees segs, ho.consistent hf⟩
  · obtain ⟨r, h', -, k, hm, -⟩ := malloc_owned hg hlo' hb ho (hok h nbytes hn)
    exact ⟨0 + k, _, hm 0⟩
  · obtain ⟨h', -, k, hf, -⟩ := free_owned ho hap hb
    exact ⟨k, h', hf⟩

/-! ## Programs -/

inductive Call
  | malloc (nbytes : Nat)
  | free (ap : Nat)

/-- The calls of a program, one after the other. -/
def calls (sbrk : Sbrk σ) (base fuel limit : Nat) : List Call → Heap σ → List (Nat × Nat) →
    Option (Heap σ × List (Nat × Nat))
  | [], h, live => some (h, live)
  | .malloc nbytes :: cs, h, live =>
    if nbytes ≤ limit then
      match malloc sbrk base fuel nbytes h with
      | none => none
      | some (r, h) => calls sbrk base fuel limit cs h (if r = 0 then live else (r, nbytes) :: live)
    else none
  | .free ap :: cs, h, live =>
    match live.find? fun e => e.1 = ap with
    | none => none
    | some _ =>
      match free fuel ap h with
      | none => none
      | some h => calls sbrk base fuel limit cs h (live.filter fun e => e.1 ≠ ap)

theorem calls_reach {limit : Nat} {cs : List Call} {live' : List (Nat × Nat)}
    (hr : Reaches sbrk base (fun _ nbytes => nbytes ≤ limit) h0 h live)
    (hc : calls sbrk base fuel limit cs h live = some (h', live')) :
      Reaches sbrk base (fun _ nbytes => nbytes ≤ limit) h0 h' live' := by
  induction cs generalizing h live with
  | nil =>
    obtain ⟨rfl, rfl⟩ := Prod.mk.inj (Option.some.inj hc)
    exact hr
  | cons c cs ih =>
    cases c with
    | malloc nbytes =>
      unfold calls at hc
      split at hc
      next hle =>
        split at hc
        next => cases hc
        next r h1 hm => exact ih (.malloc hr hle hm) hc
      next => cases hc
    | free ap =>
      unfold calls at hc
      split at hc
      next => cases hc
      next e he =>
        split at hc
        next => cases hc
        next h1 hf =>
          have hap : e.1 = ap := by simpa using List.find?_some he
          exact ih (.free (n := e.2) hr (by rw [← hap]; exact List.mem_of_find?_eq_some he) hf) hc

/-- A process with its break at `lo`, before its first malloc. -/
def fresh (lo : Nat) : Heap Nat := { hdr := fun _ => { ptr := 0, size := 0 }, freep := 0, os := lo }

/-- An sbrk that fails when it would grant 2^36 bytes. -/
def sbrkBelow (lo : Nat) : Sbrk Nat := fun n s => if s + n.toNat < lo + 2 ^ 36 then (s, s + n.toNat) else (failed, s)

theorem heap_consistent_once : ∃ h live,
    Reaches (sbrkBelow 20480) 4096 (fun _ nbytes => nbytes ≤ 2 ^ 30) (fresh 20480) h live ∧ live = [(81888, 4000)] ∧
    (((h.freep = 0 ∧ live = [] ∧ h.os = 20480) ∨ ∃ blocks, Consistent 4096 20480 h.os h live blocks) ∧
      (∀ nbytes ≤ 2 ^ 30, ∃ fuel r, malloc (sbrkBelow 20480) 4096 fuel nbytes h = some r) ∧ ∀ ap n, (ap, n) ∈ live →
        ∃ fuel h', free fuel ap h = some h') := by
  have hrun : (calls (sbrkBelow 20480) 4096 8 (2 ^ 30) [.malloc 100, .malloc 4000, .free 85904] (fresh 20480) []).any
    (fun x => x.2 == [(81888, 4000)]) = true := by
    decide +kernel
  rw [Option.any_eq_true] at hrun
  obtain ⟨⟨h, live⟩, hc, hl⟩ := hrun
  have hr := calls_reach .init hc
  have hg : Grants (sbrkBelow 20480) id 20480 := by
    intro n s hn
    unfold sbrkBelow
    split
    next hlt => exact Or.inr ⟨rfl, by simp only [id]; omega, hlt⟩
    next => exact Or.inl ⟨rfl, rfl⟩
  exact ⟨h, live, hr, by simpa using hl, heap_consistent hg (by decide) (by decide) (by decide) rfl rfl hr⟩

/-- An sbrk that never fails. -/
def sbrkAlways : Sbrk Nat := fun n s => (s, s + n.toNat)

/-- 64 allocations of 2^30 bytes, and then their frees. -/
def wrapping : List Call := List.replicate 64 (.malloc (2 ^ 30)) ++ (List.range 64).map fun i =>
    .free (20480 + sizeofHeader + i * (2 ^ 30 + sizeofHeader))

/-- What is left of the free list: one block of 64 headers. -/
def isWrapped (x : Heap Nat × List (Nat × Nat)) : Bool :=
  x.2.isEmpty && decide (x.1.freep = 20480 ∧ x.1.ptr 4096 = 20480 ∧ x.1.ptr 20480 = 4096 ∧ x.1.size 4096 = 0 ∧
    x.1.size 20480 = 64 ∧ 2 ^ 36 < x.1.os)

theorem sizes_wrap : (∀ (n : Nat) s, sbrkAlways n s = (s, s + n)) ∧ ∃ h live,
    Reaches sbrkAlways 4096 (fun _ nbytes => nbytes ≤ 2 ^ 30) (fresh 20480) h live ∧
    h.freep ≠ 0 ∧ ¬ ∃ blocks, Consistent 4096 20480 h.os h live blocks := by
  refine ⟨fun n s => rfl, ?_⟩
  have hrun : (calls sbrkAlways 4096 8 (2 ^ 30) wrapping (fresh 20480) []).any isWrapped = true := by decide +kernel
  rw [Option.any_eq_true] at hrun
  obtain ⟨⟨h, live⟩, hc, hw⟩ := hrun
  simp only [isWrapped, Bool.and_eq_true, List.isEmpty_iff, decide_eq_true_eq] at hw
  obtain ⟨rfl, hf, hp1, hp2, hs1, hs2, hos⟩ := hw
  refine ⟨h, [], calls_reach .init hc, by omega, fun ⟨blocks, hcon⟩ => ?_⟩
  -- the last byte that was granted is in no block
  obtain ⟨a, ha, h1, h2⟩ := (hcon.covers (h.os - 1)).mp (by omega)
  have hm : a ∈ 4096 :: blocks := List.mem_cons_of_mem _ (ha.resolve_right fun ⟨n, hn⟩ => absurd hn List.not_mem_nil)
  obtain ⟨k, rfl⟩ := (links_append.mp hcon.circle).1.iterate hm
  have hall : ∀ k, h.ptr^[k] 4096 = 4096 ∨ h.ptr^[k] 4096 = 20480 := by
    intro k
    induction k with
    | zero => exact Or.inl rfl
    | succ k ih =>
      rw [Function.iterate_succ_apply']
      rcases ih with e | e
      · exact Or.inr (by rw [e, hp1])
      · exact Or.inl (by rw [e, hp2])
  unfold sizeofHeader at h2
  rcases hall k with e | e
  · rw [e, hs1] at h2
    omega
  · rw [e, hs2] at h2
    omega

end Xv6Labs.Umalloc
