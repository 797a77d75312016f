/-
  Xv6Labs.Vm.Growproc — growproc of the syscalls lab's proc.c, over uvmalloc and uvmdealloc.

  Its `sz` is a uint and `n` an int, so `sz + n` is taken modulo 2^32.

  - `growproc_reported`: what growproc reports is so exactly when the size does not go below 0.
-/

import Xv6Labs.Vm.Parts
import Xv6Labs.Vm.Exact

namespace Xv6Labs.Plain

open Lib Vm

/-- It returns the result and the new `p->sz`. -/
def growproc {κ : Type} (A : Lab κ) (pagetable psz : Nat) (n : Int) (s : Mach κ) :
    Except String (Int × Nat × Mach κ) :=
  let sz := u32 psz
  if n > 0 then do
    let (r, s) ← Vm.uvmalloc A pagetable sz (u32 (toU64 (sz + n))) s
    if u32 r = 0 then .ok (-1, psz, s) else .ok (0, u32 r, s)
  else if n < 0 then do
    let (r, s) ← Vm.uvmdealloc A pagetable sz (u32 (toU64 (sz + n))) s
    .ok (0, u32 r, s)
  else .ok (0, sz, s)

variable {I : Image} {P : List Nat} {hP : ∀ p ∈ P, Page I p} {B : Nat → Prop} {s s' : Mach Kmem} {k k' : Nat → Kind}
    {t sz newsz : Nat}

/-- What growproc promises: 0 for the size that was asked for, with the pages of this size and
    the bytes in those that were there, and -1 for nothing changed. -/
structure Reported (I : Image) (t sz : Nat) (n : Int) (s : Mach Kmem) (r : Int) (sz' : Nat)
    (s' : Mach Kmem) : Prop where
  result : r = 0 ∨ r = -1
  size : r = 0 → (sz' : Int) = sz + n
  pages : r = 0 → ∀ v < VPN, ¬ LentPage v → ((lookup s'.mem t v).isSome = true ↔ v < PGROUNDUP sz' / 4096)
  bytes : r = 0 → ∀ va, va / 4096 < VPN → (lookup s.mem t (va / 4096)).isSome = true →
    (lookup s'.mem t (va / 4096)).isSome = true →
    byteAt s'.mem t va = byteAt s.mem t va
  same : r = -1 → sz' = sz ∧ ∀ v < VPN, lookup s'.mem t v = lookup s.mem t v
  /-- A page that was free is free again, or a page-table page. -/
  back : r = -1 → ∃ free free', FreeList I s free ∧ FreeList I s' free' ∧ ∀ p ∈ free, p ∈ free' ∨ ∃ l,
    Node s'.mem t l p

/-! ## Pages -/

/-- The table pages of the invariant are those that walk reads. -/
theorem tab_isNode {m : Mem} (h : Tab B m [t] k) {l i p : Nat} (hp : k p = .node t l i) : Node m t l p := by
  induction hd : 2 - l generalizing l i p with
  | zero =>
    obtain ⟨-, hl, h2, -⟩ := h.up p t l i hp
    obtain rfl : l = 2 := by omega
    rw [(h2 rfl).1]
    exact .root
  | succ d ih =>
    obtain ⟨q, hq, hw⟩ := (h.up p t l i hp).2.2.2 (by omega)
    have hpage := h.nodePage hp
    have hn : Node m t (l + 1) q := ih hq (by omega)
    have hv : vbit (pte m q (i % 512)) = true := by
      rw [hw]
      exact vbit_mkpte (by decide)
    have := Node.child hn (Nat.mod_lt i (by decide)) hv
    rwa [hw, pte2pa_mkpte hpage (by decide)] at this

theorem sized_isSome {m : Mem} (h : Sized B m t sz) {v : Nat} (hv : v < VPN) (hl : ¬ LentPage v) :
    (lookup m t v).isSome = true ↔ v < PGROUNDUP sz / 4096 := by
  constructor
  · intro hs
    by_contra hge
    rw [h.none v hv (Nat.not_lt.mp hge) hl] at hs
    cases hs
  · intro hlt
    obtain ⟨p, perm, e, -⟩ := h.user v hlt
    rw [e]
    rfl

/-- When the user sees what was there, the pages that were free are free or in the tables. -/
theorem kept_back (h : VmInv (partSpec I false P hP) B s [t] k) (h' : VmInv (partSpec I false P hP) B s' [t] k')
    (hk : Kept [t] s k s' k') :
    ∃ free free', FreeList I s free ∧ FreeList I s' free' ∧ ∀ p ∈ free, p ∈ free' ∨ ∃ l, Node s'.mem t l p := by
  obtain ⟨free, hl, hf⟩ := VmInv.freeList h
  obtain ⟨free', hl', hf'⟩ := VmInv.freeList h'
  refine ⟨free, free', hl, hl', fun p hp => ?_⟩
  have hfree := (hf p).mp hp
  cases e : k' p with
  | free => exact Or.inl ((hf' p).mpr e)
  | ext =>
    have hin : p ∈ P := h.page_of (by rw [hfree]; simp)
    exact absurd hin ((h'.ext p).mp e)
  | held => exact absurd ((hk.held p).mp e) (by rw [hfree]; simp)
  | node t' l i =>
    obtain rfl : t' = t := List.mem_singleton.mp (h'.tab.up p t' l i e).1
    exact Or.inr ⟨l, tab_isNode h'.tab e⟩
  | data v =>
    -- it is mapped, so it was
    exfalso
    have hmaps : maps s'.mem v p t = true := by
      have := h'.used p v e
      rw [List.countP_singleton] at this
      by_contra hne
      rw [if_neg hne] at this
      exact absurd this (by decide)
    have hv := h'.vpn p v e
    rw [maps_lookup, hk.lookup t (by simp) v hv, Option.any_eq_true] at hmaps
    obtain ⟨w, hw, hpa⟩ := hmaps
    obtain ⟨rfl, hvb⟩ := lookup_some.mp hw
    obtain ⟨_, _, _, hd, _⟩ := h.tab.leaf_valid (by simp) hv hvb
    rw [eq_of_beq hpa, hfree] at hd
    rcases hd with hd | hd
    · cases hd
    · rcases h.tab.lent p hd with hd | hd <;> rw [hfree] at hd <;> cases hd

/-! ## uvmalloc, uvmdealloc -/

/-- uvmalloc to a size with room. -/
theorem uvmalloc_reported (h : Alive (partSpec I false P hP) B s t sz k) (hle : sz ≤ newsz) (hmax : newsz ≤ TRAPFRAME)
    {n : Int} (hn : (newsz : Int) = sz + n) :
    (∃ s', Vm.uvmalloc (lab I false) t sz newsz s = .ok (newsz, s') ∧ Reported I t sz n s 0 newsz s') ∨
      ∃ s', Vm.uvmalloc (lab I false) t sz newsz s = .ok (0, s') ∧ Reported I t sz n s (-1) sz s' := by
  have ht : t ∈ [t] := by simp
  have hpages := pages_grown h.sized.small hmax hle
  have htop : PGROUNDUP newsz / 4096 ≤ TRAPFRAME / 4096 := by
    rw [pgroundup_small hmax]
    simp only [TRAPFRAME, TRAMPOLINE, MAXVA, PGSIZE] at hmax ⊢
    omega
  rcases uvmalloc_spec h.inv ht sz newsz hle with ⟨-, i, hi, hc⟩ | ⟨s', k', e, h', g, -⟩ | ⟨s', k', e, h', kp, -⟩
  · -- there are no pages above the size but the lent ones
    have hlt : PGROUNDUP sz / 4096 + i < TRAPFRAME / 4096 := by omega
    have hmaxva : PGROUNDUP sz / 4096 + i < MAXVA / 4096 := Nat.lt_trans hlt (by decide)
    exact absurd ⟨hmaxva, h.sized.none _ (lt_vpn hmaxva) (Nat.le_add_right _ _) fun hl =>
      Nat.not_le.mpr hlt (lentPage_bounds hl).1⟩ hc
  · have hsized : Sized B s'.mem t newsz := h.sized.grown ht g (fun _ _ => by decide) hle rfl
    refine Or.inl ⟨s', e, Or.inl rfl, fun _ => hn, fun _ v hv hl => sized_isSome hsized hv hl,
      fun _ va hva hs _ => ?_, fun h => absurd h (by decide), fun h => absurd h (by decide)⟩
    refine g.byteAt t ht va hva fun hin => ?_
    rw [(g.fresh _ hin.2).2] at hs
    cases hs
  · exact Or.inr ⟨s', e, Or.inr rfl, fun h => absurd h (by decide), fun h => absurd h (by decide),
      fun h => absurd h (by decide),
      fun _ => ⟨rfl, kp.lookup t ht⟩, fun _ => kept_back h.inv h' kp⟩

/-- uvmdealloc to a smaller size. -/
theorem uvmdealloc_reported (h : Alive (partSpec I false P hP) B s t sz k) (hlt : newsz < sz) {n : Int}
    (hn : (newsz : Int) = sz + n) :
    ∃ s', Vm.uvmdealloc (lab I false) t sz newsz s = .ok (newsz, s') ∧ Reported I t sz n s 0 newsz s' := by
  have ht : t ∈ [t] := by simp
  have hs := h.sized.small
  have hmod := pgroundup_mod newsz
  have hcount := deallocN_pages hs hlt
  have hle : PGROUNDUP newsz / 4096 ≤ PGROUNDUP sz / 4096 := by
    rw [pgroundup_small hs, pgroundup_small (by omega : newsz ≤ TRAPFRAME)]
    omega
  have hrun := uvmdealloc_eq (A := lab I false) t sz newsz s
  rw [if_neg (Nat.not_le.mpr hlt)] at hrun
  rcases unmapLoop_spec (A := lab I false) ht (deallocN sz newsz) (PGROUNDUP newsz) s k hmod h.inv
    (h.sized.ownRange (by omega)) with ⟨-, s', k', e, h', hc, -⟩ | ⟨⟨i, hi, hb⟩, -⟩
  · have hlook : ∀ v < VPN, lookup s'.mem t v =
      if InRange (PGROUNDUP newsz / 4096) (deallocN sz newsz) v then none else lookup s.mem t v := fun v hv => by
      simpa using hc.lookup t ht v hv
    refine ⟨s', by rw [hrun, e]; rfl, Or.inl rfl, fun _ => hn, fun _ v hv hl => ?_, fun _ va hva hs hs' => ?_,
      fun h => absurd h (by decide), fun h => absurd h (by decide)⟩
    · have hold := sized_isSome h.sized hv hl
      rw [hlook v hv]
      by_cases hin : InRange (PGROUNDUP newsz / 4096) (deallocN sz newsz) v
      · rw [if_pos hin]
        unfold InRange at hin
        exact ⟨fun h => absurd h (by simp), fun h => absurd h (by omega)⟩
      · rw [if_neg hin, hold]
        unfold InRange at hin
        omega
    · have hb := hc.byteAt t ht va hva
      rw [if_neg fun hin => ?_] at hb
      · exact hb
      · rw [hlook _ hva, if_pos hin.2] at hs'
        cases hs'
  · exact absurd (h.sized.canUnmap (by omega)) hb

theorem reported_same (h : Alive (partSpec I false P hP) B s t sz k) : Reported I t sz 0 s 0 sz s :=
  ⟨Or.inl rfl, fun _ => (Int.add_zero _).symm, fun _ _ hv hl => sized_isSome h.sized hv hl, fun _ _ _ _ _ => rfl,
    fun h => absurd h (by decide), fun h => absurd h (by decide)⟩

/-- A process that shrinks below 0 keeps its size, and is told it did not. -/
theorem growproc_reported (h : Alive (partSpec I false P hP) B s t sz k) (hsz : sz ≤ PHYSTOP - KERNBASE) {n : Int}
    (hn : -2 ^ 31 ≤ n ∧ n < 2 ^ 31) :
    (∃ r sz' s', growproc (lab I false) t sz n s = .ok (r, sz', s') ∧ Reported I t sz n s r sz' s') ↔ 0 ≤ sz + n := by
  have hphys : PHYSTOP - KERNBASE = 2 ^ 27 := by decide
  have hu : u32 sz = sz := Nat.mod_eq_of_lt (by omega)
  unfold growproc
  rw [hu]
  dsimp only
  by_cases hpos : n > 0
  · have hnew : ((u32 (toU64 (sz + n)) : Nat) : Int) = sz + n := by
      unfold u32 toU64
      omega
    generalize u32 (toU64 (sz + n)) = newsz at hnew
    have hun : u32 newsz = newsz := Nat.mod_eq_of_lt (by omega)
    have hmax : newsz ≤ TRAPFRAME := by
      simp only [TRAPFRAME, TRAMPOLINE, MAXVA, PGSIZE]
      omega
    refine ⟨fun _ => by omega, fun _ => ?_⟩
    rw [if_pos hpos]
    rcases uvmalloc_reported h (by omega) hmax hnew with ⟨s', e, hr⟩ | ⟨s', e, hr⟩
    · refine ⟨0, newsz, s', ?_, hr⟩
      rw [e, ok_bind]
      dsimp only
      rw [hun, if_neg (by omega)]
    · refine ⟨-1, sz, s', ?_, hr⟩
      rw [e, ok_bind]
      rfl
  rw [if_neg hpos]
  by_cases hneg : n < 0
  · rw [if_pos hneg]
    by_cases h0 : 0 ≤ sz + n
    · have hnew : ((u32 (toU64 (sz + n)) : Nat) : Int) = sz + n := by
        unfold u32 toU64
        omega
      generalize u32 (toU64 (sz + n)) = newsz at hnew
      have hun : u32 newsz = newsz := Nat.mod_eq_of_lt (by omega)
      obtain ⟨s', e, hr⟩ := uvmdealloc_reported h (by omega) hnew
      refine ⟨fun _ => h0, fun _ => ⟨0, newsz, s', ?_, hr⟩⟩
      rw [e, ok_bind]
      dsimp only
      rw [hun]
    · -- the sum wraps to more than the size, which uvmdealloc then returns
      have hge : u32 (toU64 (sz + n)) ≥ sz := by
        unfold u32 toU64
        omega
      refine ⟨?_, fun h => absurd h h0⟩
      rintro ⟨r, sz', s', e, hr⟩
      unfold Vm.uvmdealloc at e
      rw [if_pos hge, ok_bind] at e
      cases e
      have := hr.size rfl
      rw [hu] at this
      omega
  · obtain rfl : n = 0 := by omega
    rw [if_neg hneg]
    exact ⟨fun _ => by omega, fun _ => ⟨0, sz, s, rfl, reported_same h⟩⟩

/-! ## A process of one page -/

def sixPages : Image := ⟨0x80021000, by decide, by decide⟩

def six : List Nat := [0x80022000, 0x80023000, 0x80024000, 0x80025000, 0x80026000, 0x80027000]

theorem six_page : ∀ p ∈ six, Page sixPages p := by simp [six, Page, sixPages, PHYSTOP, KERNBASE]

/-- proc_pagetable and then uvmalloc of a page. -/
def onePageMade : Option Nat :=
  match Vm.proc_pagetable (lab sixPages false) 0x80007000 0x87f00000 (freed sixPages six) with
  | .ok (some t, s) =>
    match Vm.uvmalloc (lab sixPages false) t 0 4096 s with
    | .ok (r, _) => some r
    | .error _ => none
  | _ => none

theorem onePage_alive : ∃ t s k, Alive (partSpec sixPages false six six_page) (fun p => p ∉ six) s t 4096 k := by
  have hmade : onePageMade = some 4096 := by decide +kernel
  have hfree := freed_freeList sixPages six six_page (by decide)
  obtain ⟨k, hg⟩ := gone_start (B := fun p => p ∉ six) hfree fun _ hp => hp
  unfold onePageMade at hmade
  have htrampoline : IsPage 0x80007000 ∧ 0x80007000 ∉ six := ⟨by simp [IsPage], by decide⟩
  have htrapframe : IsPage 0x87f00000 ∧ 0x87f00000 ∉ six := ⟨by simp [IsPage], by decide⟩
  rcases hg.proc_pagetable htrampoline htrapframe with
    ⟨s1, k1, e1, -, -⟩ | ⟨t, s1, k1, e1, ha, -⟩
  · rw [e1] at hmade
    cases hmade
  · obtain ⟨r, s2, k2, e2, h2, -⟩ := ha.uvmalloc partSpec_bound 4096
    rw [e1] at hmade
    dsimp only at hmade
    rw [e2] at hmade
    obtain rfl : r = 4096 := Option.some.inj hmade
    exact ⟨t, s2, k2, h2⟩

/-- It gives its page back. -/
theorem growproc_reported_onePage : ∃ t s s', growproc (lab sixPages false) t 4096 (-4096) s = .ok (0, 0, s') ∧
    (lookup s.mem t 0).isSome = true ∧
    (lookup s'.mem t 0).isSome = false ∧ Reported sixPages t 4096 (-4096) s 0 0 s' := by
  obtain ⟨t, s, k, h⟩ := onePage_alive
  obtain ⟨r, sz', s', e, hr⟩ :=
    (growproc_reported h (by decide) (by decide : -2 ^ 31 ≤ (-4096 : Int) ∧ (-4096 : Int) < 2 ^ 31)).mpr (by decide)
  obtain rfl : r = 0 := by
    have e' := e
    unfold growproc at e'
    dsimp only at e'
    rw [if_neg (by decide), if_pos (by decide)] at e'
    obtain ⟨x, -, e'⟩ := bind_ok e'
    cases e'
    rfl
  obtain rfl : sz' = 0 := Int.ofNat.inj (hr.size rfl)
  have hlent : ¬ LentPage 0 := by decide
  refine ⟨t, s, s', e, (sized_isSome h.sized (by decide) hlent).mpr (by decide), ?_, hr⟩
  rw [Bool.eq_false_iff, ne_eq, hr.pages rfl 0 (by decide) hlent]
  decide

/-- It shrinks by two pages: growproc returns 0, and the process has its page still. -/
theorem growproc_below_zero : ∃ t s k, Alive (partSpec sixPages false six six_page) (fun p => p ∉ six) s t 4096 k ∧
    growproc (lab sixPages false) t 4096 (-8192) s = .ok (0, 4096, s) ∧
      ¬ Reported sixPages t 4096 (-8192) s 0 4096 s := by
  obtain ⟨t, s, k, h⟩ := onePage_alive
  refine ⟨t, s, k, h, ?_, fun hr => absurd (hr.size rfl) (by decide)⟩
  have hge : u32 (toU64 (((u32 4096 : Nat) : Int) + -8192)) ≥ u32 4096 := by decide
  unfold growproc Vm.uvmdealloc
  dsimp only
  rw [if_neg (by decide), if_pos (by decide), if_pos hge]
  rfl

end Xv6Labs.Plain
