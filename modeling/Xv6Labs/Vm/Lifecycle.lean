/-
  Xv6Labs.Vm.Lifecycle — a process's address space, from proc_pagetable to
  proc_freepagetable.

  The allocator's pages are those this space may get; the memory of other address spaces is
  outside. The trampoline and the trapframe are lent.

  - `Alive`: the leaves are the pages below `sz` and the two lent ones. Every operation
    keeps that, wherever kalloc fails, and none panics.
  - `Gone.free`: with the space gone, every page is free.
-/

import Xv6Labs.Vm.Outside
import Xv6Labs.Vm.Maps
import Xv6Labs.Vm.Space
import Mathlib.Data.Finset.Card

namespace Xv6Labs.Vm

open Lib

variable {κ : Type} {A : Lab κ} {H : AllocSpec A} {B : Nat → Prop} {s s' : Mach κ} {live : List Nat}
    {k k' : Nat → Kind} {t : Nat}

/-! ## Lent leaves -/

theorem Tab.lent_data {m : Mem} (h : Tab B m live k) {p v : Nat} (hb : B p) : k p ≠ .data v := fun e => by
  rcases h.lent p hb with e' | e' <;> simp [e] at e'

/-- A leaf that maps nothing or a lent page is set to map nothing or a lent page. -/
theorem VmInv.setLent (h : VmInv H B s live k) {v q w : Nat} (ht : t ∈ live) (hv : v < VPN)
    (hq : k q = .node t 0 (v / 512)) (hold : ∀ w', lookup s.mem t v = some w' → B (PTE2PA w')) (hw : w < 256 ^ 8)
    (hnew : vbit w = true → B (PTE2PA w) ∧ PTE_FLAGS w ≠ PTE_V) :
    VmInv H B { s with mem := s.mem.storeLE (q + 8 * (v % 512)) 8 w } live k ∧
      ∀ t' ∈ live, ∀ v' < VPN, leaf (s.mem.storeLE (q + 8 * (v % 512)) 8 w) t' v' =
        if t' = t ∧ v' = v then w else leaf s.mem t' v' := by
  have hj : v % 512 < 512 := Nat.mod_lt _ (by decide)
  have hok : vbit w = true → LeafOk B k (512 * (v / 512) + v % 512) w := fun e => ⟨Or.inr (hnew e).1, (hnew e).2⟩
  have lf : ∀ t' ∈ live, ∀ v' < VPN, leaf (s.mem.storeLE (q + 8 * (v % 512)) 8 w) t' v' =
      if t' = t ∧ v' = v then w else leaf s.mem t' v' :=
    fun t' ht' v' hv' => by rw [h.tab.setLeaf_leaf hq hj hw hok ht' hv', div_mod_512]
  have hmaps : ∀ p v', k p = .data v' → ∀ t' ∈ live, maps (s.mem.storeLE (q + 8 * (v % 512)) 8 w) v' p t' =
    maps s.mem v' p t' := by
    intro p v' hp t' ht'
    unfold maps
    rw [lf t' ht' v' (h.vpn p v' hp)]
    split
    · -- neither leaf maps a user page
      rename_i e
      obtain ⟨rfl, rfl⟩ := e
      have h1 : (vbit w && PTE2PA w == p) = false := by
        by_contra hc
        simp only [Bool.not_eq_false, Bool.and_eq_true, beq_iff_eq] at hc
        exact h.tab.lent_data (hc.2 ▸ (hnew hc.1).1) hp
      have h2 : (vbit (leaf s.mem t' v') && PTE2PA (leaf s.mem t' v') == p) = false := by
        by_contra hc
        simp only [Bool.not_eq_false, Bool.and_eq_true, beq_iff_eq] at hc
        exact h.tab.lent_data (hc.2 ▸ hold _ (lookup_some.mpr ⟨rfl, hc.1⟩)) hp
      rw [h1, h2]
    · rfl
  have hown : own (s.mem.storeLE (q + 8 * (v % 512)) 8 w) live k = own s.mem live k := by
    funext p
    unfold own
    cases hp : k p with
    | data v' => exact List.countP_congr fun t' ht' => by rw [hmaps p v' hp t' ht']
    | _ => rfl
  refine ⟨⟨h.tab.setLeaf hq hj hw hok, h.nodup, h.ext, ?_, fun p v' hp => ?_, h.vpn, fun p => ?_⟩, lf⟩
  · rw [hown]
    exact h.alloc_store hq hj
  · have h1 : live.countP (maps (s.mem.storeLE (q + 8 * (v % 512)) 8 w) v' p) = live.countP (maps s.mem v' p) :=
      List.countP_congr fun t' ht' => by rw [hmaps p v' hp t' ht']
    rw [h1]
    exact h.used p v' hp
  · rw [hown]
    exact h.capped p

/-- The leaf of `v` under `t` is now `w`; nothing else that matters changed. -/
structure Entered (live : List Nat) (s : Mach κ) (k : Nat → Kind) (t v : Nat) (w : Option Nat) (s' : Mach κ)
    (k' : Nat → Kind) : Prop where
  lookup : ∀ v' < VPN, lookup s'.mem t v' = if v' = v then w else Vm.lookup s.mem t v'
  held : ∀ r, k' r = .held ↔ k r = .held

theorem Grows.held (g : Grows live s k s' k') (r : Nat) : k' r = .held ↔ k r = .held := by
  by_cases hr : k r = .free
  · rcases g.new r hr with e | ⟨_, _, _, e⟩ <;> simp [e, hr]
  · rw [g.kind r hr]

theorem mappages_lent (h : VmInv H B s live k) {va p perm : Nat} (ht : t ∈ live) (hal : va % 4096 = 0)
    (hva : va < MAXVA) (hw : lookup s.mem t (va / 4096) = none) (hp : IsPage p) (hb : B p) (hperm : perm < 1024)
    (hflag : perm ||| PTE_V ≠ PTE_V) :
    (∃ s1 k1, mappages A t va PGSIZE p perm s = .ok (-1, s1) ∧ VmInv H B s1 live k1 ∧
      (∀ v < VPN, lookup s1.mem t v = lookup s.mem t v) ∧
        (∀ r, k1 r = .held ↔ k r = .held) ∧ SameOutside H.page s.mem s1.mem) ∨
      ∃ s2 k2, mappages A t va PGSIZE p perm s = .ok (0, s2) ∧ VmInv H B s2 live k2 ∧
        Entered live s k t (va / 4096) (some (mkpte p perm)) s2 k2 ∧
        SameOutside H.page s.mem s2.mem := by
  have hv := vpn_of_lt hva
  rw [mappages_page hal hva]
  obtain ⟨s1, k1, h1, g1, ⟨e, -⟩ | ⟨q, hq, -, e⟩⟩ := mapOne_ok h p perm ht hva (lookup_none.mp hw)
  · exact Or.inl ⟨s1, k1, by rw [e]; rfl, h1, fun v hv => lookup_congr (g1.leaf t ht v hv), g1.held, g1.outside h⟩
  · have hold : ∀ w', lookup s1.mem t (va / 4096) = some w' → B (PTE2PA w') := fun w' hw' => by
      rw [lookup_congr (g1.leaf t ht _ hv), hw] at hw'
      cases hw'
    obtain ⟨h2, lf⟩ := h1.setLent ht hv hq hold (mkpte_lt hp hperm) fun _ => ⟨by rwa [pte2pa_mkpte hp hperm], by
      unfold PTE_FLAGS
      rwa [mkpte_mod hperm]⟩
    refine Or.inr ⟨_, k1, by rw [e]; rfl, h2, ⟨fun v' hv' => ?_, g1.held⟩,
      (g1.outside h).trans (h1.store_outside hq (Nat.mod_lt _ (by decide)))⟩
    unfold lookup
    rw [lf t ht v' hv', g1.leaf t ht v' hv']
    by_cases e' : v' = va / 4096
    · simp [e', vbit_mkpte hperm]
    · simp [e']

/-- uvmunmap of one lent page. -/
theorem uvmunmap_lent (h : VmInv H B s live k) {va w : Nat} (ht : t ∈ live) (hal : va % 4096 = 0) (hva : va < MAXVA)
    (hw : lookup s.mem t (va / 4096) = some w) (hb : B (PTE2PA w)) :
    ∃ s', uvmunmap A t va 1 false s = .ok s' ∧ VmInv H B s' live k ∧ Entered live s k t (va / 4096) none s' k ∧
      SameOutside H.page s.mem s'.mem := by
  have hv := vpn_of_lt hva
  obtain ⟨rfl, hvb⟩ := lookup_some.mp hw
  obtain ⟨q, hq, hs, hl⟩ := h.tab.slot_valid ht hv hvb
  obtain ⟨_, _, _, _, hfl⟩ := h.tab.leaf_valid ht hv hvb
  obtain ⟨h1, lf⟩ := h.setLent (w := 0) ht hv hq (fun w' hw' => by rw [← (lookup_some.mp hw').1]; exact hb)
    (by decide) fun e => by cases e
  refine ⟨_, ?_, h1, ⟨fun v' hv' => ?_, fun _ => Iff.rfl⟩, h.store_outside hq (Nat.mod_lt _ (by decide))⟩
  · have hne : ¬ (leaf s.mem t (va / 4096) &&& PTE_V = 0) := (vbit_eq _).mpr hvb
    rw [uvmunmap_one hal hva]
    simp only [unmapOne, walk_false hva, bind, Except.bind, hs, hl, hne, hfl, if_false, Bool.false_eq_true]
  · unfold lookup
    rw [lf t ht v' hv']
    by_cases e : v' = va / 4096
    · simp [e, vbit_zero]
    · simp [e]

/-! ## A space of a size -/

/-- The pages of the trapframe and the trampoline. -/
def LentPage (v : Nat) : Prop := v = TRAPFRAME / 4096 ∨ v = TRAMPOLINE / 4096

instance (v : Nat) : Decidable (LentPage v) := inferInstanceAs (Decidable (_ ∨ _))

theorem lentPage_bounds {v : Nat} (h : LentPage v) : TRAPFRAME / 4096 ≤ v ∧ v < MAXVA / 4096 := by
  rcases h with rfl | rfl <;> decide

abbrev RWX : Nat := PTE_R ||| PTE_W ||| PTE_X

/-- `sz` bytes of user memory, and the two lent pages. -/
structure Sized (B : Nat → Prop) (m : Mem) (t sz : Nat) : Prop where
  small : sz ≤ TRAPFRAME
  user : ∀ v < PGROUNDUP sz / 4096, ∃ p perm, lookup m t v = some (mkpte p perm) ∧ IsPage p ∧ ¬ B p ∧ perm < 1024 ∧
    perm &&& RWX ≠ 0
  lent : ∀ v, LentPage v → ∃ w, lookup m t v = some w ∧ B (PTE2PA w) ∧ w &&& RWX ≠ 0
  none : ∀ v < VPN, PGROUNDUP sz / 4096 ≤ v → ¬ LentPage v → lookup m t v = none

structure Alive (H : AllocSpec A) (B : Nat → Prop) (s : Mach κ) (t sz : Nat) (k : Nat → Kind) : Prop where
  inv : VmInv H B s [t] k
  sized : Sized B s.mem t sz
  held : ∀ r, k r ≠ .held

variable {sz : Nat}

theorem pgroundup_small {n : Nat} (h : n ≤ TRAPFRAME) : PGROUNDUP n = (n + 4095) / 4096 * 4096 := by
  simp only [TRAPFRAME, TRAMPOLINE, MAXVA, PGSIZE] at h
  unfold PGROUNDUP PGSIZE u64
  omega

theorem Sized.pages (h : Sized B s.mem t sz) : PGROUNDUP sz / 4096 ≤ TRAPFRAME / 4096 := by
  have h1 := h.small
  rw [pgroundup_small h1]
  simp only [TRAPFRAME, TRAMPOLINE, MAXVA, PGSIZE] at h1 ⊢
  omega

theorem Sized.user_vpn {m : Mem} (h : Sized B m t sz) {v : Nat} (hv : v < PGROUNDUP sz / 4096) : v < VPN := by
  have h1 := h.small
  rw [pgroundup_small h1] at hv
  simp only [TRAPFRAME, TRAMPOLINE, MAXVA, PGSIZE] at h1
  simp only [VPN]
  omega

theorem Sized.congr {m m' : Mem} (h : Sized B m t sz) (hl : ∀ v < VPN, lookup m' t v = lookup m t v) :
    Sized B m' t sz := by
  refine ⟨h.small, fun v hv => ?_, fun v hv => ?_, fun v hv h1 h2 => ?_⟩
  · rw [hl v (h.user_vpn hv)]
    exact h.user v hv
  · rw [hl v (lt_vpn (lentPage_bounds hv).2)]
    exact h.lent v hv
  · rw [hl v hv]
    exact h.none v hv h1 h2

theorem Alive.kept (h : Alive H B s t sz k) (h' : VmInv H B s' [t] k') (hk : Kept [t] s k s' k') :
    Alive H B s' t sz k' :=
  ⟨h', h.sized.congr (hk.lookup t (by simp)), fun r e => h.held r ((hk.held r).mp e)⟩

/-! ## uvmalloc -/

theorem pages_grown {newsz : Nat} (hs : sz ≤ TRAPFRAME) (hn : newsz ≤ TRAPFRAME) (hle : sz ≤ newsz) :
    PGROUNDUP newsz / 4096 = PGROUNDUP sz / 4096 + (newsz - PGROUNDUP sz + PGSIZE - 1) / PGSIZE := by
  rw [pgroundup_small hn, pgroundup_small hs]
  unfold PGSIZE
  omega

/-- The new pages follow the old ones, so they do not reach the trapframe. -/
theorem Sized.grown {n newsz : Nat} {perm : Nat → Nat} {f : Nat → UInt8} (h : Sized B s.mem t sz) (ht : t ∈ live)
    (g : Grown B live s k t (InRange (PGROUNDUP sz / 4096) n) perm f s' k')
    (hperm : ∀ v, InRange (PGROUNDUP sz / 4096) n v → perm v &&& RWX ≠ 0)
    (hsz : sz ≤ newsz) (hn : (newsz - PGROUNDUP sz + PGSIZE - 1) / PGSIZE = n) : Sized B s'.mem t newsz := by
  have hpages := h.pages
  have hmod := pgroundup_mod sz
  have hsmall : newsz ≤ TRAPFRAME := by
    by_contra hlt
    have hin : InRange (PGROUNDUP sz / 4096) n (TRAPFRAME / 4096) := by
      refine ⟨hpages, ?_⟩
      subst hn
      simp only [TRAPFRAME, TRAMPOLINE, MAXVA, PGSIZE] at hlt hpages ⊢
      omega
    obtain ⟨w, hw, -⟩ := h.lent _ (Or.inl rfl)
    rw [(g.fresh _ hin).2] at hw
    cases hw
  have hnew : PGROUNDUP newsz / 4096 = PGROUNDUP sz / 4096 + n := hn ▸ pages_grown h.small hsmall hsz
  have out : ∀ v < VPN, ¬ InRange (PGROUNDUP sz / 4096) n v → lookup s'.mem t v = lookup s.mem t v := fun v hv hr =>
    g.lookup t ht v hv fun e => hr e.2
  refine ⟨hsmall, fun v hv => ?_, fun v hv => ?_, fun v hv h1 h2 => ?_⟩
  · by_cases hr : InRange (PGROUNDUP sz / 4096) n v
    · obtain ⟨p, hp, hb, hl⟩ := g.here v hr
      exact ⟨p, perm v, hl, hp, hb, g.small v hr, hperm v hr⟩
    · have hlt : v < PGROUNDUP sz / 4096 := by
        unfold InRange at hr
        omega
      rw [out v (lt_vpn (by simp only [TRAPFRAME, TRAMPOLINE, MAXVA, PGSIZE] at hpages ⊢; omega)) hr]
      exact h.user v hlt
  · have hb := lentPage_bounds hv
    obtain ⟨w, hw, h1⟩ := h.lent v hv
    rw [out v (lt_vpn hb.2) fun hr => by rw [(g.fresh v hr).2] at hw; cases hw]
    exact ⟨w, hw, h1⟩
  · rw [out v hv (by unfold InRange; omega)]
    exact h.none v hv (by omega) h2

/-- More pages cannot be mapped than there are. -/
theorem VmInv.few_pages (h : VmInv H B s live k) (ht : t ∈ live) (hfin : ∀ p, H.page p → p < PHYSTOP) {n : Nat}
    (hn : n ≤ VPN) (hall : ∀ v < n, ∃ w, lookup s.mem t v = some w ∧ ¬ B (PTE2PA w)) : n ≤ PHYSTOP / 4096 := by
  have data : ∀ v < n, k (PTE2PA (leaf s.mem t v)) = .data v := fun v hv => by
    obtain ⟨w, hw, hb⟩ := hall v hv
    obtain ⟨rfl, hvb⟩ := lookup_some.mp hw
    obtain ⟨_, _, _, hd, _⟩ := h.tab.leaf_valid ht (by omega) hvb
    exact hd.resolve_right hb
  have hmod : ∀ v, PTE2PA (leaf s.mem t v) % 4096 = 0 := fun v => pte2pa_mod _
  have hcard := Finset.card_le_card_of_injOn (s := Finset.range n) (t := Finset.range (PHYSTOP / 4096))
    (fun v => PTE2PA (leaf s.mem t v) / 4096)
    (fun v hv => ?_) fun v hv v' hv' e => ?_
  · simpa only [Finset.card_range] using hcard
  · have hv := Finset.mem_range.mp hv
    have h1 := hfin _ (h.page_of (by rw [data v hv]; simp))
    have h2 := hmod v
    simp only [PHYSTOP, KERNBASE] at h1
    simp only [Finset.coe_range, Set.mem_Iio, PHYSTOP, KERNBASE]
    omega
  · have hv := Finset.mem_range.mp hv
    have hv' := Finset.mem_range.mp hv'
    have h1 := hmod v
    have h2 := hmod v'
    have h3 := data v hv
    rw [show PTE2PA (leaf s.mem t v) = PTE2PA (leaf s.mem t v') by simp only at e; omega, data v' hv'] at h3
    exact (Kind.data.inj h3).symm

/-- The first round of uvmalloc's loop goes on or ends it. -/
theorem uvmallocLoop_first (o newsz a : Nat) (s : Mach κ) :
    (∃ s2, uvmallocLoop A t o newsz 1 a s = .ok (newsz, s2) ∧ ∀ m,
      uvmallocLoop A t o newsz (m + 1) a s = uvmallocLoop A t o newsz m (a + PGSIZE) s2) ∨
      ∀ m, uvmallocLoop A t o newsz (m + 1) a s = uvmallocLoop A t o newsz 1 a s := by
  simp only [uvmallocLoop]
  rcases A.kalloc s with ⟨_ | p, s1⟩
  · exact Or.inr fun _ => rfl
  · dsimp only
    cases mappages A t a PGSIZE p userPerm { s1 with mem := s1.mem.set p 0 PGSIZE } with
    | error e => exact Or.inr fun _ => rfl
    | ok x =>
      simp only [bind, Except.bind]
      by_cases hr : x.1 ≠ 0
      · simp only [if_pos hr]
        exact Or.inr fun _ => trivial
      · simp only [if_neg hr]
        exact Or.inl ⟨x.2, rfl, fun _ => rfl⟩

/-- With room below page `e` for more pages than there are, the loop does not panic. -/
theorem uvmallocLoop_total (s0 : Mach κ) (k0 : Nat → Kind) (ht : t ∈ live) {o newsz e : Nat} (hz : newsz ≠ 0)
    (ho : o % 4096 = 0) (hcan : ∀ v, o / 4096 ≤ v → v < e → CanMap s0.mem t v)
    (hfull : ∀ s k, VmInv H B s live k → ¬ Grown B live s0 k0 t (InRange (o / 4096) (e - o / 4096))
      (fun _ => userPerm) (fun _ => 0) s k) :
    ∀ n a (s : Mach κ) k, Grown B live s0 k0 t (InRange (o / 4096) (a / 4096 - o / 4096)) (fun _ => userPerm)
      (fun _ => 0) s k →
      VmInv H B s live k → a % 4096 = 0 → o ≤ a → a / 4096 ≤ e → a ≤ MAXVA ∨ a = o → ∃ r,
        uvmallocLoop A t o newsz n a s = .ok r := by
  intro n
  induction n with
  | zero => exact fun a s k _ _ _ _ _ _ => ⟨(newsz, s), rfl⟩
  | succ n ih =>
    intro a s k g h ha hle hae hmax
    have hlt : a / 4096 < e := by
      apply Nat.lt_of_le_of_ne hae
      intro he
      rw [he] at g
      exact hfull s k h g
    have hc := hcan (a / 4096) (by omega) hlt
    have hnext : (a + PGSIZE) / 4096 = a / 4096 + 1 := by unfold PGSIZE; omega
    rcases uvmallocLoop_spec ht newsz ho 1 a s k g h ha hle hmax with ⟨-, i, hi, hn⟩ | ⟨s', k', e1, h', g', -⟩ |
      ⟨s', k', e1, -, -, -⟩
    · obtain rfl : i = 0 := by omega
      exact absurd hc hn
    · rcases uvmallocLoop_first (A := A) (t := t) o newsz a s with ⟨s2, e2, hm⟩ | hm
      · rw [e1] at e2
        obtain rfl := (Prod.mk.inj (Except.ok.inj e2)).2
        rw [hm n]
        refine ih (a + PGSIZE) s' k' ?_ h' (by unfold PGSIZE; omega) (by omega) (by omega) (Or.inl ?_)
        · rwa [hnext, show a / 4096 + 1 - o / 4096 = a / 4096 - o / 4096 + 1 by omega]
        · have := hc.1
          simp only [MAXVA, PGSIZE] at this ⊢
          omega
      · rw [hm n]
        exact ⟨_, e1⟩
    · rcases uvmallocLoop_first (A := A) (t := t) o newsz a s with ⟨s2, e2, hm⟩ | hm
      · rw [e1] at e2
        exact absurd (Prod.mk.inj (Except.ok.inj e2)).1.symm hz
      · rw [hm n]
        exact ⟨_, e1⟩

/-- All pages below `sz` are the user's. -/
def AllUser (m : Mem) (t sz : Nat) : Prop := ∀ v < PGROUNDUP sz / 4096, ∃ p, lookup m t v = some (mkpte p userPerm)

theorem Alive.uvmalloc (hfin : ∀ p, H.page p → p < PHYSTOP) (h : Alive H B s t sz k) (newsz : Nat) :
    ∃ r s' k', uvmalloc A t sz newsz s = .ok (r, s') ∧ Alive H B s' t (if r = 0 then sz else r) k' ∧
      (AllUser s.mem t sz → AllUser s'.mem t (if r = 0 then sz else r)) ∧ (r = 0 ∨ r = max sz newsz) := by
  have ht : t ∈ [t] := by simp
  by_cases hlt : newsz < sz
  · refine ⟨sz, s, k, by unfold Vm.uvmalloc; rw [if_pos hlt], ?_, ?_,
      Or.inr (Nat.max_eq_left (Nat.le_of_lt hlt)).symm⟩
    · simpa using h
    · simp
  · rcases uvmalloc_spec h.inv ht sz newsz (by omega) with ⟨⟨e, he⟩, -⟩ | ⟨s', k', e, h', g, -⟩ |
      ⟨s', k', e, h', kp, -⟩
    · -- physical memory ends before the space does
      exfalso
      have hz : newsz ≠ 0 := by
        rintro rfl
        obtain rfl : sz = 0 := by omega
        cases he
      have hp := h.sized.pages
      have lt : ∀ {v}, v < TRAPFRAME / 4096 → v < MAXVA / 4096 := fun hv => by
        simp only [TRAPFRAME, TRAMPOLINE, MAXVA, PGSIZE] at hv ⊢
        omega
      have hcan : ∀ v, PGROUNDUP sz / 4096 ≤ v → v < TRAPFRAME / 4096 → CanMap s.mem t v := fun v h1 h2 =>
        ⟨lt h2, h.sized.none v (lt_vpn (lt h2)) h1 fun hl => Nat.not_le.mpr h2 (lentPage_bounds hl).1⟩
      have hfull : ∀ s1 k1, VmInv H B s1 [t] k1 →
          ¬ Grown B [t] s k t (InRange (PGROUNDUP sz / 4096) (TRAPFRAME / 4096 - PGROUNDUP sz / 4096))
            (fun _ => userPerm) (fun _ => 0) s1 k1 := by
        intro s1 k1 h1 g1
        have hfew : TRAPFRAME / 4096 ≤ PHYSTOP / 4096 := h1.few_pages ht hfin (by decide) fun v hv => by
          by_cases hr : InRange (PGROUNDUP sz / 4096) (TRAPFRAME / 4096 - PGROUNDUP sz / 4096) v
          · obtain ⟨p, hpp, hb, hl⟩ := g1.here v hr
            exact ⟨_, hl, by rwa [pte2pa_mkpte hpp (by decide)]⟩
          · obtain ⟨p, perm, hl, hpp, hb, hperm, -⟩ := h.sized.user v (by unfold InRange at hr; omega)
            rw [← g1.lookup t ht v (lt_vpn (lt hv)) fun e => hr e.2] at hl
            exact ⟨_, hl, by rwa [pte2pa_mkpte hpp hperm]⟩
        exact absurd hfew (by decide)
      obtain ⟨r, hr⟩ := uvmallocLoop_total (A := A) s k ht hz (pgroundup_mod sz) hcan hfull
        ((newsz - PGROUNDUP sz + PGSIZE - 1) / PGSIZE) (PGROUNDUP sz) s k
          (.refl B [t] s k t (fun v hv => by unfold InRange at hv; omega) _ _) h.inv
        (pgroundup_mod sz) (Nat.le_refl _) hp (Or.inr rfl)
      unfold Vm.uvmalloc at he
      rw [if_neg hlt] at he
      cases hr.symm.trans he
    · have hr : (if newsz = 0 then sz else newsz) = newsz := by
        split
        · omega
        · rfl
      have hgrown : Alive H B s' t newsz k' :=
        ⟨h', h.sized.grown ht g (fun _ _ => by decide) (by omega) rfl, fun r hr => h.held r ((g.held r).mp hr)⟩
      refine ⟨newsz, s', k', e, by rwa [hr], fun hu v hv => ?_, Or.inr (Nat.max_eq_right (Nat.le_of_not_lt hlt)).symm⟩
      rw [hr] at hv
      by_cases hin : InRange (PGROUNDUP sz / 4096) ((newsz - PGROUNDUP sz + PGSIZE - 1) / PGSIZE) v
      · obtain ⟨p, -, -, hl⟩ := g.here v hin
        exact ⟨p, hl⟩
      · rw [g.lookup t ht v (hgrown.sized.user_vpn hv) fun e => hin e.2]
        apply hu v
        rw [pages_grown h.sized.small hgrown.sized.small (by omega)] at hv
        unfold InRange at hin
        omega
    · refine ⟨0, s', k', e, by simpa using h.kept h' kp, fun hu v hv => ?_, Or.inl rfl⟩
      rw [if_pos rfl] at hv
      rw [kp.lookup t ht v (h.sized.user_vpn hv)]
      exact hu v hv

/-! ## uvmdealloc, uvmclear -/

theorem Sized.ownRange (h : Sized B s.mem t sz) {v0 n : Nat} (hn : v0 + n ≤ PGROUNDUP sz / 4096) :
    OwnRange B s.mem t v0 n := fun v _ hr w hw => by
  obtain ⟨p, perm, hl, hp, hb, hperm, -⟩ := h.user v (by unfold InRange at hr; omega)
  rw [hl] at hw
  obtain rfl := Option.some.inj hw
  rwa [pte2pa_mkpte hp hperm]

theorem Sized.canUnmap (h : Sized B s.mem t sz) {v : Nat} (hv : v < PGROUNDUP sz / 4096) : CanUnmap A s.mem t v := by
  have hp := h.pages
  obtain ⟨p, perm, hl, -⟩ := h.user v hv
  refine ⟨?_, Or.inl (by simp [hl])⟩
  simp only [TRAPFRAME, TRAMPOLINE, MAXVA, PGSIZE] at hp ⊢
  omega

/-- The user pages from `v0` on are given back. -/
theorem Alive.unmap (h : Alive H B s t sz k) {v0 n : Nat} (newsz : Nat) (hle : newsz ≤ sz)
    (hv0 : PGROUNDUP newsz / 4096 = v0) (hn : v0 + n = PGROUNDUP sz / 4096) :
    ∃ s' k', unmapLoop A t true n (v0 * 4096) s = .ok s' ∧ Alive H B s' t newsz k' := by
  have ht : t ∈ [t] := by simp
  have hpage : v0 * 4096 / 4096 = v0 := by omega
  have hpages := h.sized.pages
  rcases unmapLoop_spec (A := A) ht n (v0 * 4096) s k (by omega) h.inv (h.sized.ownRange (by omega)) with
    ⟨-, s', k', e, h', hc, -⟩ | ⟨⟨i, hi, hb⟩, -⟩
  · rw [hpage] at hc
    have hlk : ∀ v < VPN, lookup s'.mem t v = if InRange v0 n v then none else lookup s.mem t v :=
      fun v hv => by simpa using hc.lookup t ht v hv
    refine ⟨s', k', e, h', ⟨Nat.le_trans hle h.sized.small, fun v hv => ?_, fun v hv => ?_, fun v hv h1 h2 => ?_⟩,
      fun r hr => ?_⟩
    · rw [hlk v (lt_vpn (by simp only [TRAPFRAME, TRAMPOLINE, MAXVA, PGSIZE] at hpages ⊢; omega)),
        if_neg (by unfold InRange; omega)]
      exact h.sized.user v (by omega)
    · have h1 := lentPage_bounds hv
      rw [hlk v (lt_vpn h1.2), if_neg (by unfold InRange; omega)]
      exact h.sized.lent v hv
    · rw [hlk v hv]
      split
      · rfl
      · rename_i hr
        exact h.sized.none v hv (by unfold InRange at hr; omega) h2
    · rcases hc.kind r with e1 | ⟨-, e1⟩
      · exact h.held r (e1 ▸ hr)
      · simp [e1] at hr
  · exact absurd (h.sized.canUnmap (by omega)) hb

/-- uvmdealloc takes the pages between the two sizes. -/
theorem deallocN_pages {newsz : Nat} (hs : sz ≤ TRAPFRAME) (hlt : newsz < sz) :
    deallocN sz newsz = PGROUNDUP sz / 4096 - PGROUNDUP newsz / 4096 := by
  have e1 := pgroundup_small hs
  have e2 := pgroundup_small (n := newsz) (by omega)
  have h1 : deallocN sz newsz = deallocN (PGROUNDUP sz) (PGROUNDUP newsz) := by
    have e3 : PGROUNDUP (PGROUNDUP sz) = PGROUNDUP sz := pgroundup_of_aligned (pgroundup_mod sz) (by
      simp only [TRAPFRAME, TRAMPOLINE, MAXVA, PGSIZE] at hs
      omega)
    have e4 : PGROUNDUP (PGROUNDUP newsz) = PGROUNDUP newsz := pgroundup_of_aligned (pgroundup_mod newsz) (by
      simp only [TRAPFRAME, TRAMPOLINE, MAXVA, PGSIZE] at hs
      omega)
    unfold deallocN
    rw [if_neg (by omega : ¬ newsz ≥ sz), e3, e4]
    by_cases hlt : PGROUNDUP newsz < PGROUNDUP sz
    · rw [if_pos hlt, if_neg (by omega)]
    · rw [if_neg hlt, if_pos (by omega)]
  rw [h1, deallocN_aligned (pgroundup_mod sz) (pgroundup_mod newsz) (by omega) (by
    simp only [TRAPFRAME, TRAMPOLINE, MAXVA, PGSIZE] at hs ⊢
    omega)]

theorem Alive.uvmdealloc (h : Alive H B s t sz k) (newsz : Nat) : ∃ r s' k', uvmdealloc A t sz newsz s = .ok (r, s') ∧
    Alive H B s' t r k' := by
  by_cases hge : newsz ≥ sz
  · exact ⟨sz, s, k, by unfold Vm.uvmdealloc; rw [if_pos hge], h⟩
  · have hs := h.sized.small
    have e1 := pgroundup_small hs
    have e2 := pgroundup_small (n := newsz) (by omega)
    have hn := deallocN_pages hs (Nat.not_le.mp hge)
    obtain ⟨s', k', e, h'⟩ := h.unmap (n := deallocN sz newsz) newsz (by omega) rfl (by omega)
    have hmod := pgroundup_mod newsz
    rw [Nat.div_mul_cancel (Nat.dvd_of_mod_eq_zero hmod)] at e
    refine ⟨newsz, s', k', ?_, h'⟩
    rw [uvmdealloc_eq, if_neg hge, e, Except.map]

theorem clear_mkpte {p perm : Nat} (hp : IsPage p) (hperm : perm < 1024) :
    clear (mkpte p perm) PTE_U = mkpte p (clear perm PTE_U) := by
  have hlt : clear perm PTE_U < 1024 := Nat.lt_of_le_of_lt (clear_le _ _) hperm
  apply Nat.eq_of_testBit_eq
  intro i
  have hu : PTE_U.testBit i = decide (4 = i) := by rw [show PTE_U = 2 ^ 4 from rfl, Nat.testBit_two_pow]
  by_cases hi : i < 10
  · rw [testBit_clear, mkpte_testBit hperm hi, mkpte_testBit hlt hi, testBit_clear, hu]
    by_cases e : 4 = i
    · subst e
      simp [show Nat.testBit 1 4 = false by decide]
    · simp [e, show i < 64 by omega]
  · -- the address is above the flags
    have high : ∀ {x}, x < 1024 → (mkpte p x).testBit i = (PA2PTE p).testBit i := fun {x} hx => by
      have h1 : (x ||| PTE_V).testBit i = false :=
        Nat.testBit_lt_two_pow (Nat.lt_of_lt_of_le (flags_lt hx)
          (Nat.pow_le_pow_right (n := 2) (by decide) (show 10 ≤ i by omega)))
      rw [mkpte, Nat.or_assoc, Nat.testBit_or, h1, Bool.or_false]
    rw [testBit_clear, high hlt, high hperm, hu, decide_eq_false (by omega : ¬ 4 = i), Bool.xor_false]
    by_cases h64 : i < 64
    · simp [h64]
    · have h1 : (PA2PTE p).testBit i = false := by
        refine Nat.testBit_lt_two_pow (Nat.lt_of_lt_of_le (m := 2 ^ 64) ?_
          (Nat.pow_le_pow_right (by decide) (by omega)))
        have := hp.2.2
        unfold PA2PTE
        omega
      rw [h1, Bool.false_and]

theorem clear_rwx {perm : Nat} (h : perm &&& RWX ≠ 0) : clear perm PTE_U &&& RWX ≠ 0 := by
  have hm : ((2 ^ 64 - 1) ^^^ PTE_U) &&& RWX = RWX := by decide
  rwa [clear, Nat.and_assoc, hm]

theorem Alive.uvmclear (h : Alive H B s t sz k) {va : Nat} (hva : va < PGROUNDUP sz) :
    ∃ s' p perm, uvmclear A t va s = .ok s' ∧ Alive H B s' t sz k ∧
    SameOutside H.page s.mem s'.mem ∧ perm < 1024 ∧ lookup s.mem t (va / 4096) = some (mkpte p perm) ∧
    ∀ v < VPN, lookup s'.mem t v = if v = va / 4096 then some (mkpte p (clear perm PTE_U)) else lookup s.mem t v := by
  have ht : t ∈ [t] := by simp
  have hpages := h.sized.pages
  have hmod := pgroundup_mod sz
  have hpage : va / 4096 < PGROUNDUP sz / 4096 := by omega
  have hmax : va < MAXVA := by
    simp only [TRAPFRAME, TRAMPOLINE, MAXVA, PGSIZE] at hpages ⊢
    omega
  have hv := vpn_of_lt hmax
  obtain ⟨p, perm, hl, hp, hb, hperm, hrwx⟩ := h.sized.user _ hpage
  obtain ⟨hleaf, hvb⟩ := lookup_some.mp hl
  obtain ⟨q, hq, hs, hw⟩ := h.inv.tab.slot_valid ht hv (by rwa [hleaf])
  obtain ⟨_, _, _, hd, -⟩ := h.inv.tab.leaf_valid ht hv (by rwa [hleaf])
  have hlt : clear perm PTE_U < 1024 := Nat.lt_of_le_of_lt (clear_le _ _) hperm
  have hfl : PTE_FLAGS (mkpte p (clear perm PTE_U)) ≠ PTE_V := flags_of_rwx (mkpte_rwx hlt (clear_rwx hrwx))
  unfold PTE_FLAGS at hfl
  rw [mkpte_mod hlt] at hfl
  rw [hleaf] at hw hd
  obtain ⟨h1, lf⟩ := h.inv.reflag ht hv hq hl (hd.resolve_right (by rwa [pte2pa_mkpte hp hperm])) hlt hfl
  rw [pte2pa_mkpte hp hperm] at h1 lf
  have hlk : ∀ v < VPN, lookup (s.mem.storeLE (q + 8 * (va / 4096 % 512)) 8 (mkpte p (clear perm PTE_U))) t v =
      if v = va / 4096 then some (mkpte p (clear perm PTE_U)) else lookup s.mem t v := fun v hv' => by
    unfold lookup
    rw [lf t ht v hv']
    by_cases e : v = va / 4096
    · simp [e, vbit_mkpte hlt]
    · simp [e]
  refine ⟨_, p, perm, ?_, ⟨h1, ⟨h.sized.small, fun v hv' => ?_, fun v hv' => ?_, fun v hv' h2 h3 => ?_⟩, h.held⟩,
    h.inv.store_outside hq (Nat.mod_lt _ (by decide)), hperm, hl, hlk⟩
  · simp only [Vm.uvmclear, walk_false hmax, hs, bind, Except.bind]
    rw [hw, clear_mkpte hp hperm]
  · rw [hlk v (lt_vpn (by simp only [TRAPFRAME, TRAMPOLINE, MAXVA, PGSIZE] at hpages ⊢; omega))]
    by_cases e : v = va / 4096
    · exact ⟨p, clear perm PTE_U, by rw [if_pos e], hp, hb, hlt, clear_rwx hrwx⟩
    · rw [if_neg e]
      exact h.sized.user v hv'
  · have h2 := lentPage_bounds hv'
    rw [hlk v (lt_vpn h2.2), if_neg (by omega)]
    exact h.sized.lent v hv'
  · rw [hlk v hv', if_neg (by omega)]
    exact h.sized.none v hv' h2 h3

/-! ## uvmcopy from elsewhere -/

open Plain (tableAt tableAt_frame leaf_tableAt slotFrom_tableAt)

/-- A table outside the pages `P` that maps the pages below `sz`, also outside. -/
structure Foreign (P : Nat → Prop) (m : Mem) (old sz : Nat) : Prop where
  small : sz ≤ TRAPFRAME
  table : ∀ d ≤ 2, ∀ i q, tableAt m old d i = some q → IsPage q ∧ ¬ P q
  user : ∀ v < PGROUNDUP sz / 4096, ∃ w, lookup m old v = some w ∧ ¬ P (PTE2PA w) ∧ w &&& RWX ≠ 0

variable {s0 : Mach κ} {k0 : Nat → Kind} {old szo : Nat}

/-- The entries of the other table are where they were. -/
theorem Foreign.slot {P : Nat → Prop} (h : Foreign P s0.mem old szo) (hs : SameOutside P s0.mem s.mem) {v w : Nat}
    (hv : v < VPN)
    (hw : lookup s0.mem old v = some w) : ∃ a, slotFrom s.mem v 2 old = some a ∧ s.mem.loadLE a 8 = w := by
  obtain ⟨rfl, hvb⟩ := lookup_some.mp hw
  have ht : tableAt s.mem old 2 (v / 512) = tableAt s0.mem old 2 (v / 512) :=
    tableAt_frame (fun d hd i q hq => hs.agree (h.table d (by omega) i q hq).1.1 (h.table d (by omega) i q hq).2) 2
      (Nat.le_refl _) _
  rw [slotFrom_tableAt hv, ht]
  rw [leaf_tableAt hv] at hvb ⊢
  cases hq : tableAt s0.mem old 2 (v / 512) with
  | none => simp [hq, vbit_zero] at hvb
  | some q =>
    have hp := h.table 2 (Nat.le_refl _) _ q hq
    exact ⟨_, rfl, pte_agree (hs.agree hp.1.1 hp.2) (Nat.mod_lt _ (by decide))⟩

/-- The flags and bytes of the copy. -/
def copyOf (m : Mem) (old va : Nat) : UInt8 := m (PTE2PA (leaf m old (va / 4096)) + va % 4096)

/-- Taking back the first `c` pages. -/
theorem Grown.takeback {c : Nat} {perm : Nat → Nat} {f : Nat → UInt8}
    (g : Grown B live s0 k0 t (InRange 0 c) perm f s k) (h : VmInv H B s live k)
    (ht : t ∈ live) (hc : c ≤ MAXVA / 4096) (hempty : ∀ v < c, Vm.lookup s0.mem t v = none) :
    ∃ s' k', uvmunmap A t 0 c true s = .ok s' ∧ VmInv H B s' live k' ∧ Kept live s0 k0 s' k' := by
  have hin : ∀ v < c, InRange 0 c v := fun v hv => ⟨Nat.zero_le _, by omega⟩
  have hown : OwnRange B s.mem t (0 / 4096) c := fun v _ hr w hw => by
    obtain ⟨p, hp, hb, hl⟩ := g.here v (by simpa using hr)
    rw [hl] at hw
    obtain rfl := Option.some.inj hw
    rwa [pte2pa_mkpte hp (g.small v (by simpa using hr))]
  rw [uvmunmap_zero t c s hc]
  rcases unmapLoop_spec (A := A) ht c 0 s k rfl h hown with ⟨-, s', k', e, h', hcl, -⟩ | ⟨⟨i, hi, hb⟩, -⟩
  · exact ⟨s', k', e, h', g.cleared hcl (fun v hv => by simpa using hv) fun v _ hr =>
      hempty v (by simpa [InRange] using hr)⟩
  · have hr := hin i hi
    obtain ⟨p, -, -, hl⟩ := g.here i hr
    refine absurd ⟨?_, Or.inl ?_⟩ hb
    · simpa using (g.fresh i hr).1
    · simp [hl]

theorem rwx_flags {w : Nat} (h : w &&& RWX ≠ 0) : PTE_FLAGS w &&& RWX ≠ 0 := by
  intro e
  apply h
  apply Nat.eq_of_testBit_eq
  intro i
  have h1 := congrArg (fun x => x.testBit i) e
  simp only [Nat.testBit_and, Nat.zero_testBit] at h1 ⊢
  by_cases hi : i < 10
  · rwa [PTE_FLAGS, testBit_mod hi] at h1
  · have h2 : RWX.testBit i = false := Nat.testBit_lt_two_pow
      (Nat.lt_of_lt_of_le (by decide : RWX < 2 ^ 10) (Nat.pow_le_pow_right (by decide) (by omega)))
    rw [h2, Bool.and_false]

theorem uvmcopyLoop_foreign (s0 : Mach κ) (k0 : Nat → Kind) (hF : Foreign H.page s0.mem old szo) (ht : t ∈ live) :
    ∀ n c (s : Mach κ) k, c + n = PGROUNDUP szo / 4096 →
    Grown B live s0 k0 t (InRange 0 c) (copyPerm s0.mem old) (copyOf s0.mem old) s k → VmInv H B s live k →
      SameOutside H.page s0.mem s.mem →
    (∀ v < PGROUNDUP szo / 4096, lookup s0.mem t v = none) →
    (∃ s' k', uvmcopyLoop A old t n (c * 4096) s = .ok (0, s') ∧ VmInv H B s' live k' ∧
        Grown B live s0 k0 t (InRange 0 (PGROUNDUP szo / 4096)) (copyPerm s0.mem old) (copyOf s0.mem old) s' k') ∨
      ∃ s' k', uvmcopyLoop A old t n (c * 4096) s = .ok (-1, s') ∧ VmInv H B s' live k' ∧ Kept live s0 k0 s' k' := by
  have hmax : PGROUNDUP szo / 4096 ≤ MAXVA / 4096 := by
    have h1 := hF.small
    rw [pgroundup_small h1]
    simp only [TRAPFRAME, TRAMPOLINE, MAXVA, PGSIZE] at h1 ⊢
    omega
  intro n
  induction n with
  | zero =>
    intro c s k hc g h _ _
    obtain rfl : c = PGROUNDUP szo / 4096 := by omega
    exact Or.inl ⟨s, k, rfl, h, g⟩
  | succ n ih =>
    intro c s k hc g h hs hempty
    have hlt : c < PGROUNDUP szo / 4096 := by omega
    have hpage : c * 4096 / 4096 = c := by omega
    have hnext : c * 4096 + PGSIZE = (c + 1) * 4096 := by unfold PGSIZE; omega
    have hcm : c < MAXVA / 4096 := by omega
    have hva : c * 4096 < MAXVA := by
      simp only [MAXVA] at hcm ⊢
      omega
    have hv := lt_vpn hcm
    obtain ⟨w, hw, hwp, hrwx⟩ := hF.user c hlt
    obtain ⟨hleaf, hvb⟩ := lookup_some.mp hw
    obtain ⟨a, hslot, ha⟩ := hF.slot hs hv hw
    have hwalk : walk A old (c * 4096) false s = .ok (some a, s) := by rw [walk_false hva, hpage, hslot]
    have hci : c * 4096 / PGSIZE = c := hpage
    have hn : lookup s.mem t (c * 4096 / 4096) = none := by
      rw [hpage, g.lookup t ht c hv fun e => by have := e.2.2; omega]
      exact hempty c hlt
    have hflag : PTE_FLAGS w ||| PTE_V ≠ PTE_V := by
      rw [flags_or_v hvb]
      exact flags_of_rwx hrwx
    -- out of memory: what was copied so far is taken back
    have back : ∀ s1 k1, VmInv H B s1 live k1 → Kept live s k s1 k1 →
        uvmcopyLoop A old t (n + 1) (c * 4096) s = (uvmunmap A t 0 c true s1).map (fun s => (-1, s)) →
        ∃ s' k', uvmcopyLoop A old t (n + 1) (c * 4096) s = .ok (-1, s') ∧ VmInv H B s' live k' ∧
          Kept live s0 k0 s' k' := by
      intro s1 k1 h1 kp hrun
      obtain ⟨s', k', e', h', kp'⟩ := (g.kept ht kp).takeback h1 ht (by omega) fun v hv' => hempty v (by omega)
      exact ⟨s', k', by rw [hrun, e']; rfl, h', kp'⟩
    rcases hk : A.kalloc s with ⟨_ | p, s1⟩
    · obtain ⟨h1, -, -, -⟩ := h.kalloc_none hk
      refine Or.inr (back s1 k h1 (kept_kalloc_none h hk) ?_)
      rw [uvmcopyLoop_full hwalk ha hvb hk, hci]
    · obtain ⟨hfree, hp, -, -⟩ := h.kalloc_some hk
      have hpne : PTE2PA w ≠ p := fun e => by
        rw [e] at hwp
        exact hwp (h.page_of (by rw [hfree]; simp))
      have hm := move_off s1.mem (PTE2PA w) hp.1
      rcases kalloc_map h ht (by omega : c * 4096 % 4096 = 0) hva hn (flags_small w) hflag hk hm with
        ⟨s2, s3, k3, e2, e3, h3, kp, -⟩ | ⟨s2, k2, e2, h2, fl, -⟩
      · refine Or.inr (back s3 k3 h3 kp ?_)
        rw [uvmcopyLoop_page hwalk ha hvb hk e2, if_pos (by decide), e3, hci]
        rfl
      · have hout :=
          (kalloc_map_outside h ht (by omega : c * 4096 % 4096 = 0) hva hn (flags_small w) hflag hk hm e2).1
        rw [hpage] at fl
        rw [uvmcopyLoop_page hwalk ha hvb hk e2, if_neg (by decide), hnext]
        refine ih (c + 1) s2 k2 (by omega) ?_ h2 (fun x hx => (hout x hx).trans (hs x hx)) hempty
        refine g.filled ht fl hcm (hpage ▸ hn) (fun hr => by have := hr.2; omega)
          (fun v' => by unfold InRange; omega) ?_ (flags_small w) fun va hva' => ?_
        · rw [copyPerm, hleaf]
        · have hsame : s1.mem (PTE2PA w + va % 4096) = s.mem (PTE2PA w + va % 4096) := by
            rw [(H.kalloc_some h.alloc hk).2.2.1]
            exact set_off s.mem 5 hp.1 _ (by rwa [pageOf_add (pte2pa_mod _) (Nat.mod_lt _ (by decide))])
          have hext := hs (PTE2PA w + va % 4096) (by rwa [pageOf_add (pte2pa_mod _) (Nat.mod_lt _ (by decide))])
          rw [Mem.move_in _ _ (by omega) (by unfold PGSIZE; omega), Nat.add_sub_cancel_left, hsame, hext, copyOf,
            hva', hleaf]

/-- uvmcopy into a space of size 0. -/
theorem Alive.uvmcopy (h : Alive H B s t 0 k) (hF : Foreign H.page s.mem old szo) :
    ∃ r s' k', uvmcopy A old t szo s = .ok (r, s') ∧ Alive H B s' t (if r < 0 then 0 else szo) k' := by
  have ht : t ∈ [t] := by simp
  have hsmall := hF.small
  have hpages : PGROUNDUP szo / 4096 ≤ TRAPFRAME / 4096 := by
    rw [pgroundup_small hsmall]
    simp only [TRAPFRAME, TRAMPOLINE, MAXVA, PGSIZE] at hsmall ⊢
    omega
  have hn : (szo + PGSIZE - 1) / PGSIZE = PGROUNDUP szo / 4096 := by
    rw [pgroundup_small hsmall]
    simp only [PGSIZE]
    omega
  have h0 : PGROUNDUP 0 / 4096 = 0 := by decide
  have hempty : ∀ v < PGROUNDUP szo / 4096, lookup s.mem t v = none := fun v hv =>
    h.sized.none v (lt_vpn (by simp only [TRAPFRAME, TRAMPOLINE, MAXVA, PGSIZE] at hpages ⊢; omega)) (by omega)
      fun hl => by
      have := (lentPage_bounds hl).1
      omega
  unfold Vm.uvmcopy
  rw [hn]
  rcases uvmcopyLoop_foreign s k hF ht (PGROUNDUP szo / 4096) 0 s k (by omega)
    (.refl B [t] s k t (fun v hv => by unfold InRange at hv; omega) _ _) h.inv (fun _ _ => rfl) hempty with
      ⟨s', k', e, h', g⟩ | ⟨s', k', e, h', kp⟩
  · refine ⟨0, s', k', by simpa using e, h', ?_, fun r hr => h.held r ((g.held r).mp hr)⟩
    rw [if_neg (by decide)]
    refine h.sized.grown (n := PGROUNDUP szo / 4096) ht (by rw [h0]; exact g) (fun v hv => ?_) (Nat.zero_le _) ?_
    · obtain ⟨w, hw, -, hrwx⟩ := hF.user v (by rw [h0] at hv; unfold InRange at hv; omega)
      rw [copyPerm, (lookup_some.mp hw).1]
      exact rwx_flags hrwx
    · rw [← hn]
      rfl
  · exact ⟨-1, s', k', by simpa using e, by simpa using h.kept h' kp⟩

/-! ## From proc_pagetable to proc_freepagetable -/

variable (A)

/-- With the trampoline's address and p->trapframe. -/
def proc_pagetable (trampoline trapframe : Nat) (s : Mach κ) : Except String (Option Nat × Mach κ) :=
  match uvmcreate A s with
  | (none, s) => .ok (none, s)
  | (some pagetable, s) => do
    let (r, s) ← mappages A pagetable TRAMPOLINE PGSIZE trampoline (PTE_R ||| PTE_X) s
    if r < 0 then do
      let s ← uvmfree A pagetable 0 s
      .ok (none, s)
    else do
      let (r, s) ← mappages A pagetable TRAPFRAME PGSIZE trapframe (PTE_R ||| PTE_W) s
      if r < 0 then do
        let s ← uvmunmap A pagetable TRAMPOLINE 1 false s
        let s ← uvmfree A pagetable 0 s
        .ok (none, s)
      else .ok (some pagetable, s)

def proc_freepagetable (pagetable sz : Nat) (s : Mach κ) : Except String (Mach κ) := do
  let s ← uvmunmap A pagetable TRAMPOLINE 1 false s
  let s ← uvmunmap A pagetable TRAPFRAME 1 false s
  uvmfree A pagetable sz s

variable {A}

/-- The space is gone, and nothing is kept of it. -/
structure Gone (H : AllocSpec A) (B : Nat → Prop) (s : Mach κ) (k : Nat → Kind) : Prop where
  inv : VmInv H B s [] k
  held : ∀ r, k r ≠ .held

/-- Without a table every page is free. -/
theorem Gone.free (h : Gone H B s k) {p : Nat} (hp : H.page p) : k p = .free := by
  cases hk : k p with
  | free => rfl
  | ext => exact absurd hp ((h.inv.ext p).mp hk)
  | held => exact absurd hk (h.held p)
  | node t l i => exact absurd (h.inv.tab.up p t l i hk).1 (by simp)
  | data v => exact absurd (h.inv.used p v hk) (by simp)

/-- uvmfree of a table with `sz` bytes of user memory and nothing else. -/
theorem VmInv.free_bare (h : VmInv H B s [t] k) (sz : Nat) (hheld : ∀ r, k r ≠ .held) (hsz : sz ≤ TRAPFRAME)
    (huser : ∀ v < PGROUNDUP sz / 4096, ∃ p perm, lookup s.mem t v = some (mkpte p perm) ∧ IsPage p ∧ ¬ B p ∧
      perm < 1024 ∧ perm &&& RWX ≠ 0)
    (hnone : ∀ v < VPN, PGROUNDUP sz / 4096 ≤ v → lookup s.mem t v = none) :
    ∃ s' k', uvmfree A t sz s = .ok s' ∧ Gone H B s' k' ∧ SameOutside H.page s.mem s'.mem := by
  have ht : t ∈ [t] := by simp
  have hmax : ∀ v < PGROUNDUP sz / 4096, v < MAXVA / 4096 := fun v hv => by
    rw [pgroundup_small hsz] at hv
    simp only [TRAPFRAME, TRAMPOLINE, MAXVA, PGSIZE] at hsz ⊢
    omega
  have hn : (if sz > 0 then PGROUNDUP sz / 4096 else 0) = PGROUNDUP sz / 4096 := by
    split
    · rfl
    · rename_i h0
      obtain rfl : sz = 0 := by omega
      rfl
  have hx : RwxLeaves s.mem t := fun v hv w hw => by
    by_cases hlt : v < PGROUNDUP sz / 4096
    · obtain ⟨p, perm, hl, -, -, hperm, hrwx⟩ := huser v hlt
      rw [hl] at hw
      obtain rfl := Option.some.inj hw
      exact mkpte_rwx hperm hrwx
    · rw [hnone v hv (by omega)] at hw
      cases hw
  have hown : OwnRange B s.mem t 0 (PGROUNDUP sz / 4096) := fun v _ hr w hw => by
    obtain ⟨p, perm, hl, hp, hb, hperm, -⟩ := huser v (by unfold InRange at hr; omega)
    rw [hl] at hw
    obtain rfl := Option.some.inj hw
    rwa [pte2pa_mkpte hp hperm]
  have hspec := uvmfree_spec (A := A) h sz ht hx hown
  rw [hn] at hspec
  rcases hspec with ⟨-, s', k', e, h', kp, -⟩ | ⟨hfits, -⟩
  · exact ⟨s', k', e, ⟨by simpa using h', fun r hr => hheld r ((kp.held r).mp hr)⟩, uvmfree_outside h ht hx hown e⟩
  · refine absurd ⟨fun v hv => ⟨hmax v hv, Or.inl ?_⟩, fun v hv h1 => hnone v hv h1⟩ hfits
    obtain ⟨p, perm, hl, -⟩ := huser v hv
    simp [hl]

theorem trampoline_page : TRAMPOLINE % 4096 = 0 ∧ TRAMPOLINE < MAXVA ∧ TRAMPOLINE / 4096 < VPN := by decide

theorem trapframe_page : TRAPFRAME % 4096 = 0 ∧ TRAPFRAME < MAXVA ∧ TRAPFRAME / 4096 < VPN ∧
    TRAPFRAME / 4096 ≠ TRAMPOLINE / 4096 := by decide

theorem no_user_pages {m : Mem} (v : Nat) (hv : v < PGROUNDUP 0 / 4096) :
    ∃ p perm, lookup m t v = some (mkpte p perm) ∧ IsPage p ∧ ¬ B p ∧ perm < 1024 ∧ perm &&& RWX ≠ 0 :=
  absurd hv (Nat.not_lt_zero v)

/-- proc_pagetable makes a space of size 0, or leaves nothing. -/
theorem Gone.proc_pagetable (h : Gone H B s k) {trampoline trapframe : Nat} (h1 : IsPage trampoline ∧ B trampoline)
    (h2 : IsPage trapframe ∧ B trapframe) :
    (∃ s' k', proc_pagetable A trampoline trapframe s = .ok (none, s') ∧ Gone H B s' k' ∧
      SameOutside H.page s.mem s'.mem) ∨
      ∃ t s' k', proc_pagetable A trampoline trapframe s = .ok (some t, s') ∧ Alive H B s' t 0 k' ∧
        SameOutside H.page s.mem s'.mem := by
  obtain ⟨a1, a2, a3⟩ := trampoline_page
  obtain ⟨b1, b2, b3, b4⟩ := trapframe_page
  unfold Vm.proc_pagetable
  rcases uvmcreate_spec (A := A) h.inv with ⟨s1, e, hi, kp, -⟩ | ⟨t, s1, k1, e, -, hi, kp, hempty, -⟩
  · exact Or.inl ⟨s1, k, by rw [e], ⟨hi, h.held⟩, uvmcreate_outside h.inv e⟩
  have o1 := uvmcreate_outside h.inv e
  have hheld1 : ∀ r, k1 r ≠ .held := fun r hr => h.held r ((kp.held r).mp hr)
  rw [List.nil_append] at hi
  have ht : t ∈ [t] := by simp
  rw [e]
  dsimp only
  rcases mappages_lent (A := A) hi ht a1 a2 (hempty _ a3) h1.1 h1.2 (show PTE_R ||| PTE_X < 1024 by decide)
    (by decide) with
    ⟨s2, k2, e2, hi2, hl2, hk2, o2⟩ | ⟨s2, k2, e2, hi2, en2, o2⟩
  · obtain ⟨s3, k3, e3, hg, o3⟩ := hi2.free_bare (A := A) 0 (fun r hr => hheld1 r ((hk2 r).mp hr))
      (Nat.zero_le _) no_user_pages
      fun v hv _ => (hl2 v hv).trans (hempty v hv)
    exact Or.inl ⟨s3, k3, by rw [e2]; simp [bind, Except.bind, e3], hg, o1.trans (o2.trans o3)⟩
  have hheld2 : ∀ r, k2 r ≠ .held := fun r hr => hheld1 r ((en2.held r).mp hr)
  have hl2 : ∀ v < VPN, v ≠ TRAMPOLINE / 4096 → lookup s2.mem t v = none := fun v hv hne => by
    rw [en2.lookup v hv, if_neg hne, hempty v hv]
  have htr2 : lookup s2.mem t (TRAMPOLINE / 4096) = some (mkpte trampoline (PTE_R ||| PTE_X)) := by
    rw [en2.lookup _ a3, if_pos rfl]
  rw [e2]
  rcases mappages_lent (A := A) hi2 ht b1 b2 (hl2 _ b3 b4) h2.1 h2.2 (show PTE_R ||| PTE_W < 1024 by decide)
    (by decide) with
    ⟨s3, k3, e3, hi3, hl3, hk3, o3⟩ | ⟨s3, k3, e3, hi3, en3, o3⟩
  · have htr3 := (hl3 _ a3).trans htr2
    obtain ⟨s4, e4, hi4, en4, o4⟩ := uvmunmap_lent (A := A) hi3 ht a1 a2 htr3
      (by rw [pte2pa_mkpte h1.1 (by decide)]; exact h1.2)
    obtain ⟨s5, k5, e5, hg, o5⟩ := hi4.free_bare (A := A) 0 (fun r hr => hheld2 r ((hk3 r).mp hr))
      (Nat.zero_le _) no_user_pages fun v hv _ => by
      rw [en4.lookup v hv]
      split
      · rfl
      · rename_i hne
        rw [hl3 v hv, hl2 v hv hne]
    exact Or.inl ⟨s5, k5, by simp [bind, Except.bind, e3, e4, e5], hg, o1.trans (o2.trans (o3.trans (o4.trans o5)))⟩
  · refine Or.inr ⟨t, s3, k3, by simp [bind, Except.bind, e3],
      ⟨hi3, ⟨Nat.zero_le _, no_user_pages, fun v hv => ?_, fun v hv _ hn => ?_⟩,
      fun r hr => hheld2 r ((en3.held r).mp hr)⟩, o1.trans (o2.trans o3)⟩
    · rcases hv with rfl | rfl
      · refine ⟨_, by rw [en3.lookup _ b3, if_pos rfl], ?_, mkpte_rwx (by decide) (by decide)⟩
        rw [pte2pa_mkpte h2.1 (by decide)]
        exact h2.2
      · refine ⟨_, by rw [en3.lookup _ a3, if_neg b4.symm, htr2], ?_, mkpte_rwx (by decide) (by decide)⟩
        rw [pte2pa_mkpte h1.1 (by decide)]
        exact h1.2
    · rw [en3.lookup v hv, if_neg fun e => hn (Or.inl e), hl2 v hv fun e => hn (Or.inr e)]

theorem Alive.proc_freepagetable (h : Alive H B s t sz k) : ∃ s' k', proc_freepagetable A t sz s = .ok s' ∧
    Gone H B s' k' ∧
    SameOutside H.page s.mem s'.mem := by
  have ht : t ∈ [t] := by simp
  obtain ⟨a1, a2, a3⟩ := trampoline_page
  obtain ⟨b1, b2, b3, b4⟩ := trapframe_page
  have hpages := h.sized.pages
  obtain ⟨w, hw, hb, -⟩ := h.sized.lent _ (Or.inr rfl)
  obtain ⟨w', hw', hb', -⟩ := h.sized.lent _ (Or.inl rfl)
  obtain ⟨s1, e1, hi1, en1, o1⟩ := uvmunmap_lent (A := A) h.inv ht a1 a2 hw hb
  obtain ⟨s2, e2, hi2, en2, o2⟩ := uvmunmap_lent (A := A) hi1 ht b1 b2
    (by rw [en1.lookup _ b3, if_neg b4]; exact hw') hb'
  have hlk : ∀ v < VPN, lookup s2.mem t v = if LentPage v then none else lookup s.mem t v := fun v hv => by
    rw [en2.lookup v hv, en1.lookup v hv]
    unfold LentPage
    by_cases e : v = TRAPFRAME / 4096 <;> by_cases e' : v = TRAMPOLINE / 4096 <;> simp [e, e']
  obtain ⟨s3, k3, e3, hg, o3⟩ := hi2.free_bare (A := A) sz h.held h.sized.small
    (fun v hv => by
      rw [hlk v (lt_vpn (by simp only [TRAPFRAME, TRAMPOLINE, MAXVA, PGSIZE] at hpages ⊢; omega)),
        if_neg fun hl => by have := (lentPage_bounds hl).1; omega]
      exact h.sized.user v hv)
    fun v hv h1 => by
      rw [hlk v hv]
      split
      · rfl
      · rename_i hn
        exact h.sized.none v hv h1 hn
  exact ⟨s3, k3, by simp only [Vm.proc_freepagetable, e1, e2, e3, bind, Except.bind], hg, o1.trans (o2.trans o3)⟩

end Xv6Labs.Vm
