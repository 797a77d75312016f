/-
  Xv6Labs.Cow.Undo — a fork that runs out of memory.

  fork makes the child's table (`uvmcreate`) and shares the parent's pages with it (`uvmcopy`).
  When kalloc has no page for one of the child's tables, uvmcopy unmaps what it has shared
  and answers -1, and freeproc gives the child's table back (`uvmfree`, with sz 0). The parent's
  own entries stay as uvmcopy left them: PTE_W is gone and PTE_COW is set.

  - `Later.canStore_iff`: a store goes through to a user page with PTE_W or PTE_COW.
  - `failed_fork_undone`: in a parent whose user pages all have one of the two, users and
    allocator cannot tell that there was a fork.
  - `failed_fork_keeps_tables`: until freeproc, the child's tables are counted.
-/

import Xv6Labs.Cow.Refcount
import Xv6Labs.Cow.Refine

namespace Xv6Labs.Cow

open Lib Vm Refcount

variable {L : Layout} {s s' s0 : Mach Kmem} {live : List Nat} {k k' k0 : Nat → Kind} {old new t : Nat}

/-! ## Stores -/

/-- Page `v` is the user's, and it is writable or marked PTE_COW. -/
def Granted (m : Mem) (t v : Nat) : Prop :=
  ∃ w, lookup m t v = some w ∧ w.testBit 4 = true ∧ (w.testBit 2 = true ∨ w.testBit 8 = true)

def Storable (m : Mem) (t va : Nat) : Prop := va < MAXVA ∧ Granted m t (va / 4096)

/-- walkcowaddr finds or makes a page for the store. -/
def CanStore (L : Layout) (t va : Nat) (m : Mach Kmem) : Prop := ∃ p m', walkcowaddr L t va m = .ok (p, m') ∧ p ≠ 0

/-- A machine with free memory in which table `t` is as in `mem`. -/
structure Later (L : Layout) (t : Nat) (mem : Mem) (m : Mach Kmem) : Prop where
  inv : ∃ live k, t ∈ live ∧ VmInv (spec256 L) NoLent m live k
  same : ∀ v < VPN, lookup m.mem t v = lookup mem t v
  memory : (kalloc m).1 ≠ none

theorem Later.canStore_iff {mem : Mem} {m : Mach Kmem} (h : Later L t mem m) (va : Nat) : CanStore L t va m ↔
    Storable mem t va := by
  obtain ⟨live, k, ht, hv⟩ := h.inv
  have hsame : va < MAXVA → lookup m.mem t (va / 4096) = lookup mem t (va / 4096) :=
    fun hva => h.same _ (vpn_of_lt hva)
  rcases walkcowaddr_spec hv ht va with ⟨hno, e⟩ | ⟨hva, w, hl, hU, hW, e⟩ | ⟨m', -, -, -, -, hnone⟩ |
    ⟨hva, w, p, m', k', hl, hU, e, hv', c, -, hC⟩
  · refine ⟨fun ⟨p, m', e', hp⟩ => ?_, fun ⟨hva, w, hl, hU, hb⟩ => absurd ⟨hU, hb⟩ (hno hva w ((hsame hva).trans hl))⟩
    rw [e] at e'
    cases e'
    exact absurd rfl hp
  · exact ⟨fun _ => ⟨hva, w, (hsame hva).symm.trans hl, hU, Or.inl hW⟩,
      fun _ => ⟨_, _, e, hv.nonNull ht _ (vpn_of_lt hva) w hl⟩⟩
  · exact absurd hnone h.memory
  · have hnew := c.lookup t ht _ (vpn_of_lt hva)
    rw [if_pos ⟨rfl, rfl⟩] at hnew
    have hp := hv'.nonNull ht _ (vpn_of_lt hva) _ hnew
    rw [pte2pa_mkpte c.page (ownFlags_lt w)] at hp
    exact ⟨fun _ => ⟨hva, w, (hsame hva).symm.trans hl, hU, Or.inr hC⟩, fun _ => ⟨p, m', e, hp⟩⟩

/-- The user pages of the table are writable or marked PTE_COW. -/
def Mixed (m : Mem) (t : Nat) : Prop :=
  ∀ v < VPN, ∀ w, lookup m t v = some w → w.testBit 4 = true → w.testBit 2 = true ∨ w.testBit 8 = true

/-- What uvmcopy leaves in the parent allows the same stores. -/
theorem storable_unshared {n : Nat} (u : Unshared live s k old new n s' k') (hmix : Mixed s.mem old) (ht : t ∈ live)
    (va : Nat) : Storable s'.mem t va ↔ Storable s.mem t va := by
  refine and_congr_right fun hva => ?_
  have hv := vpn_of_lt hva
  unfold Granted
  by_cases hto : t = old
  · subst hto
    rcases u.parent _ hv with e | ⟨-, w, e1, e2⟩
    · rw [e]
    · have hbits : ∀ i < 10, (cowPte w).testBit i = (w.testBit i && i != 2 || i == 8) :=
        fun i hi => cowPte_testBit w hi (lookup_some.mp e1).2
      rw [e1, e2]
      constructor
      · rintro ⟨w', e', hU, -⟩
        cases e'
        rw [hbits 4 (by decide)] at hU
        have hU : w.testBit 4 = true := by simpa using hU
        exact ⟨w, rfl, hU, hmix _ hv w e1 hU⟩
      · rintro ⟨w', e', hU, -⟩
        cases e'
        refine ⟨_, rfl, ?_, Or.inr ?_⟩
        · rw [hbits 4 (by decide), hU]
          rfl
        · rw [hbits 8 (by decide)]
          simp
  · rw [u.lookup t ht hto _ hv]

/-! ## Counts -/

/-- The page is in the free list. -/
def IsFree (s : Mach Kmem) (p : Nat) : Prop := ∃ fl, Chain s.mem s.kmem.freelist fl ∧ 0 ∉ fl ∧ p ∈ fl

theorem isFree_iff (h : VmInv (spec256 L) NoLent s live k) {p : Nat} (hp : Page L p) : IsFree s p ↔
    own s.mem live k p = 0 := by
  have ha : Inv L 256 s (own s.mem live k) := h.alloc
  obtain ⟨fl, hc, -, hmem⟩ := ha.list
  have hz : ∀ q ∈ fl, q ≠ 0 := fun q hq => by
    have := ((hmem q).mp hq).1.isPage.2.1
    omega
  constructor
  · rintro ⟨fl', hc', h0, hin⟩
    rw [hc'.unique hc (fun q hq e => h0 (e ▸ hq)) hz] at hin
    exact ((hmem p).mp hin).2
  · exact fun h0 => ⟨fl, hc, fun h => hz 0 h rfl, (hmem p).mpr ⟨hp, h0⟩⟩

theorem ref_cnt_eq (h : VmInv (spec256 L) NoLent s live k) {p : Nat} (hp : Page L p) :
    s.kmem.ref_cnt (cowIndex p) = UInt8.ofNat (own s.mem live k p) := by
  have ha : Inv L 256 s (own s.mem live k) := h.alloc
  exact ha.count p hp

theorem countP_maps {m m' : Mem} {v p : Nat}
    (h : ∀ t ∈ live, (lookup m' t v).map PTE2PA = (lookup m t v).map PTE2PA) :
    live.countP (maps m' v p) = live.countP (maps m v p) := by
  refine List.countP_congr fun t ht => ?_
  have hany : ∀ m : Mem, maps m v p t = ((lookup m t v).map PTE2PA).any (· == p) := fun m => by
    rw [maps_lookup, Option.any_map]
  rw [hany, hany, h t ht]

/-! ## The failed fork -/

/-- `s0` is before the child's table `new` was made, `s` before uvmcopy and `s'` after it. -/
structure Undone (L : Layout) (live : List Nat) (old new : Nat) (s0 s s' : Mach Kmem) : Prop where
  leafless : ∀ v < VPN, lookup s'.mem new v = none
  counts : ∀ p, Page L p → s'.kmem.ref_cnt (cowIndex p) = s.kmem.ref_cnt (cowIndex p) ∨
    (∃ l, TablePage s'.mem new l p) ∧ s.kmem.ref_cnt (cowIndex p) = 0 ∧ s'.kmem.ref_cnt (cowIndex p) = 1
  freed : ∃ s'', uvmfree (lab L) new 0 s' = .ok s'' ∧
    ∀ p, Page L p → s''.kmem.ref_cnt (cowIndex p) = s0.kmem.ref_cnt (cowIndex p) ∧ (IsFree s'' p ↔ IsFree s0 p)
  bytes : ∀ t ∈ live, ∀ va, va / 4096 < VPN → byteAt s'.mem t va = byteAt s.mem t va
  rights : ∀ t ∈ live, ∀ v < VPN, (lookup s'.mem t v).map (fun w => (w.testBit 1, w.testBit 3, w.testBit 4)) =
    (lookup s.mem t v).map fun w => (w.testBit 1, w.testBit 3, w.testBit 4)
  stores : ∀ t ∈ live, ∀ m0 m, Later L t s.mem m0 → Later L t s'.mem m → ∀ va, CanStore L t va m ↔ CanStore L t va m0
  others : ∀ t ∈ live, t ≠ old → ∀ v < VPN, lookup s'.mem t v = lookup s.mem t v

theorem rights_cowPte {w : Nat} (hv : vbit w = true) :
    ((cowPte w).testBit 1, (cowPte w).testBit 3, (cowPte w).testBit 4) = (w.testBit 1, w.testBit 3, w.testBit 4) := by
  rw [cowPte_testBit w (by decide) hv, cowPte_testBit w (by decide) hv, cowPte_testBit w (by decide) hv]
  simp

/-- Giving the child's table back takes the kinds of the pages back to what they were. -/
theorem AddsTables.prune (h0 : VmInv (spec256 L) NoLent s0 live k0)
    (h' : VmInv (spec256 L) NoLent s' (live ++ [new]) k') (hnew : new ∉ live)
    (a : AddsTables new k0 k') : Vm.prune k' new 2 0 = k0 := by
  funext r
  rcases a r with e | ⟨hf, l, i, e⟩
  · cases hr : k0 r with
    | node t l i =>
      have htl := (h0.tab.up r t l i hr).1
      have hk := e.trans hr
      rw [prune_of_not fun hs => hnew (by rw [← (h'.tab.sub_root hk).mp hs]; exact htl), hk]
    | _ =>
      rw [prune_of_not (by rw [e, hr]; exact id), e, hr]
  · rw [hf]
    exact if_pos ((h'.tab.sub_root e).mpr rfl)

/-- Where nobody's leaf entries map other pages, the owners are the same. -/
theorem own_of_pages {m m' : Mem} (h : VmInv (spec256 L) NoLent s live k)
    (hm : ∀ t ∈ live, ∀ v < VPN, (lookup m' t v).map PTE2PA = (lookup m t v).map PTE2PA)
    (p : Nat) : own m' live k p = own m live k p := by
  unfold own
  cases hp : k p with
  | data v => exact countP_maps fun t ht => hm t ht v (h.vpn p v hp)
  | _ => rfl

theorem failed_fork_undone (h : VmInv (spec256 L) NoLent s0 live k) (hlen : live.length < 256) (hold : old ∈ live)
    (hmix : Mixed s0.mem old) (ec : uvmcreate (lab L) s0 = (some new, s)) (sz : Nat) :
    ((∀ v < (sz + PGSIZE - 1) / PGSIZE, v < MAXVA / 4096 ∧ (lookup s0.mem old v).isSome = true) → ∃ r s',
      uvmcopy L old new sz s = .ok (r, s')) ∧
      ∀ s', uvmcopy L old new sz s = .ok (-1, s') → Undone L live old new s0 s s' := by
  obtain ⟨k1, hnl, v1, kp, hempty, a1⟩ := uvmcreate_some h ec
  have hmem : ∀ t ∈ live, t ∈ live ++ [new] := fun t ht => List.mem_append_left _ ht
  have hnew : new ∈ live ++ [new] := List.mem_append_right _ (List.mem_singleton_self _)
  have hlen1 : (live ++ [new]).length ≤ 256 := by
    rw [List.length_append, List.length_singleton]
    omega
  have hout := uvmcopy_outcome v1 hlen1 (hmem old hold) hnew sz
  unfold Outcome at hout
  rw [Nat.zero_mul, ← uvmcopy] at hout
  constructor
  · intro hsz
    rcases hout with ⟨s', -, e, -⟩ | ⟨s', -, e, -⟩ | ⟨⟨i, hi, hb⟩, -⟩
    · exact ⟨0, s', e⟩
    · exact ⟨-1, s', e⟩
    · rw [Nat.zero_add] at hb
      obtain ⟨hva, hm⟩ := hsz i hi
      have hi : i < VPN := by
        unfold MAXVA at hva
        unfold VPN
        omega
      exact absurd ⟨⟨hva, hempty i hi⟩, by rw [kp.lookup old hold i hi]; exact hm⟩ hb
  intro s' e
  rcases hout with ⟨s2, -, e2, -⟩ | ⟨s2, k2, e2, v2, u, -⟩ | ⟨-, _, e2⟩
  · rw [e] at e2
    cases e2
  · rw [e] at e2
    cases e2
    have hleafless : ∀ v < VPN, lookup s'.mem new v = none := fun v hv => by
      rw [u.lookup new hnew (fun e => hnl (e ▸ hold)) v hv, hempty v hv]
    have hpages : ∀ t ∈ live ++ [new], ∀ v < VPN, (lookup s'.mem t v).map PTE2PA = (lookup s.mem t v).map PTE2PA :=
      fun t ht v hv =>
      pages_of_marked v1 (hmem old hold) hv (fun hto => u.lookup t ht hto v hv) ((u.parent v hv).imp_right And.right)
    have hmix1 : Mixed s.mem old := fun v hv w hw => hmix v hv w ((kp.lookup old hold v hv).symm.trans hw)
    refine ⟨hleafless, fun p hp => ?_, ?_, fun t ht => u.byteAt t (hmem t ht), fun t ht v hv => ?_,
      fun t ht m0 m l0 l va => ?_,
      fun t ht hto v hv => u.lookup t (hmem t ht) hto v hv⟩
    · rw [ref_cnt_eq v2 hp, ref_cnt_eq v1 hp]
      rcases u.tables p with ek | ⟨hf, l, i, ek⟩
      · refine Or.inl (congrArg UInt8.ofNat ?_)
        rw [← own_of_pages v1 hpages p, own, own, ek]
      · refine Or.inr ⟨⟨l, (tablePage_iff v2.tab hnew).mpr ⟨i, ek⟩⟩, ?_, ?_⟩
        · rw [own, hf]
          rfl
        · rw [own, ek]
          rfl
    · -- freewalk takes the kinds back to those of `s0`
      obtain ⟨s3, e3, v3, kp3, -⟩ := freewalk_bare v2 hnew hleafless
      have herase : (live ++ [new]).erase new = live := by
        rw [List.erase_append_right _ hnl, List.erase_cons_head, List.append_nil]
      rw [AddsTables.prune h v2 hnl (a1.trans u.tables), herase] at v3 kp3
      have hown : ∀ p, own s3.mem live k p = own s0.mem live k p := own_of_pages h fun t ht v hv => by
        rw [kp3.lookup t ht v hv, hpages t (hmem t ht) v hv, kp.lookup t ht v hv]
      refine ⟨s3, ?_, fun p hp => ⟨?_, ?_⟩⟩
      · rw [uvmfree_eq, if_neg (by decide)]
        exact e3
      · rw [ref_cnt_eq v3 hp, ref_cnt_eq h hp, hown]
      · rw [isFree_iff v3 hp, isFree_iff h hp, hown]
    · by_cases hto : t = old
      · rw [hto]
        rcases u.parent v hv with ek | ⟨-, w, ek, ek'⟩
        · rw [ek]
        · rw [ek, ek', Option.map_some, Option.map_some, rights_cowPte (lookup_some.mp ek).2]
      · rw [u.lookup t (hmem t ht) hto v hv]
    · rw [l.canStore_iff, l0.canStore_iff]
      exact storable_unshared u hmix1 (hmem t ht) va
  · rw [e] at e2
    cases e2

/-! ## Six pages -/

/-- The first table after kinit, grown from nothing: its leaves are those of uvmalloc. -/
theorem first_grown {m : Mem} {s1 s2 : Mach Kmem} {sz r : Nat} (e1 : kinit L (boot m) = .ok s1)
    (e2 : uvmcreate (lab L) s1 = (some t, s2)) (e3 : uvmalloc (lab L) t 0 sz s2 = .ok (r, s)) (hr : r ≠ 0) :
    ∃ k, VmInv (spec256 L) NoLent s [t] k ∧
      (∀ v < (sz + PGSIZE - 1) / PGSIZE, ∃ p, lookup s.mem t v = some (mkpte p userPerm)) ∧
      ∀ v < VPN, (sz + PGSIZE - 1) / PGSIZE ≤ v → lookup s.mem t v = none := by
  have ht : t ∈ [t] := List.mem_singleton_self t
  obtain ⟨s1', e1', -, hi⟩ := kinit_spec (L := L) 256 m (by decide) (by decide)
  rw [e1] at e1'
  obtain rfl := Except.ok.inj e1'
  rcases uvmcreate_spec (VmInv.init (H := spec256 L) hi) with ⟨s2', e2', -⟩ | ⟨t', s2', k2, e2', -, v2, -, hempty, -⟩
  · rw [e2] at e2'
    cases e2'
  rw [e2] at e2'
  cases e2'
  rcases uvmalloc_spec v2 ht 0 sz (Nat.zero_le _) with ⟨⟨x, e3'⟩, -⟩ | ⟨s3, k3, e3', v3, g, -⟩ | ⟨s3, k3, e3', -⟩
  · rw [e3] at e3'
    cases e3'
  · rw [e3] at e3'
    cases e3'
    have hrange : ∀ v, InRange (PGROUNDUP 0 / 4096) ((sz - PGROUNDUP 0 + PGSIZE - 1) / PGSIZE) v ↔
      v < (sz + PGSIZE - 1) / PGSIZE := fun v => by
      have h0 : PGROUNDUP 0 = 0 := by decide
      rw [h0, Nat.sub_zero]
      unfold InRange
      omega
    refine ⟨k3, v3, fun v hv => ?_, fun v hv hle => ?_⟩
    · obtain ⟨p, -, -, hl⟩ := g.here v ((hrange v).mpr hv)
      exact ⟨p, hl⟩
    · rw [g.lookup t ht v hv fun h => absurd ((hrange v).mp h.2) (by omega)]
      exact hempty v hv
  · rw [e3] at e3'
    cases e3'
    exact absurd rfl hr

def sixPages : Layout := ⟨KERNBASE, KERNBASE + 6 * 4096, by decide, by decide, by decide⟩

/-- A process with one page, which takes four pages, and a fork of it. -/
def forkSix : Option (Int × UInt8 × UInt8) :=
  match kinit sixPages (boot fun _ => 0) with
  | .error _ => none
  | .ok s =>
    match uvmcreate (lab sixPages) s with
    | (none, _) => none
    | (some t, s) =>
      match uvmalloc (lab sixPages) t 0 4096 s with
      | .error _ => none
      | .ok (r, s0) =>
        if r = 0 then none
        else
          match uvmcreate (lab sixPages) s0 with
          | (none, _) => none
          | (some new, s) =>
            match uvmcopy sixPages t new 4096 s with
            | .error _ => none
            | .ok (r, s') => some (r, s.kmem.ref_cnt 0, s'.kmem.ref_cnt 0)

theorem forkSix_fails : forkSix = some (-1, 0, 1) := by decide +kernel

theorem sixPages_fork : ∃ t s0 k new s s', VmInv (spec256 sixPages) NoLent s0 [t] k ∧ Mixed s0.mem t ∧
    uvmcreate (lab sixPages) s0 = (some new, s) ∧
    uvmcopy sixPages t new 4096 s = .ok (-1, s') ∧ s.kmem.ref_cnt 0 = 0 ∧ s'.kmem.ref_cnt 0 = 1 := by
  have hrun := forkSix_fails
  unfold forkSix at hrun
  split at hrun
  · cases hrun
  rename_i s1 e1
  split at hrun
  · cases hrun
  rename_i t s2 e2
  split at hrun
  · cases hrun
  rename_i r s0 e3
  split at hrun
  · cases hrun
  rename_i hr
  obtain ⟨k, hv, hin, hout⟩ := first_grown e1 e2 e3 hr
  have hmix : Mixed s0.mem t := fun v hv w hw _ => by
    by_cases hlt : v < (4096 + PGSIZE - 1) / PGSIZE
    · obtain ⟨p, hl⟩ := hin v hlt
      rw [hl] at hw
      cases hw
      exact Or.inl (by rw [mkpte_testBit (by decide) (by decide)]; decide)
    · rw [hout v hv (by omega)] at hw
      cases hw
  split at hrun
  · cases hrun
  rename_i new s e4
  split at hrun
  · cases hrun
  rename_i r' s' e5
  obtain ⟨h1, h2, h3⟩ : r' = -1 ∧ s.kmem.ref_cnt 0 = 0 ∧ s'.kmem.ref_cnt 0 = 1 := by simpa using hrun
  exact ⟨t, s0, k, new, s, s', hv, hmix, e4, by rw [e5, h1], h2, h3⟩

/-- A table of the child was made before kalloc failed: its count is 1 after the call. -/
theorem failed_fork_keeps_tables : ∃ t s0 k new s s', VmInv (spec256 sixPages) NoLent s0 [t] k ∧ Mixed s0.mem t ∧
    uvmcreate (lab sixPages) s0 = (some new, s) ∧
    uvmcopy sixPages t new 4096 s = .ok (-1, s') ∧ Page sixPages KERNBASE ∧ s.kmem.ref_cnt (cowIndex KERNBASE) = 0 ∧
      s'.kmem.ref_cnt (cowIndex KERNBASE) = 1 := by
  obtain ⟨t, s0, k, new, s, s', hv, hmix, ec, e, h0, h1⟩ := sixPages_fork
  have hpage : Page sixPages KERNBASE := ⟨by decide, by decide, by decide⟩
  have hidx : cowIndex KERNBASE = 0 := by
    unfold cowIndex
    rfl
  exact ⟨t, s0, k, new, s, s', hv, hmix, ec, e, hpage, by rw [hidx, h0], by rw [hidx, h1]⟩

theorem failed_fork_undone_six : ∃ t s0 new s s', uvmcreate (lab sixPages) s0 = (some new, s) ∧
    uvmcopy sixPages t new 4096 s = .ok (-1, s') ∧
    Undone sixPages [t] t new s0 s s' := by
  obtain ⟨t, s0, k, new, s, s', hv, hmix, ec, e, -⟩ := sixPages_fork
  exact ⟨t, s0, new, s, s', ec, e,
    (failed_fork_undone hv (show 1 < 256 by decide) (List.mem_singleton_self t) hmix ec 4096).2 s' e⟩

end Xv6Labs.Cow
