/-
  Xv6Labs.Vm.Need — how many pages an allocating walk takes.

  `missing` counts the tables that are not there on the way down to a page. kalloc hands out
  the pages of the free list one after the other, so that a walk comes to an end exactly if
  the list has that many.

  - `walkFrom_missing`: the walk fails exactly if the list is shorter.
  - `mappages_missing`: a fresh page, filled and entered, needs that page and the tables.
-/

import Xv6Labs.Vm.Grow
import Xv6Labs.Vm.Kalloc

namespace Xv6Labs.Plain

open Lib Vm

/-- The tables that are missing below the level-`l` table `q`, on the way to virtual page `v`. -/
def missing (m : Mem) (v : Nat) : Nat → Nat → Nat
  | 0, _ => 0
  | l + 1, q =>
    if vbit (pte m q (v / 512 ^ (l + 1) % 512)) then missing m v l (PTE2PA (pte m q (v / 512 ^ (l + 1) % 512)))
    else l + 1

variable {I : Image} {b : Bool} {B : Nat → Prop} {s s' : Mach Kmem} {live : List Nat} {k : Nat → Kind}
    {free : List Nat}

/-- The pages of the list are the ones without a use. -/
theorem FreeList.unused (hf : FreeList I s free) (h : VmInv (spec I b) B s live k) {p : Nat} (hp : p ∈ free) :
    k p = .free := by
  obtain ⟨free', hf', hown⟩ := h.alloc
  obtain rfl := hf.unique hf'
  have hpage := hf.page p hp
  exact h.own_zero hpage ((hown p hpage).mp hp)

/-- An empty table has nothing below it. -/
theorem missing_zero {m : Mem} {p : Nat} (hz : ∀ x, p ≤ x → x < p + 4096 → m x = 0) (v l : Nat) :
    missing m v l p = l := by
  cases l with
  | zero => rfl
  | succ l =>
    have hv : vbit (pte m p (v / 512 ^ (l + 1) % 512)) = false := by
      rw [pte_zero hz (Nat.mod_lt _ (by decide))]
      rfl
    rw [missing, if_neg (by rw [hv]; decide)]

/-- It depends on the bytes of the tables only. -/
theorem missing_frame {m m' : Mem} (h : Tab B m live k) (hm : ∀ q t l i, k q = .node t l i → Mem.Agree m m' q 4096)
    {t v : Nat} :
    ∀ l q, k q = .node t l (v / 512 ^ (l + 1)) → missing m' v l q = missing m v l q := by
  intro l
  induction l with
  | zero => exact fun _ _ => rfl
  | succ l ih =>
    intro q hq
    have hj : v / 512 ^ (l + 1) % 512 < 512 := Nat.mod_lt _ (by decide)
    rw [missing, missing, pte_agree (hm q _ _ _ hq) hj]
    split
    · rename_i hv
      obtain ⟨p, hp, hw⟩ := h.down q t l _ _ hq hj hv
      rw [child_index] at hp
      rw [hw, pte2pa_mkpte (h.nodePage hp) (by decide)]
      exact ih p hp
    · rfl

/-- The walk runs out of pages exactly if the list is shorter than what is missing. -/
theorem walkFrom_missing {t va : Nat} : ∀ l q (s : Mach Kmem) k free, VmInv (spec I b) B s live k →
    k q = .node t l (va / 4096 / 512 ^ (l + 1)) → FreeList I s free →
    ((walkFrom (lab I b) va true l q s).1 = none ↔ free.length < missing s.mem (va / 4096) l q) := by
  intro l
  induction l with
  | zero => exact fun q s k free _ _ _ => iff_of_false (fun e => by cases e) (Nat.not_lt_zero _)
  | succ l ih =>
    intro q s k free h hq hf
    have hj : va / 4096 / 512 ^ (l + 1) % 512 < 512 := Nat.mod_lt _ (by decide)
    rw [walkFrom_succ, missing]
    split
    · rename_i hv
      obtain ⟨p, hp, hw⟩ := h.tab.down q t l _ _ hq hj hv
      rw [child_index] at hp
      rw [hw, pte2pa_mkpte (h.tab.nodePage hp) (by decide)]
      exact ih p s k free h hp hf
    rename_i hv
    rw [Bool.not_true, if_neg Bool.false_ne_true]
    rcases hf.kalloc with ⟨rfl, e⟩ | ⟨p, rest, rfl, e, hrest⟩
    · rw [show (lab I b).kalloc s = _ from e]
      exact iff_of_true rfl (Nat.succ_pos l)
    · -- the page that is taken becomes an empty table
      have hp := (hf.page p List.mem_cons_self).isPage
      have hqp : q ≠ p := fun e' => by
        have := hf.unused h List.mem_cons_self
        rw [← e', hq] at this
        cases this
      obtain ⟨k1, h1, -, hk1, -⟩ := h.addTable e hq hj (by simpa using hv)
      rw [child_index] at hk1
      have hqi := h.tab.nodePage hq
      have hstore : ∀ r ∈ rest, Mem.Agree (s.mem.set p 5 4096)
          (((s.mem.set p 5 4096).set p 0 4096).storeLE (q + 8 * (va / 4096 / 512 ^ (l + 1) % 512)) 8 (mkpte p 0))
          r 4096 := by
        intro r hr
        have hri := (hrest.page r hr).isPage
        have hrp : r ≠ p := fun e' => (List.nodup_cons.mp hf.nodup).1 (e' ▸ hr)
        have hrq : r ≠ q := fun e' => by
          have := hf.unused h (List.mem_cons_of_mem p hr)
          rw [e', hq] at this
          cases this
        exact (agree_set_page _ 0 hri.1 hp.1 hrp).trans (agree_store_page _ hri.1 hqi.1 hj hrq)
      have hz : missing
          (((s.mem.set p 5 4096).set p 0 4096).storeLE (q + 8 * (va / 4096 / 512 ^ (l + 1) % 512)) 8 (mkpte p 0))
          (va / 4096) l p = l := by
        refine missing_zero (fun x h1 h2 => ?_) _ _
        rw [Mem.storeLE_ne (by have := hqi.1; have := hp.1; omega)]
        exact Mem.set_in _ 0 h1 h2
      rw [show (lab I b).kalloc s = _ from e]
      refine (ih p _ k1 rest h1 hk1 (hrest.frame hstore)).trans ?_
      rw [List.length_cons]
      dsimp only
      rw [hz]
      omega

/-- A page of the list, filled and to be entered: mappages fails exactly if the rest of the
    list is shorter than what is missing. -/
theorem mappages_missing (h : VmInv (spec I b) B s live k) {t va p perm : Nat} {s1 : Mach Kmem} {m : Mem}
    (ht : t ∈ live) (hal : va % 4096 = 0) (hva : va < MAXVA) (hf : FreeList I s free) (e : kalloc s = (some p, s1))
    (hm : ∀ x, pageOf x ≠ p → m x = s1.mem x) :
    (∃ s2, mappages (lab I b) t va PGSIZE p perm { s1 with mem := m } = .ok (-1, s2)) ↔
      free.length ≤ missing s.mem (va / 4096) 2 t := by
  have hv := vpn_of_lt hva
  obtain ⟨hk, hp, -, h1, -, hx, -⟩ := h.kalloc_fill (A := lab I b) e hm
  have hroot := h.tab.rootNode ht hv
  have hroot1 := h1.tab.rootNode ht hv
  rcases hf.kalloc with ⟨-, e'⟩ | ⟨p', rest, rfl, e', hrest⟩
  · rw [e] at e'
    cases e'
  rw [e] at e'
  cases e'
  have hrest1 : FreeList I { mem := m, kmem := { s.kmem with freelist := s.mem.loadLE p 8 } } rest :=
    hrest.frame fun r hr x h1 h2 => by
      have hri := (hrest.page r hr).isPage.1
      have hne : r ≠ p := fun e' => (List.nodup_cons.mp hf.nodup).1 (e' ▸ hr)
      exact hm x (by have := hp.1; unfold pageOf; omega)
  have htabs : ∀ q t l i, k q = .node t l i → Mem.Agree s.mem m q 4096 := fun q t' l i hq x h1 h2 => by
    have hne : q ≠ p := fun e' => by
      rw [e', hk] at hq
      cases hq
    have := (h.tab.nodePage hq).1
    have := hp.1
    exact hx x (by unfold pageOf; omega)
  have hmiss : missing m (va / 4096) 2 t = missing s.mem (va / 4096) 2 t := missing_frame h.tab htabs 2 t hroot
  have hwalk :
      (walkFrom (lab I b) va true 2 t { mem := m, kmem := { s.kmem with freelist := s.mem.loadLE p 8 } }).1 = none ↔
        rest.length < missing m (va / 4096) 2 t := walkFrom_missing 2 t _ _ rest h1 hroot1 hrest1
  have hlen : (p :: rest).length ≤ missing s.mem (va / 4096) 2 t ↔ rest.length < missing m (va / 4096) 2 t := by
    rw [hmiss, List.length_cons]
    omega
  rw [hlen, ← hwalk, mappages_page hal hva]
  generalize ({ mem := m, kmem := { s.kmem with freelist := s.mem.loadLE p 8 } } : Mach Kmem) = s2
  unfold mapOne walk
  rw [if_neg (by omega)]
  rcases walkFrom (lab I b) va true 2 t s2 with ⟨_ | a, s3⟩
  · exact iff_of_true ⟨s3, rfl⟩ rfl
  · refine iff_of_false (fun h' => ?_) fun e' => by cases e'
    obtain ⟨s4, e'⟩ := h'
    rw [ok_bind] at e'
    dsimp only at e'
    split at e' <;> cases e'

end Xv6Labs.Plain
