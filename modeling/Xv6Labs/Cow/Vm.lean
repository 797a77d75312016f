/-
  Xv6Labs.Cow.Vm — `uvmcopy`, `walkcowaddr` and `copyout` of the cow lab.

  `uvmcopy` shares: it clears PTE_W and sets PTE_COW in the parent's leaf, enters the same
  page with the same flags in the child and counts one user more. `walkcowaddr` gives the
  writer of a shared page a copy of its own, with PTE_W set again.

  - `VmInv.setData`: a leaf entry set to a user page that is mapped already.
  - `walkcowaddr_spec`: its four outcomes; nothing a user can read changes in any of them.
  - `uvmcopy_spec`: shares exactly the range, or takes it back, or panics.
-/

import Xv6Labs.Cow.Kalloc
import Xv6Labs.Vm.Copy
import Xv6Labs.Vm.Space

namespace Xv6Labs.Cow

open Lib Vm

variable (L : Layout)

/-- walkcowaddr's branch for an entry marked PTE_COW: a page of its own for the writer. -/
def breakcow (pagetable va pte pa : Nat) (s : Mach Kmem) : Except String (Nat × Mach Kmem) :=
  match kalloc s with
  | (none, s) => .ok (0, s)
  | (some mem, s) => do
    let s := { s with mem := s.mem.move mem pa PGSIZE }
    let flags := clear (PTE_FLAGS (s.mem.loadLE pte 8)) PTE_COW ||| PTE_W
    let s ← uvmunmap (lab L) pagetable (PGROUNDDOWN va) 1 true s
    let (r, s) ← mappages (lab L) pagetable (PGROUNDDOWN va) PGSIZE mem flags s
    if r ≠ 0 then do
      let s ← kfree L mem s
      .ok (0, s)
    else .ok (mem, s)

def walkcowaddr (pagetable va : Nat) (s : Mach Kmem) : Except String (Nat × Mach Kmem) :=
  if va ≥ MAXVA then .ok (0, s)
  else do
    let (pte, s) ← walk (lab L) pagetable va false s
    match pte with
    | none => .ok (0, s)
    | some pte =>
      let w := s.mem.loadLE pte 8
      if w &&& PTE_V = 0 then .ok (0, s)
      else if w &&& PTE_U = 0 then .ok (0, s)
      else
        let pa := PTE2PA w
        if w &&& PTE_W = 0 then
          -- only an entry marked PTE_COW may be given a page
          if w &&& PTE_COW = 0 then .ok (0, s) else breakcow L pagetable va pte pa s
        else .ok (pa, s)

def copyout (pagetable dstva : Nat) (src : List UInt8) (s : Mach Kmem) : Except String (Int × Mach Kmem) :=
  copyoutLoop (walkcowaddr L pagetable) src.length dstva src s

/-- The flags uvmcopy leaves in parent and child. -/
def cowFlags (w : Nat) : Nat := clear (PTE_FLAGS w) PTE_W ||| PTE_COW

def uvmcopyLoop (old new : Nat) : Nat → Nat → Mach Kmem → Except String (Int × Mach Kmem)
  | 0, _, s => .ok (0, s)
  | n + 1, i, s => do
    let (pte, s) ← walk (lab L) old i false s
    match pte with
    | none => .error "uvmcopy: pte should exist"
    | some pte =>
      let w := s.mem.loadLE pte 8
      if w &&& PTE_V = 0 then .error "uvmcopy: page not present"
      else do
        let pa := PTE2PA w
        let flags := cowFlags w
        let s := { s with mem := s.mem.storeLE pte 8 (PA2PTE pa ||| flags) }
        let (r, s) ← mappages (lab L) new i PGSIZE pa flags s
        if r ≠ 0 then do
          let s ← uvmunmap (lab L) new 0 (i / PGSIZE) true s
          .ok (-1, s)
        else uvmcopyLoop old new n (i + PGSIZE) (increfcnt pa s)

def uvmcopy (old new sz : Nat) (s : Mach Kmem) : Except String (Int × Mach Kmem) :=
  uvmcopyLoop L old new ((sz + PGSIZE - 1) / PGSIZE) 0 s

/-! ## One page shared -/

variable {L} {cap : Nat} {h1 : 1 ≤ cap} {h256 : cap ≤ 256} {s s' s0 : Mach Kmem} {live : List Nat}
    {k k' k0 : Nat → Kind}
  {old new : Nat}

/-- No page is lent: all leaves are user memory. -/
abbrev NoLent : Nat → Prop := fun _ => False

theorem increfcnt_mem (p : Nat) (s : Mach Kmem) : (increfcnt p s).mem = s.mem := by
  unfold increfcnt; split <;> rfl

theorem increfcnt_nfail (p : Nat) (s : Mach Kmem) : (increfcnt p s).kmem.nfail = s.kmem.nfail := by
  unfold increfcnt; split <;> rfl

/-- A user page entered in one more table, and counted. -/
theorem share (h : VmInv (spec L cap h1 h256) NoLent s live k) (hlen : live.length ≤ cap) {t v p q perm : Nat}
    (ht : t ∈ live)
    (hv : v < VPN) (hq : k q = .node t 0 (v / 512)) (hp : k p = .data v) (hn : lookup s.mem t v = none)
    (hperm : perm < 1024) (hflag : perm ||| PTE_V ≠ PTE_V) :
    VmInv (spec L cap h1 h256) NoLent
      (increfcnt p { s with mem := s.mem.storeLE (q + 8 * (v % 512)) 8 (mkpte p perm) }) live k ∧
      ∀ t' ∈ live, ∀ v' < VPN, leaf (s.mem.storeLE (q + 8 * (v % 512)) 8 (mkpte p perm)) t' v' =
        if t' = t ∧ v' = v then mkpte p perm else leaf s.mem t' v' := by
  have hpp : IsPage p := h.tab.page p (by rw [hp]; simp)
  have hpg : Page L p := h.page_of (by rw [hp]; simp)
  have hj : v % 512 < 512 := Nat.mod_lt _ (by decide)
  have lf : ∀ t' ∈ live, leaf (s.mem.storeLE (q + 8 * (v % 512)) 8 (mkpte p perm)) t' v =
      if t' = t then mkpte p perm else leaf s.mem t' v := by
    intro t' ht'
    rw [h.tab.setLeaf_leaf hq hj (mkpte_lt hpp hperm) ?_ ht' hv, div_mod_512]
    · simp
    · intro _
      rw [div_mod_512]
      exact ⟨Or.inl
        (by rw [pte2pa_mkpte hpp hperm]; exact hp), by unfold PTE_FLAGS; rw [mkpte_mod hperm]; exact hflag⟩
  have hcnt : live.countP (maps (s.mem.storeLE (q + 8 * (v % 512)) 8 (mkpte p perm)) v p) =
    own s.mem live k p + 1 := by
    rw [own, hp]
    refine countP_flip h.nodup ht ?_ ?_ fun t' ht' hne => ?_
    · rw [maps_lookup, hn]; rfl
    · rw [maps, lf t ht, if_pos rfl, vbit_mkpte hperm, pte2pa_mkpte hpp hperm]; simp
    · rw [maps, maps, lf t' ht', if_neg hne]
  have hle : own s.mem live k p + 1 ≤ cap := by
    rw [← hcnt]; exact Nat.le_trans List.countP_le_length hlen
  have hpos : 0 < own s.mem live k p := by rw [own, hp]; exact h.used p v hp
  have := h.setData (increfcnt p { s with mem := s.mem.storeLE (q + 8 * (v % 512)) 8 (mkpte p perm) }) ht hv hq hp
    (fun w hw => by rw [hn] at hw; cases hw) hperm hflag (increfcnt_mem ..) ?_ ?_
  · rw [increfcnt_mem] at this; exact this
  · rw [increfcnt_mem]
    show Inv L cap _
      (Function.update _ _ (live.countP (maps (s.mem.storeLE (q + 8 * (v % 512)) 8 (mkpte p perm)) v p)))
    rw [hcnt]
    exact Inv.incref (h.alloc_store hq hj) hpg hpos hle
  · rw [increfcnt_mem]
    show live.countP (maps (s.mem.storeLE (q + 8 * (v % 512)) 8 (mkpte p perm)) v p) ≤ cap
    rw [hcnt]; exact hle

/-! ## Flags -/

theorem bit_four : ∀ i < 10, (PTE_W : Nat).testBit i = (i == 2) := by decide

theorem bit_cow : ∀ i < 10, (PTE_COW : Nat).testBit i = (i == 8) := by decide

theorem cowFlags_testBit (w : Nat) {i : Nat} (hi : i < 10) :
    (cowFlags w).testBit i = (w.testBit i && i != 2 || i == 8) := by
  unfold cowFlags PTE_FLAGS
  rw [Nat.testBit_or, testBit_clear, testBit_mod hi, bit_four i hi, bit_cow i hi, decide_eq_true (by omega : i < 64)]
  cases hb : i == 2 <;> simp [bne, hb]

theorem cowFlags_lt (w : Nat) : cowFlags w < 1024 :=
  Nat.or_lt_two_pow (n := 10) (Nat.lt_of_le_of_lt (clear_le _ _) (Nat.mod_lt _ (by decide))) (by decide)

theorem or_v_of_bit {f : Nat} (h : f.testBit 0 = true) : f ||| PTE_V = f := by
  apply Nat.eq_of_testBit_eq
  intro i
  rw [Nat.testBit_or]
  cases i with
  | zero => rw [h]; rfl
  | succ i => simp [PTE_V, Nat.testBit_succ]

theorem ne_v_of_bit {f i : Nat} (hi : 0 < i) (h : f.testBit i = true) : f ||| PTE_V ≠ PTE_V := by
  intro e
  have := congrArg (fun x => Nat.testBit x i) e
  simp only [Nat.testBit_or, h, Bool.true_or] at this
  obtain ⟨j, rfl⟩ : ∃ j, i = j + 1 := ⟨i - 1, by omega⟩
  simp [PTE_V, Nat.testBit_succ] at this

/-- The entry uvmcopy writes in parent and child. -/
def cowPte (w : Nat) : Nat := mkpte (PTE2PA w) (cowFlags w)

theorem cowPte_eq {w : Nat} (h : vbit w = true) : PA2PTE (PTE2PA w) ||| cowFlags w = cowPte w := by
  have hb : w.testBit 0 = true := h
  have : (cowFlags w).testBit 0 = true := by rw [cowFlags_testBit w (by decide), hb]; rfl
  unfold cowPte mkpte
  rw [Nat.or_assoc, or_v_of_bit this]

theorem cowFlags_ne (w : Nat) : cowFlags w ||| PTE_V ≠ PTE_V :=
  ne_v_of_bit (i := 8) (by decide) (by rw [cowFlags_testBit w (by decide)]; simp)

theorem cowPte_testBit (w : Nat) {i : Nat} (hi : i < 10) (hv : vbit w = true) :
    (cowPte w).testBit i = (w.testBit i && i != 2 || i == 8) := by
  unfold cowPte
  rw [mkpte_testBit (cowFlags_lt w) hi, cowFlags_testBit w hi]
  cases i with
  | zero => rw [show w.testBit 0 = true from hv]; rfl
  | succ i => simp [Nat.testBit_succ]

/-! ## uvmcopy -/

/-- Where an entry of a table after (part of) a uvmcopy comes from. -/
def From (live : List Nat) (m m' : Mem) (old : Nat) : Prop :=
  ∀ t ∈ live, ∀ v < VPN, ∀ w', lookup m' t v = some w' →
    lookup m t v = some w' ∨ ∃ w, lookup m old v = some w ∧ w' = cowPte w

/-- The first `c` pages of `old` are shared with `new`. -/
structure Shared (live : List Nat) (s : Mach Kmem) (k : Nat → Kind) (old new c : Nat) (s' : Mach Kmem)
    (k' : Nat → Kind) : Prop where
  fresh : ∀ v < c, CanMap s.mem new v ∧ ∃ w, lookup s.mem old v = some w
  both : ∀ v < c, ∀ w, lookup s.mem old v = some w → lookup s'.mem old v = some (cowPte w) ∧
    lookup s'.mem new v = some (cowPte w)
  lookup : ∀ t ∈ live, ∀ v < VPN, ¬ ((t = old ∨ t = new) ∧ v < c) → lookup s'.mem t v = Vm.lookup s.mem t v
  inside : ∀ va, va / 4096 < c → byteAt s'.mem new va = byteAt s.mem old va
  byteAt : ∀ t ∈ live, ∀ va, va / 4096 < VPN → ¬ (t = new ∧ va / 4096 < c) → byteAt s'.mem t va = Vm.byteAt s.mem t va
  held : ∀ r, k' r = .held ↔ k r = .held

theorem Shared.refl (live : List Nat) (s : Mach Kmem) (k : Nat → Kind) (old new : Nat) :
    Shared live s k old new 0 s k :=
  ⟨fun _ h => absurd h (by omega), fun _ h => absurd h (by omega), fun _ _ _ _ _ => rfl,
    fun _ h => absurd h (by omega),
    fun _ _ _ _ _ => rfl, fun _ => Iff.rfl⟩

theorem Shared.from {c : Nat} (g : Shared live s0 k0 old new c s k) : From live s0.mem s.mem old := by
  intro t ht v hv w' hw'
  by_cases e : (t = old ∨ t = new) ∧ v < c
  · obtain ⟨-, w, hw⟩ := g.fresh v e.2
    obtain ⟨b1, b2⟩ := g.both v e.2 w hw
    refine Or.inr ⟨w, hw, ?_⟩
    rcases e.1 with rfl | rfl
    · rw [b1] at hw'; exact (Option.some.inj hw').symm
    · rw [b2] at hw'; exact (Option.some.inj hw').symm
  · rw [g.lookup t ht v hv e] at hw'
    exact Or.inl hw'

/-- One page, dealt with: shared, or marked in the parent with no memory for the child's
    tables. -/
theorem share_page (h : VmInv (spec L cap h1 h256) NoLent s live k) (hlen : live.length ≤ cap) (hold : old ∈ live)
    (hnew : new ∈ live)
    {c w q : Nat} (hva : c * 4096 < MAXVA) (hl : lookup s.mem old c = some w) (hq : k q = .node old 0 (c / 512))
    (hn : lookup s.mem new c = none) :
    (∃ s2 k2, mappages (lab L) new (c * 4096) PGSIZE (PTE2PA w) (cowFlags w)
          { s with mem := s.mem.storeLE (q + 8 * (c % 512)) 8 (cowPte w) } = .ok (-1, s2) ∧
        VmInv (spec L cap h1 h256) NoLent s2 live k2 ∧ s2.kmem.nfail = s.kmem.nfail + 1 ∧ AddsTables new k k2 ∧
        (∀ t ∈ live, ∀ v < VPN, lookup s2.mem t v = if t = old ∧ v = c then some (cowPte w) else lookup s.mem t v) ∧
        ∀ t ∈ live, ∀ va, va / 4096 < VPN → byteAt s2.mem t va = byteAt s.mem t va) ∨
      ∃ s2 k2, mappages (lab L) new (c * 4096) PGSIZE (PTE2PA w) (cowFlags w)
          { s with mem := s.mem.storeLE (q + 8 * (c % 512)) 8 (cowPte w) } = .ok (0, s2) ∧
        VmInv (spec L cap h1 h256) NoLent (increfcnt (PTE2PA w) s2) live k2 ∧ s2.kmem.nfail = s.kmem.nfail ∧
        AddsTables new k k2 ∧
        (∀ t ∈ live, ∀ v < VPN,
          lookup s2.mem t v = if (t = old ∨ t = new) ∧ v = c then some (cowPte w) else lookup s.mem t v) ∧
        ∀ t ∈ live, ∀ va, va / 4096 < VPN →
          byteAt s2.mem t va = if t = new ∧ va / 4096 = c then byteAt s.mem old va else byteAt s.mem t va := by
  have hpage : c * 4096 / 4096 = c := by omega
  have hv : c < VPN := hpage ▸ vpn_of_lt hva
  have hd := h.leaf_data hold hv hl
  have hpp : IsPage (PTE2PA w) := h.tab.page _ (by rw [hd]; simp)
  have hvw := (lookup_some.mp hl).2
  have hvc : vbit (cowPte w) = true := vbit_mkpte (cowFlags_lt w)
  have hpc : PTE2PA (cowPte w) = PTE2PA w := pte2pa_mkpte hpp (cowFlags_lt w)
  have hne : new ≠ old := by rintro rfl; rw [hn] at hl; cases hl
  obtain ⟨v1, lf1⟩ := h.reflag hold hv hq hl hd (cowFlags_lt w) (cowFlags_ne w)
  have hn1 : vbit (leaf (s.mem.storeLE (q + 8 * (c % 512)) 8 (cowPte w)) new c) = false := by
    rw [cowPte, lf1 new hnew c hv, if_neg (fun e => hne e.1)]; exact lookup_none.mp hn
  have lk1 : ∀ t ∈ live, ∀ v < VPN, lookup (s.mem.storeLE (q + 8 * (c % 512)) 8 (cowPte w)) t v =
      if t = old ∧ v = c then some (cowPte w) else lookup s.mem t v := fun t ht v hv => by
    unfold lookup
    rw [cowPte, lf1 t ht v hv]
    split
    · rw [if_pos (by exact hvc)]
    · rfl
  obtain ⟨s2, k2, v2, g2, hcase⟩ := mapOne_ok v1 (PTE2PA w) (cowFlags w) hnew hva (by rw [hpage]; exact hn1)
  rw [hpage] at hcase
  rw [mappages_page (by omega) hva]
  rcases hcase with ⟨e, hf⟩ | ⟨q2, hq2, hf, e⟩
  · have lk2 : ∀ t ∈ live, ∀ v < VPN,
        lookup s2.mem t v = if t = old ∧ v = c then some (cowPte w) else lookup s.mem t v := fun t ht v hv => by
      rw [lookup_congr (g2.leaf t ht v hv)]
      exact lk1 t ht v hv
    refine Or.inl ⟨s2, k2, by rw [cowPte, e]; rfl, v2, hf, g2.adds, lk2, fun t ht va hva' => ?_⟩
    refine h.tab.byteAt_pa ht hva' ?_ fun x hx => ?_
    · rw [lk2 t ht _ hva']
      split
      · rename_i ec
        rw [ec.1, ec.2, hl, Option.map_some, Option.map_some, hpc]
      · rfl
    · have hx : (k (pageOf x)).plain = true := by rw [hx.resolve_right id]; rfl
      have n1 : pageOf x ≠ q := by intro e; rw [e, hq] at hx; cases hx
      have i1 := pageOf_mem (h.tab.nodePage hq).1 n1
      rw [g2.bytes x hx]
      exact Mem.storeLE_ne (by omega)
  · have hn2 : lookup s2.mem new c = none := by
      rw [lookup_congr (g2.leaf new hnew c hv)]
      exact lookup_none.mpr hn1
    have hd2 : k2 (PTE2PA w) = .data c := by rw [g2.kind _ (by rw [hd]; simp), hd]
    obtain ⟨v3, lf3⟩ := share v2 hlen hnew hv hq2 hd2 hn2 (cowFlags_lt w) (cowFlags_ne w)
    have lk3 : ∀ t ∈ live, ∀ v < VPN, lookup
      (s2.mem.storeLE (q2 + 8 * (c % 512)) 8 (mkpte (PTE2PA w) (cowFlags w))) t v =
        if (t = old ∨ t = new) ∧ v = c then some (cowPte w) else lookup s.mem t v := fun t ht v hv => by
      have e2 : lookup s2.mem t v = if t = old ∧ v = c then some (cowPte w) else lookup s.mem t v := by
        rw [lookup_congr (g2.leaf t ht v hv)]; exact lk1 t ht v hv
      by_cases e : t = new ∧ v = c
      · rw [if_pos ⟨Or.inr e.1, e.2⟩]
        unfold lookup
        rw [lf3 t ht v hv, if_pos e]
        rw [if_pos (by exact hvc)]; rfl
      · rw [lookup_congr ((lf3 t ht v hv).trans (if_neg e)), e2]
        refine if_congr ?_ rfl rfl
        constructor
        · rintro ⟨e1, e2⟩; exact ⟨Or.inl e1, e2⟩
        · rintro ⟨e1 | e1, e2⟩
          · exact ⟨e1, e2⟩
          · exact absurd ⟨e1, e2⟩ e
    -- only table pages were written
    have bytes : ∀ x, (k (pageOf x)).plain = true →
        s2.mem.storeLE (q2 + 8 * (c % 512)) 8 (mkpte (PTE2PA w) (cowFlags w)) x = s.mem x := fun x hx => by
      have hkx : k2 (pageOf x) = k (pageOf x) := g2.kind _ (by intro e; rw [e] at hx; cases hx)
      have n1 : pageOf x ≠ q := by intro e; rw [e, hq] at hx; cases hx
      have n2 : pageOf x ≠ q2 := by intro e; rw [e, ← e, ← hkx, e, hq2] at hx; cases hx
      have i1 := pageOf_mem (h.tab.nodePage hq).1 n1
      have i2 := pageOf_mem (v2.tab.nodePage hq2).1 n2
      rw [Mem.storeLE_ne (by omega), g2.bytes x hx]
      exact Mem.storeLE_ne (by omega)
    refine Or.inr ⟨_, k2, by rw [cowPte, e]; rfl, v3, hf, g2.adds, lk3, fun t ht va hva' => ?_⟩
    have same : ∀ t ∈ live,
      (lookup (s2.mem.storeLE (q2 + 8 * (c % 512)) 8 (mkpte (PTE2PA w) (cowFlags w))) t (va / 4096)).map PTE2PA =
        (lookup s.mem t (va / 4096)).map PTE2PA →
        byteAt (s2.mem.storeLE (q2 + 8 * (c % 512)) 8 (mkpte (PTE2PA w) (cowFlags w))) t va = byteAt s.mem t va :=
      fun t ht e => h.tab.byteAt_pa ht hva' e fun x hx => bytes x (by rw [hx.resolve_right id]; rfl)
    by_cases e' : t = new ∧ va / 4096 = c
    · rw [if_pos e']
      unfold byteAt
      show (lookup (s2.mem.storeLE (q2 + 8 * (c % 512)) 8 (mkpte (PTE2PA w) (cowFlags w))) t (va / 4096)).map _ = _
      rw [lk3 t ht _ hva', if_pos ⟨Or.inr e'.1, e'.2⟩, e'.2, hl, Option.map_some, Option.map_some, hpc]
      refine congrArg some (bytes _ ?_)
      rw [pageOf_add (pte2pa_mod _) (Nat.mod_lt _ (by decide)), hd]; rfl
    · rw [if_neg e']
      refine same t ht ?_
      rw [lk3 t ht _ hva']
      split
      · rename_i e2
        rcases e2.1 with rfl | e3
        · rw [e2.2, hl, Option.map_some, Option.map_some, hpc]
        · exact absurd ⟨e3, e2.2⟩ e'
      · rfl

/-- One round of the loop on a page that `old` maps. -/
theorem uvmcopyLoop_page {n i a w : Nat} {s2 : Mach Kmem} {r : Int}
    (hwalk : walk (lab L) old i false s = .ok (some a, s)) (ha : s.mem.loadLE a 8 = w) (hw : vbit w = true)
    (hm : mappages (lab L) new i PGSIZE (PTE2PA w) (cowFlags w) { s with mem := s.mem.storeLE a 8 (cowPte w) } =
      .ok (r, s2)) :
    uvmcopyLoop L old new (n + 1) i s =
      if r ≠ 0 then (uvmunmap (lab L) new 0 (i / PGSIZE) true s2).map fun s => (-1, s)
      else uvmcopyLoop L old new n (i + PGSIZE) (increfcnt (PTE2PA w) s2) := by
  have hv : ¬ (w &&& PTE_V = 0) := (vbit_eq w).mpr hw
  rw [uvmcopyLoop, hwalk]
  show (if s.mem.loadLE a 8 &&& PTE_V = 0 then _ else _) = _
  rw [ha, if_neg hv]
  show (mappages (lab L) new i PGSIZE (PTE2PA w) (cowFlags w)
    { s with mem := s.mem.storeLE a 8 (PA2PTE (PTE2PA w) ||| cowFlags w) } >>= _) = _
  rw [cowPte_eq hw, hm]
  rfl

theorem uvmcopyLoop_error {n i a w : Nat} {e : String} (hwalk : walk (lab L) old i false s = .ok (some a, s))
    (ha : s.mem.loadLE a 8 = w) (hw : vbit w = true)
    (hm : mappages (lab L) new i PGSIZE (PTE2PA w) (cowFlags w) { s with mem := s.mem.storeLE a 8 (cowPte w) } =
      .error e) :
    uvmcopyLoop L old new (n + 1) i s = .error e := by
  have hv : ¬ (w &&& PTE_V = 0) := (vbit_eq w).mpr hw
  rw [uvmcopyLoop, hwalk]
  show (if s.mem.loadLE a 8 &&& PTE_V = 0 then _ else _) = _
  rw [ha, if_neg hv]
  show (mappages (lab L) new i PGSIZE (PTE2PA w) (cowFlags w)
    { s with mem := s.mem.storeLE a 8 (PA2PTE (PTE2PA w) ||| cowFlags w) } >>= _) = _
  rw [cowPte_eq hw, hm]
  rfl

theorem uvmcopyLoop_hole (new n : Nat) {i : Nat} (hi : i < MAXVA) (hl : lookup s.mem old (i / 4096) = none) :
    ∃ e, uvmcopyLoop L old new (n + 1) i s = .error e := by
  have hz : leaf s.mem old (i / 4096) &&& PTE_V = 0 := by
    apply Classical.byContradiction; intro e
    have := (vbit_eq _).mp e
    rw [lookup_none.mp hl] at this; cases this
  cases hs : slotFrom s.mem (i / 4096) 2 old with
  | none =>
    refine ⟨"uvmcopy: pte should exist", ?_⟩
    rw [uvmcopyLoop, walk_false hi, hs]
    rfl
  | some a =>
    have ha : s.mem.loadLE a 8 = leaf s.mem old (i / 4096) := by rw [leaf, hs]; rfl
    refine ⟨"uvmcopy: page not present", ?_⟩
    rw [uvmcopyLoop, walk_false hi, hs]
    show (if s.mem.loadLE a 8 &&& PTE_V = 0 then _ else _) = _
    rw [ha, if_pos hz]

/-- How uvmcopy's loop ends when it has `n` pages to go from page `c` on. -/
def Shares (L : Layout) (cap : Nat) (h1 : 1 ≤ cap) (h256 : cap ≤ 256) (live : List Nat) (s0 : Mach Kmem)
    (k0 : Nat → Kind) (old new n c : Nat) (s : Mach Kmem) : Prop :=
  (∃ s' k', uvmcopyLoop L old new n (c * 4096) s = .ok (0, s') ∧ VmInv (spec L cap h1 h256) NoLent s' live k' ∧
      Shared live s0 k0 old new (c + n) s' k' ∧ s'.kmem.nfail = s.kmem.nfail) ∨
    (∃ s' k', uvmcopyLoop L old new n (c * 4096) s = .ok (-1, s') ∧ VmInv (spec L cap h1 h256) NoLent s' live k' ∧
      From live s0.mem s'.mem old ∧ (∀ r, k' r = .held ↔ k0 r = .held) ∧ s.kmem.nfail < s'.kmem.nfail) ∨
    ((∃ i < n, ¬ (CanMap s0.mem new (c + i) ∧ (lookup s0.mem old (c + i)).isSome = true)) ∧
      ∃ e, uvmcopyLoop L old new n (c * 4096) s = .error e)

/-- A uvmcopy of up to `n` pages was taken back: leaf entries of `old` may have lost PTE_W and
    got PTE_COW, and `new` may have tables more. -/
structure Unshared (live : List Nat) (s : Mach Kmem) (k : Nat → Kind) (old new n : Nat) (s' : Mach Kmem)
    (k' : Nat → Kind) : Prop where
  lookup : ∀ t ∈ live, t ≠ old → ∀ v < VPN, lookup s'.mem t v = Vm.lookup s.mem t v
  parent : ∀ v < VPN, Vm.lookup s'.mem old v = Vm.lookup s.mem old v ∨
    v < n ∧ ∃ w, Vm.lookup s.mem old v = some w ∧ Vm.lookup s'.mem old v = some (cowPte w)
  byteAt : ∀ t ∈ live, ∀ va, va / 4096 < VPN → byteAt s'.mem t va = Vm.byteAt s.mem t va
  tables : AddsTables new k k'

theorem Unshared.from {n : Nat} (u : Unshared live s k old new n s' k') : From live s.mem s'.mem old := by
  intro t ht v hv w' hw'
  by_cases hto : t = old
  · subst hto
    rcases u.parent v hv with e | ⟨-, w, e1, e2⟩
    · exact Or.inl (e ▸ hw')
    · rw [e2] at hw'
      exact Or.inr ⟨w, e1, (Option.some.inj hw').symm⟩
  · rw [u.lookup t ht hto v hv] at hw'
    exact Or.inl hw'

/-- How uvmcopy's loop ends, page by page. -/
def Outcome (L : Layout) (cap : Nat) (h1 : 1 ≤ cap) (h256 : cap ≤ 256) (live : List Nat) (s0 : Mach Kmem)
    (k0 : Nat → Kind) (old new n c : Nat) (s : Mach Kmem) : Prop :=
  (∃ s' k', uvmcopyLoop L old new n (c * 4096) s = .ok (0, s') ∧ VmInv (spec L cap h1 h256) NoLent s' live k' ∧
      Shared live s0 k0 old new (c + n) s' k' ∧ AddsTables new k0 k' ∧ s'.kmem.nfail = s.kmem.nfail) ∨
    (∃ s' k', uvmcopyLoop L old new n (c * 4096) s = .ok (-1, s') ∧ VmInv (spec L cap h1 h256) NoLent s' live k' ∧
      Unshared live s0 k0 old new (c + n) s' k' ∧ s.kmem.nfail < s'.kmem.nfail) ∨
    ((∃ i < n, ¬ (CanMap s0.mem new (c + i) ∧ (lookup s0.mem old (c + i)).isSome = true)) ∧
      ∃ e, uvmcopyLoop L old new n (c * 4096) s = .error e)

theorem Outcome.step {n c : Nat} {s1 : Mach Kmem} (hf : s1.kmem.nfail = s.kmem.nfail)
    (hrun : uvmcopyLoop L old new (n + 1) (c * 4096) s = uvmcopyLoop L old new n ((c + 1) * 4096) s1)
    (h : Outcome L cap h1 h256 live s0 k0 old new n (c + 1) s1) :
      Outcome L cap h1 h256 live s0 k0 old new (n + 1) c s := by
  have hshift : ∀ i, c + 1 + i = c + (i + 1) := fun i => by omega
  unfold Outcome
  rw [hrun]
  rcases h with ⟨s', k', e', h', g', a', hf'⟩ | ⟨s', k', e', h', u', hf'⟩ | ⟨⟨i, hi, hb⟩, he⟩
  · exact Or.inl ⟨s', k', e', h', by rw [← hshift]; exact g', a', by omega⟩
  · exact Or.inr (Or.inl ⟨s', k', e', h', by rw [← hshift]; exact u', by omega⟩)
  · exact Or.inr (Or.inr ⟨⟨i + 1, by omega, by rw [← hshift]; exact hb⟩, he⟩)

/-- A page more is shared. -/
theorem Shared.add {c w : Nat} {s2 : Mach Kmem} {k2 : Nat → Kind} (g : Shared live s0 k0 old new c s k)
    (hold : old ∈ live) (hnew : new ∈ live) (hcan : CanMap s0.mem new c) (hl : Vm.lookup s0.mem old c = some w)
    (hs : Vm.lookup s.mem old c = some w) (hheld : ∀ r, k2 r = .held ↔ k r = .held)
    (hlk : ∀ t ∈ live, ∀ v < VPN,
      Vm.lookup s2.mem t v = if (t = old ∨ t = new) ∧ v = c then some (cowPte w) else Vm.lookup s.mem t v)
    (hby : ∀ t ∈ live, ∀ va, va / 4096 < VPN →
      Vm.byteAt s2.mem t va = if t = new ∧ va / 4096 = c then Vm.byteAt s.mem old va else Vm.byteAt s.mem t va) :
    Shared live s0 k0 old new (c + 1) s2 k2 := by
  have vlt : ∀ {v}, v < c + 1 → v < VPN := fun hv => by
    have := hcan.1
    unfold MAXVA at this; unfold VPN; omega
  have hon : old ≠ new := by rintro rfl; rw [hcan.2] at hl; cases hl
  refine ⟨fun v hv => ?_, fun v hv w' hw' => ?_, fun t ht v hv hn => ?_, fun va hva => ?_, fun t ht va hva hn => ?_,
    fun r => (hheld r).trans (g.held r)⟩
  · rcases Nat.lt_succ_iff_lt_or_eq.mp hv with hv | rfl
    · exact g.fresh v hv
    · exact ⟨hcan, w, hl⟩
  · rw [hlk old hold v (vlt hv), hlk new hnew v (vlt hv)]
    rcases Nat.lt_succ_iff_lt_or_eq.mp hv with hv | rfl
    · rw [if_neg (by omega), if_neg (by omega)]; exact g.both v hv w' hw'
    · rw [hl] at hw'
      obtain rfl := Option.some.inj hw'
      rw [if_pos ⟨Or.inl rfl, rfl⟩, if_pos ⟨Or.inr rfl, rfl⟩]
      exact ⟨rfl, rfl⟩
  · rw [hlk t ht v hv, if_neg (fun e => hn ⟨e.1, by omega⟩)]
    exact g.lookup t ht v hv (fun e => hn ⟨e.1, by omega⟩)
  · rw [hby new hnew va (vlt hva)]
    rcases Nat.lt_succ_iff_lt_or_eq.mp hva with h | h
    · rw [if_neg (by omega)]; exact g.inside va h
    · rw [if_pos ⟨rfl, h⟩]
      exact g.byteAt old hold va (vlt hva) (fun e => hon e.1)
  · rw [hby t ht va hva, if_neg (fun e => hn ⟨e.1, by omega⟩)]
    exact g.byteAt t ht va hva (fun e => hn ⟨e.1, by omega⟩)

/-- A user page in use before is in use after, if the tables map the same pages. -/
theorem VmInv.data_of_lookup (h0 : VmInv (spec L cap h1 h256) NoLent s0 live k0)
    (h' : VmInv (spec L cap h1 h256) NoLent s' live k')
    (hlk : ∀ t ∈ live, ∀ v < VPN, (lookup s'.mem t v).map PTE2PA = (lookup s0.mem t v).map PTE2PA) {r v : Nat}
    (hr : k0 r = .data v) : k' r = .data v := by
  obtain ⟨t, ht, hm⟩ := List.countP_pos_iff.mp (h0.used r v hr)
  have hv := h0.vpn r v hr
  have hmap := hlk t ht v hv
  rw [maps_lookup] at hm
  cases hl : lookup s0.mem t v with
  | none =>
    rw [hl] at hm
    cases hm
  | some w =>
    rw [hl] at hm hmap
    have hpa : PTE2PA w = r := by simpa using hm
    obtain ⟨w', hw', e⟩ := Option.map_eq_some_iff.mp hmap
    rw [← hpa, ← e]
    exact h'.leaf_data ht hv hw'

/-- Marking leaf entries of `old` does not change which page they map. -/
theorem pages_of_marked {t v : Nat} (h0 : VmInv (spec L cap h1 h256) NoLent s0 live k0) (hold : old ∈ live)
    (hv : v < VPN) (hother : t ≠ old → lookup s'.mem t v = lookup s0.mem t v)
    (hparent : lookup s'.mem old v = lookup s0.mem old v ∨ ∃ w, lookup s0.mem old v = some w ∧
      lookup s'.mem old v = some (cowPte w)) :
    (lookup s'.mem t v).map PTE2PA = (lookup s0.mem t v).map PTE2PA := by
  by_cases hto : t = old
  · rw [hto]
    rcases hparent with e | ⟨w, e1, e2⟩
    · rw [e]
    · have hpp : IsPage (PTE2PA w) := h0.tab.page _ (by rw [h0.leaf_data hold hv e1]; simp)
      rw [e1, e2, Option.map_some, Option.map_some]
      exact congrArg some (pte2pa_mkpte hpp (cowFlags_lt w))
  · rw [hother hto]

/-- The pages shared so far are unmapped. -/
theorem Shared.undo {c n w : Nat} {s2 : Mach Kmem} {k2 : Nat → Kind} (g : Shared live s0 k0 old new c s k)
    (h0 : VmInv (spec L cap h1 h256) NoLent s0 live k0)
    (h' : VmInv (spec L cap h1 h256) NoLent s' live k') (hold : old ∈ live) (hnew : new ∈ live) (hcn : c < n)
    (hl : Vm.lookup s0.mem old c = some w) (hn : Vm.lookup s0.mem new c = none) (a : AddsTables new k0 k2)
    (lk2 : ∀ t ∈ live, ∀ v < VPN,
      Vm.lookup s2.mem t v = if t = old ∧ v = c then some (cowPte w) else Vm.lookup s.mem t v)
    (by2 : ∀ t ∈ live, ∀ va, va / 4096 < VPN → Vm.byteAt s2.mem t va = Vm.byteAt s.mem t va)
    (hcl : Cleared live s2 k2 new 0 c s' k') :
    Unshared live s0 k0 old new n s' k' := by
  have hne : old ≠ new := by
    rintro rfl
    rw [hn] at hl
    cases hl
  have hrange : ∀ v, InRange 0 c v ↔ v < c := fun v => by
    unfold InRange
    omega
  have hother : ∀ t ∈ live, t ≠ old → ∀ v < VPN, Vm.lookup s'.mem t v = Vm.lookup s0.mem t v :=
    fun t ht hto v hv => by
    rw [hcl.lookup t ht v hv, lk2 t ht v hv, if_neg fun e : t = old ∧ v = c => hto e.1]
    by_cases htn : t = new ∧ InRange 0 c v
    · rw [if_pos htn, htn.1, (g.fresh v ((hrange v).mp htn.2)).1.2]
    · rw [if_neg htn]
      exact g.lookup t ht v hv fun e => htn ⟨e.1.resolve_left hto, (hrange v).mpr e.2⟩
  have hparent : ∀ v < VPN, Vm.lookup s'.mem old v = Vm.lookup s0.mem old v ∨
      v < n ∧ ∃ w, Vm.lookup s0.mem old v = some w ∧ Vm.lookup s'.mem old v = some (cowPte w) := fun v hv => by
    rw [hcl.lookup old hold v hv, if_neg fun e => hne e.1, lk2 old hold v hv]
    by_cases hvc : v = c
    · rw [if_pos ⟨rfl, hvc⟩, hvc]
      exact Or.inr ⟨hcn, w, hl, rfl⟩
    · rw [if_neg fun e => hvc e.2]
      by_cases hlt : v < c
      · obtain ⟨-, w', hw'⟩ := g.fresh v hlt
        exact Or.inr ⟨by omega, w', hw', (g.both v hlt w' hw').1⟩
      · exact Or.inl (g.lookup old hold v hv fun e => hlt e.2)
  have hmap : ∀ t ∈ live, ∀ v < VPN, (Vm.lookup s'.mem t v).map PTE2PA = (Vm.lookup s0.mem t v).map PTE2PA :=
    fun t ht v hv =>
    pages_of_marked h0 hold hv (fun hto => hother t ht hto v hv) ((hparent v hv).imp_right And.right)
  refine ⟨hother, hparent, fun t ht va hva => ?_, fun r => ?_⟩
  · rw [hcl.byteAt t ht va hva, by2 t ht va hva]
    by_cases htn : t = new ∧ InRange 0 c (va / 4096)
    · rw [if_pos htn, htn.1]
      unfold Vm.byteAt
      rw [(g.fresh _ ((hrange _).mp htn.2)).1.2]
      rfl
    · rw [if_neg htn]
      exact g.byteAt t ht va hva fun e => htn ⟨e.1, (hrange _).mpr e.2⟩
  · rcases hcl.kind r with e | ⟨⟨v, e1⟩, e2⟩
    · rw [e]
      exact a r
    · -- a user page that was shared is still mapped by `old`
      rcases a r with e | ⟨-, l, i, e⟩
      · rw [e1] at e
        rw [VmInv.data_of_lookup h0 h' hmap e.symm] at e2
        cases e2
      · rw [e1] at e
        cases e

theorem uvmcopyLoop_spec (h0 : VmInv (spec L cap h1 h256) NoLent s0 live k0) (hlen : live.length ≤ cap)
    (hold : old ∈ live) (hnew : new ∈ live) :
    ∀ n c (s : Mach Kmem) k, Shared live s0 k0 old new c s k → AddsTables new k0 k →
      VmInv (spec L cap h1 h256) NoLent s live k → c ≤ MAXVA / 4096 →
    Outcome L cap h1 h256 live s0 k0 old new n c s := by
  intro n
  induction n with
  | zero =>
    intro c s k g a h _
    exact Or.inl ⟨s, k, rfl, h, by rw [Nat.add_zero]; exact g, a, rfl⟩
  | succ n ih =>
    intro c s k g a h hc
    have hpage : c * 4096 / 4096 = c := by omega
    have hnext : c * 4096 + PGSIZE = (c + 1) * 4096 := by unfold PGSIZE; omega
    by_cases hva : c * 4096 < MAXVA
    · have hcm : c < MAXVA / 4096 := by unfold MAXVA at hva ⊢; omega
      have hv : c < VPN := hpage ▸ vpn_of_lt hva
      have hlo : lookup s.mem old c = lookup s0.mem old c := g.lookup old hold c hv (fun e => by omega)
      have hln : lookup s.mem new c = lookup s0.mem new c := g.lookup new hnew c hv (fun e => by omega)
      cases hl : lookup s0.mem old c with
      | none =>
        obtain ⟨e, he⟩ := uvmcopyLoop_hole (L := L) new n hva (by rw [hpage]; exact hlo.trans hl)
        exact Or.inr (Or.inr ⟨⟨0, by omega, fun hc' => by rw [Nat.add_zero, hl] at hc'; cases hc'.2⟩, e, he⟩)
      | some w =>
        obtain ⟨hleaf, hw⟩ := lookup_some.mp (hlo.trans hl)
        obtain ⟨q, hq, hs, ha⟩ := h.tab.slot_valid hold hv (by rw [hleaf]; exact hw)
        rw [hleaf] at ha
        have hwalk : walk (lab L) old (c * 4096) false s = .ok (some (q + 8 * (c % 512)), s) := by
          rw [walk_false hva, hpage, hs]
        by_cases hn : lookup s0.mem new c = none
        · rcases share_page h hlen hold hnew hva (hlo.trans hl) hq (hln.trans hn) with
            ⟨s2, k2, e2, v2, hf2, a2, lk2, by2⟩ | ⟨s2, k2, e2, v2, hf2, a2, lk2, by2⟩
          · -- no memory: unmap what was shared
            have hrun : uvmcopyLoop L old new (n + 1) (c * 4096) s = (uvmunmap (lab L) new 0 c true s2).map fun s =>
              (-1, s) := by
              rw [uvmcopyLoop_page hwalk ha hw e2, if_pos (by decide), show c * 4096 / PGSIZE = c from hpage]
            have hvs : ∀ v < c, lookup s2.mem new v = lookup s.mem new v := fun v hv' => by
              rw [lk2 new hnew v (by omega), if_neg (by omega)]
            rcases unmapLoop_spec hnew c 0 s2 k2 rfl v2 (fun _ _ _ _ _ h => h) with ⟨-, s', k', e', h', hcl, hf'⟩ |
              ⟨⟨i, hi, hb⟩, -⟩
            · refine Or.inr (Or.inl ⟨s', k', ?_, h', g.undo h0 h' hold hnew (by omega) hl hn (a.trans a2) lk2 by2 hcl,
                ?_⟩)
              · rw [hrun, uvmunmap_zero new c s2 hc, e']; rfl
              · show s.kmem.nfail < (spec L cap h1 h256).fails s'.kmem
                rw [hf']
                show s.kmem.nfail < s2.kmem.nfail
                omega
            · rw [Nat.zero_div, Nat.zero_add] at hb
              refine absurd ⟨(by omega : i < MAXVA / 4096), Or.inl ?_⟩ hb
              obtain ⟨-, w', hw'⟩ := g.fresh i hi
              rw [hvs i hi, (g.both i hi w' hw').2]; rfl
          · have hrun : uvmcopyLoop L old new (n + 1) (c * 4096) s =
                uvmcopyLoop L old new n ((c + 1) * 4096) (increfcnt (PTE2PA w) s2) := by
              rw [uvmcopyLoop_page hwalk ha hw e2, if_neg (by decide), hnext]
            refine .step (by rw [increfcnt_nfail]; exact hf2) hrun (ih (c + 1) _ k2 ?_ (a.trans a2) v2 hcm)
            refine g.add hold hnew ⟨hcm, hn⟩ hl (hlo.trans hl) a2.held ?_ ?_
            · rw [increfcnt_mem]; exact lk2
            · rw [increfcnt_mem]; exact by2
        · -- mapped already
          refine Or.inr (Or.inr ⟨⟨0, by omega, fun hc' => hn hc'.1.2⟩, "mappages: remap", ?_⟩)
          refine uvmcopyLoop_error hwalk ha hw ?_
          obtain ⟨v1, lf1⟩ := h.reflag hold hv hq (hlo.trans hl) (h.leaf_data hold hv (hlo.trans hl)) (cowFlags_lt w)
            (cowFlags_ne w)
          refine mappages_remap v1 hnew (by omega) hva ?_
          rw [hpage]
          show vbit (leaf (s.mem.storeLE (q + 8 * (c % 512)) 8 (mkpte (PTE2PA w) (cowFlags w))) new c) = true
          rw [lf1 new hnew c hv]
          split
          · exact vbit_mkpte (cowFlags_lt w)
          · cases hb : vbit (leaf s.mem new c) with
            | true => rfl
            | false => exact absurd (hln.symm.trans (lookup_none.mpr hb)) hn
    · refine Or.inr (Or.inr ⟨⟨0, by omega, fun hcan => ?_⟩, "walk", ?_⟩)
      · have := hcan.1.1
        unfold MAXVA at hva this; omega
      · rw [uvmcopyLoop, walk, if_pos (by omega : c * 4096 ≥ MAXVA)]
        rfl

/-- `uvmcopy` of the cow lab. -/
theorem uvmcopy_outcome (h : VmInv (spec L cap h1 h256) NoLent s live k) (hlen : live.length ≤ cap)
    (hold : old ∈ live)
    (hnew : new ∈ live) (sz : Nat) : Outcome L cap h1 h256 live s k old new ((sz + PGSIZE - 1) / PGSIZE) 0 s :=
  uvmcopyLoop_spec h hlen hold hnew _ 0 s k (.refl ..) (fun _ => Or.inl rfl) h (Nat.zero_le _)

theorem uvmcopy_spec (h : VmInv (spec L cap h1 h256) NoLent s live k) (hlen : live.length ≤ cap) (hold : old ∈ live)
    (hnew : new ∈ live) (sz : Nat) : Shares L cap h1 h256 live s k old new ((sz + PGSIZE - 1) / PGSIZE) 0 s := by
  rcases uvmcopy_outcome h hlen hold hnew sz with ⟨s', k', e, h', g, -, hf⟩ | ⟨s', k', e, h', u, hf⟩ | he
  · exact Or.inl ⟨s', k', e, h', g, hf⟩
  · exact Or.inr (Or.inl ⟨s', k', e, h', u.from, u.tables.held, hf⟩)
  · exact Or.inr (Or.inr he)

/-! ## walkcowaddr -/

/-- The flags walkcowaddr maps the copy with. -/
def ownFlags (w : Nat) : Nat := clear (PTE_FLAGS w) PTE_COW ||| PTE_W

theorem ownFlags_testBit (w : Nat) {i : Nat} (hi : i < 10) :
    (ownFlags w).testBit i = (w.testBit i && i != 8 || i == 2) := by
  unfold ownFlags PTE_FLAGS
  rw [Nat.testBit_or, testBit_clear, testBit_mod hi, bit_four i hi, bit_cow i hi, decide_eq_true (by omega : i < 64)]
  cases hb : i == 8 <;> simp [bne, hb]

theorem ownFlags_lt (w : Nat) : ownFlags w < 1024 :=
  Nat.or_lt_two_pow (n := 10) (Nat.lt_of_le_of_lt (clear_le _ _) (Nat.mod_lt _ (by decide))) (by decide)

theorem ownFlags_ne (w : Nat) : ownFlags w ||| PTE_V ≠ PTE_V :=
  ne_v_of_bit (i := 2) (by decide) (by rw [ownFlags_testBit w (by decide)]; simp)

/-- The writer of a shared page has a page of its own with the same bytes. -/
structure Copied (live : List Nat) (s : Mach Kmem) (k : Nat → Kind) (t v w p : Nat) (s' : Mach Kmem)
    (k' : Nat → Kind) : Prop where
  page : IsPage p
  lookup : ∀ t' ∈ live, ∀ v' < VPN,
    lookup s'.mem t' v' = if t' = t ∧ v' = v then some (mkpte p (ownFlags w)) else Vm.lookup s.mem t' v'
  byteAt : ∀ t' ∈ live, ∀ va, va / 4096 < VPN → byteAt s'.mem t' va = Vm.byteAt s.mem t' va
  held : ∀ r, k' r = .held ↔ k r = .held
  alone : Private s'.mem live t v

/-- The copy, once there is a page for it. -/
theorem cow_copy (h : VmInv (spec L cap h1 h256) NoLent s live k) {t va w p q : Nat} {s1 : Mach Kmem} (ht : t ∈ live)
    (hva : va < MAXVA)
    (hal : va % 4096 = 0) (hl : lookup s.mem t (va / 4096) = some w) (hq : k q = .node t 0 (va / 4096 / 512))
    (hk : kalloc s = (some p, s1)) :
    s1.mem.loadLE (q + 8 * (va / 4096 % 512)) 8 = w ∧
    (s1.mem.move p (PTE2PA w) PGSIZE).loadLE (q + 8 * (va / 4096 % 512)) 8 = w ∧
    ∃ s2 s3 k3, uvmunmap (lab L) t va 1 true { s1 with mem := s1.mem.move p (PTE2PA w) PGSIZE } = .ok s2 ∧
      mappages (lab L) t va PGSIZE p (ownFlags w) s2 = .ok (0, s3) ∧ VmInv (spec L cap h1 h256) NoLent s3 live k3 ∧
      Copied live s k t (va / 4096) w p s3 k3 ∧ s3.kmem.nfail = s.kmem.nfail := by
  have hv := vpn_of_lt hva
  have hd := h.leaf_data ht hv hl
  obtain ⟨hfree, hp, -, v1, lf1, by1, hf1⟩ := h.kalloc_fill (A := lab L) hk
    (move_off s1.mem (PTE2PA w) (h.kalloc_some (A := lab L) hk).2.1.1)
  have hne : PTE2PA w ≠ p := fun e => by rw [e, hfree] at hd; cases hd
  have hqp : q ≠ p := by rintro rfl; rw [hfree] at hq; cases hq
  have hj : va / 4096 % 512 < 512 := Nat.mod_lt _ (by decide)
  have hqk : Function.update k p .held q = .node t 0 (va / 4096 / 512) := by rw [Function.update_of_ne hqp]; exact hq
  have hw0 : pte s.mem q (va / 4096 % 512) = w := by rw [← h.tab.leaf_node ht hv hq]; exact (lookup_some.mp hl).1
  have hw1 : pte (s1.mem.move p (PTE2PA w) PGSIZE) q (va / 4096 % 512) = w := by
    rw [← v1.tab.leaf_node ht hv hqk, lf1 t ht _ hv]; exact (lookup_some.mp hl).1
  have hk1 : pte s1.mem q (va / 4096 % 512) = w := by
    rw [← hw0]
    refine pte_agree (fun x hx hy => ?_) hj
    rw [(Inv.kalloc_some h.alloc hk).2.2.1]
    have := (h.tab.nodePage hq).1
    exact set_off s.mem 5 hp.1 x (by rw [show pageOf x = q by unfold pageOf; omega]; exact hqp)
  refine ⟨hk1, hw1, ?_⟩
  have hvb := (lookup_some.mp hl).2
  have hl1 : leaf (s1.mem.move p (PTE2PA w) PGSIZE) t (va / 4096) = w := by
    rw [lf1 t ht _ hv]; exact (lookup_some.mp hl).1
  obtain ⟨s2, k2, e2, v2, u2, hf2⟩ := unmapOne_free v1 ht hva (by rw [hl1]; exact hvb) (fun h => h)
  have hp2 : k2 p = .held := by
    rcases u2.kind p with e | e
    · rw [e, Function.update_self]
    · rw [Function.update_self] at e; cases e.1
  have hq2 : k2 q = .node t 0 (va / 4096 / 512) := by
    rcases u2.kind q with e | e
    · rw [e, hqk]
    · rw [hqk] at e; cases e.1
  have hn2 : vbit (leaf s2.mem t (va / 4096)) = false := by rw [u2.leaf t ht _ hv, if_pos ⟨rfl, rfl⟩]; rfl
  rcases mappages_held v2 ht hal hva hn2 hp2 (fun h => h) (ownFlags_lt w) (ownFlags_ne w) with
    ⟨s3, k3, e3, -⟩ | ⟨s3, k3, e3, v3, m3, hf3⟩
  · have := mappages_slot hal hva (v2.tab.slot_node ht hv hq2) e3
    cases this
  · -- a page in use before is neither the fresh one nor a table page
    have old : ∀ {r}, k r ≠ .free → r ≠ p := by rintro r hr rfl; exact hr hfree
    have lk : ∀ t' ∈ live, ∀ v' < VPN, lookup s3.mem t' v' =
        if t' = t ∧ v' = va / 4096 then some (mkpte p (ownFlags w)) else lookup s.mem t' v' := fun t' ht' v' hv' => by
      rw [m3.lookup (ownFlags_lt w) ht' hv']
      split
      · rfl
      · rename_i e
        rw [u2.lookup ht' hv', if_neg e]
        exact lookup_congr (lf1 t' ht' v' hv')
    refine ⟨s2, s3, k3, by rw [uvmunmap_one hal hva]; exact e2, e3, v3,
      ⟨hp, lk, fun t' ht' x hx => ?_, fun r => ?_, ?_⟩, ?_⟩
    · rw [m3.byteAt v2 hp hp2 (ownFlags_lt w) ht' hx]
      have b1 : byteAt (s1.mem.move p (PTE2PA w) PGSIZE) t' x = byteAt s.mem t' x :=
        h.tab.byteAt_same ht' hx (lookup_congr (lf1 t' ht' _ hx)) fun y hy =>
          by1 y (old (by rw [hy.resolve_right id]; simp))
      split
      · -- the copied bytes
        rename_i e
        rw [u2.bytes _ (by rw [pageOf_add hp.1 (Nat.mod_lt _ (by decide)), hp2]; rfl)]
        show some (s1.mem.move p (PTE2PA w) PGSIZE (p + x % 4096)) = _
        rw [Mem.move_in _ _ (by omega) (by unfold PGSIZE; omega), Nat.add_sub_cancel_left]
        unfold byteAt
        rw [e.1, e.2, hl, Option.map_some, (Inv.kalloc_some h.alloc hk).2.2.1]
        refine congrArg some (set_off s.mem 5 hp.1 _ ?_)
        rw [pageOf_add (pte2pa_mod _) (Nat.mod_lt _ (by decide))]; exact hne
      · rename_i e
        rw [u2.byteAt v2 ht' hx, if_neg e]
        exact b1
    · by_cases hr : r = p
      · subst hr; rw [m3.here, hfree]; simp
      · have e1 : k2 r = .held ↔ k r = .held := by
          rcases u2.kind r with e | ⟨e, e'⟩
          · rw [e, Function.update_of_ne hr]
          · rw [Function.update_of_ne hr] at e
            rw [e, e']; simp
        rw [← e1]
        by_cases hr2 : k2 r = .free
        · rw [hr2]
          rcases m3.new r hr2 with e | ⟨_, _, _, e⟩
          · rw [e]
          · rw [e]; simp
        · rw [m3.kind r hr2 hr]
    · intro w1 hw1 t' ht' w2 hw2 e
      rw [lk t ht _ hv, if_pos ⟨rfl, rfl⟩] at hw1
      obtain rfl := Option.some.inj hw1
      by_contra hne'
      rw [lk t' ht' _ hv, if_neg (fun e => hne' e.1)] at hw2
      have := h.leaf_data ht' hv hw2
      rw [e, pte2pa_mkpte hp (ownFlags_lt w), hfree] at this
      cases this
    · have e1 : s3.kmem.nfail = s2.kmem.nfail := hf3
      have e2 : s2.kmem.nfail = s1.kmem.nfail := hf2
      have e3 : s1.kmem.nfail = s.kmem.nfail := hf1
      omega

theorem pgrounddown_eq (va : Nat) : PGROUNDDOWN va = va / 4096 * 4096 := rfl

/-- The checks on a valid entry, in the order the code makes them. -/
theorem walkcowaddr_entry {t va a w : Nat} (hva : va < MAXVA) (hs : slotFrom s.mem (va / 4096) 2 t = some a)
    (ha : s.mem.loadLE a 8 = w) (hw : vbit w = true) :
    walkcowaddr L t va s =
      if w &&& PTE_U = 0 then .ok (0, s)
      else if w &&& PTE_W = 0 then (if w &&& PTE_COW = 0 then .ok (0, s) else breakcow L t va a (PTE2PA w) s)
      else .ok (PTE2PA w, s) := by
  have hV : ¬ (w &&& PTE_V = 0) := (vbit_eq w).mpr hw
  subst ha
  rw [walkcowaddr, if_neg (by omega), walk_false hva, hs]
  exact if_neg hV

/-- A shared page is broken up when there is a page for the copy. -/
theorem breakcow_some {t va a w p : Nat} {s1 s2 s3 : Mach Kmem} (hk : kalloc s = (some p, s1))
    (h0 : (s1.mem.move p (PTE2PA w) PGSIZE).loadLE a 8 = w)
    (h2 : uvmunmap (lab L) t (PGROUNDDOWN va) 1 true { s1 with mem := s1.mem.move p (PTE2PA w) PGSIZE } = .ok s2)
    (h3 : mappages (lab L) t (PGROUNDDOWN va) PGSIZE p (ownFlags w) s2 = .ok (0, s3)) :
    breakcow L t va a (PTE2PA w) s = .ok (p, s3) := by
  rw [breakcow, hk]
  show (uvmunmap (lab L) t (PGROUNDDOWN va) 1 true { s1 with mem := s1.mem.move p (PTE2PA w) PGSIZE } >>= _) = _
  rw [h2, ok_bind]
  dsimp only
  rw [h0, ← ownFlags, h3, ok_bind]
  exact if_neg (fun h => h rfl)

/-- No page the user may write. -/
theorem walkcowaddr_refuse (h : VmInv (spec L cap h1 h256) NoLent s live k) {t va : Nat} (ht : t ∈ live)
    (hno : va < MAXVA → ∀ w, lookup s.mem t (va / 4096) = some w →
      ¬ (w.testBit 4 = true ∧ (w.testBit 2 = true ∨ w.testBit 8 = true))) :
    walkcowaddr L t va s = .ok (0, s) := by
  by_cases hva : va < MAXVA
  · have hv := vpn_of_lt hva
    cases hl : lookup s.mem t (va / 4096) with
    | none =>
      have hz : leaf s.mem t (va / 4096) &&& PTE_V = 0 := by
        apply Classical.byContradiction; intro e
        have := (vbit_eq _).mp e
        rw [lookup_none.mp hl] at this; cases this
      rw [walkcowaddr, if_neg (by omega), walk_false hva]
      cases hs : slotFrom s.mem (va / 4096) 2 t with
      | none => rfl
      | some a =>
        have ha : s.mem.loadLE a 8 = leaf s.mem t (va / 4096) := by rw [leaf, hs]; rfl
        show (if s.mem.loadLE a 8 &&& PTE_V = 0 then _ else _) = _
        rw [ha, if_pos hz]
    | some w =>
      obtain ⟨hleaf, hw⟩ := lookup_some.mp hl
      obtain ⟨q, hq, hs, ha⟩ := h.tab.slot_valid ht hv (by rw [hleaf]; exact hw)
      rw [hleaf] at ha
      have hW : (w &&& PTE_W = 0) ↔ w.testBit 2 = false := and_bit_eq_zero w 2
      have hC : (w &&& PTE_COW = 0) ↔ w.testBit 8 = false := and_bit_eq_zero w 8
      rw [walkcowaddr_entry hva hs ha hw]
      by_cases bU : w &&& PTE_U = 0
      · rw [if_pos bU]
      · have hU : w.testBit 4 = true := by
          rw [← Bool.not_eq_false]
          exact fun e => bU ((and_bit_eq_zero w 4).mpr e)
        have hb := fun hb => hno hva w hl ⟨hU, hb⟩
        rw [if_neg bU, if_pos (hW.mpr (by simpa using fun e => hb (Or.inl e))),
          if_pos (hC.mpr (by simpa using fun e => hb (Or.inr e)))]
  · rw [walkcowaddr, if_pos (by omega)]

/-- `walkcowaddr`: no page the user may write, its own page, no memory, or a fresh copy. -/
theorem walkcowaddr_spec (h : VmInv (spec L cap h1 h256) NoLent s live k) {t : Nat} (ht : t ∈ live) (va : Nat) :
    ((va < MAXVA → ∀ w, lookup s.mem t (va / 4096) = some w →
      ¬ (w.testBit 4 = true ∧ (w.testBit 2 = true ∨ w.testBit 8 = true))) ∧
        walkcowaddr L t va s = .ok (0, s)) ∨
      (va < MAXVA ∧ ∃ w, lookup s.mem t (va / 4096) = some w ∧ w.testBit 4 = true ∧ w.testBit 2 = true ∧
        walkcowaddr L t va s = .ok (PTE2PA w, s)) ∨
      (∃ s', walkcowaddr L t va s = .ok (0, s') ∧ VmInv (spec L cap h1 h256) NoLent s' live k ∧ Kept live s k s' k ∧
        s'.kmem.nfail = s.kmem.nfail + 1 ∧ (kalloc s).1 = none) ∨
      va < MAXVA ∧ ∃ w p s' k', lookup s.mem t (va / 4096) = some w ∧ w.testBit 4 = true ∧
        walkcowaddr L t va s = .ok (p, s') ∧
        VmInv (spec L cap h1 h256) NoLent s' live k' ∧ Copied live s k t (va / 4096) w p s' k' ∧
        s'.kmem.nfail = s.kmem.nfail ∧ w.testBit 8 = true := by
  by_cases hno : va < MAXVA → ∀ w, lookup s.mem t (va / 4096) = some w →
    ¬ (w.testBit 4 = true ∧ (w.testBit 2 = true ∨ w.testBit 8 = true))
  · exact Or.inl ⟨hno, walkcowaddr_refuse h ht hno⟩
  obtain ⟨hva, w, hl, bU, hb⟩ : va < MAXVA ∧ ∃ w, lookup s.mem t (va / 4096) = some w ∧ w.testBit 4 = true ∧
    (w.testBit 2 = true ∨ w.testBit 8 = true) := by
    by_contra hc
    exact hno fun hva w hl hb => hc ⟨hva, w, hl, hb⟩
  obtain ⟨hleaf, hw⟩ := lookup_some.mp hl
  obtain ⟨q, hq, hs, ha⟩ := h.tab.slot_valid ht (vpn_of_lt hva) (by rw [hleaf]; exact hw)
  rw [hleaf] at ha
  have hU : (w &&& PTE_U = 0) ↔ w.testBit 4 = false := and_bit_eq_zero w 4
  have hW : (w &&& PTE_W = 0) ↔ w.testBit 2 = false := and_bit_eq_zero w 2
  have hC : (w &&& PTE_COW = 0) ↔ w.testBit 8 = false := and_bit_eq_zero w 8
  have hrun := walkcowaddr_entry (L := L) hva hs ha hw
  rw [if_neg (by rw [hU, bU]; simp)] at hrun
  by_cases bW : w.testBit 2 = true
  · rw [if_neg (by rw [hW, bW]; simp)] at hrun
    exact Or.inr (Or.inl ⟨hva, w, hl, bU, bW, hrun⟩)
  · have bC := hb.resolve_left bW
    rw [if_pos (by rw [hW]; simpa using bW), if_neg (by rw [hC, bC]; simp)] at hrun
    rcases hk : kalloc s with ⟨_ | p, s1⟩
    · rw [breakcow, hk] at hrun
      obtain ⟨v1, -, -, hf⟩ := h.kalloc_none (A := lab L) hk
      exact Or.inr (Or.inr (Or.inl ⟨s1, hrun, v1, kept_kalloc_none (A := lab L) h hk, hf, rfl⟩))
    · have hround : PGROUNDDOWN va / 4096 = va / 4096 := by rw [pgrounddown_eq]; omega
      have hrl : PGROUNDDOWN va < MAXVA := Nat.lt_of_le_of_lt (pgrounddown_le va) hva
      obtain ⟨-, e0, s2, s3, k3, e2, e3, v3, c3, hf⟩ := cow_copy h ht hrl (by rw [pgrounddown_eq]; omega)
        (by rw [hround]; exact hl) (by rw [hround]; exact hq) hk
      rw [hround] at e0 c3
      refine Or.inr (Or.inr (Or.inr ⟨hva, w, p, s3, k3, hl, bU, ?_, v3, c3, hf, bC⟩))
      rw [hrun, breakcow_some hk e0 e2 e3]

end Xv6Labs.Cow
