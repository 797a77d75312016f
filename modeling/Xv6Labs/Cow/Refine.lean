/-
  Xv6Labs.Cow.Refine — what a kernel must do for `Act.run` to hold of it.

  `Fine` is what is kept of a machine: well-formed memory, leaves with the flags `P`, and
  no page that a writable leaf maps is mapped by another table. `Implements K P room` is what
  a kernel's three functions must do. A writable leaf maps a private page in both: the eager
  kernel never shares, and the cow kernel clears PTE_W when it does.
-/

import Xv6Labs.Cow.Worlds

namespace Xv6Labs.Cow

open Lib Vm

variable {L : Layout} {P : Nat → Prop} {m m' : Mach Kmem} {live : List Nat} {k k' : Nat → Kind} {t : Nat} {sp : Space}

/-- The allocator as the worlds need it: up to 256 tables may map a page. -/
abbrev spec256 (L : Layout) : AllocSpec (lab L) := spec L 256 (by decide) (by decide)

structure Fine (L : Layout) (P : Nat → Prop) (live : List Nat) (m : Mach Kmem) : Prop where
  inv : ∃ k, VmInv (spec256 L) NoLent m live k
  flags : ∀ t ∈ live, ∀ v < VPN, ∀ w, lookup m.mem t v = some w → P w
  alone : ∀ t ∈ live, ∀ v < VPN, ∀ w, lookup m.mem t v = some w → w.testBit 2 = true → Private m.mem live t v

theorem Fine.nodup (h : Fine L P live m) : live.Nodup := by
  obtain ⟨k, hv⟩ := h.inv
  exact hv.nodup

theorem Fine.nonNull (h : Fine L P live m) (ht : t ∈ live) : NonNull m.mem t := by
  obtain ⟨k, hv⟩ := h.inv
  exact hv.nonNull ht

/-- Every leaf is as it was, gone, or of a page nobody else maps. -/
theorem Fine.step {live' : List Nat} (h : Fine L P live m) (hv : VmInv (spec256 L) NoLent m' live' k')
    (hl : ∀ t ∈ live', ∀ v < VPN, (t ∈ live ∧ lookup m'.mem t v = lookup m.mem t v) ∨ lookup m'.mem t v = none ∨
      ((∀ w, lookup m'.mem t v = some w → P w) ∧ Private m'.mem live' t v)) : Fine L P live' m' := by
  refine ⟨⟨k', hv⟩, fun t ht v hv w hw => ?_, fun t ht v hv w hw hb => ?_⟩
  · rcases hl t ht v hv with ⟨hm, e⟩ | e | ⟨hp, -⟩
    · exact h.flags t hm v hv w (e ▸ hw)
    · rw [e] at hw; cases hw
    · exact hp w hw
  · rcases hl t ht v hv with ⟨hm, e⟩ | e | ⟨-, hp⟩
    · intro w1 hw1 t' ht' w' hw' e'
      rcases hl t' ht' v hv with ⟨hm', e1⟩ | e1 | ⟨-, hp⟩
      · rw [e] at hw hw1
        exact h.alone t hm v hv w hw hb w1 hw1 t' hm' w' (e1 ▸ hw') e'
      · rw [e1] at hw'; cases hw'
      · exact (hp w' hw' t ht w1 hw1 e'.symm).symm
    · rw [e] at hw; cases hw
    · exact hp

/-! ## The operations both kernels share -/

/-- The other tables show what they did. -/
def Untouched (live : List Nat) (t : Nat) (m m' : Mach Kmem) : Prop :=
  ∀ t' ∈ live, t' ≠ t → ∀ sp, Views m.mem t' sp → Views m'.mem t' sp

theorem fine_uvmalloc (h : Fine L P live m) (hP : ∀ p, P (mkpte p userPerm)) (ht : t ∈ live) (hs : Views m.mem t sp)
    {oldsz newsz : Nat} (hle : oldsz ≤ newsz) :
    let v0 := PGROUNDUP oldsz / 4096
    let n := (newsz - PGROUNDUP oldsz + PGSIZE - 1) / PGSIZE
    (vacant sp v0 n ∧ ∃ m', Vm.uvmalloc (lab L) t oldsz newsz m = .ok (newsz, m') ∧ Fine L P live m' ∧
        Views m'.mem t (sp.alloc v0 n) ∧ Untouched live t m m' ∧ m'.kmem.nfail = m.kmem.nfail) ∨
      (∃ r m', Vm.uvmalloc (lab L) t oldsz newsz m = .ok (r, m') ∧ m.kmem.nfail < m'.kmem.nfail) ∨
      ¬ vacant sp v0 n ∧ ∃ e, Vm.uvmalloc (lab L) t oldsz newsz m = .error e := by
  obtain ⟨k, hv⟩ := h.inv
  rcases uvmalloc_spec hv ht oldsz newsz hle with ⟨he, i, hi, hc⟩ | ⟨m1, k1, e1, v1, g, hf⟩ | ⟨m1, k1, e1, -, -, hf⟩
  · exact Or.inr (Or.inr ⟨fun hvac => hc (hs.canMap.mpr (hvac i hi)), he⟩)
  · refine Or.inl ⟨fun j hj => hs.canMap.mp (g.fresh _ ⟨by omega, by omega⟩), m1, e1, h.step v1 fun t' ht' v hv' =>
      ?_, g.views ht hs,
      fun t' ht' hne sp' hs' => g.views_other ht' hne hs', hf⟩
    by_cases ec : t' = t ∧ InRange (PGROUNDUP oldsz / 4096) ((newsz - PGROUNDUP oldsz + PGSIZE - 1) / PGSIZE) v
    · obtain ⟨rfl, ec⟩ := ec
      refine Or.inr (Or.inr ⟨fun w hw => ?_, g.alone v ec⟩)
      obtain ⟨p, -, -, hl⟩ := g.here v ec
      rw [hl] at hw
      rw [← Option.some.inj hw]
      exact hP p
    · exact Or.inl ⟨ht', g.lookup t' ht' v hv' ec⟩
  · exact Or.inr (Or.inl ⟨0, m1, e1, hf⟩)

theorem fine_unmapLoop (h : Fine L P live m) (ht : t ∈ live) (hs : Views m.mem t sp) {va n : Nat}
    (hal : va % 4096 = 0) :
    (covers sp (va / 4096) n ∧ ∃ m', unmapLoop (lab L) t true n va m = .ok m' ∧ Fine L P live m' ∧
        Views m'.mem t (sp.dealloc (va / 4096) n) ∧ Untouched live t m m' ∧ m'.kmem.nfail = m.kmem.nfail) ∨
      ¬ covers sp (va / 4096) n ∧ ∃ e, unmapLoop (lab L) t true n va m = .error e := by
  obtain ⟨k, hv⟩ := h.inv
  have hcov : ∀ i, CanUnmap (lab L) m.mem t (va / 4096 + i) ↔ _ := fun i => hs.canUnmap rfl
  rcases unmapLoop_spec ht n va m k hal hv (fun _ _ _ _ _ h => h) with ⟨hall, m1, k1, e1, v1, hc, hf⟩ |
    ⟨⟨i, hi, hb⟩, he⟩
  · refine Or.inl ⟨fun i hi => (hcov i).mp (hall i hi), m1, e1, h.step v1 fun t' ht' v hv' => ?_, hc.views ht hs,
      fun t' ht' hne sp' hs' => hc.views_other ht' hne hs', hf⟩
    rw [hc.lookup t' ht' v hv']
    split
    · exact Or.inr (Or.inl rfl)
    · exact Or.inl ⟨ht', rfl⟩
  · exact Or.inr ⟨fun hcv => hb ((hcov i).mpr (hcv i hi)), he⟩

theorem fine_uvmfree (h : Fine L P live m) (hR : ∀ w, P w → w.testBit 1 = true) (ht : t ∈ live)
    (hs : Views m.mem t sp) (sz : Nat) :
    let fits := covers sp 0 (freePages sz) ∧ ∀ v < VPN, freePages sz ≤ v → sp.user v = none
    (fits ∧ ∃ m', Vm.uvmfree (lab L) t sz m = .ok m' ∧ Fine L P (live.erase t) m' ∧ Untouched live t m m' ∧
        m'.kmem.nfail = m.kmem.nfail) ∨
      ¬ fits ∧ ∃ e, Vm.uvmfree (lab L) t sz m = .error e := by
  obtain ⟨k, hv⟩ := h.inv
  have hx : RwxLeaves m.mem t := fun v hv w hw e => by
    have hb : (w &&& (PTE_R ||| PTE_W ||| PTE_X)).testBit 1 = true := by
      rw [Nat.testBit_and, hR w (h.flags t ht v hv w hw)]; rfl
    rw [e] at hb; cases hb
  have hfit : ((∀ i < freePages sz, CanUnmap (lab L) m.mem t i) ∧ ∀ v < VPN, freePages sz ≤ v →
    lookup m.mem t v = none) ↔
      covers sp 0 (freePages sz) ∧ ∀ v < VPN, freePages sz ≤ v → sp.user v = none := by
    refine and_congr (forall₂_congr fun i hi => ?_) (forall₂_congr fun v hv => forall_congr' fun hn => ?_)
    · rw [Nat.zero_add]; exact hs.canUnmap rfl
    · rw [← Option.not_isSome_iff_eq_none, ← Option.not_isSome_iff_eq_none, hs.isSome hv]
  rcases uvmfree_spec hv sz ht hx (fun _ _ _ _ _ h => h) with ⟨hf, m1, k1, e1, v1, kp, hfl⟩ | ⟨hf, he⟩
  · refine Or.inl ⟨hfit.mp hf, m1, e1, h.step v1 fun t' ht' v hv' => ?_, fun t' ht' hne sp' hs' => ?_, hfl⟩
    · exact Or.inl ⟨List.mem_of_mem_erase ht', kp.lookup t' ht' v hv'⟩
    · exact kp.views (hv.nodup.mem_erase_iff.mpr ⟨hne, ht'⟩) hs'
  · exact Or.inr ⟨fun hf' => hf (hfit.mpr hf'), he⟩

/-! ## What a kernel must do -/

/-- What uvmcopy of the first `n` pages of the space `sp` into the table `new` does to what the
    users see. -/
def Forks (L : Layout) (P : Nat → Prop) (live : List Nat) (new n : Nat) (sp : Space) (m : Mach Kmem)
    (run : Except String (Int × Mach Kmem)) : Prop :=
  (covers sp 0 n ∧ ∃ m', run = .ok (0, m') ∧ Fine L P live m' ∧ Views m'.mem new (sp.fork n) ∧
    Untouched live new m m' ∧ m'.kmem.nfail = m.kmem.nfail) ∨
    (∃ r m', run = .ok (r, m') ∧ m.kmem.nfail < m'.kmem.nfail) ∨
    ¬ covers sp 0 n ∧ ∃ e, run = .error e

/-- With up to as many tables as `room` allows. -/
structure Implements (L : Layout) (K : Kernel) (P : Nat → Prop) (room : Nat → Bool) : Prop where
  user : ∀ p, P (mkpte p userPerm)
  read : ∀ w, P w → w.testBit 1 = true
  uvmcopy : ∀ {live m old new sp} (sz : Nat), Fine L P live m → old ∈ live → new ∈ live → old ≠ new →
    room live.length = true →
    (∀ v < VPN, lookup m.mem new v = none) → Views m.mem old sp →
    Forks L P live new ((sz + PGSIZE - 1) / PGSIZE) sp m (K.uvmcopy old new sz m)
  copyout : ∀ {live m t sp} (dstva : Nat) (src : List UInt8), Fine L P live m → t ∈ live → Views m.mem t sp →
    (∃ m', K.copyout t dstva src m = .ok ((sp.copyoutLoop src.length dstva src).1, m') ∧ Fine L P live m' ∧
        Views m'.mem t (sp.copyoutLoop src.length dstva src).2 ∧ Untouched live t m m' ∧
          m'.kmem.nfail = m.kmem.nfail) ∨
      ∃ r m', K.copyout t dstva src m = .ok (r, m') ∧ m.kmem.nfail < m'.kmem.nfail
  store : ∀ {live m t sp} (va : Nat) (b : UInt8), Fine L P live m → t ∈ live → Views m.mem t sp →
    (∃ m', K.store t va b m = .ok ((sp.store va b).1, m') ∧ Fine L P live m' ∧ Views m'.mem t (sp.store va b).2 ∧
        Untouched live t m m' ∧ m'.kmem.nfail = m.kmem.nfail) ∨
      ∃ r m', K.store t va b m = .ok (r, m') ∧ m.kmem.nfail < m'.kmem.nfail

/-! ## Writing through a translation -/

/-- What `walkaddr` and `walkcowaddr` have in common for a writer: they find or make a page
    that no other table maps. -/
def Translates (L : Layout) (P : Nat → Prop) (live : List Nat) (t : Nat)
    (xlate : Nat → Mach Kmem → Except String (Nat × Mach Kmem)) : Prop :=
  ∀ m sp va, Fine L P live m → Views m.mem t sp →
    (∃ m', xlate va m = .ok (0, m') ∧ m.kmem.nfail < m'.kmem.nfail) ∨
      (sp.allows va = false ∧ xlate va m = .ok (0, m)) ∨
      (sp.allows va = true ∧ va < MAXVA ∧ ∃ w m', xlate va m = .ok (PTE2PA w, m') ∧ PTE2PA w ≠ 0 ∧ Fine L P live m' ∧
        (∀ t' ∈ live, ∀ sp', Views m.mem t' sp' → Views m'.mem t' sp') ∧ lookup m'.mem t (va / 4096) = some w ∧
        w.testBit 4 = true ∧ w.testBit 2 = true ∧ m'.kmem.nfail = m.kmem.nfail)

/-- Bytes put into a page that a writable leaf maps. -/
theorem Fine.put (h : Fine L P live m) (ht : t ∈ live) {va w : Nat} (bs : List UInt8) (hva : va / 4096 < VPN)
    (hl : lookup m.mem t (va / 4096) = some w) (hw : w.testBit 2 = true) (hn : va % 4096 + bs.length ≤ 4096) :
    Fine L P live { m with mem := m.mem.put (PTE2PA w + va % 4096) bs } ∧
      Wrote live m t va bs { m with mem := m.mem.put (PTE2PA w + va % 4096) bs } := by
  obtain ⟨k, hv⟩ := h.inv
  obtain ⟨v1, wr⟩ := hv.put ht hva hl (h.alone t ht _ hva w hl hw) hn
  exact ⟨h.step v1 fun t' ht' v hv' => Or.inl ⟨ht', wr.lookup t' ht' v hv'⟩, wr⟩

theorem copyoutLoop_refines {xlate : Nat → Mach Kmem → Except String (Nat × Mach Kmem)} (ht : t ∈ live)
    (hx : Translates L P live t xlate) : ∀ rounds dstva src (m : Mach Kmem) sp, Fine L P live m → Views m.mem t sp →
    (∃ m', copyoutLoop xlate rounds dstva src m = .ok ((sp.copyoutLoop rounds dstva src).1, m') ∧ Fine L P live m' ∧
        Views m'.mem t (sp.copyoutLoop rounds dstva src).2 ∧ Untouched live t m m' ∧ m'.kmem.nfail = m.kmem.nfail) ∨
      ∃ r m', copyoutLoop xlate rounds dstva src m = .ok (r, m') ∧ m.kmem.nfail < m'.kmem.nfail := by
  intro rounds
  induction rounds with
  | zero => intro dstva src m sp h hs; exact Or.inl ⟨m, rfl, h, hs, fun _ _ _ _ h => h, rfl⟩
  | succ rounds ih =>
    intro dstva src m sp h hs
    by_cases hz : src.length = 0
    · refine Or.inl ⟨m, ?_, h, ?_, fun _ _ _ _ h => h, rfl⟩
      · simp only [copyoutLoop, Space.copyoutLoop, hz, if_true]
      · simp only [Space.copyoutLoop, hz, if_true]; exact hs
    · have hd : PGROUNDDOWN dstva = dstva / 4096 * 4096 := rfl
      have hround : PGROUNDDOWN dstva / 4096 = dstva / 4096 := by rw [hd]; omega
      have hoff : dstva - PGROUNDDOWN dstva = dstva % 4096 := by rw [hd]; omega
      rcases hx m sp (PGROUNDDOWN dstva) h hs with ⟨m1, e1, hf⟩ | ⟨ha, e1⟩ | ⟨ha, hva, w, m1, e1, hnz, f1, vw, hl, -,
        hw, hf⟩
      · exact Or.inr ⟨-1, m1, by rw [copyoutLoop_round hz e1, if_pos rfl], hf⟩
      · refine Or.inl ⟨m, ?_, h, ?_, fun _ _ _ _ h => h, rfl⟩
        · rw [copyoutLoop_round hz e1, if_pos rfl]
          simp only [Space.copyoutLoop, hz, ha, if_false, Bool.false_eq_true]
        · simp only [Space.copyoutLoop, hz, ha, if_false, Bool.false_eq_true]; exact hs
      · rw [hround] at hl
        have hv : dstva / 4096 < VPN := by rw [← hround]; exact vpn_of_lt hva
        obtain ⟨f2, wr⟩ := f1.put ht (src.take (min (PGSIZE - (dstva - PGROUNDDOWN dstva)) src.length)) hv hl hw (by
          rw [List.length_take, hoff]; unfold PGSIZE; omega)
        have hs2 := wr.views sp (vw t ht sp hs)
        have hrun : copyoutLoop xlate (rounds + 1) dstva src m =
          copyoutLoop xlate rounds (u64 (PGROUNDDOWN dstva + PGSIZE))
            (src.drop (min (PGSIZE - (dstva - PGROUNDDOWN dstva)) src.length))
            ⟨m1.mem.put (PTE2PA w + dstva % 4096) (src.take (min (PGSIZE - (dstva - PGROUNDDOWN dstva)) src.length)),
              m1.kmem⟩ := by
          rw [copyoutLoop_round hz e1, if_neg hnz, hoff]
        have hsp : sp.copyoutLoop (rounds + 1) dstva src =
          (sp.put dstva (src.take (min (PGSIZE - (dstva - PGROUNDDOWN dstva)) src.length))).copyoutLoop
            rounds (u64 (PGROUNDDOWN dstva + PGSIZE))
              (src.drop (min (PGSIZE - (dstva - PGROUNDDOWN dstva)) src.length)) := by
          simp only [Space.copyoutLoop, hz, ha, if_false, if_true]
        rw [hrun, hsp]
        have hk :
          (⟨m1.mem.put (PTE2PA w + dstva % 4096) (src.take (min (PGSIZE - (dstva - PGROUNDDOWN dstva)) src.length)),
          m1.kmem⟩ :
            Mach Kmem).kmem.nfail = m.kmem.nfail := hf
        rcases ih (u64 (PGROUNDDOWN dstva + PGSIZE))
          (src.drop (min (PGSIZE - (dstva - PGROUNDDOWN dstva)) src.length)) _ _ f2 hs2 with
          ⟨m', e', f', hs', un, hf'⟩ | ⟨r, m', e', hf'⟩
        · refine Or.inl ⟨m', e', f', hs', fun t' ht' hne sp' hs'' => ?_, by rw [hf']; exact hk⟩
          exact un t' ht' hne sp' (wr.other t' ht' hne sp' (vw t' ht' sp' hs''))
        · exact Or.inr ⟨r, m', e', by rw [hk] at hf'; exact hf'⟩

end Xv6Labs.Cow
