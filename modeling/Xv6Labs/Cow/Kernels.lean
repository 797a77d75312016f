/-
  Xv6Labs.Cow.Kernels — the two kernels implement the actions on spaces.

  - `cow_translates`, `walkaddr_translates`: each kernel's translation gives a writer a page
    of its own.
  - `cow_implements`, `eager_implements`.
-/

import Xv6Labs.Cow.Refine

namespace Xv6Labs.Cow

open Lib Vm

variable {L : Layout} {P : Nat → Prop} {m m' : Mach Kmem} {live : List Nat} {k k' : Nat → Kind} {t : Nat} {sp : Space}

/-- The leaves of the cow kernel: readable, and writable or marked PTE_COW. -/
def CowLeaf (w : Nat) : Prop := w.testBit 1 = true ∧ (w.testBit 2 = true ∨ w.testBit 8 = true)

/-- The leaves of the eager kernel: readable and writable. -/
def EagerLeaf (w : Nat) : Prop := w.testBit 1 = true ∧ w.testBit 2 = true

theorem userPerm_bits (p : Nat) : (mkpte p userPerm).testBit 1 = true ∧ (mkpte p userPerm).testBit 2 = true := by
  rw [mkpte_testBit (by decide) (by decide), mkpte_testBit (by decide) (by decide)]
  decide

/-- What the user may touch has a leaf with PTE_U. -/
theorem Views.allows_iff (h : Views m.mem t sp) {va : Nat} : sp.allows va = true ↔
    va < MAXVA ∧ ∃ w, lookup m.mem t (va / 4096) = some w ∧ w.testBit 4 = true := by
  by_cases hva : va < MAXVA
  · have hu := h.user _ (vpn_of_lt hva)
    simp only [Space.allows, hva, decide_true, Bool.true_and, true_and, ← hu]
    cases lookup m.mem t (va / 4096) with
    | none => simp
    | some w => simp
  · simp [Space.allows, hva]

/-- Leaves that map the same bytes for the same users show the same space. -/
theorem Views.same (h : Views m.mem t sp)
    (hl : ∀ v < VPN, (lookup m'.mem t v).map (fun w => w.testBit 4) = (lookup m.mem t v).map fun w => w.testBit 4)
    (hb : ∀ va, va / 4096 < VPN → byteAt m'.mem t va = byteAt m.mem t va) : Views m'.mem t sp :=
  ⟨fun v hv => (hl v hv).trans (h.user v hv), fun va hva => (hb va hva).trans (h.byte va hva)⟩

/-! ## Translations -/

theorem cow_translates (ht : t ∈ live) : Translates L CowLeaf live t (walkcowaddr L t) := by
  intro m sp va h hs
  obtain ⟨k, hv⟩ := h.inv
  rcases walkcowaddr_spec hv ht va with ⟨hno, e⟩ | ⟨hva, w, hl, hU, hW, e⟩ | ⟨m', e, -, -, hf⟩ |
    ⟨hva, w, p, m', k', hl, hU, e, v', c, hf, -⟩
  · refine Or.inr (Or.inl ⟨?_, e⟩)
    by_contra ha
    obtain ⟨hva, w, hl, hU⟩ := (Views.allows_iff hs).mp (by simpa using ha)
    exact hno hva w hl ⟨hU, (h.flags t ht _ (vpn_of_lt hva) w hl).2⟩
  · exact Or.inr (Or.inr ⟨(Views.allows_iff hs).mpr ⟨hva, w, hl, hU⟩, hva, w, m, e,
      hv.nonNull ht _ (vpn_of_lt hva) w hl, h, fun _ _ _ h => h, hl, hU, hW, rfl⟩)
  · exact Or.inl ⟨m', e, by omega⟩
  · have hvpn := vpn_of_lt hva
    have hpa : PTE2PA (mkpte p (ownFlags w)) = p := pte2pa_mkpte c.page (ownFlags_lt w)
    have hvw := (lookup_some.mp hl).2
    have bit : ∀ {i}, 0 < i → i < 10 → (mkpte p (ownFlags w)).testBit i = (w.testBit i && i != 8 || i == 2) :=
      fun {i} h0 hi => by
      have h1 : (1 : Nat).testBit i = false := Nat.testBit_lt_two_pow (Nat.one_lt_two_pow (by omega))
      rw [mkpte_testBit (ownFlags_lt w) hi, ownFlags_testBit w hi, h1, Bool.or_false]
    have hnew := c.lookup t ht _ hvpn
    rw [if_pos ⟨rfl, rfl⟩] at hnew
    have hR := (h.flags t ht _ hvpn w hl).1
    have hfine : Fine L CowLeaf live m' := h.step v' fun t' ht' v hv' => by
      by_cases ec : t' = t ∧ v = va / 4096
      · obtain ⟨rfl, rfl⟩ := ec
        refine Or.inr (Or.inr ⟨fun w' hw' => ?_, c.alone⟩)
        rw [hnew] at hw'
        obtain rfl := Option.some.inj hw'
        exact ⟨by simp [bit, hR], Or.inl (by simp [bit])⟩
      · exact Or.inl ⟨ht', by rw [c.lookup t' ht' v hv', if_neg ec]⟩
    refine Or.inr (Or.inr ⟨(Views.allows_iff hs).mpr ⟨hva, w, hl, hU⟩, hva, mkpte p (ownFlags w),
      m', by rw [hpa]; exact e, ?_, hfine,
      fun t' ht' sp' hs' => Views.same hs' (fun v hv' => ?_) (c.byteAt t' ht'), hnew, by
        simp [bit, hU], by simp [bit], hf⟩)
    · exact v'.nonNull ht _ hvpn _ hnew
    · rw [c.lookup t' ht' v hv']
      split
      · -- the copy is the user's as the shared page was
        rename_i ec
        rw [ec.1, ec.2, hl, Option.map_some, Option.map_some, bit (by decide) (by decide), hU]
        rfl
      · rfl

theorem walkaddr_translates (ht : t ∈ live) : Translates L EagerLeaf live t (walkaddr (lab L) t) := by
  intro m sp va h hs
  rcases hs.walkaddr (A := lab L) (h.nonNull ht) va with ⟨ha, hva, w, hl, hU, hz, e⟩ | ⟨ha, e⟩
  · exact Or.inr (Or.inr ⟨ha, hva, w, m, e, hz, h, fun _ _ _ h => h, hl, hU, (h.flags t ht _ (vpn_of_lt hva) w hl).2,
      rfl⟩)
  · exact Or.inr (Or.inl ⟨ha, e⟩)

/-! ## User stores -/

/-- A store that the leaf lets through. -/
theorem fine_inPlace (h : Fine L P live m) (ht : t ∈ live) (hs : Views m.mem t sp) {va w : Nat} (b : UInt8)
    (hva : va < MAXVA) (hl : lookup m.mem t (va / 4096) = some w)
    (hU : w.testBit 4 = true) (hW : w.testBit 2 = true) :
    ∃ mem, inPlace m.mem t va b = some mem ∧ Fine L P live { m with mem := mem } ∧ Views mem t (sp.put va [b]) ∧
      Untouched live t m { m with mem := mem } := by
  obtain ⟨f1, wr⟩ := h.put ht [b] (vpn_of_lt hva) hl hW (by rw [List.length_singleton]; omega)
  refine ⟨_, by simp only [inPlace, hva, if_true, hl, hU, hW, Bool.and_self], f1, wr.views sp hs,
    fun t' ht' hne sp' hs' => wr.other t' ht' hne sp' hs'⟩

theorem inPlace_none {mem : Mem} {va : Nat} (b : UInt8)
    (h : ∀ w, va < MAXVA → lookup mem t (va / 4096) = some w → ¬ (w.testBit 4 = true ∧ w.testBit 2 = true)) :
    inPlace mem t va b = none := by
  unfold inPlace
  split
  · rename_i hva
    split
    · rename_i w hl
      have := h w hva hl
      rw [if_neg (by simpa using this)]
    · rfl
  · rfl

theorem cow_store (h : Fine L CowLeaf live m) (ht : t ∈ live) (hs : Views m.mem t sp) (va : Nat) (b : UInt8) :
    (∃ m', storeCow L t va b m = .ok ((sp.store va b).1, m') ∧ Fine L CowLeaf live m' ∧
      Views m'.mem t (sp.store va b).2 ∧
        Untouched live t m m' ∧ m'.kmem.nfail = m.kmem.nfail) ∨
      ∃ r m', storeCow L t va b m = .ok (r, m') ∧ m.kmem.nfail < m'.kmem.nfail := by
  unfold storeCow
  by_cases hin : ∃ w, va < MAXVA ∧ lookup m.mem t (va / 4096) = some w ∧ w.testBit 4 = true ∧ w.testBit 2 = true
  · obtain ⟨w, hva, hl, hU, hW⟩ := hin
    have ha := (Views.allows_iff hs).mpr ⟨hva, w, hl, hU⟩
    obtain ⟨mem, e, f1, v1, u1⟩ := fine_inPlace h ht hs b hva hl hU hW
    rw [e]
    exact Or.inl ⟨_, by simp only [Space.store, ha, if_true], f1, by simpa only [Space.store, ha, if_true] using v1,
      u1, rfl⟩
  · rw [inPlace_none b fun w hva hl hb => hin ⟨w, hva, hl, hb⟩]
    dsimp only
    rcases cow_translates ht m sp va h hs with ⟨m1, e, hf⟩ | ⟨ha, e⟩ | ⟨ha, hva, w, m1, e, hz, f1, vw, hl, hU, hW, hf⟩
    · exact Or.inr ⟨false, m1, by rw [e, ok_bind]; rfl, hf⟩
    · exact Or.inl ⟨m, by rw [e, ok_bind]; simp [Space.store, ha], h, by simpa [Space.store, ha] using hs,
        fun _ _ _ _ h => h, rfl⟩
    · obtain ⟨mem, e2, f2, v2, u2⟩ := fine_inPlace f1 ht (vw t ht sp hs) b hva hl hU hW
      refine Or.inl ⟨{ m1 with mem := mem }, ?_, f2, by simpa only [Space.store, ha, if_true] using v2,
        fun t' ht' hne sp' hs' => u2 t' ht' hne sp' (vw t' ht' sp' hs'), hf⟩
      rw [e, ok_bind]
      dsimp only
      rw [if_neg hz, e2]
      simp only [Space.store, ha, if_true]

theorem eager_store (h : Fine L EagerLeaf live m) (ht : t ∈ live) (hs : Views m.mem t sp) (va : Nat) (b : UInt8) :
    ∃ m', storeEager t va b m = .ok ((sp.store va b).1, m') ∧ Fine L EagerLeaf live m' ∧
      Views m'.mem t (sp.store va b).2 ∧
        Untouched live t m m' ∧ m'.kmem.nfail = m.kmem.nfail := by
  unfold storeEager
  by_cases ha : sp.allows va = true
  · obtain ⟨hva, w, hl, hU⟩ := (Views.allows_iff hs).mp ha
    obtain ⟨mem, e, f1, v1, u1⟩ := fine_inPlace h ht hs b hva hl hU (h.flags t ht _ (vpn_of_lt hva) w hl).2
    rw [e]
    exact ⟨_, by simp only [Space.store, ha, if_true], f1, by simpa only [Space.store, ha, if_true] using v1, u1, rfl⟩
  · rw [inPlace_none b fun w hva hl hb => ha ((Views.allows_iff hs).mpr ⟨hva, w, hl, hb.1⟩)]
    exact ⟨m, by simp [Space.store, ha], h, by simpa [Space.store, ha] using hs, fun _ _ _ _ h => h, rfl⟩

/-! ## uvmcopy -/

theorem cowPte_leaf {w : Nat} (h : CowLeaf w) (hv : vbit w = true) : CowLeaf (cowPte w) := by
  refine ⟨?_, Or.inr ?_⟩
  · rw [cowPte_testBit w (by decide) hv, h.1]
    rfl
  · rw [cowPte_testBit w (by decide) hv]
    simp

/-- Sharing clears PTE_W in both tables: a leaf that has it is as it was. -/
theorem Shared.fine {old new n : Nat} (g : Shared live m k old new n m' k') (h : Fine L CowLeaf live m)
    (h' : VmInv (spec256 L) NoLent m' live k') (hold : old ∈ live) : Fine L CowLeaf live m' := by
  have hcases : ∀ t ∈ live, ∀ v < VPN, ∀ w, Vm.lookup m'.mem t v = some w → Vm.lookup m.mem t v = some w ∧
    ¬ ((t = old ∨ t = new) ∧ v < n) ∨
      (t = old ∨ t = new) ∧ v < n ∧ ∃ w0, Vm.lookup m.mem old v = some w0 ∧ w = cowPte w0 := by
    intro t ht v hv w hw
    by_cases e : (t = old ∨ t = new) ∧ v < n
    · obtain ⟨-, w0, hw0⟩ := g.fresh v e.2
      obtain ⟨b1, b2⟩ := g.both v e.2 w0 hw0
      refine Or.inr ⟨e.1, e.2, w0, hw0, ?_⟩
      rcases e.1 with rfl | rfl
      · rw [b1] at hw
        exact (Option.some.inj hw).symm
      · rw [b2] at hw
        exact (Option.some.inj hw).symm
    · rw [g.lookup t ht v hv e] at hw
      exact Or.inl ⟨hw, e⟩
  refine ⟨⟨k', h'⟩, fun t ht v hv w hw => ?_, fun t ht v hv w hw hb => ?_⟩
  · rcases hcases t ht v hv w hw with ⟨e, -⟩ | ⟨-, -, w0, hw0, rfl⟩
    · exact h.flags t ht v hv w e
    · exact cowPte_leaf (h.flags old hold v hv w0 hw0) (lookup_some.mp hw0).2
  · rcases hcases t ht v hv w hw with ⟨e, hout⟩ | ⟨-, -, w0, hw0, rfl⟩
    · have halone := h.alone t ht v hv w e hb
      intro w1 hw1 t' ht' w' hw' epa
      rw [hw] at hw1
      obtain rfl := Option.some.inj hw1
      rcases hcases t' ht' v hv w' hw' with ⟨e', -⟩ | ⟨-, hlt, w0, hw0, rfl⟩
      · exact halone w e t' ht' w' e' epa
      · -- the page is one of `old`'s, so the table is `old`
        have hpa : PTE2PA (cowPte w0) = PTE2PA w0 := by
          obtain ⟨k0, hv0⟩ := h.inv
          exact pte2pa_mkpte (hv0.tab.page _ (by rw [hv0.leaf_data hold hv hw0]; simp)) (cowFlags_lt w0)
        rw [hpa] at epa
        have := halone w e old hold w0 hw0 epa
        exact absurd ⟨Or.inl this.symm, hlt⟩ hout
    · have hbit : (cowPte w0).testBit 2 = false := by
        rw [cowPte_testBit w0 (by decide) (lookup_some.mp hw0).2]
        simp
      rw [hbit] at hb
      cases hb

theorem cow_uvmcopy {old new : Nat} (sz : Nat) (h : Fine L CowLeaf live m) (hold : old ∈ live) (hnew : new ∈ live)
    (hlen : live.length ≤ 256) (hempty : ∀ v < VPN, lookup m.mem new v = none) (hs : Views m.mem old sp) :
    Forks L CowLeaf live new ((sz + PGSIZE - 1) / PGSIZE) sp m (Cow.uvmcopy L old new sz m) := by
  obtain ⟨k, hv⟩ := h.inv
  unfold Forks Cow.uvmcopy
  generalize hn : (sz + PGSIZE - 1) / PGSIZE = n
  have hout := uvmcopy_outcome hv hlen hold hnew sz
  rw [hn] at hout
  rcases hout with ⟨m', k', e, h', g, -, hf⟩ | ⟨m', k', e, -, -, hf⟩ | ⟨⟨i, hi, hb⟩, he⟩
  · rw [Nat.zero_add] at g
    rw [Nat.zero_mul] at e
    have hin : ∀ v < n, v < MAXVA / 4096 := fun v hv' => (g.fresh v hv').1.1
    have hcov : covers sp 0 n := fun j hj => by
      obtain ⟨hc, w, hw⟩ := g.fresh j hj
      rw [Nat.zero_add, hs.isSome (lt_vpn hc.1), hw]
      exact ⟨hc.1, rfl⟩
    have hbit : ∀ {v w}, lookup m.mem old v = some w → (cowPte w).testBit 4 = w.testBit 4 := fun {v w} hw => by
      rw [cowPte_testBit w (by decide) (lookup_some.mp hw).2]
      simp
    refine Or.inl ⟨hcov, m', e, g.fine h h' hold, ⟨fun v hv' => ?_, fun va hva => ?_⟩, fun t ht hto sp' hs' => ?_, hf⟩
    · show _ = if v < n then sp.user v else none
      by_cases hlt : v < n
      · obtain ⟨-, w, hw⟩ := g.fresh v hlt
        rw [if_pos hlt, (g.both v hlt w hw).2, ← hs.user v hv', hw, Option.map_some, Option.map_some, hbit hw]
      · rw [if_neg hlt, g.lookup new hnew v hv' fun e => hlt e.2, hempty v hv']
        rfl
    · show _ = (if va / 4096 < n then sp.user (va / 4096) else none).map fun _ => sp.byte va
      by_cases hlt : va / 4096 < n
      · rw [if_pos hlt, g.inside va hlt, hs.byte va hva]
      · rw [if_neg hlt]
        unfold byteAt
        rw [g.lookup new hnew _ hva fun e => hlt e.2, hempty _ hva]
        rfl
    · refine Views.same hs' (fun v hv' => ?_) fun va hva => g.byteAt t ht va hva fun e => hto e.1
      by_cases e : t = old ∧ v < n
      · obtain ⟨-, w, hw⟩ := g.fresh v e.2
        rw [e.1, (g.both v e.2 w hw).1, hw, Option.map_some, Option.map_some, hbit hw]
      · rw [g.lookup t ht v hv' fun e' => e ⟨e'.1.resolve_right hto, e'.2⟩]
  · rw [Nat.zero_mul] at e
    exact Or.inr (Or.inl ⟨-1, m', e, hf⟩)
  · refine Or.inr (Or.inr ⟨fun hcov => hb ?_, by rw [Nat.zero_mul] at he; exact he⟩)
    obtain ⟨hlt, hsome⟩ := hcov i hi
    refine ⟨⟨hlt, hempty _ (lt_vpn hlt)⟩, ?_⟩
    rw [← hs.isSome (lt_vpn hlt)]
    exact hsome

theorem flags_bit (w : Nat) {i : Nat} (hi : i < 10) (hv : vbit w = true) (p : Nat) :
    (mkpte p (PTE_FLAGS w)).testBit i = w.testBit i := by
  rw [mkpte_testBit (flags_small w) hi]
  unfold PTE_FLAGS
  rw [testBit_mod hi]
  cases i with
  | zero => rw [show w.testBit 0 = true from hv]; rfl
  | succ i => simp [Nat.testBit_succ]

theorem eager_uvmcopy {old new : Nat} (sz : Nat) (h : Fine L EagerLeaf live m) (hold : old ∈ live) (hnew : new ∈ live)
    (hne : old ≠ new) (hempty : ∀ v < VPN, lookup m.mem new v = none) (hs : Views m.mem old sp) :
    Forks L EagerLeaf live new ((sz + PGSIZE - 1) / PGSIZE) sp m (Vm.uvmcopy (lab L) old new sz m) := by
  obtain ⟨k, hv⟩ := h.inv
  unfold Forks Vm.uvmcopy
  generalize hn : (sz + PGSIZE - 1) / PGSIZE = n
  have hout := Vm.uvmcopy_spec hv hold hnew hne sz fun v _ hv' => hempty v hv'
  rw [hn] at hout
  have hskip : ¬ (lab L).skips = true := Bool.false_ne_true
  rcases hout with ⟨m', k', e, h', g, hf, hall⟩ | ⟨m', k', e, -, -, hf⟩ | ⟨⟨i, hi, hb⟩, he⟩
  · rw [Nat.zero_add] at g
    rw [Nat.zero_mul] at e
    have hall : ∀ i < n, i < MAXVA / 4096 ∧ (lookup m.mem old i).isSome = true := fun i hi => by
      obtain ⟨h1, h2⟩ := hall i hi
      rw [Nat.zero_add] at h1 h2
      exact ⟨h1, h2.resolve_right hskip⟩
    have hbelow : ∀ v, Below m.mem old n v ↔ v < n := fun v => ⟨fun hb => hb.1, fun hv' => ⟨hv', (hall v hv').2⟩⟩
    have hcopy : ∀ v < n, ∃ w p, lookup m.mem old v = some w ∧ lookup m'.mem new v = some (mkpte p (PTE_FLAGS w)) :=
      fun v hv' => by
      obtain ⟨w, hw⟩ := Option.isSome_iff_exists.mp (hall v hv').2
      obtain ⟨p, -, -, hl⟩ := g.here v ((hbelow v).mpr hv')
      refine ⟨w, p, hw, ?_⟩
      rw [hl]
      unfold copyPerm
      rw [(lookup_some.mp hw).1]
    have hcov : covers sp 0 n := fun j hj => by
      rw [Nat.zero_add, hs.isSome (lt_vpn (hall j hj).1)]
      exact hall j hj
    refine Or.inl ⟨hcov, m', e, h.step h' fun t ht v hv' => ?_, ⟨fun v hv' => ?_, fun va hva => ?_⟩,
      fun t ht hto sp' hs' => g.views_other ht hto hs', hf⟩
    · by_cases ec : t = new ∧ v < n
      · obtain ⟨rfl, hlt⟩ := ec
        obtain ⟨w, p, hw, hl⟩ := hcopy v hlt
        obtain ⟨hR, hW⟩ := h.flags old hold v hv' w hw
        have hvw := (lookup_some.mp hw).2
        refine Or.inr (Or.inr ⟨fun w' hw' => ?_, g.alone v ((hbelow v).mpr hlt)⟩)
        rw [hl] at hw'
        obtain rfl := Option.some.inj hw'
        exact ⟨by rw [flags_bit w (by decide) hvw]; exact hR, by rw [flags_bit w (by decide) hvw]; exact hW⟩
      · exact Or.inl ⟨ht, g.lookup t ht v hv' fun e => ec ⟨e.1, (hbelow v).mp e.2⟩⟩
    · show _ = if v < n then sp.user v else none
      by_cases hlt : v < n
      · obtain ⟨w, p, hw, hl⟩ := hcopy v hlt
        rw [if_pos hlt, hl, ← hs.user v hv', hw, Option.map_some, Option.map_some,
          flags_bit w (by decide) (lookup_some.mp hw).2]
      · rw [if_neg hlt, g.lookup new hnew v hv' fun e => hlt ((hbelow v).mp e.2), hempty v hv']
        rfl
    · show _ = (if va / 4096 < n then sp.user (va / 4096) else none).map fun _ => sp.byte va
      by_cases hlt : va / 4096 < n
      · have hb := hs.byte va hva
        have hsome := (hall _ hlt).2
        rw [← hs.isSome hva] at hsome
        obtain ⟨b, hb'⟩ := Option.isSome_iff_exists.mp hsome
        rw [if_pos hlt, g.inside va ((hbelow _).mpr hlt)]
        unfold copyByte
        rw [hb, hb']
        rfl
      · rw [if_neg hlt]
        unfold byteAt
        rw [g.lookup new hnew _ hva fun e => hlt ((hbelow _).mp e.2), hempty _ hva]
        rfl
  · rw [Nat.zero_mul] at e
    exact Or.inr (Or.inl ⟨-1, m', e, hf⟩)
  · refine Or.inr (Or.inr ⟨fun hcov => ?_, by rw [Nat.zero_mul] at he; exact he⟩)
    have hmapped : ∀ j < n, j < MAXVA / 4096 ∧ (lookup m.mem old j).isSome = true := fun j hj => by
      obtain ⟨hlt, hsome⟩ := hcov j hj
      rw [Nat.zero_add] at hlt hsome
      rw [hs.isSome (lt_vpn hlt)] at hsome
      exact ⟨hlt, hsome⟩
    rcases hb with hb | ⟨-, hb⟩
    · rw [Nat.zero_add] at hb
      exact hb ⟨(hmapped i hi).1, Or.inl (hmapped i hi).2⟩
    · exact hb fun v hv' => Or.inl (hmapped v (by omega)).2

/-! ## The two kernels -/

/-- The counts are bytes: a page has up to 256 owners. -/
def bytesOf (n : Nat) : Bool := decide (n ≤ 256)

def anyNumber (_ : Nat) : Bool := true

theorem cow_implements : Implements L (cowKernel L) CowLeaf bytesOf where
  user p := ⟨(userPerm_bits p).1, Or.inl (userPerm_bits p).2⟩
  read _ h := h.1
  uvmcopy sz h hold hnew _ hroom hempty hs := cow_uvmcopy sz h hold hnew (of_decide_eq_true hroom) hempty hs
  copyout dstva src h ht hs := copyoutLoop_refines ht (cow_translates ht) src.length dstva src _ _ h hs
  store va b h ht hs := cow_store h ht hs va b

theorem eager_implements : Implements L (eagerKernel L) EagerLeaf anyNumber where
  user := userPerm_bits
  read _ h := h.1
  uvmcopy sz h hold hnew hne _ hempty hs := eager_uvmcopy sz h hold hnew hne hempty hs
  copyout dstva src h ht hs := copyoutLoop_refines ht (walkaddr_translates ht) src.length dstva src _ _ h hs
  store va b h ht hs := Or.inl (eager_store h ht hs va b)

end Xv6Labs.Cow
