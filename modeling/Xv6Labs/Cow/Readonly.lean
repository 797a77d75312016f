/-
  Xv6Labs.Cow.Readonly — read-only pages under fork.

  uvmcopy marks every page it shares with PTE_COW, whether the page was writable or not, and
  walkcowaddr gives the writer of any page so marked a copy with PTE_W. So a user page with
  neither flag is writable after the first fork that copies it.

  A run is any sequence of forks, stores and copyouts on any address spaces.

  - `walkcowaddr_keeps`, `copyoutLoop_keeps`, `fork_keeps`: what a call does to pages that are
    not granted.
  - `fork_readonly`: no fork of the parent copies the page: parent and child refuse for ever. A
    fork that copies it: both grant.
  - `fork_grants_write`: one such fork.
-/

import Xv6Labs.Cow.Undo

namespace Xv6Labs.Cow

open Lib Vm

variable {L : Layout} {s s' s0 m m' : Mach Kmem} {live : List Nat} {k k' : Nat → Kind} {old new t v : Nat}

/-- A user page with neither PTE_W nor PTE_COW. -/
def ReadOnly (m : Mem) (t v : Nat) : Prop :=
  ∃ w, lookup m t v = some w ∧ w.testBit 4 = true ∧ w.testBit 2 = false ∧ w.testBit 8 = false

theorem ReadOnly.not_granted {m : Mem} (h : ReadOnly m t v) : ¬ Granted m t v := by
  obtain ⟨w, hl, -, h2, h8⟩ := h
  rintro ⟨w', hl', -, hb⟩
  rw [hl] at hl'
  cases hl'
  rcases hb with hb | hb
  · exact absurd (h2.symm.trans hb) (by decide)
  · exact absurd (h8.symm.trans hb) (by decide)

/-- walkcowaddr and copyout refuse page `v`, and its entry has no PTE_W. -/
structure Refused (L : Layout) (t v : Nat) (m : Mach Kmem) : Prop where
  walkcowaddr : ∀ va, va / 4096 = v → walkcowaddr L t va m = .ok (0, m)
  copyout : ∀ dstva src, 0 < src.length → dstva / 4096 ≤ v → v * 4096 < dstva + src.length → ∃ m',
    copyout L t dstva src m = .ok (-1, m')
  leaf : ∀ w, lookup m.mem t v = some w → w.testBit 4 = true → w.testBit 2 = false

/-! ## One table -/

/-- The pages that are not granted keep their entries. -/
def Keeps (live : List Nat) (m m' : Mem) : Prop :=
  ∀ t ∈ live, ∀ v < VPN, ¬ Granted m t v → lookup m' t v = lookup m t v

theorem Keeps.refl (live : List Nat) (m : Mem) : Keeps live m m := fun _ _ _ _ _ => rfl

theorem granted_congr {m m' : Mem} (h : lookup m' t v = lookup m t v) : Granted m' t v ↔ Granted m t v := by
  unfold Granted
  rw [h]

theorem Keeps.trans {m m' m'' : Mem} (h : Keeps live m m') (h' : Keeps live m' m'') : Keeps live m m'' :=
  fun t ht v hv hn => by
  have e := h t ht v hv hn
  rw [h' t ht v hv fun hg => hn ((granted_congr e).mp hg), e]

theorem walkcowaddr_not_granted (h : VmInv (spec256 L) NoLent m live k) (ht : t ∈ live) {va : Nat}
    (hn : ¬ Granted m.mem t (va / 4096)) :
    walkcowaddr L t va m = .ok (0, m) :=
  walkcowaddr_refuse h ht fun _ w hl hb => hn ⟨w, hl, hb⟩

theorem walkcowaddr_keeps (h : VmInv (spec256 L) NoLent m live k) (ht : t ∈ live) (va : Nat) :
    ∃ p m' k', walkcowaddr L t va m = .ok (p, m') ∧ VmInv (spec256 L) NoLent m' live k' ∧ Keeps live m.mem m'.mem ∧
      (p ≠ 0 → va < MAXVA ∧ ∃ w, lookup m'.mem t (va / 4096) = some w ∧ p = PTE2PA w) := by
  rcases walkcowaddr_spec h ht va with ⟨-, e⟩ | ⟨hva, w, hl, -, -, e⟩ | ⟨m1, e, v1, kp, -⟩ |
    ⟨hva, w, p, m1, k1, hl, hU, e, v1, c, -, hC⟩
  · exact ⟨0, m, k, e, h, .refl _ _, fun h => absurd rfl h⟩
  · exact ⟨_, m, k, e, h, .refl _ _, fun _ => ⟨hva, w, hl, rfl⟩⟩
  · exact ⟨0, m1, k, e, v1, fun t ht v hv _ => kp.lookup t ht v hv, fun h => absurd rfl h⟩
  · refine ⟨p, m1, k1, e, v1, fun t' ht' v hv hn => ?_, fun _ => ⟨hva, mkpte p (ownFlags w), ?_, ?_⟩⟩
    · -- the page that was copied is granted
      rw [c.lookup t' ht' v hv, if_neg]
      rintro ⟨rfl, rfl⟩
      exact hn ⟨w, hl, hU, Or.inr hC⟩
    · rw [c.lookup t ht _ (vpn_of_lt hva), if_pos ⟨rfl, rfl⟩]
    · rw [pte2pa_mkpte c.page (ownFlags_lt w)]

/-- Bytes written into a user page. -/
theorem put_keeps (h : VmInv (spec256 L) NoLent m live k) (ht : t ∈ live) {va w : Nat} (hva : va / 4096 < VPN)
    (hl : lookup m.mem t (va / 4096) = some w) (bs : List UInt8) (hn : va % 4096 + bs.length ≤ 4096) :
    VmInv (spec256 L) NoLent { m with mem := m.mem.put (PTE2PA w + va % 4096) bs } live k ∧
      Keeps live m.mem (m.mem.put (PTE2PA w + va % 4096) bs) := by
  have hd := h.leaf_data ht hva hl
  obtain ⟨v1, lf⟩ := h.write (m := m.mem.put (PTE2PA w + va % 4096) bs) (p := PTE2PA w) (by rw [hd]; rfl)
    fun x hx => by
    have := pageOf_mem (pte2pa_mod w) hx
    exact Mem.agree_put (b := x) (n := 1) m.mem bs (by omega) x (Nat.le_refl _) (by omega)
  exact ⟨v1, fun t' ht' v hv _ => lookup_congr (lf t' ht' v hv)⟩

/-- copyout answers -1 when its range reaches a page that is not granted. -/
theorem copyoutLoop_keeps (ht : t ∈ live) : ∀ rounds dstva src (m : Mach Kmem) k, VmInv (spec256 L) NoLent m live k →
    ∃ r m' k', copyoutLoop (walkcowaddr L t) rounds dstva src m = .ok (r, m') ∧ VmInv (spec256 L) NoLent m' live k' ∧
      Keeps live m.mem m'.mem ∧
      ∀ v < VPN, ¬ Granted m.mem t v → 0 < src.length → src.length ≤ rounds → dstva / 4096 ≤ v →
        v * 4096 < dstva + src.length → r = -1 := by
  intro rounds
  induction rounds with
  | zero => exact fun dstva src m k h => ⟨0, m, k, rfl, h, .refl _ _, fun v _ _ h0 hlen _ _ => absurd hlen (by omega)⟩
  | succ rounds ih =>
    intro dstva src m k h
    by_cases hz : src.length = 0
    · exact ⟨0, m, k, by simp only [copyoutLoop, hz, if_true], h, .refl _ _,
        fun v _ _ h0 _ _ _ => absurd hz (by omega)⟩
    have hd := pgrounddown_eq dstva
    have hround : PGROUNDDOWN dstva / 4096 = dstva / 4096 := by rw [hd]; omega
    have hoff : dstva - PGROUNDDOWN dstva = dstva % 4096 := by rw [hd]; omega
    obtain ⟨p, m1, k1, e1, v1, kp1, hp⟩ := walkcowaddr_keeps h ht (PGROUNDDOWN dstva)
    by_cases hp0 : p = 0
    · exact ⟨-1, m1, k1, by rw [copyoutLoop_round hz e1, if_pos hp0], v1, kp1, fun _ _ _ _ _ _ _ => rfl⟩
    obtain ⟨hva, w, hl, rfl⟩ := hp hp0
    rw [hround] at hl
    have hv : dstva / 4096 < VPN := by rw [← hround]; exact vpn_of_lt hva
    have hnext : u64 (PGROUNDDOWN dstva + PGSIZE) = (dstva / 4096 + 1) * 4096 := by
      unfold MAXVA at hva
      rw [u64_of_lt (by unfold PGSIZE; omega), hd]
      unfold PGSIZE
      omega
    generalize hn : min (PGSIZE - dstva % 4096) src.length = n at *
    have hn0 : 0 < n ∧ n ≤ src.length ∧ dstva % 4096 + n ≤ 4096 := by
      unfold PGSIZE at hn
      omega
    obtain ⟨v2, kp2⟩ := put_keeps v1 ht hv hl (src.take n) (by rw [List.length_take]; omega)
    obtain ⟨r, m', k', e', v', kp', hr⟩ := ih ((dstva / 4096 + 1) * 4096) (src.drop n) _ k1 v2
    have hk12 := kp1.trans kp2
    refine ⟨r, m', k', ?_, v', hk12.trans kp', fun v hvv hng h0 hlen hle hlt => ?_⟩
    · rw [copyoutLoop_round hz e1, if_neg hp0, hoff, hn, hnext]
      exact e'
    · by_cases hpage : dstva / 4096 = v
      · -- the round's own page: walkcowaddr has refused it
        have hng0 : ¬ Granted m.mem t (PGROUNDDOWN dstva / 4096) := by rw [hround, hpage]; exact hng
        rw [walkcowaddr_not_granted h ht hng0] at e1
        exact absurd (Prod.mk.inj (Except.ok.inj e1)).1.symm hp0
      · have hfull : n = 4096 - dstva % 4096 := by
          unfold PGSIZE at hn
          omega
        refine hr v hvv (fun hg => hng ((granted_congr (hk12 t ht v hvv hng)).mp hg)) ?_ ?_ ?_ ?_
        · rw [List.length_drop]
          omega
        · rw [List.length_drop]
          omega
        · omega
        · rw [List.length_drop]
          omega

theorem Refused.of_not_granted (h : VmInv (spec256 L) NoLent m live k) (ht : t ∈ live) (hv : v < VPN)
    (hn : ¬ Granted m.mem t v) : Refused L t v m := by
  refine ⟨fun va hva => walkcowaddr_not_granted h ht (by rw [hva]; exact hn), fun dstva src h0 hle hlt => ?_,
    fun w hl hU => ?_⟩
  · obtain ⟨r, m', -, e, -, -, hr⟩ := copyoutLoop_keeps (L := L) ht src.length dstva src m k h
    rw [hr v hv hn h0 (Nat.le_refl _) hle hlt] at e
    exact ⟨m', e⟩
  · rw [← Bool.not_eq_true]
    exact fun h2 => hn ⟨w, hl, hU, Or.inl h2⟩

/-! ## fork -/

/-- The pages uvmcopy copies. -/
def pages (sz : Nat) : Nat := (sz + PGSIZE - 1) / PGSIZE

/-- What fork leaves of the entries of the other pages, and where it copies. -/
structure Forked (s0 : Mach Kmem) (live : List Nat) (old new sz : Nat) (s' : Mach Kmem) : Prop where
  other : ∀ t ∈ live, ∀ v < VPN, (t = old → pages sz ≤ v ∨ lookup s0.mem t v = none) →
    lookup s'.mem t v = lookup s0.mem t v
  above : ∀ v < VPN, pages sz ≤ v → lookup s'.mem new v = none

theorem fork_keeps (h : VmInv (spec256 L) NoLent s0 live k) (hold : old ∈ live)
    (ec : uvmcreate (lab L) s0 = (some new, s)) (hlen : live.length < 256)
    {sz : Nat} {r : Int} (e : uvmcopy L old new sz s = .ok (r, s')) :
    (∃ k', VmInv (spec256 L) NoLent s' (live ++ [new]) k') ∧ Forked s0 live old new sz s' ∧
      (r = 0 → ∀ v < pages sz, v < MAXVA / 4096 ∧
        ∃ w, lookup s0.mem old v = some w ∧ lookup s'.mem old v = some (cowPte w) ∧
          lookup s'.mem new v = some (cowPte w)) := by
  obtain ⟨k1, hnl, v1, kp, hempty, -⟩ := uvmcreate_some h ec
  have hmem : ∀ t ∈ live, t ∈ live ++ [new] := fun t ht => List.mem_append_left _ ht
  have hnew : new ∈ live ++ [new] := List.mem_append_right _ (List.mem_singleton_self _)
  have hne : ∀ t ∈ live, t ≠ new := fun t ht e => hnl (e ▸ ht)
  have hlen1 : (live ++ [new]).length ≤ 256 := by
    rw [List.length_append, List.length_singleton]
    omega
  have hout := uvmcopy_outcome v1 hlen1 (hmem old hold) hnew sz
  unfold Outcome at hout
  rw [Nat.zero_mul, ← uvmcopy, Nat.zero_add, ← pages] at hout
  rcases hout with ⟨s2, k2, e2, v2, g, -⟩ | ⟨s2, k2, e2, v2, u, -⟩ | ⟨-, x, e2⟩
  · rw [e] at e2
    cases e2
    refine ⟨⟨k2, v2⟩, ⟨fun t ht v hv hc => ?_, fun v hv hle => ?_⟩, fun _ v hv => ?_⟩
    · rw [g.lookup t (hmem t ht) v hv, kp.lookup t ht v hv]
      rintro ⟨h1 | h1, hlt⟩
      · rcases hc h1 with hle | hnone
        · omega
        · obtain ⟨-, w, hw⟩ := g.fresh v hlt
          rw [← h1, kp.lookup t ht v hv, hnone] at hw
          cases hw
      · exact hne t ht h1
    · rw [g.lookup new hnew v hv fun e => absurd e.2 (by omega), hempty v hv]
    · obtain ⟨hcan, w, hw⟩ := g.fresh v hv
      have hvp : v < VPN := by
        have := hcan.1
        unfold MAXVA at this
        unfold VPN
        omega
      obtain ⟨b1, b2⟩ := g.both v hv w hw
      exact ⟨hcan.1, w, (kp.lookup old hold v hvp).symm.trans hw, b1, b2⟩
  · rw [e] at e2
    cases e2
    refine ⟨⟨k2, v2⟩, ⟨fun t ht v hv hc => ?_, fun v hv _ => ?_⟩, fun h0 => absurd h0 (by decide)⟩
    · by_cases hto : t = old
      · subst hto
        rcases u.parent v hv with ek | ⟨hlt, w, ek, -⟩
        · rw [ek, kp.lookup t ht v hv]
        · rw [kp.lookup t ht v hv] at ek
          rcases hc rfl with hle | hnone
          · omega
          · rw [hnone] at ek
            cases ek
      · rw [u.lookup t (hmem t ht) hto v hv, kp.lookup t ht v hv]
    · rw [u.lookup new hnew (fun e => hne old hold e.symm) v hv, hempty v hv]
  · rw [e] at e2
    cases e2

/-! ## Runs -/

inductive Call where
  | fork (i sz : Nat)
  | store (i va : Nat) (b : UInt8)
  | copyout (i dstva : Nat) (src : List UInt8)

def Call.act : Call → Act
  | .fork i sz => .fork i sz
  | .store i va b => .store i va b
  | .copyout i dstva src => .copyout i dstva src

variable (L) in
def runCalls : List Call → World → Except String World
  | [], w => .ok w
  | c :: cs, w => do
    let (_, w) ← step L (cowKernel L) w c.act
    runCalls cs w

variable {w w' w1 : World} {i sz : Nat} {o : Out}

theorem withTable_ok {f : Nat → Except String (Out × World)} {x : Out × World} (e : withTable w i f = .ok x) :
    ∃ t, w.live[i]? = some t ∧ f t = .ok x := by
  unfold withTable at e
  split at e
  · cases e
  · rename_i t ht
    exact ⟨t, ht, e⟩

theorem step_fork (e : step L (cowKernel L) w (.fork i sz) = .ok (o, w')) : ∃ t, w.live[i]? = some t ∧
    ((∃ m, uvmcreate (lab L) w.mach = (none, m) ∧ o.ret = -1 ∧ w' = { w with mach := m }) ∨
      ∃ new s r m, uvmcreate (lab L) w.mach = (some new, s) ∧ uvmcopy L t new sz s = .ok (r, m) ∧ o.ret = r ∧
        w' = ⟨m, w.live ++ [new]⟩) := by
  obtain ⟨t, ht, e⟩ := withTable_ok e
  refine ⟨t, ht, ?_⟩
  cases ec : uvmcreate (lab L) w.mach with
  | mk x s =>
    rw [ec] at e
    cases x with
    | none =>
      cases e
      exact Or.inl ⟨_, rfl, rfl, rfl⟩
    | some new =>
      obtain ⟨⟨r, m⟩, em, e⟩ := bind_ok e
      cases e
      exact Or.inr ⟨new, s, r, _, rfl, em, rfl, rfl⟩

/-- A store that the MMU lets through. -/
theorem inPlace_some {m mem : Mem} {va : Nat} {b : UInt8} (e : inPlace m t va b = some mem) :
    va < MAXVA ∧ ∃ w, lookup m t (va / 4096) = some w ∧ mem = m.put (PTE2PA w + va % 4096) [b] := by
  unfold inPlace at e
  split at e
  · rename_i hva
    split at e
    · rename_i w hl
      split at e
      · cases e
        exact ⟨hva, w, hl, rfl⟩
      · cases e
    · cases e
  · cases e

theorem inPlace_keeps (h : VmInv (spec256 L) NoLent m live k) (ht : t ∈ live) {va : Nat} {b : UInt8} {mem : Mem}
    (e : inPlace m.mem t va b = some mem) :
    VmInv (spec256 L) NoLent { m with mem := mem } live k ∧ Keeps live m.mem mem := by
  obtain ⟨hva, w, hl, rfl⟩ := inPlace_some e
  exact put_keeps h ht (vpn_of_lt hva) hl [b] (by rw [List.length_singleton]; omega)

theorem storeCow_keeps (h : VmInv (spec256 L) NoLent m live k) (ht : t ∈ live) {va : Nat} {b : UInt8} {r : Bool}
    (e : storeCow L t va b m = .ok (r, m')) :
    ∃ k', VmInv (spec256 L) NoLent m' live k' ∧ Keeps live m.mem m'.mem := by
  unfold storeCow at e
  split at e
  · rename_i mem hin
    cases e
    exact ⟨k, inPlace_keeps h ht hin⟩
  · obtain ⟨⟨pa, m1⟩, e1, e⟩ := bind_ok e
    obtain ⟨p, m1', k1, e1', v1, kp1, -⟩ := walkcowaddr_keeps h ht va
    rw [e1] at e1'
    cases e1'
    dsimp only at e
    split at e
    · cases e
      exact ⟨k1, v1, kp1⟩
    · split at e
      · rename_i mem hin
        cases e
        obtain ⟨v2, kp2⟩ := inPlace_keeps v1 ht hin
        exact ⟨k1, v2, kp1.trans kp2⟩
      · cases e

/-- Address spaces `i` and `c`: page `v` of the first is not granted, the second has none. -/
structure Tracked (L : Layout) (w : World) (i c t new v : Nat) : Prop where
  inv : ∃ k, VmInv (spec256 L) NoLent w.mach w.live k
  parent : w.live[i]? = some t
  child : w.live[c]? = some new
  page : ¬ Granted w.mach.mem t v
  hole : lookup w.mach.mem new v = none

variable {c : Nat} {call : Call}

theorem not_granted_none {m : Mem} (h : lookup m t v = none) : ¬ Granted m t v := by
  rintro ⟨w, hl, -⟩
  rw [h] at hl
  cases hl

theorem Tracked.refused (h : Tracked L w i c t new v) (hv : v < VPN) :
    Refused L t v w.mach ∧ Refused L new v w.mach := by
  obtain ⟨k, hi⟩ := h.inv
  exact ⟨.of_not_granted hi (List.mem_of_getElem? h.parent) hv h.page,
    .of_not_granted hi (List.mem_of_getElem? h.child) hv (not_granted_none h.hole)⟩

theorem Tracked.keep {m : Mach Kmem} (h : Tracked L w i c t new v) (hv : v < VPN)
    (hi : VmInv (spec256 L) NoLent m w.live k) (hk : Keeps w.live w.mach.mem m.mem) :
    Tracked L { w with mach := m } i c t new v := by
  have hp := hk t (List.mem_of_getElem? h.parent) v hv h.page
  have hc := hk new (List.mem_of_getElem? h.child) v hv (not_granted_none h.hole)
  exact ⟨⟨k, hi⟩, h.parent, h.child, fun hg => h.page ((granted_congr hp).mp hg), hc.trans h.hole⟩

theorem tracked_fork (h : Tracked L w i c t new v) (hv : v < VPN) {j : Nat} (hsz : j = i → pages sz ≤ v)
    (e : step L (cowKernel L) w (.fork j sz) = .ok (o, w')) (hlen : w'.live.length ≤ 256) :
      Tracked L w' i c t new v := by
  obtain ⟨k, hk⟩ := h.inv
  obtain ⟨old, hj, ⟨m, ec, -, rfl⟩ | ⟨new', s, r, m, ec, em, -, rfl⟩⟩ := step_fork e
  · rcases uvmcreate_spec hk with ⟨s1, e1, v1, kp, -⟩ | ⟨p, s1, k1, e1, -⟩
    · rw [ec] at e1
      cases e1
      exact h.keep hv v1 fun t ht v hv _ => kp.lookup t ht v hv
    · rw [ec] at e1
      cases e1
  · have hlen' : w.live.length < 256 := by
      rw [List.length_append, List.length_singleton] at hlen
      omega
    obtain ⟨⟨k', v'⟩, hf, -⟩ := fork_keeps hk (List.mem_of_getElem? hj) ec hlen' em
    have hin : ∀ {a b : Nat}, w.live[a]? = some b → (w.live ++ [new'])[a]? = some b := fun {a b} hab => by
      rw [List.getElem?_append_left (List.getElem?_eq_some_iff.mp hab).1, hab]
    have hp := hf.other t (List.mem_of_getElem? h.parent) v hv fun hto =>
      Or.inl (hsz ((List.getElem?_inj (List.getElem?_eq_some_iff.mp hj).1 hk.nodup).mp (by rw [hj, h.parent, hto])))
    have hc := hf.other new (List.mem_of_getElem? h.child) v hv fun _ => Or.inr h.hole
    exact ⟨⟨k', v'⟩, hin h.parent, hin h.child, fun hg => h.page ((granted_congr hp).mp hg), hc.trans h.hole⟩

theorem tracked_step (h : Tracked L w i c t new v) (hv : v < VPN) (hcall : ∀ n, call = .fork i n → pages n ≤ v)
    (e : step L (cowKernel L) w call.act = .ok (o, w')) (hlen : w'.live.length ≤ 256) : Tracked L w' i c t new v := by
  cases call with
  | fork j sz => exact tracked_fork h hv (fun hj => hcall sz (by rw [hj])) e hlen
  | store j va b =>
    obtain ⟨t', ht', e⟩ := withTable_ok e
    obtain ⟨⟨r, m⟩, em, e⟩ := bind_ok e
    cases e
    obtain ⟨k, hk⟩ := h.inv
    obtain ⟨k', v', kp⟩ := storeCow_keeps hk (List.mem_of_getElem? ht') em
    exact h.keep hv v' kp
  | copyout j dstva src =>
    obtain ⟨t', ht', e⟩ := withTable_ok e
    obtain ⟨⟨r, m⟩, em, e⟩ := bind_ok e
    cases e
    obtain ⟨k, hk⟩ := h.inv
    obtain ⟨r', m', k', em', v', kp, -⟩ :=
      copyoutLoop_keeps (List.mem_of_getElem? ht') src.length dstva src w.mach k hk
    have em : copyoutLoop (walkcowaddr L t') src.length dstva src w.mach = .ok (r, m) := em
    rw [em] at em'
    cases em'
    exact h.keep hv v' kp

/-- Address spaces are only added. -/
theorem step_live (e : step L (cowKernel L) w call.act = .ok (o, w')) : w.live.length ≤ w'.live.length := by
  cases call with
  | fork j sz =>
    obtain ⟨old, -, ⟨m, -, -, rfl⟩ | ⟨new', s, r, m, -, -, -, rfl⟩⟩ := step_fork e
    · exact Nat.le_refl _
    · exact Nat.le_trans (Nat.le_add_right _ _) (Nat.le_of_eq List.length_append.symm)
  | store j va b =>
    obtain ⟨t', -, e⟩ := withTable_ok e
    obtain ⟨⟨r, m⟩, -, e⟩ := bind_ok e
    cases e
    exact Nat.le_refl _
  | copyout j dstva src =>
    obtain ⟨t', -, e⟩ := withTable_ok e
    obtain ⟨⟨r, m⟩, -, e⟩ := bind_ok e
    cases e
    exact Nat.le_refl _

theorem run_live : ∀ {cs} {w w' : World}, runCalls L cs w = .ok w' → w.live.length ≤ w'.live.length := by
  intro cs
  induction cs with
  | nil =>
    intro w w' e
    cases e
    exact Nat.le_refl _
  | cons call cs ih =>
    intro w w' e
    obtain ⟨⟨o, w1⟩, e1, e⟩ := bind_ok e
    exact Nat.le_trans (step_live e1) (ih e)

theorem tracked_run (hv : v < VPN) : ∀ {cs} {w w' : World}, Tracked L w i c t new v →
    (∀ n, .fork i n ∈ cs → pages n ≤ v) →
    runCalls L cs w = .ok w' → w'.live.length ≤ 256 → Tracked L w' i c t new v := by
  intro cs
  induction cs with
  | nil =>
    intro w w' h _ e _
    cases e
    exact h
  | cons call cs ih =>
    intro w w' h hcs e hlen
    obtain ⟨⟨o, w1⟩, e1, e⟩ := bind_ok e
    have h1 := tracked_step h hv (fun n hn => hcs n (hn ▸ List.mem_cons_self)) e1 (Nat.le_trans (run_live e) hlen)
    exact ih h1 (fun n hn => hcs n (List.mem_cons_of_mem _ hn)) e hlen

/-- Page `v` of address space `i` is read-only, and `i` is forked with size `sz`: as long as
    no fork of it copies the page, parent and child refuse; after one that does, both grant. -/
theorem fork_readonly (h : ∃ k, VmInv (spec256 L) NoLent w.mach w.live k) (hi : w.live[i]? = some t) (hv : v < VPN)
    (hro : ReadOnly w.mach.mem t v)
    (e : step L (cowKernel L) w (.fork i sz) = .ok (o, w1)) (hnew : w1.live = w.live ++ [new])
    (hlen : w1.live.length ≤ 256) :
    (pages sz ≤ v → ∀ cs w', (∀ n, .fork i n ∈ cs → pages n ≤ v) → runCalls L cs w1 = .ok w' → w'.live.length ≤ 256 →
      Refused L t v w'.mach ∧ Refused L new v w'.mach) ∧
    (v < pages sz → o.ret = 0 → (kalloc w1.mach).1 ≠ none → CanStore L t (v * 4096) w1.mach ∧
      CanStore L new (v * 4096) w1.mach) := by
  obtain ⟨k, hk⟩ := h
  obtain ⟨old, hj, ⟨m, -, -, rfl⟩ | ⟨new', s, r, m, ec, em, hr, rfl⟩⟩ := step_fork e
  · exact absurd (congrArg List.length hnew)
      (by rw [List.length_append, List.length_singleton]; exact Nat.ne_of_lt (Nat.lt_succ_self _))
  rw [hi] at hj
  cases hj
  have hnew : new' = new := List.singleton_inj.mp (List.append_cancel_left hnew)
  subst hnew
  have hlen' : w.live.length < 256 := by
    rw [List.length_append, List.length_singleton] at hlen
    omega
  have ht := List.mem_of_getElem? hi
  obtain ⟨⟨k', v'⟩, hf, hcopied⟩ := fork_keeps hk ht ec hlen' em
  have hparent : (w.live ++ [new'])[i]? = some t := by
    rw [List.getElem?_append_left (List.getElem?_eq_some_iff.mp hi).1, hi]
  have hchild : (w.live ++ [new'])[w.live.length]? = some new' := List.getElem?_concat_length
  constructor
  · intro hsz cs w' hcs e' hlen2
    have hp := hf.other t ht v hv fun _ => Or.inl hsz
    have h1 : Tracked L ⟨m, w.live ++ [new']⟩ i w.live.length t new' v :=
      ⟨⟨k', v'⟩, hparent, hchild, fun hg => hro.not_granted ((granted_congr hp).mp hg), hf.above v hv hsz⟩
    exact (tracked_run hv h1 hcs e' hlen2).refused hv
  · intro hsz h0 hmem
    obtain ⟨w0, hl, hU, -⟩ := hro
    obtain ⟨hva, pte, hl', b1, b2⟩ := hcopied (hr.symm.trans h0) v hsz
    rw [hl] at hl'
    cases hl'
    have hpage : v * 4096 / 4096 = v := Nat.mul_div_cancel v (by decide)
    have hmax : v * 4096 < MAXVA := by
      unfold MAXVA at hva ⊢
      omega
    have hbit : ∀ j < 10, (cowPte w0).testBit j = (w0.testBit j && j != 2 || j == 8) :=
      fun j hj => cowPte_testBit w0 hj (lookup_some.mp hl).2
    have hgrant : (cowPte w0).testBit 4 = true ∧ (cowPte w0).testBit 8 = true := by
      rw [hbit 4 (by decide), hbit 8 (by decide), hU]
      simp
    have hcan : ∀ t', t' ∈ w.live ++ [new'] → lookup m.mem t' v = some (cowPte w0) → CanStore L t' (v * 4096) m :=
      fun t' ht' hb => by
      have hlater : Later L t' m.mem m := ⟨⟨_, k', ht', v'⟩, fun _ _ => rfl, hmem⟩
      exact (hlater.canStore_iff _).mpr ⟨hmax, cowPte w0, by rw [hpage, hb], hgrant.1, Or.inr hgrant.2⟩
    exact ⟨hcan t (List.mem_append_left _ ht) b1, hcan new' (List.mem_append_right _ (List.mem_singleton_self _)) b2⟩

/-! ## Nine pages -/

/-- The entry of page `v` with the flags `perm`. -/
def protect (t v perm : Nat) (s : Mach Kmem) : Mach Kmem :=
  match slotFrom s.mem v 2 t with
  | none => s
  | some a => { s with mem := s.mem.storeLE a 8 (mkpte (PTE2PA (s.mem.loadLE a 8)) perm) }

theorem protect_spec (h : VmInv (spec256 L) NoLent s live k) (ht : t ∈ live) (hv : v < VPN) {w perm : Nat}
    (hl : lookup s.mem t v = some w) (hperm : perm < 1024) (hflag : perm ||| PTE_V ≠ PTE_V) :
    VmInv (spec256 L) NoLent (protect t v perm s) live k ∧
      lookup (protect t v perm s).mem t v = some (mkpte (PTE2PA w) perm) := by
  obtain ⟨hleaf, hw⟩ := lookup_some.mp hl
  obtain ⟨q, hq, hs, ha⟩ := h.tab.slot_valid ht hv (by rw [hleaf]; exact hw)
  obtain ⟨v1, lf⟩ := h.reflag ht hv hq hl (h.leaf_data ht hv hl) hperm hflag
  unfold protect
  rw [hs]
  dsimp only
  rw [ha, hleaf]
  exact ⟨v1, lookup_some.mpr ⟨(lf t ht v hv).trans (if_pos ⟨rfl, rfl⟩), vbit_mkpte hperm⟩⟩

open Refcount (ninePages)

/-- A process with two pages, the second without PTE_W. -/
def readOnlyNine : Option World :=
  match kinit ninePages (boot fun _ => 0) with
  | .error _ => none
  | .ok s =>
    match uvmcreate (lab ninePages) s with
    | (none, _) => none
    | (some t, s) =>
      match uvmalloc (lab ninePages) t 0 8192 s with
      | .error _ => none
      | .ok (r, s) => if r = 0 then none else some ⟨protect t 1 (PTE_R ||| PTE_U) s, [t]⟩

/-- A fork of it: what fork answers, the number of tables, whether kalloc has a page, and what
    a store of the child to the second page gets. -/
def forkNine (sz : Nat) : Option (Int × Nat × Bool × Bool) :=
  match readOnlyNine with
  | none => none
  | some w =>
    match step ninePages (cowKernel ninePages) w (.fork 0 sz) with
    | .error _ => none
    | .ok (o, w1) =>
      match walkcowaddr ninePages (w1.live.getD 1 0) 4096 w1.mach with
      | .error _ => none
      | .ok (p, m) => some (o.ret, w1.live.length, (kalloc w1.mach).1.isSome,
          p != 0 && (lookup m.mem (w1.live.getD 1 0) 1).any (·.testBit 2))

theorem forkNine_one : forkNine 4096 = some (0, 2, true, false) := by decide +kernel

theorem forkNine_two : forkNine 8192 = some (0, 2, true, true) := by decide +kernel

theorem readOnlyNine_spec : ∃ t s k, readOnlyNine = some ⟨s, [t]⟩ ∧ VmInv (spec256 ninePages) NoLent s [t] k ∧
    ReadOnly s.mem t 1 := by
  have hsome : readOnlyNine.isSome = true := by decide +kernel
  unfold readOnlyNine at hsome ⊢
  split at hsome
  · cases hsome
  rename_i s1 e1
  split at hsome
  · cases hsome
  rename_i t s2 e2
  split at hsome
  · cases hsome
  rename_i r s e3
  split at hsome
  · cases hsome
  rename_i hr
  obtain ⟨k, hv, hin, -⟩ := first_grown e1 e2 e3 hr
  obtain ⟨p, hl⟩ := hin 1 (by decide)
  obtain ⟨v4, hl4⟩ := protect_spec hv (List.mem_singleton_self t) (by decide) hl
    (by decide : (PTE_R ||| PTE_U) < 1024) (by decide)
  have hbit : ∀ q, ∀ j < 10, (mkpte q (PTE_R ||| PTE_U)).testBit j =
    ((PTE_R ||| PTE_U).testBit j || Nat.testBit 1 j) := fun q j hj =>
    mkpte_testBit (by decide) hj
  rw [if_neg hr]
  refine ⟨t, _, k, rfl, v4, _, hl4, ?_, ?_, ?_⟩
  · rw [hbit _ _ (by decide)]
    decide
  · rw [hbit _ _ (by decide)]
    decide
  · rw [hbit _ _ (by decide)]
    decide

/-- What forkNine saw. -/
theorem forkNine_run {sz n : Nat} {mem grants : Bool} (hf : forkNine sz = some (0, n, mem, grants)) :
    ∃ t s k o w1, VmInv (spec256 ninePages) NoLent s [t] k ∧ ReadOnly s.mem t 1 ∧
      step ninePages (cowKernel ninePages) ⟨s, [t]⟩ (.fork 0 sz) = .ok (o, w1) ∧
      o.ret = 0 ∧ w1.live.length = n ∧ (kalloc w1.mach).1.isSome = mem ∧ ∃ p m,
        walkcowaddr ninePages (w1.live.getD 1 0) 4096 w1.mach = .ok (p, m) ∧
        (p != 0 && (lookup m.mem (w1.live.getD 1 0) 1).any (·.testBit 2)) = grants := by
  obtain ⟨t, s, k, hr, hv, hro⟩ := readOnlyNine_spec
  unfold forkNine at hf
  rw [hr] at hf
  dsimp only at hf
  cases e : step ninePages (cowKernel ninePages) ⟨s, [t]⟩ (.fork 0 sz) with
  | error x =>
    rw [e] at hf
    cases hf
  | ok x =>
    rw [e] at hf
    dsimp only at hf
    cases e2 : walkcowaddr ninePages (x.2.live.getD 1 0) 4096 x.2.mach with
    | error y =>
      rw [e2] at hf
      cases hf
    | ok y =>
      rw [e2] at hf
      obtain ⟨h1, h2, h3, h4⟩ : x.1.ret = 0 ∧ x.2.live.length = n ∧ (kalloc x.2.mach).1.isSome = mem ∧
          (y.1 != 0 && (lookup y.2.mem (x.2.live.getD 1 0) 1).any (·.testBit 2)) = grants := by
        have hf := Option.some.inj hf
        exact ⟨congrArg (·.1) hf, congrArg (·.2.1) hf, congrArg (·.2.2.1) hf, congrArg (·.2.2.2) hf⟩
      exact ⟨t, s, k, x.1, x.2, hv, hro, e, h1, h2, h3, y.1, y.2, e2, h4⟩

/-- fork made a table. -/
theorem step_fork_two (e : step L (cowKernel L) ⟨s, [t]⟩ (.fork i sz) = .ok (o, w1)) (hlen : w1.live.length = 2) :
    ∃ new, w1.live = [t] ++ [new] := by
  obtain ⟨old, -, ⟨m, -, -, rfl⟩ | ⟨new, s, r, m, -, -, -, rfl⟩⟩ := step_fork e
  · exact absurd hlen (show 1 ≠ 2 by decide)
  · exact ⟨new, rfl⟩

/-- A store of the child to the second page is granted, and the entry has PTE_W. -/
theorem fork_grants_write : ∃ t s k o w1 new p m pte, VmInv (spec256 ninePages) NoLent s [t] k ∧ ReadOnly s.mem t 1 ∧
    step ninePages (cowKernel ninePages) ⟨s, [t]⟩ (.fork 0 8192) = .ok (o, w1) ∧ w1.live = [t] ++ [new] ∧ o.ret = 0 ∧
      walkcowaddr ninePages new 4096 w1.mach = .ok (p, m) ∧ p ≠ 0 ∧ lookup m.mem new 1 = some pte ∧
        pte.testBit 2 = true := by
  obtain ⟨t, s, k, o, w1, hv, hro, e, h0, hlen, -, p, m, ew, hg⟩ := forkNine_run forkNine_two
  obtain ⟨new, hlive⟩ := step_fork_two e hlen
  have hnew : w1.live.getD 1 0 = new := by rw [hlive]; rfl
  rw [hnew] at ew hg
  rw [Bool.and_eq_true, bne_iff_ne, Option.any_eq_true] at hg
  obtain ⟨hp, pte, hl, h2⟩ := hg
  exact ⟨t, s, k, o, w1, new, p, m, pte, hv, hro, e, hlive, h0, ew, hp, hl, h2⟩

/-- A fork that copies the first page only, and one that copies both. -/
theorem fork_readonly_nine :
    (∃ t s o w1 new, step ninePages (cowKernel ninePages) ⟨s, [t]⟩ (.fork 0 4096) = .ok (o, w1) ∧
      w1.live = [t] ++ [new] ∧
      Refused ninePages t 1 w1.mach ∧ Refused ninePages new 1 w1.mach) ∧
    ∃ t s o w1 new, step ninePages (cowKernel ninePages) ⟨s, [t]⟩ (.fork 0 8192) = .ok (o, w1) ∧
      w1.live = [t] ++ [new] ∧
      CanStore ninePages t (1 * 4096) w1.mach ∧ CanStore ninePages new (1 * 4096) w1.mach := by
  have hv1 : 1 < VPN := by decide
  constructor
  · obtain ⟨t, s, k, o, w1, hv, hro, e, h0, hlen, -⟩ := forkNine_run forkNine_one
    obtain ⟨new, hlive⟩ := step_fork_two e hlen
    have hi : ([t] : List Nat)[0]? = some t := rfl
    have hmax : w1.live.length ≤ 256 := by rw [hlen]; decide
    have hpages : pages 4096 ≤ 1 := by decide
    have hcs : ∀ n, Call.fork 0 n ∈ ([] : List Call) → pages n ≤ 1 := fun n hn => absurd hn List.not_mem_nil
    have hrun : runCalls ninePages [] w1 = .ok w1 := by unfold runCalls; exact rfl
    obtain ⟨hstay, -⟩ := fork_readonly (w := ⟨s, [t]⟩) ⟨k, hv⟩ hi hv1 hro e hlive hmax
    have href := hstay hpages [] w1 hcs hrun hmax
    exact ⟨t, s, o, w1, new, e, hlive, href⟩
  · obtain ⟨t, s, k, o, w1, hv, hro, e, h0, hlen, hm, -⟩ := forkNine_run forkNine_two
    obtain ⟨new, hlive⟩ := step_fork_two e hlen
    have hi : ([t] : List Nat)[0]? = some t := rfl
    have hmax : w1.live.length ≤ 256 := by rw [hlen]; decide
    have hpages : 1 < pages 8192 := by decide
    have hmem : (kalloc w1.mach).1 ≠ none := fun hn => by
      rw [hn] at hm
      cases hm
    obtain ⟨-, hgrant⟩ := fork_readonly (w := ⟨s, [t]⟩) ⟨k, hv⟩ hi hv1 hro e hlive hmax
    have hcan := hgrant hpages h0 hmem
    exact ⟨t, s, o, w1, new, e, hlive, hcan⟩

end Xv6Labs.Cow
