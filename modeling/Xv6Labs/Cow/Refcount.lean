/-
  Xv6Labs.Cow.Refcount — the counts of the copy-on-write allocator are exact.

  A `Sys` is the machine, the live page tables and the pages some kernel code got from
  `kalloc` and keeps. `step` runs one operation; a panic ends the run. `Reach` starts at
  kinit. `refcounts_exact`: in every reachable state each page's count is the number of
  leaf entries that map it plus one if the kernel holds it, the free list has the pages with
  count 0 once each, and no count has ever wrapped.
-/

import Xv6Labs.Cow.Vm
import Mathlib.Data.Finset.Card
import Mathlib.Data.Finset.Range

namespace Xv6Labs.Cow.Refcount

open Lib Vm

structure Sys where
  mach : Mach Kmem
  live : List Nat
  held : List Nat

inductive Op where
  | kalloc
  | kfree (p : Nat)
  | uvmcreate
  | uvmalloc (t oldsz newsz : Nat)
  | uvmdealloc (t oldsz newsz : Nat)
  | uvmcopy (old new sz : Nat)
  | walkcowaddr (t va : Nat)
  | copyout (t dstva : Nat) (src : List UInt8)
  | uvmunmap (t va npages : Nat)
  | uvmfree (t sz : Nat)

abbrev NPROC : Nat := 64

/-- An operation on a table that is not live, or on a page that is not held, is no call
    the kernel makes. -/
def guarded (b : Bool) (x : Except String Sys) : Except String Sys := if b then x else .error "no such page"

def step (L : Layout) (s : Sys) : Op → Except String Sys
  | .kalloc =>
    match Cow.kalloc s.mach with
    | (none, m) => .ok { s with mach := m }
    | (some p, m) => .ok { s with mach := m, held := p :: s.held }
  | .kfree p => guarded (s.held.contains p) do
    let m ← Cow.kfree L p s.mach
    .ok { s with mach := m, held := s.held.erase p }
  | .uvmcreate => guarded (decide (s.live.length < NPROC))
    (match Vm.uvmcreate (lab L) s.mach with
    | (none, m) => .ok { s with mach := m }
    | (some t, m) => .ok { s with mach := m, live := s.live ++ [t] })
  | .uvmalloc t oldsz newsz => guarded (s.live.contains t) do
    let (_, m) ← Vm.uvmalloc (lab L) t oldsz newsz s.mach
    .ok { s with mach := m }
  | .uvmdealloc t oldsz newsz => guarded (s.live.contains t) do
    let (_, m) ← Vm.uvmdealloc (lab L) t oldsz newsz s.mach
    .ok { s with mach := m }
  | .uvmcopy old new sz => guarded (s.live.contains old && s.live.contains new) do
    let (_, m) ← Cow.uvmcopy L old new sz s.mach
    .ok { s with mach := m }
  | .walkcowaddr t va => guarded (s.live.contains t) do
    let (_, m) ← Cow.walkcowaddr L t va s.mach
    .ok { s with mach := m }
  | .copyout t dstva src => guarded (s.live.contains t) do
    let (_, m) ← Cow.copyout L t dstva src s.mach
    .ok { s with mach := m }
  | .uvmunmap t va npages => guarded (s.live.contains t) do
    let m ← Vm.uvmunmap (lab L) t va npages true s.mach
    .ok { s with mach := m }
  | .uvmfree t sz => guarded (s.live.contains t) do
    let m ← Vm.uvmfree (lab L) t sz s.mach
    .ok { s with mach := m, live := s.live.erase t }

inductive Reach (L : Layout) : Sys → Prop where
  | init {m : Mem} {s : Mach Kmem} (h : kinit L (boot m) = .ok s) : Reach L ⟨s, [], []⟩
  | step {s s' : Sys} (op : Op) (h : Reach L s) (e : step L s op = .ok s') : Reach L s'

/-! ## The invariant -/

section

variable {L : Layout} {cap : Nat} {h1 : 1 ≤ cap} {h256 : cap ≤ 256} {m m' : Mach Kmem} {live held : List Nat}
    {k k' : Nat → Kind}

/-- Every leaf is readable, which is how freewalk tells it from a table. -/
def Readable (m : Mem) (live : List Nat) : Prop :=
  ∀ t ∈ live, ∀ v < VPN, ∀ w, lookup m t v = some w → w.testBit 1 = true

theorem Readable.rwx {mem : Mem} (h : Readable mem live) {t : Nat} (ht : t ∈ live) : RwxLeaves mem t := by
  intro v hv w hw e
  have hb : (w &&& (PTE_R ||| PTE_W ||| PTE_X)).testBit 1 = true := by rw [Nat.testBit_and, h t ht v hv w hw]; rfl
  rw [e] at hb; cases hb

/-- The machine is well formed and the kernel holds exactly the pages of `held`. -/
def Good (L : Layout) (cap : Nat) (h1 : 1 ≤ cap) (h256 : cap ≤ 256) (live held : List Nat) (m : Mach Kmem) : Prop :=
  ∃ k, VmInv (spec L cap h1 h256) NoLent m live k ∧ (∀ r, k r = .held ↔ r ∈ held) ∧ Readable m.mem live

theorem good_kalloc_none (h : Good L cap h1 h256 live held m) (e : kalloc m = (none, m')) :
    Good L cap h1 h256 live held m' := by
  obtain ⟨k, hv, hh, hr⟩ := h
  obtain ⟨v1, e1, -, -⟩ := hv.kalloc_none (A := lab L) e
  exact ⟨k, v1, hh, by rw [e1]; exact hr⟩

theorem good_kalloc_some (h : Good L cap h1 h256 live held m) {p : Nat} (e : kalloc m = (some p, m')) :
    p ∉ held ∧ Good L cap h1 h256 live (p :: held) m' := by
  obtain ⟨k, hv, hh, hr⟩ := h
  obtain ⟨hf, -, v1, lf, -, -⟩ := hv.kalloc_some (A := lab L) e
  refine ⟨fun hp => by simp [(hh p).mpr hp] at hf, _, v1, fun r => ?_, fun t ht v hv w hw => ?_⟩
  · by_cases er : r = p
    · subst er; simp
    · rw [Function.update_of_ne er, hh r]; simp [er]
  · rw [lookup_congr (lf t ht v hv)] at hw
    exact hr t ht v hv w hw

theorem good_kfree (h : Good L cap h1 h256 live held m) (hn : held.Nodup) {p : Nat} (hp : p ∈ held) :
    ∃ m', kfree L p m = .ok m' ∧ Good L cap h1 h256 live (held.erase p) m' := by
  obtain ⟨k, hv, hh, hr⟩ := h
  obtain ⟨m', e, v1, lf, -, -⟩ := hv.kfree_held ((hh p).mpr hp) (fun h => h)
  refine ⟨m', e, _, v1, fun r => ?_, fun t ht v hv w hw => ?_⟩
  · rw [hn.mem_erase_iff]
    by_cases er : r = p
    · subst er; simp
    · rw [Function.update_of_ne er, hh r]; simp [er]
  · rw [lookup_congr (lf t ht v hv)] at hw
    exact hr t ht v hv w hw

/-- Nothing a user sees changed. -/
theorem Readable.kept (hr : Readable m.mem live) (hk : Kept live m k m' k') : Readable m'.mem live :=
  fun t ht v hv w hw => by
  rw [hk.lookup t ht v hv] at hw
  exact hr t ht v hv w hw

theorem good_uvmcreate_none (h : Good L cap h1 h256 live held m) (e : Vm.uvmcreate (lab L) m = (none, m')) :
    Good L cap h1 h256 live held m' := by
  obtain ⟨k, hv, hh, hr⟩ := h
  rcases uvmcreate_spec hv with ⟨m1, e1, v1, kp, -⟩ | ⟨p, m1, k1, e1, -⟩
  · rw [e] at e1
    obtain rfl := (Prod.mk.inj e1).2
    exact ⟨k, v1, hh, hr.kept kp⟩
  · rw [e] at e1; cases e1

theorem good_uvmcreate_some (h : Good L cap h1 h256 live held m) {t : Nat}
    (e : Vm.uvmcreate (lab L) m = (some t, m')) :
    Good L cap h1 h256 (live ++ [t]) held m' := by
  obtain ⟨k, hv, hh, hr⟩ := h
  rcases uvmcreate_spec hv with ⟨m1, e1, -⟩ | ⟨p, m1, k1, e1, -, v1, kp, hz, -⟩
  · rw [e] at e1; cases e1
  · rw [e] at e1
    obtain ⟨ep, rfl⟩ := Prod.mk.inj e1
    obtain rfl := Option.some.inj ep
    refine ⟨k1, v1, fun r => (kp.held r).trans (hh r), fun t' ht' v hv' w hw => ?_⟩
    rcases List.mem_append.mp ht' with ht' | ht'
    · exact hr.kept kp t' ht' v hv' w hw
    · rw [List.mem_singleton.mp ht', hz v hv'] at hw; cases hw

theorem userPerm_read (p : Nat) : (mkpte p userPerm).testBit 1 = true := by
  rw [mkpte_testBit (by decide) (by decide)]; decide

theorem good_uvmalloc (h : Good L cap h1 h256 live held m) {t oldsz newsz r : Nat} (ht : t ∈ live)
    (e : Vm.uvmalloc (lab L) t oldsz newsz m = .ok (r, m')) : Good L cap h1 h256 live held m' := by
  obtain ⟨k, hv, hh, hr⟩ := h
  by_cases hle : oldsz ≤ newsz
  · rcases uvmalloc_spec hv ht oldsz newsz hle with ⟨⟨e1, he⟩, -⟩ | ⟨m1, k1, e1, v1, g, -⟩ | ⟨m1, k1, e1, v1, kp, -⟩
    · rw [e] at he; cases he
    · rw [e] at e1
      obtain rfl := (Prod.mk.inj (Except.ok.inj e1)).2
      refine ⟨k1, v1, fun r => (g.held r).trans (hh r), fun t' ht' v hv' w hw => ?_⟩
      by_cases ec : t' = t ∧ InRange (PGROUNDUP oldsz / 4096) ((newsz - PGROUNDUP oldsz + PGSIZE - 1) / PGSIZE) v
      · obtain ⟨p, -, -, hl⟩ := g.here v ec.2
        rw [ec.1, hl] at hw
        rw [← Option.some.inj hw]
        exact userPerm_read p
      · rw [g.lookup t' ht' v hv' ec] at hw
        exact hr t' ht' v hv' w hw
    · rw [e] at e1
      obtain rfl := (Prod.mk.inj (Except.ok.inj e1)).2
      exact ⟨k1, v1, fun r => (kp.held r).trans (hh r), hr.kept kp⟩
  · rw [Vm.uvmalloc, if_pos (by omega)] at e
    obtain rfl := (Prod.mk.inj (Except.ok.inj e)).2
    exact ⟨k, hv, hh, hr⟩

/-- Clearing leaves. -/
theorem good_cleared (hv : VmInv (spec L cap h1 h256) NoLent m' live k') (hh : ∀ r, k r = .held ↔ r ∈ held)
    (hr : Readable m.mem live)
    {t v0 n : Nat} (hc : Cleared live m k t v0 n m' k') : Good L cap h1 h256 live held m' := by
  refine ⟨k', hv, fun r => ?_, fun t' ht' v hv' w hw => ?_⟩
  · rw [← hh r]
    rcases hc.kind r with e | ⟨⟨v, e1⟩, e2⟩
    · rw [e]
    · rw [e1, e2]; simp
  · rw [hc.lookup t' ht' v hv'] at hw
    split at hw
    · cases hw
    · exact hr t' ht' v hv' w hw

theorem good_unmapLoop (h : Good L cap h1 h256 live held m) {t n va : Nat} (ht : t ∈ live) (hal : va % 4096 = 0)
    (e : unmapLoop (lab L) t true n va m = .ok m') : Good L cap h1 h256 live held m' := by
  obtain ⟨k, hv, hh, hr⟩ := h
  rcases unmapLoop_spec ht n va m k hal hv (fun _ _ _ _ _ h => h) with ⟨-, m1, k1, e1, v1, hc, -⟩ | ⟨-, e1, he⟩
  · rw [e] at e1
    obtain rfl := Except.ok.inj e1
    exact good_cleared v1 hh hr hc
  · rw [e] at he; cases he

theorem good_uvmunmap (h : Good L cap h1 h256 live held m) {t va npages : Nat} (ht : t ∈ live)
    (e : Vm.uvmunmap (lab L) t va npages true m = .ok m') : Good L cap h1 h256 live held m' := by
  rw [Vm.uvmunmap] at e
  split at e
  · cases e
  · rename_i hal
    exact good_unmapLoop h ht (by simpa using hal) e

theorem good_uvmdealloc (h : Good L cap h1 h256 live held m) {t oldsz newsz r : Nat} (ht : t ∈ live)
    (e : Vm.uvmdealloc (lab L) t oldsz newsz m = .ok (r, m')) : Good L cap h1 h256 live held m' := by
  rw [uvmdealloc_eq] at e
  cases e1 : unmapLoop (lab L) t true (deallocN oldsz newsz) (PGROUNDUP newsz) m with
  | error _ => rw [e1] at e; cases e
  | ok m1 =>
    rw [e1] at e
    obtain rfl := (Prod.mk.inj (Except.ok.inj e)).2
    exact good_unmapLoop h ht (pgroundup_mod _) e1

theorem good_uvmfree (h : Good L cap h1 h256 live held m) {t sz : Nat} (ht : t ∈ live)
    (e : Vm.uvmfree (lab L) t sz m = .ok m') : Good L cap h1 h256 (live.erase t) held m' := by
  obtain ⟨k, hv, hh, hr⟩ := h
  rcases uvmfree_spec hv sz ht (hr.rwx ht) (fun _ _ _ _ _ h => h) with ⟨-, m1, k1, e1, v1, kp, -⟩ | ⟨-, e1, he⟩
  · rw [e] at e1
    obtain rfl := Except.ok.inj e1
    refine ⟨k1, v1, fun r => (kp.held r).trans (hh r), fun t' ht' v hv' w hw => ?_⟩
    rw [kp.lookup t' ht' v hv'] at hw
    exact hr t' (List.mem_of_mem_erase ht') v hv' w hw
  · rw [e] at he; cases he

theorem Readable.from {mem mem' : Mem} {old : Nat} (hr : Readable mem live) (hf : From live mem mem' old)
    (hold : old ∈ live) :
    Readable mem' live := by
  intro t ht v hv w' hw'
  rcases hf t ht v hv w' hw' with hw | ⟨w, hw, rfl⟩
  · exact hr t ht v hv w' hw
  · rw [cowPte_testBit w (by decide) (lookup_some.mp hw).2, hr old hold v hv w hw]; rfl

theorem good_uvmcopy (h : Good L cap h1 h256 live held m) (hlen : live.length ≤ cap) {old new sz : Nat} {r : Int}
    (hold : old ∈ live)
    (hnew : new ∈ live) (e : uvmcopy L old new sz m = .ok (r, m')) : Good L cap h1 h256 live held m' := by
  obtain ⟨k, hv, hh, hr⟩ := h
  rcases uvmcopy_spec hv hlen hold hnew sz with ⟨m1, k1, e1, v1, g, -⟩ | ⟨m1, k1, e1, v1, fr, hh1, -⟩ | ⟨-, e1, he⟩
  · rw [Nat.zero_mul, ← uvmcopy, e] at e1
    obtain rfl := (Prod.mk.inj (Except.ok.inj e1)).2
    exact ⟨k1, v1, fun r => (g.held r).trans (hh r), hr.from g.from hold⟩
  · rw [Nat.zero_mul, ← uvmcopy, e] at e1
    obtain rfl := (Prod.mk.inj (Except.ok.inj e1)).2
    exact ⟨k1, v1, fun r => (hh1 r).trans (hh r), hr.from fr hold⟩
  · rw [Nat.zero_mul, ← uvmcopy, e] at he; cases he

/-- walkcowaddr keeps the machine well formed; a page it answers is user memory. -/
theorem good_walkcowaddr (h : Good L cap h1 h256 live held m) {t : Nat} (ht : t ∈ live) (va : Nat) :
    ∃ p m', walkcowaddr L t va m = .ok (p, m') ∧ Good L cap h1 h256 live held m' ∧
      (p ≠ 0 → va < MAXVA ∧ ∃ w, lookup m'.mem t (va / 4096) = some w ∧ p = PTE2PA w) := by
  obtain ⟨k, hv, hh, hr⟩ := h
  rcases walkcowaddr_spec hv ht va with ⟨-, e⟩ | ⟨hva, w, hl, -, -, e⟩ | ⟨m1, e, v1, kp, -⟩ |
    ⟨hva, w, p, m1, k1, hl, -, e, v1, c1, -⟩
  · exact ⟨0, m, e, ⟨k, hv, hh, hr⟩, fun h => absurd rfl h⟩
  · exact ⟨_, m, e, ⟨k, hv, hh, hr⟩, fun _ => ⟨hva, w, hl, rfl⟩⟩
  · exact ⟨0, m1, e, ⟨k, v1, hh, hr.kept kp⟩, fun h => absurd rfl h⟩
  · refine ⟨p, m1, e, ⟨k1, v1, fun r => (c1.held r).trans (hh r), fun t' ht' v hv' w' hw' => ?_⟩,
      fun _ => ⟨hva, mkpte p (ownFlags w), ?_, ?_⟩⟩
    · rw [c1.lookup t' ht' v hv'] at hw'
      split at hw'
      · rename_i ec
        rw [← Option.some.inj hw', mkpte_testBit (ownFlags_lt w) (by decide), ownFlags_testBit w (by decide),
          hr t ht _ (vpn_of_lt hva) w hl]
        rfl
      · exact hr t' ht' v hv' w' hw'
    · rw [c1.lookup t ht _ (vpn_of_lt hva), if_pos ⟨rfl, rfl⟩]
    · rw [pte2pa_mkpte c1.page (ownFlags_lt w)]

/-- Bytes written into a user page. -/
theorem good_put (h : Good L cap h1 h256 live held m) {t va w : Nat} (ht : t ∈ live) (hva : va / 4096 < VPN)
    (hl : lookup m.mem t (va / 4096) = some w) (bs : List UInt8) (hn : va % 4096 + bs.length ≤ 4096) :
    Good L cap h1 h256 live held { m with mem := m.mem.put (PTE2PA w + va % 4096) bs } := by
  obtain ⟨k, hv, hh, hr⟩ := h
  have hd := hv.leaf_data ht hva hl
  obtain ⟨v1, lf⟩ := hv.write (m := m.mem.put (PTE2PA w + va % 4096) bs) (p := PTE2PA w) (by rw [hd]; rfl)
    fun x hx => by
    have := pageOf_mem (pte2pa_mod w) hx
    exact Mem.agree_put (b := x) (n := 1) m.mem bs (by omega) x (Nat.le_refl _) (by omega)
  refine ⟨k, v1, hh, fun t' ht' v hv' w' hw' => ?_⟩
  have hw'' : lookup (m.mem.put (PTE2PA w + va % 4096) bs) t' v = some w' := hw'
  rw [lookup_congr (lf t' ht' v hv')] at hw''
  exact hr t' ht' v hv' w' hw''

theorem good_copyoutLoop {t : Nat} (ht : t ∈ live) : ∀ rounds dstva src (m : Mach Kmem),
    Good L cap h1 h256 live held m →
    ∃ r m', copyoutLoop (walkcowaddr L t) rounds dstva src m = .ok (r, m') ∧ Good L cap h1 h256 live held m' := by
  intro rounds
  induction rounds with
  | zero => intro dstva src m h; exact ⟨0, m, rfl, h⟩
  | succ rounds ih =>
    intro dstva src m h
    by_cases hz : src.length = 0
    · exact ⟨0, m, by simp only [copyoutLoop, hz, if_true], h⟩
    · obtain ⟨p, m1, e1, g1, hp⟩ := good_walkcowaddr h ht (PGROUNDDOWN dstva)
      by_cases hp0 : p = 0
      · refine ⟨-1, m1, ?_, g1⟩
        rw [copyoutLoop_round hz e1, if_pos hp0]
      · obtain ⟨hva, w, hl, rfl⟩ := hp hp0
        have hd := pgrounddown_eq dstva
        have hround : PGROUNDDOWN dstva / 4096 = dstva / 4096 := by rw [hd]; omega
        have hoff : dstva - PGROUNDDOWN dstva = dstva % 4096 := by rw [hd]; omega
        rw [hround] at hl
        have hv : dstva / 4096 < VPN := by rw [← hround]; exact vpn_of_lt hva
        have g2 := good_put g1 ht hv hl (src.take (min (PGSIZE - (dstva - PGROUNDDOWN dstva)) src.length)) (by
          rw [List.length_take, hoff]; unfold PGSIZE; omega)
        obtain ⟨r, m', e', g'⟩ := ih (u64 (PGROUNDDOWN dstva + PGSIZE))
          (src.drop (min (PGSIZE - (dstva - PGROUNDDOWN dstva)) src.length)) _ g2
        refine ⟨r, m', ?_, g'⟩
        rw [copyoutLoop_round hz e1, if_neg hp0]
        rw [hoff] at e' ⊢
        exact e'

end

/-! ## Every operation keeps it -/

variable {L : Layout}

structure SysGood (L : Layout) (s : Sys) : Prop where
  good : Good L NPROC (by decide) (by decide) s.live s.held s.mach
  nodup : s.held.Nodup
  few : s.live.length ≤ NPROC

theorem guarded_ok {b : Bool} {x : Except String Sys} {s : Sys} (h : guarded b x = .ok s) : b = true ∧ x = .ok s := by
  unfold guarded at h
  split at h
  · exact ⟨by assumption, h⟩
  · cases h

theorem step_good {s s' : Sys} (h : SysGood L s) (op : Op) (e : step L s op = .ok s') : SysGood L s' := by
  have mem : ∀ {l : List Nat} {t : Nat}, l.contains t = true → t ∈ l := fun h => List.contains_iff_mem.mp h
  cases op with
  | kalloc =>
    rw [step] at e
    rcases hk : kalloc s.mach with ⟨_ | p, m⟩
    · rw [hk] at e
      obtain rfl := Except.ok.inj e
      exact ⟨good_kalloc_none h.good hk, h.nodup, h.few⟩
    · rw [hk] at e
      obtain rfl := Except.ok.inj e
      obtain ⟨hp, hg⟩ := good_kalloc_some h.good hk
      exact ⟨hg, List.nodup_cons.mpr ⟨hp, h.nodup⟩, h.few⟩
  | kfree p =>
    obtain ⟨hp, e⟩ := guarded_ok e
    obtain ⟨m, em, e⟩ := bind_ok e
    obtain rfl := Except.ok.inj e
    obtain ⟨m', em', hg⟩ := good_kfree h.good h.nodup (mem hp)
    rw [em] at em'
    obtain rfl := Except.ok.inj em'
    exact ⟨hg, h.nodup.erase p, h.few⟩
  | uvmcreate =>
    obtain ⟨hn, e⟩ := guarded_ok e
    rcases hc : Vm.uvmcreate (lab L) s.mach with ⟨_ | t, m⟩
    · rw [hc] at e
      obtain rfl := Except.ok.inj e
      exact ⟨good_uvmcreate_none h.good hc, h.nodup, h.few⟩
    · rw [hc] at e
      obtain rfl := Except.ok.inj e
      refine ⟨good_uvmcreate_some h.good hc, h.nodup, ?_⟩
      have := of_decide_eq_true hn
      simp only [List.length_append, List.length_singleton]
      omega
  | uvmalloc t oldsz newsz =>
    obtain ⟨ht, e⟩ := guarded_ok e
    obtain ⟨⟨r, m⟩, em, e⟩ := bind_ok e
    obtain rfl := Except.ok.inj e
    exact ⟨good_uvmalloc h.good (mem ht) em, h.nodup, h.few⟩
  | uvmdealloc t oldsz newsz =>
    obtain ⟨ht, e⟩ := guarded_ok e
    obtain ⟨⟨r, m⟩, em, e⟩ := bind_ok e
    obtain rfl := Except.ok.inj e
    exact ⟨good_uvmdealloc h.good (mem ht) em, h.nodup, h.few⟩
  | uvmcopy old new sz =>
    obtain ⟨ht, e⟩ := guarded_ok e
    obtain ⟨⟨r, m⟩, em, e⟩ := bind_ok e
    obtain rfl := Except.ok.inj e
    obtain ⟨ho, hn⟩ := Bool.and_eq_true_iff.mp ht
    exact ⟨good_uvmcopy h.good h.few (mem ho) (mem hn) em, h.nodup, h.few⟩
  | walkcowaddr t va =>
    obtain ⟨ht, e⟩ := guarded_ok e
    obtain ⟨⟨r, m⟩, em, e⟩ := bind_ok e
    obtain rfl := Except.ok.inj e
    obtain ⟨p, m', em', hg, -⟩ := good_walkcowaddr h.good (mem ht) va
    rw [em] at em'
    obtain rfl := (Prod.mk.inj (Except.ok.inj em')).2
    exact ⟨hg, h.nodup, h.few⟩
  | copyout t dstva src =>
    obtain ⟨ht, e⟩ := guarded_ok e
    obtain ⟨⟨r, m⟩, em, e⟩ := bind_ok e
    obtain rfl := Except.ok.inj e
    obtain ⟨r', m', em', hg⟩ := good_copyoutLoop (mem ht) src.length dstva src s.mach h.good
    rw [copyout, em'] at em
    obtain rfl := (Prod.mk.inj (Except.ok.inj em)).2
    exact ⟨hg, h.nodup, h.few⟩
  | uvmunmap t va npages =>
    obtain ⟨ht, e⟩ := guarded_ok e
    obtain ⟨m, em, e⟩ := bind_ok e
    obtain rfl := Except.ok.inj e
    exact ⟨good_uvmunmap h.good (mem ht) em, h.nodup, h.few⟩
  | uvmfree t sz =>
    obtain ⟨ht, e⟩ := guarded_ok e
    obtain ⟨m, em, e⟩ := bind_ok e
    obtain rfl := Except.ok.inj e
    exact ⟨good_uvmfree h.good (mem ht) em, h.nodup, Nat.le_trans (List.length_erase_le ..) h.few⟩

theorem reach_good {s : Sys} (h : Reach L s) : SysGood L s := by
  induction h with
  | @init m s h =>
    obtain ⟨s', e, -, hi⟩ := kinit_spec (L := L) NPROC m (by decide) (by decide)
    rw [h] at e
    obtain rfl := Except.ok.inj e
    refine ⟨⟨_, VmInv.init (H := spec L NPROC (by decide) (by decide)) hi, fun r => ?_, fun t ht => ?_⟩,
      List.nodup_nil, Nat.zero_le _⟩
    · split <;> simp
    · cases ht
  | step op _ e ih => exact step_good ih op e

/-! ## Counting -/

/-- The pages of the table rooted at `t`, found by following valid entries. -/
inductive TablePage (m : Mem) (t : Nat) : Nat → Nat → Prop where
  | root : TablePage m t 2 t
  | down {l q j : Nat} (h : TablePage m t (l + 1) q) (hj : j < 512) (hv : vbit (pte m q j) = true) :
    TablePage m t l (PTE2PA (pte m q j))

theorem tablePage_iff {B : Nat → Prop} {m : Mem} {live : List Nat} {k : Nat → Kind} (h : Tab B m live k) {t l p : Nat}
    (ht : t ∈ live) : TablePage m t l p ↔ ∃ i, k p = .node t l i := by
  constructor
  · intro hp
    induction hp with
    | root => exact ⟨0, h.root t ht⟩
    | @down l q j _ hj hv ih =>
      obtain ⟨i, hq⟩ := ih
      obtain ⟨p, hp, hw⟩ := h.down q t l i j hq hj hv
      rw [hw, pte2pa_mkpte (h.nodePage hp) (by decide)]
      exact ⟨_, hp⟩
  · rintro ⟨i, hp⟩
    -- from the page up to the root
    induction hd : 2 - l generalizing l i p with
    | zero =>
      obtain ⟨-, hl, h2, -⟩ := h.up p t l i hp
      obtain rfl : l = 2 := by omega
      rw [(h2 rfl).1]; exact .root
    | succ d ih =>
      obtain ⟨q, hq, hw⟩ := (h.up p t l i hp).2.2.2 (by omega)
      have := TablePage.down (ih _ hq (by omega)) (Nat.mod_lt i (by decide : 0 < 512))
        (by rw [hw]; exact vbit_mkpte (by decide))
      rwa [hw, pte2pa_mkpte (h.nodePage hp) (by decide)] at this

/-- The valid leaf entries of the live tables that map `p`. -/
def leafCount (m : Mem) (live : List Nat) (p : Nat) : Nat :=
  (live.map fun t => ((Finset.range VPN).filter fun v => maps m v p t = true).card).sum

open Classical in
/-- One for a page the kernel holds: a page of a live table, or one it got from kalloc. -/
noncomputable def kernelHolds (s : Sys) (p : Nat) : Nat :=
  if p ∈ s.held ∨ ∃ t ∈ s.live, ∃ l, TablePage s.mach.mem t l p then 1 else 0

section

variable {A : Lab Kmem} {H : AllocSpec A} {s : Mach Kmem} {live : List Nat} {k : Nat → Kind}

theorem sum_ite (f : Nat → Bool) : ∀ l : List Nat, (l.map fun t => if f t then 1 else 0).sum = l.countP f
  | [] => rfl
  | t :: l => by
    rw [List.map_cons, List.sum_cons, sum_ite f l, List.countP_cons]
    omega

theorem leafCount_data (h : VmInv H NoLent s live k) {p v : Nat} (hp : k p = .data v) :
    leafCount s.mem live p = live.countP (maps s.mem v p) := by
  have one : ∀ t ∈ live, ((Finset.range VPN).filter fun v => maps s.mem v p t = true).card =
    if maps s.mem v p t then 1 else 0 := by
    intro t ht
    -- a user page is mapped at its own virtual page only
    have : ((Finset.range VPN).filter fun v => maps s.mem v p t = true) = if maps s.mem v p t then {v} else ∅ := by
      ext v'
      simp only [Finset.mem_filter, Finset.mem_range]
      constructor
      · rintro ⟨hv', hm⟩
        have := (h.maps_data ht hv' hm).resolve_right id
        obtain rfl := Kind.data.inj (hp.symm.trans this)
        simp [hm]
      · intro hm
        split at hm
        · rename_i e
          rw [Finset.mem_singleton.mp hm]
          exact ⟨h.vpn p v hp, e⟩
        · cases hm
    rw [this]
    split <;> rfl
  unfold leafCount
  rw [List.map_congr_left one, sum_ite]

theorem leafCount_zero (h : VmInv H NoLent s live k) {p : Nat} (hp : ∀ v, k p ≠ .data v) :
    leafCount s.mem live p = 0 := by
  have none : ∀ t ∈ live, ((Finset.range VPN).filter fun v => maps s.mem v p t = true).card =
    if false = true then 1 else 0 := by
    intro t ht
    show _ = 0
    rw [Finset.card_eq_zero, Finset.filter_eq_empty_iff]
    intro v hv hm
    exact hp v ((h.maps_data ht (Finset.mem_range.mp hv) hm).resolve_right id)
  unfold leafCount
  rw [List.map_congr_left none, sum_ite (fun _ => false), List.countP_eq_zero]
  simp

end

/-- The owners of a page are the leaf entries that map it and the kernel. -/
theorem own_eq {s : Sys} {k : Nat → Kind} {cap : Nat} {h1 : 1 ≤ cap} {h256 : cap ≤ 256}
    (h : VmInv (spec L cap h1 h256) NoLent s.mach s.live k) (hh : ∀ r, k r = .held ↔ r ∈ s.held) {p : Nat}
    (hp : Page L p) :
    own s.mach.mem s.live k p = leafCount s.mach.mem s.live p + kernelHolds s p := by
  have hker : (p ∈ s.held ∨ ∃ t ∈ s.live, ∃ l, TablePage s.mach.mem t l p) ↔
    k p = .held ∨ ∃ t l i, k p = .node t l i := by
    rw [hh p]
    refine or_congr_right ⟨?_, ?_⟩
    · rintro ⟨t, ht, l, hl⟩
      obtain ⟨i, hi⟩ := (tablePage_iff h.tab ht).mp hl
      exact ⟨t, l, i, hi⟩
    · rintro ⟨t, l, i, hi⟩
      have ht := (h.tab.up p t l i hi).1
      exact ⟨t, ht, l, (tablePage_iff h.tab ht).mpr ⟨i, hi⟩⟩
  unfold kernelHolds own
  cases hk : k p with
  | ext => exact absurd hp ((h.ext p).mp hk)
  | free =>
    rw [leafCount_zero h (by rw [hk]; simp), if_neg (by rw [hker, hk]; simp)]
    rfl
  | held =>
    rw [leafCount_zero h (by rw [hk]; simp), if_pos (hker.mpr (by rw [hk]; simp))]
    rfl
  | node t l i =>
    rw [leafCount_zero h (by rw [hk]; simp), if_pos (hker.mpr (by rw [hk]; simp))]
    rfl
  | data v =>
    rw [leafCount_data h hk, if_neg (by rw [hker, hk]; simp)]
    rfl

/-! ## The counts are exact -/

theorem refcounts_exact {s : Sys} (h : Reach L s) :
    (∀ p, Page L p → (s.mach.kmem.ref_cnt (cowIndex p)).toNat = leafCount s.mach.mem s.live p + kernelHolds s p) ∧
      (∃ fl, Chain s.mach.mem s.mach.kmem.freelist fl ∧ (∀ p ∈ fl, Page L p) ∧
        ∀ p, Page L p → fl.count p = if s.mach.kmem.ref_cnt (cowIndex p) = 0 then 1 else 0) ∧
      s.mach.kmem.wrapped = false := by
  obtain ⟨⟨k, hv, hh, -⟩, -, -⟩ := reach_good h
  have ha : Inv L NPROC s.mach (own s.mach.mem s.live k) := hv.alloc
  have hcount : ∀ p, Page L p → (s.mach.kmem.ref_cnt (cowIndex p)).toNat = own s.mach.mem s.live k p := fun p hp => by
    have hle : own s.mach.mem s.live k p ≤ NPROC := hv.capped p
    rw [ha.count p hp, UInt8.toNat_ofNat', Nat.mod_eq_of_lt (by unfold NPROC at hle; omega)]
  refine ⟨fun p hp => by rw [hcount p hp, own_eq hv hh hp], ?_, ha.exact (by decide)⟩
  obtain ⟨fl, hc, hn, hmem⟩ := ha.list
  refine ⟨fl, hc, fun p hp => ((hmem p).mp hp).1, fun p hp => ?_⟩
  have hz : s.mach.kmem.ref_cnt (cowIndex p) = 0 ↔ p ∈ fl := by
    rw [hmem p, ← UInt8.toNat_inj, hcount p hp]
    simp [hp]
  by_cases e : p ∈ fl
  · rw [if_pos (hz.mpr e), List.count_eq_one_of_mem hn e]
  · rw [if_neg (fun e' => e (hz.mp e')), List.count_eq_zero_of_not_mem e]

def runOps (L : Layout) : List Op → Sys → Except String Sys
  | [], s => .ok s
  | op :: ops, s => do runOps L ops (← step L s op)

theorem Reach.ops {s s' : Sys} (h : Reach L s) {ops : List Op} (e : runOps L ops s = .ok s') : Reach L s' := by
  induction ops generalizing s with
  | nil =>
    cases e
    exact h
  | cons op ops ih =>
    obtain ⟨s1, e1, e2⟩ := bind_ok e
    exact ih (.step op h e1) e2

def ninePages : Layout := ⟨KERNBASE, KERNBASE + 9 * 4096, Nat.le_refl KERNBASE, by decide, by decide⟩

/-- A process with one page forks; its tables are made of the last pages. -/
def forkOnce : List Op :=
  [.uvmcreate, .uvmalloc (KERNBASE + 8 * 4096) 0 4096, .uvmcreate,
    .uvmcopy (KERNBASE + 8 * 4096) (KERNBASE + 4 * 4096) 4096]

/-- The tables, and whether both map the page, and its count. -/
def forkedOnce : Option (List Nat × Bool × UInt8) :=
  match kinit ninePages (boot fun _ => 0) with
  | .error _ => none
  | .ok m =>
    match runOps ninePages forkOnce ⟨m, [], []⟩ with
    | .error _ => none
    | .ok s => some (s.live, s.live.all (maps s.mach.mem 0 (KERNBASE + 7 * 4096)),
        s.mach.kmem.ref_cnt (cowIndex (KERNBASE + 7 * 4096)))

/-- After the fork two tables share the page. -/
theorem refcounts_exact_shared : ∃ s, Reach ninePages s ∧ s.live = [KERNBASE + 8 * 4096, KERNBASE + 4 * 4096] ∧
    (∀ t ∈ s.live, maps s.mach.mem 0 (KERNBASE + 7 * 4096) t = true) ∧ s.mach.kmem.ref_cnt
    (cowIndex (KERNBASE + 7 * 4096)) = 2 ∧
    (∀ p, Page ninePages p → (s.mach.kmem.ref_cnt (cowIndex p)).toNat =
      leafCount s.mach.mem s.live p + kernelHolds s p) := by
  have hrun : forkedOnce = some ([KERNBASE + 8 * 4096, KERNBASE + 4 * 4096], true, 2) := by decide +kernel
  unfold forkedOnce at hrun
  split at hrun
  · cases hrun
  rename_i m em
  split at hrun
  · cases hrun
  rename_i s es
  obtain ⟨hlive, hmaps, hcount⟩ : s.live = _ ∧ s.live.all _ = true ∧ _ = (2 : UInt8) := by
    simpa only [Option.some.injEq, Prod.mk.injEq] using hrun
  have hr : Reach ninePages s := (Reach.init em).ops es
  exact ⟨s, hr, hlive, fun t ht => List.all_eq_true.mp hmaps t ht, hcount, (refcounts_exact hr).1⟩

end Xv6Labs.Cow.Refcount
