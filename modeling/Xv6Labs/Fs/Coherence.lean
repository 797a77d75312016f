/-
  Xv6Labs.Fs.Coherence — the inode table is coherent.

  While iput frees an inode it holds no spin lock, and ialloc may find the free dinode and
  then the slot, still marked valid. It is referenced again and waits for the sleep lock; iput
  clears valid before it lets go.

  - `Inv`: what each call in progress knows of its slot and of the dinode.
  - `table_coherent`: one slot an inode, exact refs, ilock returns what is on disk, and only an
    inode without links and without other references is freed.
  - `iget_while_freed`: an iget of an inode that iput is about to free, allocated on disk to the
    last, ends in "ilock: no type".
-/

import Xv6Labs.Fs.Itable

namespace Xv6Labs.Fs.Itable

variable (L : Limits)

/-! ## What holds -/

/-- The references to slot `k` not put yet. -/
def Sys.refsTo (s : Sys) (k : Nat) : Finset Ref := s.refs.filter fun r => r.ip = k

/-- iput freed the inode of `r` and has yet to drop it. -/
def Sys.Freed (s : Sys) (r : Ref) : Prop := ∃ p, (s.pc p).freed = some r

structure Tab (s : Sys) : Prop where
  refs : ∀ k, (s.inode k).ref = (s.refsTo k).card
  slots : ∀ r ∈ s.refs, r.ip < L.NINODE
  one : ∀ j k, 0 < (s.inode j).ref → 0 < (s.inode k).ref → (s.inode j).key = (s.inode k).key → j = k

structure Inv (s : Sys) : Prop where
  tab : Tab L s
  procs : ∀ p, (L.NPROC ≤ p → s.pc p = .run) ∧ ∀ dev type inum, s.pc p = .ialloc dev type inum → type ≠ 0
  uses : ∀ p r, (s.pc p).ref = some r → r ∈ s.refs
  locks : ∀ k h, (s.inode k).lock = some h → h.ref ∈ s.refs ∧ h.ref.ip = k ∧
    ((s.inode k).valid = true ∨ s.pc h.pid = .load h.ref)
  holds : ∀ p r, (s.pc p).holds = some r → (s.inode r.ip).lock = some ⟨p, r, false⟩
  /-- a reference that is put is nobody else's -/
  drops : ∀ p r, (s.pc p).drops = some r → (∀ q, (s.pc q).ref = some r → q = p) ∧
    ∀ h, (s.inode r.ip).lock = some h → h.ref = r → (s.pc p).holds = some r
  /-- but for an inode iput freed, a valid copy is the dinode, or has its type when it changed -/
  copy : ∀ k, 0 < (s.inode k).ref → (s.inode k).valid = true →
    (∀ h, (s.inode k).lock = some h → s.pc h.pid ≠ .invalid h.ref) →
    (s.disk (s.inode k).key).type ≠ 0 ∧ (s.inode k).d.type = (s.disk (s.inode k).key).type ∧
      ((∀ h, (s.inode k).lock = some h → h.dirty = false) → (s.inode k).d = s.disk (s.inode k).key)
  /-- what is referenced is allocated, unless iput freed it -/
  alive : ∀ r ∈ s.refs, (s.disk (s.inode r.ip).key).type ≠ 0 ∨ s.Freed r
  frees : ∀ p r, s.pc p = .itrunc r ∨ s.pc p = .free r →
    (∀ r' ∈ s.refs, r'.ip = r.ip → r' = r) ∧ (s.inode r.ip).valid = true ∧ (s.disk (s.inode r.ip).key).nlink = 0
  /-- what ialloc found is its own, but for a slot that iput leaves -/
  fresh : ∀ p key, s.pc p = .allocated key → (s.disk key).type ≠ 0 ∧ (s.disk key).nlink = 0 ∧
    (∀ r ∈ s.refs, (s.inode r.ip).key = key → s.Freed r) ∧ ∀ q, s.pc q = .allocated key → q = p

/-- The slot `k` of a new reference: in use, or empty and made the one slot of its inode. -/
structure Slot (s : Sys) (k : Nat) (x : Inode) : Prop where
  lt : k < L.NINODE
  ref : x.ref = (s.inode k).ref + 1
  lock : x.lock = (s.inode k).lock
  used : 0 < (s.inode k).ref → x.key = (s.inode k).key ∧ x.valid = (s.inode k).valid ∧ x.d = (s.inode k).d
  empty : (s.inode k).ref = 0 → x.valid = false ∧ ∀ j, 0 < (s.inode j).ref → (s.inode j).key ≠ x.key

section

variable {L} {s s' : Sys} {p : Nat} {r : Ref}

attribute [local grind =] Pc.ref Pc.holds Pc.drops Pc.freed

@[simp, grind =] theorem setPc_pc (s : Sys) (p q : Nat) (x : Pc) : (s.setPc p x).pc q = if q = p then x else s.pc q :=
  Function.update_apply ..

@[simp, grind =] theorem setPc_inode (s : Sys) (p : Nat) (x : Pc) (k : Nat) : (s.setPc p x).inode k = s.inode k := rfl

@[simp, grind =] theorem setPc_disk (s : Sys) (p : Nat) (x : Pc) (key : Nat × Nat) :
    (s.setPc p x).disk key = s.disk key := rfl

@[simp, grind =] theorem setPc_refs (s : Sys) (p : Nat) (x : Pc) : (s.setPc p x).refs = s.refs := rfl

@[simp, grind =] theorem setInode_inode (s : Sys) (k j : Nat) (x : Inode) :
    (s.setInode k x).inode j = if j = k then x else s.inode j :=
  Function.update_apply ..

@[simp, grind =] theorem setInode_pc (s : Sys) (k : Nat) (x : Inode) (q : Nat) : (s.setInode k x).pc q = s.pc q := rfl

@[simp, grind =] theorem setInode_disk (s : Sys) (k : Nat) (x : Inode) (key : Nat × Nat) :
    (s.setInode k x).disk key = s.disk key := rfl

@[simp, grind =] theorem setInode_refs (s : Sys) (k : Nat) (x : Inode) : (s.setInode k x).refs = s.refs := rfl

@[simp, grind =] theorem setDisk_disk (s : Sys) (key key' : Nat × Nat) (d : Dinode) :
    (s.setDisk key d).disk key' = if key' = key then d else s.disk key' :=
  Function.update_apply ..

@[simp, grind =] theorem setDisk_pc (s : Sys) (key : Nat × Nat) (d : Dinode) (q : Nat) :
    (s.setDisk key d).pc q = s.pc q := rfl

@[simp, grind =] theorem setDisk_inode (s : Sys) (key : Nat × Nat) (d : Dinode) (k : Nat) :
    (s.setDisk key d).inode k = s.inode k := rfl

@[simp, grind =] theorem setDisk_refs (s : Sys) (key : Nat × Nat) (d : Dinode) : (s.setDisk key d).refs = s.refs :=
  rfl

/-! ## The table -/

theorem mem_refsTo {k : Nat} : r ∈ s.refsTo k ↔ r ∈ s.refs ∧ r.ip = k := Finset.mem_filter

/-- Nothing about who refers to what changes. -/
theorem Tab.keep (h : Tab L s) (hr : s'.refs = s.refs)
    (hk : ∀ k, (s'.inode k).ref = (s.inode k).ref ∧ (s'.inode k).key = (s.inode k).key) : Tab L s' := by
  refine ⟨fun k => ?_, fun r hm => h.slots r (hr ▸ hm), fun j k => ?_⟩
  · rw [(hk k).1, h.refs, Sys.refsTo, Sys.refsTo, hr]
  · rw [(hk j).1, (hk j).2, (hk k).1, (hk k).2]
    exact h.one j k

theorem Tab.pos (h : Tab L s) (hm : r ∈ s.refs) : 0 < (s.inode r.ip).ref := by
  rw [h.refs]
  have : 0 < (s.refsTo r.ip).card := Finset.card_pos.mpr ⟨r, mem_refsTo.mpr ⟨hm, rfl⟩⟩
  omega

theorem Tab.same (h : Tab L s) {r' : Ref} (hm : r ∈ s.refs) (hm' : r' ∈ s.refs)
    (e : (s.inode r'.ip).key = (s.inode r.ip).key) : r'.ip = r.ip :=
  h.one _ _ (h.pos hm') (h.pos hm) e

theorem Tab.alone (h : Tab L s) (hm : r ∈ s.refs) (h1 : (s.inode r.ip).ref = 1) {r' : Ref} (hm' : r' ∈ s.refs)
    (e : r'.ip = r.ip) : r' = r := by
  rw [h.refs] at h1
  exact Finset.card_le_one.mp (show (s.refsTo r.ip).card ≤ 1 by omega) r' (mem_refsTo.mpr ⟨hm', e⟩) r
    (mem_refsTo.mpr ⟨hm, rfl⟩)

theorem Tab.erase (h : Tab L s) (hm : r ∈ s.refs) : Tab L (Itable.put r s) := by
  refine ⟨fun k => ?_, fun r' hr => h.slots r' (Finset.mem_of_mem_erase hr), fun j k => ?_⟩
  · have e : (Itable.put r s).refsTo k = (s.refsTo k).erase r := Finset.filter_erase ..
    have hk := h.refs k
    by_cases hr : r.ip = k
    · have := Finset.card_erase_add_one (mem_refsTo.mpr ⟨hm, hr⟩)
      rw [e]
      simp only [Itable.put, setInode_inode, hr, if_true]
      omega
    · rw [e, Finset.erase_eq_of_notMem (fun hx => hr (mem_refsTo.mp hx).2), ← hk]
      simp [Itable.put, Ne.symm hr]
  · have := h.one j k
    simp only [Itable.put, setInode_inode]
    grind [Inode.key]

theorem Tab.addRef (h : Tab L s) {k id : Nat} {x : Inode} (hx : Slot L s k x) (hid : ∀ r ∈ s.refs, r.id ≠ id) :
    Tab L { s.setInode k x with refs := insert ⟨k, id⟩ s.refs } := by
  refine ⟨fun j => ?_, fun r hr => ?_, fun i j => ?_⟩
  · have hj := h.refs j
    by_cases e : j = k
    · have hc : (insert (⟨k, id⟩ : Ref) (s.refsTo k)).card = (s.refsTo k).card + 1 :=
        Finset.card_insert_of_notMem fun hm => hid _ (mem_refsTo.mp hm).1 rfl
      have e' : Sys.refsTo { s.setInode k x with refs := insert ⟨k, id⟩ s.refs } j = insert ⟨k, id⟩ (s.refsTo k) := by
        simp [Sys.refsTo, Finset.filter_insert, e]
      rw [e', hc]
      simp only [setInode_inode, e, if_true, hx.ref]
      subst e
      omega
    · have e' : Sys.refsTo { s.setInode k x with refs := insert ⟨k, id⟩ s.refs } j = s.refsTo j := by
        simp [Sys.refsTo, Finset.filter_insert, Ne.symm e]
      rw [e']
      simpa [e] using hj
  · rcases Finset.mem_insert.mp hr with rfl | hr
    · exact hx.lt
    · exact h.slots r hr
  · have := h.one i j
    have := hx.used
    have := hx.empty
    have := h.refs k
    simp only [setInode_inode]
    grind

theorem igetLoop_spec {t : Nat → Inode} {key : Nat × Nat} {N k : Nat} {x : Inode} (n j : Nat) (e : Option Nat)
    (hj : j + n = N) (he : ∀ i, e = some i → i < N ∧ (t i).ref = 0) (hp : ∀ i < j, 0 < (t i).ref → (t i).key ≠ key)
    (h : igetLoop t key n j e = some (k, x)) :
    k < N ∧ (0 < (t k).ref ∧ (t k).key = key ∧ x = { t k with ref := (t k).ref + 1 } ∨
      (t k).ref = 0 ∧ x = { t k with dev := key.1, inum := key.2, ref := 1, valid := false } ∧ ∀ i < N,
        0 < (t i).ref → (t i).key ≠ key) := by
  induction n generalizing j e with
  | zero =>
    cases e with
    | none => cases h
    | some i =>
      obtain ⟨h1, h2⟩ := he i rfl
      simp only [igetLoop, Option.some.injEq, Prod.mk.injEq] at h
      obtain ⟨rfl, rfl⟩ := h
      exact ⟨h1, Or.inr ⟨h2, rfl, fun i hi => hp i (by omega)⟩⟩
  | succ n ih =>
    unfold igetLoop at h
    split at h
    · rename_i hc
      simp only [Option.some.injEq, Prod.mk.injEq] at h
      obtain ⟨rfl, rfl⟩ := h
      exact ⟨by omega, Or.inl ⟨hc.1, hc.2, rfl⟩⟩
    · rename_i hc
      refine ih (j + 1) _ (by omega) (fun i hi => ?_) (fun i hi => ?_) h
      · split at hi
        · rename_i h0
          simp only [Option.some.injEq] at hi
          exact ⟨by omega, hi ▸ h0.2⟩
        · exact he i hi
      · by_cases e : i = j
        · exact fun h1 h2 => hc (e ▸ ⟨h1, h2⟩)
        · exact hp i (by omega)

/-! ## Each step keeps the invariant -/

@[local grind →] theorem drops_of_freed {x : Pc} (h : x.freed = some r) : x.drops = some r := by
  cases x <;> simp_all [Pc.freed, Pc.drops]

@[local grind →] theorem ref_of_drops {x : Pc} (h : x.drops = some r) : x.ref = some r := by
  cases x <;> simp_all [Pc.ref, Pc.drops]

@[local grind →] theorem ref_of_holds {x : Pc} (h : x.holds = some r) : x.ref = some r := by
  cases x <;> simp_all [Pc.holds, Pc.ref]

theorem Sys.Freed.move (h : s.Freed r) (p : Nat) (hp : ∀ q, q ≠ p → s'.pc q = s.pc q)
    (h' : (s.pc p).freed = some r → (s'.pc p).freed = some r) : s'.Freed r := by
  obtain ⟨q, hq⟩ := h
  by_cases e : q = p
  · subst e
    exact ⟨q, h' hq⟩
  · exact ⟨q, by rwa [hp q e]⟩

theorem Inv.live (hi : Inv L s) (h : s.Live L r) (q : Nat) : (s.pc q).drops ≠ some r := by
  by_cases hq : q < L.NPROC
  · exact h.2 q hq
  · simp [(hi.procs q).1 (by omega), Pc.drops]

/-- The inode a client has locked stays. -/
theorem Inv.not_freed (hi : Inv L s) (h0 : s.pc p = .run) {x : Hold} (hl : (s.inode r.ip).lock = some x)
    (hx : x.pid = p ∧ x.ref = r) : ¬ s.Freed r := by
  intro ⟨q, hq⟩
  have := (hi.drops q r (drops_of_freed hq)).2 x hl hx.2
  have := hi.holds q r this
  grind

theorem Inv.toIlock (hi : Inv L s) (hp : p < L.NPROC) (h0 : s.pc p = .run) (h : s.Live L r) :
    Inv L (s.setPc p (.ilock r)) := by
  have h2 := hi.live h
  have h1 := h.1
  have hf : ∀ r', s.Freed r' → (s.setPc p (.ilock r)).Freed r' :=
    fun r' h => h.move p (fun q hq => by simp [hq]) (by simp [h0, Pc.freed])
  refine ⟨hi.tab.keep rfl fun _ => ⟨rfl, rfl⟩, fun q => ?_, fun q r' => ?_, fun k x hx => ?_, fun q r' => ?_,
    fun q r' hq => ⟨fun q' => ?_, fun x => ?_⟩,
    fun k hk hv hn => ?_, fun r' hr => ?_, fun q r' hq => ?_, fun q key hq => ?_⟩
  · have := hi.procs q
    grind
  · have := hi.uses q r'
    grind
  · have := hi.locks k x hx
    grind
  · have := hi.holds q r'
    grind
  · have := hi.drops q r'
    grind
  · have := hi.drops q r'
    grind
  · have := hi.copy k hk hv
    grind
  · have := hi.alive r' hr
    grind
  · have := hi.frees q r'
    grind
  · have := hi.fresh q key
    grind

/-- p leaves a call, or goes to another part of ialloc. -/
theorem Inv.goto (hi : Inv L s) (hp : p < L.NPROC) (x : Pc)
    (hx : x = .run ∨ ∃ dev type inum, x = .ialloc dev type inum ∧ type ≠ 0) (h0 : (s.pc p).drops = none)
    (hl : ∀ r, s.pc p = .load r → (s.inode r.ip).valid = true) : Inv L (s.setPc p x) := by
  have hf : ∀ r', s.Freed r' → (s.setPc p x).Freed r' :=
    fun r' h => h.move p (fun q hq => by simp [hq]) (fun h => by grind)
  refine ⟨hi.tab.keep rfl fun _ => ⟨rfl, rfl⟩, fun q => ?_, fun q r' => ?_, fun k x hx => ?_, fun q r' => ?_,
    fun q r' hq => ⟨fun q' => ?_, fun x => ?_⟩,
    fun k hk hv hn => ?_, fun r' hr => ?_, fun q r' hq => ?_, fun q key hq => ?_⟩
  · have := hi.procs q
    grind
  · have := hi.uses q r'
    grind
  · have := hi.locks k x hx
    grind
  · have := hi.holds q r'
    grind
  · have := hi.drops q r'
    grind
  · have := hi.drops q r'
    grind
  · have := hi.copy k hk hv
    grind
  · have := hi.alive r' hr
    grind
  · have := hi.frees q r'
    grind
  · have := hi.fresh q key
    grind

theorem Inv.acquire (hi : Inv L s) (hp : p < L.NPROC) (h0 : s.pc p = .ilock r) (h : (s.inode r.ip).lock = none) :
    Inv L ((s.setInode r.ip { s.inode r.ip with lock := some ⟨p, r, false⟩ }).setPc p (.load r)) := by
  have hm := hi.uses p r (by simp [h0, Pc.ref])
  have hf : ∀ r', s.Freed r' →
    ((s.setInode r.ip { s.inode r.ip with lock := some ⟨p, r, false⟩ }).setPc p (.load r)).Freed r' :=
    fun r' h => h.move p (fun q hq => by simp [hq]) (fun h => by grind)
  refine ⟨hi.tab.keep rfl fun k => ?_, fun q => ?_, fun q r' => ?_, fun k x hx => ?_, fun q r' => ?_,
    fun q r' hq => ⟨fun q' => ?_, fun x => ?_⟩,
    fun k hk hv hn => ?_, fun r' hr => ?_, fun q r' hq => ?_, fun q key hq => ?_⟩
  · grind [Inode.key]
  · have := hi.procs q
    grind
  · have := hi.uses q r'
    grind
  · have := hi.locks k x
    grind
  · have := hi.holds q r'
    grind
  · have := hi.drops q r'
    grind
  · have := hi.drops q r'
    grind
  · have := hi.copy k
    grind [Inode.key]
  · have := hi.alive r' hr
    grind [Inode.key]
  · have := hi.frees q r'
    grind [Inode.key]
  · have := hi.fresh q key
    grind [Inode.key]

theorem Inv.load (hi : Inv L s) (h0 : s.pc p = .load r) (hv : (s.inode r.ip).valid = false) :
    (s.disk (s.inode r.ip).key).type ≠ 0 ∧ Inv L
    (s.setInode r.ip { s.inode r.ip with d := s.disk (s.inode r.ip).key, valid := true }) := by
  have hm := hi.uses p r (by simp [h0, Pc.ref])
  have ht : (s.disk (s.inode r.ip).key).type ≠ 0 := by
    rcases hi.alive r hm with h | ⟨q, h⟩
    · exact h
    · have := hi.drops q r
      grind
  refine ⟨ht, hi.tab.keep rfl fun k => ?_, hi.procs, hi.uses, fun k x hx => ?_, fun q r' => ?_,
    fun q r' hq => ⟨(hi.drops q r' hq).1, fun x => ?_⟩,
    fun k hk hv hn => ?_, fun r' hr => ?_, fun q r' hq => ?_, fun q key hq => ?_⟩
  · grind [Inode.key]
  · have := hi.locks k x
    grind
  · have := hi.holds q r'
    grind
  · have := hi.drops q r'
    grind
  · have := hi.copy k
    grind [Inode.key]
  · have : s.Freed r' →
      (s.setInode r.ip { s.inode r.ip with d := s.disk (s.inode r.ip).key, valid := true }).Freed r' := id
    have := hi.alive r' hr
    grind [Inode.key]
  · have := hi.frees q r'
    grind [Inode.key]
  · have : ∀ r', s.Freed r' →
      (s.setInode r.ip { s.inode r.ip with d := s.disk (s.inode r.ip).key, valid := true }).Freed r' := fun _ => id
    have := hi.fresh q key hq
    grind [Inode.key]

theorem Inv.iunlock (hi : Inv L s) (h0 : s.pc p = .run) (hl : (s.inode r.ip).lock = some ⟨p, r, false⟩) :
    Inv L (s.setInode r.ip { s.inode r.ip with lock := none }) := by
  have hf : ∀ r', s.Freed r' → (s.setInode r.ip { s.inode r.ip with lock := none }).Freed r' := fun _ => id
  refine ⟨hi.tab.keep rfl fun k => ?_, hi.procs, hi.uses, fun k x hx => ?_, fun q r' hq => ?_,
    fun q r' hq => ⟨(hi.drops q r' hq).1, fun x => ?_⟩,
    fun k hk hv hn => ?_, fun r' hr => ?_, fun q r' hq => ?_, fun q key hq => ?_⟩
  · grind [Inode.key]
  · have := hi.locks k x
    grind
  · have := hi.holds q r'
    grind
  · have := hi.drops q r'
    grind
  · have := hi.copy k
    grind [Inode.key]
  · have := hi.alive r' hr
    grind [Inode.key]
  · have := hi.frees q r'
    grind [Inode.key]
  · have := hi.fresh q key hq
    grind [Inode.key]

theorem Inv.write (hi : Inv L s) (h0 : s.pc p = .run) {x : Hold} (hl : (s.inode r.ip).lock = some x)
    (hx : x.pid = p ∧ x.ref = r) {d : Dinode} (hd : d.type = (s.inode r.ip).d.type) :
      Inv L (s.setInode r.ip { s.inode r.ip with d := d, lock := some ⟨p, r, true⟩ }) := by
  have hf : ∀ r', s.Freed r' → (s.setInode r.ip { s.inode r.ip with d := d, lock := some ⟨p, r, true⟩ }).Freed r' :=
    fun _ => id
  refine ⟨hi.tab.keep rfl fun k => ?_, hi.procs, hi.uses, fun k x hx => ?_, fun q r' hq => ?_,
    fun q r' hq => ⟨(hi.drops q r' hq).1, fun x => ?_⟩,
    fun k hk hv hn => ?_, fun r' hr => ?_, fun q r' hq => ?_, fun q key hq => ?_⟩
  · grind [Inode.key]
  · have := hi.locks k
    grind
  · have := hi.holds q r'
    grind
  · have := hi.drops q r'
    grind
  · have := hi.copy k
    grind [Inode.key]
  · have := hi.alive r' hr
    grind [Inode.key]
  · have := hi.frees q r'
    grind [Inode.key]
  · have := hi.fresh q key hq
    grind [Inode.key]

theorem Inv.iupdate (hi : Inv L s) (h0 : s.pc p = .run) {x : Hold} (hl : (s.inode r.ip).lock = some x)
    (hx : x.pid = p ∧ x.ref = r) :
    Inv L ((Itable.iupdate r.ip s).setInode r.ip { s.inode r.ip with lock := some ⟨p, r, false⟩ }) := by
  have hf : ∀ r', s.Freed r' →
    ((Itable.iupdate r.ip s).setInode r.ip { s.inode r.ip with lock := some ⟨p, r, false⟩ }).Freed r' := fun _ => id
  have hm := hi.locks r.ip x hl
  have hk : 0 < (s.inode r.ip).ref := hi.tab.pos (hx.2 ▸ hm.1)
  obtain ⟨ht, he, -⟩ := hi.copy r.ip hk (by grind) (by grind)
  have hone := fun k hk' e => hi.tab.one k r.ip hk' hk e
  simp only [Itable.iupdate] at hf ⊢
  refine ⟨hi.tab.keep rfl fun k => ?_, hi.procs, hi.uses, fun k x hx => ?_, fun q r' hq => ?_,
    fun q r' hq => ⟨(hi.drops q r' hq).1, fun x => ?_⟩,
    fun k hk hv hn => ?_, fun r' hr => ?_, fun q r' hq => ?_, fun q key hq => ?_⟩
  · grind [Inode.key]
  · have := hi.locks k
    grind
  · have := hi.holds q r'
    grind
  · have := hi.drops q r'
    grind
  · have := hi.copy k
    have := hone k
    grind [Inode.key]
  · have := hi.alive r' hr
    grind [Inode.key]
  · have := hi.frees q r'
    have := hi.holds q r'
    have := hi.uses q r'
    have : r ∈ s.refs → r' ∈ s.refs → (s.inode r'.ip).key = (s.inode r.ip).key → r'.ip = r.ip := hi.tab.same
    grind [Inode.key]
  · have := hi.fresh q key hq
    have := hi.not_freed h0 hl hx
    grind [Inode.key]

theorem Inv.toTrunc (hi : Inv L s) (hp : p < L.NPROC) (h0 : s.pc p = .run) (hm : r ∈ s.refs)
    (hu : ∀ q, (s.pc q).ref ≠ some r)
    (hl : (s.inode r.ip).lock = none) (h1 : (s.inode r.ip).ref = 1) (hv : (s.inode r.ip).valid = true)
    (hn : (s.inode r.ip).d.nlink = 0) :
    Inv L ((s.setInode r.ip { s.inode r.ip with lock := some ⟨p, r, false⟩ }).setPc p (.itrunc r)) := by
  have hf : ∀ r', s.Freed r' →
    ((s.setInode r.ip { s.inode r.ip with lock := some ⟨p, r, false⟩ }).setPc p (.itrunc r)).Freed r' :=
    fun r' h => h.move p (fun q hq => by simp [hq]) (fun h => by grind)
  have hone : ∀ r' ∈ s.refs, r'.ip = r.ip → r' = r := fun r' => hi.tab.alone hm h1
  have hc := hi.copy r.ip (by omega) hv (by grind)
  refine ⟨hi.tab.keep rfl fun k => ?_, fun q => ?_, fun q r' => ?_, fun k x hx => ?_, fun q r' => ?_,
    fun q r' hq => ⟨fun q' => ?_, fun x => ?_⟩,
    fun k hk hv hn => ?_, fun r' hr => ?_, fun q r' hq => ?_, fun q key hq => ?_⟩
  · grind [Inode.key]
  · have := hi.procs q
    grind
  · have := hi.uses q r'
    grind
  · have := hi.locks k x
    grind
  · have := hi.holds q r'
    grind
  · have := hi.drops q r'
    grind
  · have := hi.drops q r'
    have := hi.locks r'.ip x
    grind
  · have := hi.copy k
    grind [Inode.key]
  · have := hi.alive r' hr
    grind [Inode.key]
  · have := hi.frees q r'
    grind [Inode.key]
  · have := hi.fresh q key
    grind [Inode.key]

/-- ialloc takes a free dinode. -/
theorem Inv.toAllocated (hi : Inv L s) (hp : p < L.NPROC) (h0 : (s.pc p).ref = none) {key : Nat × Nat}
    (hk : (s.disk key).type = 0) {d : Dinode}
    (ht : d.type ≠ 0) (hn : d.nlink = 0) : Inv L ((s.setDisk key d).setPc p (.allocated key)) := by
  have hf : ∀ r', s.Freed r' → ((s.setDisk key d).setPc p (.allocated key)).Freed r' :=
    fun r' h => h.move p (fun q hq => by simp [hq]) (fun h => by grind)
  refine ⟨hi.tab.keep rfl fun k => ⟨rfl, rfl⟩, fun q => ?_, fun q r' => ?_, fun k x hx => ?_, fun q r' => ?_,
    fun q r' hq => ⟨fun q' => ?_, fun x => ?_⟩,
    fun k hk hv hn => ?_, fun r' hr => ?_, fun q r' hq => ?_, fun q key hq => ?_⟩
  · have := hi.procs q
    grind
  · have := hi.uses q r'
    grind
  · have := hi.locks k x
    grind
  · have := hi.holds q r'
    grind
  · have := hi.drops q r'
    grind
  · have := hi.drops q r'
    grind
  · have := hi.copy k
    grind [Inode.key]
  · have := hi.alive r' hr
    grind [Inode.key]
  · have := hi.frees q r'
    grind [Inode.key]
  · have := fun q' => hi.fresh q' key
    have := hi.alive
    grind [Inode.key]

theorem Inv.trunc (hi : Inv L s) (hp : p < L.NPROC) (h0 : s.pc p = .itrunc r) :
    Inv L ((Itable.iupdate r.ip (setCopy r.ip (itrunc (s.inode r.ip).d) s)).setPc p (.free r)) := by
  have hf : ∀ r', s.Freed r' →
    ((Itable.iupdate r.ip (setCopy r.ip (itrunc (s.inode r.ip).d) s)).setPc p (.free r)).Freed r' :=
    fun r' h => h.move p (fun q hq => by simp [hq, Itable.iupdate, setCopy]) (fun h => by grind)
  have hm := hi.uses p r (by simp [h0, Pc.ref])
  have hl := hi.holds p r (by simp [h0, Pc.holds])
  obtain ⟨ho, hv, hn⟩ := hi.frees p r (Or.inl h0)
  obtain ⟨ht, -, he⟩ := hi.copy r.ip (hi.tab.pos hm) hv (by grind)
  have he := he (by grind)
  have hone : ∀ r' ∈ s.refs, (s.inode r'.ip).key = (s.inode r.ip).key → r'.ip = r.ip := fun _ => hi.tab.same hm
  simp only [Itable.iupdate, setCopy] at hf ⊢
  refine ⟨hi.tab.keep rfl fun k => ?_, fun q => ?_, fun q r' => ?_, fun k x hx => ?_, fun q r' => ?_,
    fun q r' hq => ⟨fun q' => ?_, fun x => ?_⟩,
    fun k hk hv hn => ?_, fun r' hr => ?_, fun q r' hq => ?_, fun q key hq => ?_⟩
  · grind [Inode.key]
  · have := hi.procs q
    grind
  · have := hi.uses q r'
    grind
  · have := hi.locks k x
    grind
  · have := hi.holds q r'
    grind
  · have := hi.drops q r'
    grind
  · have := hi.drops q r'
    grind
  · have := hi.copy k
    have := hi.tab.one k r.ip
    have := hi.tab.pos hm
    grind [Inode.key, itrunc]
  · have := hi.alive r' hr
    grind [Inode.key, itrunc]
  · have := hi.frees q r'
    have := hi.uses q r'
    grind [Inode.key, itrunc]
  · have := hi.fresh q key
    grind [Inode.key, itrunc]

theorem Inv.free (hi : Inv L s) (hp : p < L.NPROC) (h0 : s.pc p = .free r) :
    Inv L ((Itable.iupdate r.ip (setCopy r.ip { (s.inode r.ip).d with type := 0 } s)).setPc p (.invalid r)) := by
  have hf : ∀ r', s.Freed r' →
    ((Itable.iupdate r.ip (setCopy r.ip { (s.inode r.ip).d with type := 0 } s)).setPc p (.invalid r)).Freed r' :=
    fun r' h => h.move p (fun q hq => by simp [hq, Itable.iupdate, setCopy]) (fun h => by grind)
  have hm := hi.uses p r (by simp [h0, Pc.ref])
  have hl := hi.holds p r (by simp [h0, Pc.holds])
  obtain ⟨ho, hv, hn⟩ := hi.frees p r (Or.inr h0)
  obtain ⟨ht, -, he⟩ := hi.copy r.ip (hi.tab.pos hm) hv (by grind)
  have hone : ∀ r' ∈ s.refs, (s.inode r'.ip).key = (s.inode r.ip).key → r'.ip = r.ip := fun _ => hi.tab.same hm
  have hr : ((Itable.iupdate r.ip (setCopy r.ip { (s.inode r.ip).d with type := 0 } s)).setPc p
    (.invalid r)).Freed r := ⟨p, by simp [Pc.freed]⟩
  have hnf : ¬ s.Freed r := by
    intro ⟨q, hq⟩
    have := (hi.drops q r (drops_of_freed hq)).1 p
    grind
  simp only [Itable.iupdate, setCopy] at hf hr ⊢
  refine ⟨hi.tab.keep rfl fun k => ?_, fun q => ?_, fun q r' => ?_, fun k x hx => ?_, fun q r' => ?_,
    fun q r' hq => ⟨fun q' => ?_, fun x => ?_⟩,
    fun k hk hv hn => ?_, fun r' hr => ?_, fun q r' hq => ?_, fun q key hq => ?_⟩
  · grind [Inode.key]
  · have := hi.procs q
    grind
  · have := hi.uses q r'
    grind
  · have := hi.locks k x
    grind
  · have := hi.holds q r'
    grind
  · have := hi.drops q r'
    grind
  · have := hi.drops q r'
    grind
  · have := hi.copy k
    have := hi.tab.one k r.ip
    have := hi.tab.pos hm
    grind [Inode.key]
  · have := hi.alive r' hr
    grind [Inode.key]
  · have := hi.frees q r'
    have := hi.uses q r'
    grind [Inode.key]
  · have := hi.fresh q key
    grind [Inode.key]

theorem Inv.invalid (hi : Inv L s) (hp : p < L.NPROC) (h0 : s.pc p = .invalid r) :
    Inv L ((s.setInode r.ip { s.inode r.ip with valid := false, lock := none }).setPc p (.drop r)) := by
  have hf : ∀ r', s.Freed r' →
    ((s.setInode r.ip { s.inode r.ip with valid := false, lock := none }).setPc p (.drop r)).Freed r' :=
    fun r' h => h.move p (fun q hq => by simp [hq]) (fun h => by grind)
  have hm := hi.uses p r (by simp [h0, Pc.ref])
  have hl := hi.holds p r (by simp [h0, Pc.holds])
  refine ⟨hi.tab.keep rfl fun k => ?_, fun q => ?_, fun q r' => ?_, fun k x hx => ?_, fun q r' => ?_,
    fun q r' hq => ⟨fun q' => ?_, fun x => ?_⟩,
    fun k hk hv hn => ?_, fun r' hr => ?_, fun q r' hq => ?_, fun q key hq => ?_⟩
  · grind [Inode.key]
  · have := hi.procs q
    grind
  · have := hi.uses q r'
    grind
  · have := hi.locks k x
    grind
  · have := hi.holds q r'
    grind
  · have := hi.drops q r'
    grind
  · have := hi.drops q r'
    grind
  · have := hi.copy k
    have := hi.locks k
    grind [Inode.key]
  · have := hi.alive r' hr
    grind [Inode.key]
  · have := hi.frees q r'
    have := hi.holds q r'
    grind [Inode.key]
  · have := hi.fresh q key
    grind [Inode.key]

/-- p, at most, uses `r`, and puts it. -/
theorem Inv.put (hi : Inv L s) (hp : p < L.NPROC) (h0 : s.pc p = .run ∨ s.pc p = .drop r) (hm : r ∈ s.refs)
    (hu : ∀ q, (s.pc q).ref = some r → q = p)
    (hl : ∀ x, (s.inode r.ip).lock = some x → x.ref ≠ r) : Inv L ((Itable.put r s).setPc p .run) := by
  have hf : ∀ r', r' ≠ r → s.Freed r' → ((Itable.put r s).setPc p .run).Freed r' :=
    fun r' hn h => h.move p (fun q hq => by simp [hq, Itable.put]) (fun h => by grind)
  have ht := hi.tab.erase hm
  have hsub : ∀ r', r' ∈ s.refs.erase r → r' ≠ r ∧ r' ∈ s.refs := fun r' h => Finset.mem_erase.mp h
  simp only [Itable.put] at hf ht ⊢
  refine ⟨ht.keep rfl fun k => ⟨rfl, rfl⟩, fun q => ?_, fun q r' => ?_, fun k x hx => ?_, fun q r' => ?_,
    fun q r' hq => ⟨fun q' => ?_, fun x => ?_⟩,
    fun k hk hv hn => ?_, fun r' hr => ?_, fun q r' hq => ?_, fun q key hq => ?_⟩
  · have := hi.procs q
    grind
  · have := hi.uses q r'
    grind
  · have := hi.locks k x
    grind
  · have := hi.holds q r'
    grind
  · have := hi.drops q r'
    grind
  · have := hi.drops q r'
    grind
  · have := hi.copy k
    grind [Inode.key]
  · have := hi.alive r'
    grind [Inode.key]
  · have := hi.frees q r'
    grind [Inode.key]
  · have := hi.fresh q key
    grind [Inode.key]

theorem Inv.addRef (hi : Inv L s) {k id : Nat} {x : Inode} (hx : Slot L s k x) (hid : ∀ r ∈ s.refs, r.id ≠ id)
    (ht : (s.disk x.key).type ≠ 0)
    (ha : ∀ p, s.pc p ≠ .allocated x.key) (hn : ∀ p r, s.pc p = .itrunc r ∨ s.pc p = .free r → r.ip ≠ k) :
    Inv L { s.setInode k x with refs := insert ⟨k, id⟩ s.refs } := by
  have hf : ∀ r', s.Freed r' → Sys.Freed { s.setInode k x with refs := insert ⟨k, id⟩ s.refs } r' := fun _ h => h
  have h0 : (s.inode k).ref = 0 ∨ 0 < (s.inode k).ref := by
    have := hi.tab.refs k
    omega
  have hpos := fun r hm => hi.tab.pos (r := r) hm
  have hl := hx.lock
  have hu := hx.used
  have he := hx.empty
  have hm : ∀ r : Ref, r ∈ insert ⟨k, id⟩ s.refs → r = ⟨k, id⟩ ∨ r ∈ s.refs := fun r => Finset.mem_insert.mp
  have hm' : ∀ r : Ref, r ∈ s.refs → r ∈ insert ⟨k, id⟩ s.refs := fun r => Finset.mem_insert_of_mem
  refine ⟨hi.tab.addRef hx hid, hi.procs, fun q r' hq => hm' r' (hi.uses q r' hq), fun j x hx => ?_,
    fun q r' hq => ?_, fun q r' hq => ⟨(hi.drops q r' hq).1, fun x => ?_⟩,
    fun j hk hv hn => ?_, fun r' hr => ?_, fun q r' hq => ?_, fun q key hq => ?_⟩
  · have := hi.locks j x
    grind
  · have := hi.holds q r'
    grind
  · have := hi.drops q r'
    grind
  · have := hi.copy j
    grind
  · have := hi.alive r'
    grind
  · have := hi.frees q r' hq
    have := hi.uses q r'
    grind
  · have := hi.fresh q key hq
    grind

theorem Inv.iget (hi : Inv L s) {key : Nat × Nat} {id : Nat} (hid : ∀ r ∈ s.refs, r.id ≠ id)
    (ht : (s.disk key).type ≠ 0)
    (ha : ∀ p, s.pc p ≠ .allocated key) (hn : ∀ p r, s.pc p = .itrunc r ∨ s.pc p = .free r →
      (s.inode r.ip).key ≠ key) :
    (∃ s', Itable.iget L key id s = .ok s' ∧ Inv L s' ∧ s'.pc = s.pc ∧ s'.disk = s.disk) ∨
      Itable.iget L key id s = .error "iget: no inodes" := by
  unfold Itable.iget
  cases h : igetLoop s.inode key L.NINODE 0 none with
  | none => exact Or.inr rfl
  | some x =>
    refine Or.inl ⟨_, rfl, ?_, rfl, rfl⟩
    obtain ⟨hk, h⟩ := igetLoop_spec L.NINODE 0 none (Nat.zero_add _) (by simp) (by simp) h
    have hlt : ∀ j, 0 < (s.inode j).ref → j < L.NINODE := fun j hj => by
      rw [hi.tab.refs] at hj
      obtain ⟨r, hr⟩ := Finset.card_pos.mp (show 0 < (s.refsTo j).card by omega)
      obtain ⟨hm, rfl⟩ := mem_refsTo.mp hr
      exact hi.tab.slots r hm
    have hx : Slot L s x.1 x.2 ∧ x.2.key = key := by
      rcases h with ⟨h0, he, hx⟩ | ⟨h0, hx, hno⟩
      · refine ⟨⟨hk, by rw [hx], by rw [hx], fun _ => ?_, fun h => ?_⟩, by rw [hx]; exact he⟩
        · rw [hx]
          exact ⟨rfl, rfl, rfl⟩
        · omega
      · have hkey : x.2.key = key := by rw [hx]; rfl
        refine ⟨⟨hk, by rw [hx, h0]; rfl, by rw [hx], fun _ => ?_, fun _ => ⟨by rw [hx], fun j hj => ?_⟩⟩, hkey⟩
        · omega
        · rw [hkey]
          exact hno j (hlt j hj) hj
    refine hi.addRef hx.1 hid (by rwa [hx.2]) (by rwa [hx.2]) fun p r hp e => ?_
    have hm := hi.uses p r (by rcases hp with hp | hp <;> simp [hp, Pc.ref])
    exact hn p r hp (by rw [← hx.2, e, (hx.1.used (e ▸ hi.tab.pos hm)).1])

/-! ## Every call -/

/-- A call in which `p` makes the step: what it leaves, or the panic. -/
def Fine (L : Limits) (x : Except String Sys) : Prop :=
  (∃ s', x = .ok s' ∧ Inv L s') ∨ x = .error "iget: no inodes" ∨ x = .error "ialloc: no inodes"

theorem Inv.known (hi : Inv L s) {key : Nat × Nat} {id : Nat} (hid : ∀ r ∈ s.refs, r.id ≠ id)
    (hk : Known L true s key) :
    Fine L (Itable.iget L key id s) := by
  have hnl : (∀ q, s.pc q = .allocated key → False) ∧ ∀ q r, s.pc q = .itrunc r ∨ s.pc q = .free r →
    (s.inode r.ip).key ≠ key := by
    rcases hk.2 rfl with hn | ⟨r, hm, hr, rfl⟩
    · refine ⟨fun q hq => hn (hi.fresh q key hq).2.1, fun q r hq e => hn (e ▸ (hi.frees q r hq).2.2)⟩
    · refine ⟨fun q hq => ?_, fun q r' hq e => ?_⟩
      · obtain ⟨q', hq'⟩ := (hi.fresh q _ hq).2.2.1 r hm rfl
        exact hi.live hr q' (drops_of_freed hq')
      · have hd : (s.pc q).drops = some r' := by rcases hq with hq | hq <;> simp [hq, Pc.drops]
        have hm' := hi.uses q r' (ref_of_drops hd)
        have := (hi.frees q r' hq).1 r hm (hi.tab.same hm' hm e.symm)
        exact hi.live hr q (this ▸ hd)
  rcases hi.iget hid hk.1 hnl.1 hnl.2 with ⟨s', e, h, -⟩ | e
  · exact Or.inl ⟨s', e, h⟩
  · exact Or.inr (Or.inl e)

theorem Inv.iput (hi : Inv L s) (hp : p < L.NPROC) (h0 : s.pc p = .run) (hm : r ∈ s.refs)
    (hu : ∀ q < L.NPROC, (s.pc q).ref ≠ some r)
    (hl : ∀ h ∈ (s.inode r.ip).lock, h.ref ≠ r) : Fine L (Itable.iput p r s) := by
  have hu : ∀ q, (s.pc q).ref ≠ some r := fun q => by
    by_cases hq : q < L.NPROC
    · exact hu q hq
    · simp [(hi.procs q).1 (by omega), Pc.ref]
  simp only [Itable.iput]
  split
  · rename_i hc
    have hnone : (s.inode r.ip).lock = none := by
      cases h : (s.inode r.ip).lock with
      | none => rfl
      | some x => exact absurd (hi.tab.alone hm hc.1 (hi.locks r.ip x h).1 (hi.locks r.ip x h).2.1) (hl x h)
    rw [if_neg (by simp [hnone])]
    exact Or.inl ⟨_, rfl, hi.toTrunc hp h0 hm hu hnone hc.1 hc.2.1 hc.2.2⟩
  · have h := hi.put hp (Or.inl h0) hm (fun q hq => absurd hq (hu q)) fun x hx => hl x hx
    have e : (Itable.put r s).setPc p .run = Itable.put r s := by
      have : Function.update s.pc p .run = s.pc := by rw [← h0, Function.update_eq_self]
      simp [Sys.setPc, Itable.put, Sys.setInode, this]
    exact Or.inl ⟨_, rfl, e ▸ h⟩

theorem Inv.ilockLoad (hi : Inv L s) (hp : p < L.NPROC) (h0 : s.pc p = .load r) :
    ∃ s', Itable.ilockLoad p r s = .ok s' ∧ Inv L s' ∧ s'.pc p = .run ∧ (s'.inode r.ip).lock = some ⟨p, r, false⟩ ∧
      (s'.inode r.ip).d = s'.disk (s'.inode r.ip).key ∧ (s'.inode r.ip).d.type ≠ 0 := by
  have hl := hi.holds p r (by simp [h0, Pc.holds])
  have hm := hi.uses p r (by simp [h0, Pc.ref])
  simp only [Itable.ilockLoad]
  cases hv : (s.inode r.ip).valid with
  | false =>
    obtain ⟨ht, h⟩ := hi.load h0 hv
    rw [if_neg (by simp), if_neg ht]
    refine ⟨_, rfl, h.goto hp .run (Or.inl rfl) (by simp [h0, Pc.drops]) fun r' e =>
      ?_, by simp, by simpa using hl, by simp [Inode.key], by simpa using ht⟩
    simp only [setInode_pc, h0, Pc.load.injEq] at e
    simp [← e]
  | true =>
    obtain ⟨ht, he, hc⟩ := hi.copy r.ip (hi.tab.pos hm) hv fun x hx => by
      rw [hl] at hx
      cases hx
      simp [h0]
    rw [if_pos rfl]
    refine ⟨_, rfl, hi.goto hp .run (Or.inl rfl) (by simp [h0, Pc.drops]) fun r' e => ?_, by simp, by simpa using hl,
      ?_, by simpa [he] using ht⟩
    · rw [h0] at e
      cases e
      exact hv
    · refine hc fun x hx => ?_
      rw [hl] at hx
      cases hx
      rfl

theorem iget_setPc (key : Nat × Nat) (id : Nat) (x : Pc) :
    (Itable.iget L key id s).map (·.setPc p x) = Itable.iget L key id (s.setPc p x) := by
  have e : (s.setPc p x).inode = s.inode := rfl
  simp only [Itable.iget, e]
  cases igetLoop s.inode key L.NINODE 0 none <;> rfl

theorem Inv.resume (hi : Inv L s) (hp : p < L.NPROC) {id : Nat} (hid : ∀ r ∈ s.refs, r.id ≠ id)
    (hw : ∀ r ∈ (s.pc p).waits, (s.inode r.ip).lock = none) :
    Fine L (Itable.resume L p id s) := by
  unfold Itable.resume
  cases h0 : s.pc p with
  | run => exact Or.inl ⟨s, rfl, hi⟩
  | ilock r => exact Or.inl ⟨_, rfl, hi.acquire hp h0 (hw r (by simp [h0, Pc.waits]))⟩
  | load r =>
    obtain ⟨s', e, h, -⟩ := hi.ilockLoad hp h0
    exact Or.inl ⟨s', e, h⟩
  | ialloc dev type inum =>
    have ht := (hi.procs p).2 dev type inum h0
    dsimp only
    split
    · split
      · rename_i h
        exact Or.inl ⟨_, rfl, hi.toAllocated hp (by simp [h0, Pc.ref]) h ht rfl⟩
      · exact Or.inl ⟨_, rfl, hi.goto hp _ (Or.inr ⟨_, _, _, rfl, ht⟩) (by simp [h0, Pc.drops]) (by simp [h0])⟩
    · exact Or.inr (Or.inr rfl)
  | allocated key =>
    obtain ⟨ht, -, hf, hone⟩ := hi.fresh p key h0
    have h := hi.goto hp .run (Or.inl rfl) (by simp [h0, Pc.drops]) (by simp [h0])
    simp only [iget_setPc]
    have hn1 : ∀ q, (s.setPc p .run).pc q ≠ .allocated key := fun q hq => by
      have := hone q
      grind
    have hn2 : ∀ q r, (s.setPc p .run).pc q = .itrunc r ∨ (s.setPc p .run).pc q = .free r →
      ((s.setPc p .run).inode r.ip).key ≠ key := by
      intro q r hq e
      have hq : s.pc q = .itrunc r ∨ s.pc q = .free r := by grind
      have hd : (s.pc q).drops = some r := by rcases hq with hq | hq <;> simp [hq, Pc.drops]
      obtain ⟨q', hq'⟩ := hf r (hi.uses q r (ref_of_drops hd)) e
      cases (hi.drops q' r (drops_of_freed hq')).1 q (ref_of_drops hd)
      rcases hq with hq | hq <;> simp [hq, Pc.freed] at hq'
    rcases h.iget hid ht hn1 hn2 with ⟨s', e, h', -⟩ | e
    · exact Or.inl ⟨s', e, h'⟩
    · exact Or.inr (Or.inl e)
  | itrunc r => exact Or.inl ⟨_, rfl, hi.trunc hp h0⟩
  | free r => exact Or.inl ⟨_, rfl, hi.free hp h0⟩
  | invalid r => exact Or.inl ⟨_, rfl, hi.invalid hp h0⟩
  | drop r =>
    have hd := hi.drops p r (by simp [h0, Pc.drops])
    refine Or.inl ⟨_, rfl, hi.put hp (Or.inr h0) (hi.uses p r (by simp [h0, Pc.ref])) hd.1 fun x hx e => ?_⟩
    have := hd.2 x hx e
    simp [h0, Pc.holds] at this

theorem inv_act (hi : Inv L s) (hp : p < L.NPROC) (a : Act) (ho : a.Ok L true p s) : Fine L (act L p s a) := by
  cases a with
  | iget key id => exact hi.known ho.2.1 ho.2.2
  | idup r id =>
    obtain ⟨h0, hid, hr⟩ := ho
    have hpos := hi.tab.pos hr.1
    have hd := fun q => hi.live hr q
    refine Or.inl ⟨_, rfl, hi.addRef ⟨hi.tab.slots r hr.1, rfl, rfl, fun _ => ⟨rfl, rfl, rfl⟩, fun h => ?_⟩ hid ?_
      (fun q hq => ?_) fun q r' hq e => ?_⟩
    · omega
    · rcases hi.alive r hr.1 with h | ⟨q, h⟩
      · exact h
      · exact absurd (drops_of_freed h) (hd q)
    · obtain ⟨q', hq'⟩ := (hi.fresh q _ hq).2.2.1 r hr.1 rfl
      exact hd q' (drops_of_freed hq')
    · have := (hi.frees q r' hq).1 r hr.1 e.symm
      subst this
      exact hd q (by rcases hq with hq | hq <;> simp [hq, Pc.drops])
  | ilock r =>
    have hpos := hi.tab.pos ho.2.1
    refine Or.inl ⟨_, if_neg (by omega), hi.toIlock hp ho.1 ho.2⟩
  | iunlock r =>
    have hpos : 0 < (s.inode r.ip).ref := hi.tab.pos (hi.locks r.ip _ ho.2).1
    refine Or.inl ⟨_, if_neg (by simp [ho.2]; omega), hi.iunlock ho.1 ho.2⟩
  | iput r => exact hi.iput hp ho.1 ho.2.1 ho.2.2.1 ho.2.2.2
  | ialloc dev type => exact Or.inl ⟨_, rfl,
      hi.goto hp _ (Or.inr ⟨_, _, _, rfl, ho.2⟩) (by simp [ho.1, Pc.drops]) (by simp [ho.1])⟩
  | write r d =>
    obtain ⟨h0, ⟨x, hl, hx⟩, hd⟩ := ho
    exact Or.inl ⟨_, rfl, hi.write h0 hl hx hd⟩
  | iupdate r =>
    obtain ⟨h0, x, hl, hx⟩ := ho
    exact Or.inl ⟨_, rfl, hi.iupdate h0 hl hx⟩
  | resume id => exact hi.resume hp ho.1 ho.2

theorem inv_init (disk : Nat × Nat → Dinode) : Inv L (.init disk) := by
  constructor <;> simp [Sys.init, Pc.ref, Pc.holds, Pc.drops]
  constructor <;> simp [Sys.refsTo]

theorem reach_inv (h : Reach L true s) : Inv L s := by
  induction h with
  | init disk => exact inv_init disk
  | step p a _ hp ho e ih =>
    rcases inv_act ih hp a ho with ⟨s', e', h⟩ | h | h
    · rw [e] at e'
      cases e'
      exact h
    · cases e.symm.trans h
    · cases e.symm.trans h

end

/-! ## Coherence -/

structure Coherent (s : Sys) : Prop where
  one_slot : ∀ j k, 0 < (s.inode j).ref → 0 < (s.inode k).ref → (s.inode j).dev = (s.inode k).dev →
    (s.inode j).inum = (s.inode k).inum → j = k
  refs_exact : ∀ k, (s.inode k).ref = (s.refsTo k).card
  /-- the only panics are those for want of a slot or of a dinode -/
  no_panic : ∀ p < L.NPROC, ∀ a : Act, a.Ok L true p s → ∀ e, act L p s a = .error e → e = "iget: no inodes" ∨
    e = "ialloc: no inodes"
  /-- ilock returns with the lock, and with what is on disk -/
  ilock_reads : ∀ p < L.NPROC, ∀ r id, s.pc p = .load r → ∃ s', act L p s (.resume id) = .ok s' ∧ s'.pc p = .run ∧
    (s'.inode r.ip).lock = some ⟨p, r, false⟩ ∧ (s'.inode r.ip).d = s'.disk (s'.inode r.ip).key ∧
      (s'.inode r.ip).d.type ≠ 0
  truncated : ∀ p r, s.pc p = .itrunc r → (s.disk (s.inode r.ip).key).nlink = 0 ∧ s.refsTo r.ip = {r}
  /-- only iput frees, the inode whose last reference it has -/
  freed : ∀ p < L.NPROC, ∀ a : Act, a.Ok L true p s → ∀ s' key, act L p s a = .ok s' → (s.disk key).type ≠ 0 →
    (s'.disk key).type = 0 →
    ∃ r, s.pc p = .free r ∧ (s.inode r.ip).key = key ∧ (s.disk key).nlink = 0 ∧ s.refsTo r.ip = {r}

section

variable {L} {s s' : Sys} {p : Nat} {r : Ref}

theorem Inv.last (hi : Inv L s) (h : s.pc p = .itrunc r ∨ s.pc p = .free r) : (s.disk (s.inode r.ip).key).nlink = 0 ∧
    s.refsTo r.ip = {r} := by
  obtain ⟨ho, -, hn⟩ := hi.frees p r h
  have hm := hi.uses p r (by rcases h with h | h <;> simp [h, Pc.ref])
  refine ⟨hn, Finset.eq_singleton_iff_unique_mem.mpr ⟨mem_refsTo.mpr ⟨hm, rfl⟩, fun r' h' => ?_⟩⟩
  obtain ⟨h1, h2⟩ := mem_refsTo.mp h'
  exact ho r' h1 h2

theorem iget_disk {key : Nat × Nat} {id : Nat} (h : iget L key id s = .ok s') : s'.disk = s.disk := by
  unfold iget at h
  split at h
  · cases h
  · cases h
    rfl

theorem resume_frees (hi : Inv L s) {id : Nat} {key : Nat × Nat} (h : resume L p id s = .ok s')
    (h1 : (s.disk key).type ≠ 0) (h2 : (s'.disk key).type = 0) :
    ∃ r, s.pc p = .free r ∧ (s.inode r.ip).key = key := by
  unfold resume at h
  cases h0 : s.pc p with
  | free r =>
    refine ⟨r, rfl, ?_⟩
    by_contra hne
    simp only [h0] at h
    cases h
    grind [iupdate, setCopy, Inode.key]
  | itrunc r =>
    simp only [h0] at h
    cases h
    have hm := hi.uses p r (by simp [h0, Pc.ref])
    have hl := hi.holds p r (by simp [h0, Pc.holds])
    obtain ⟨ht, he, -⟩ := hi.copy r.ip (hi.tab.pos hm) (hi.frees p r (Or.inl h0)).2.1 (by grind)
    grind [iupdate, setCopy, Inode.key, itrunc]
  | load r =>
    simp only [h0, ilockLoad] at h
    split at h
    · cases h
      exact absurd h2 h1
    · split at h
      · cases h
      · cases h
        exact absurd h2 h1
  | ialloc dev type inum =>
    have ht := (hi.procs p).2 dev type inum h0
    simp only [h0] at h
    split at h
    · split at h
      · cases h
        grind
      · cases h
        exact absurd h2 h1
    · cases h
  | allocated key' =>
    simp only [h0, iget_setPc] at h
    rw [iget_disk h] at h2
    exact absurd h2 h1
  | _ =>
    simp only [h0] at h
    cases h
    exact absurd h2 h1

theorem act_frees (hi : Inv L s) {a : Act} (ho : a.Ok L true p s) {key : Nat × Nat} (h : act L p s a = .ok s')
    (h1 : (s.disk key).type ≠ 0)
    (h2 : (s'.disk key).type = 0) : ∃ r, s.pc p = .free r ∧ (s.inode r.ip).key = key := by
  have same : s'.disk = s.disk → ∃ r, s.pc p = .free r ∧ (s.inode r.ip).key = key := fun e => absurd h2 (by rwa [e])
  cases a with
  | iget key' id => exact same (iget_disk h)
  | iput r =>
    simp only [act, iput] at h
    split at h
    · split at h
      · cases h
      · cases h
        exact same rfl
    · cases h
      exact same rfl
  | iupdate r =>
    obtain ⟨h0, x, hl, hx⟩ := ho
    cases h
    have hm := hi.locks r.ip x hl
    obtain ⟨ht, he, -⟩ := hi.copy r.ip (hi.tab.pos (hx.2 ▸ hm.1)) (by grind) (by grind)
    grind [iupdate]
  | ilock r | iunlock r =>
    simp only [act, ilock, iunlock] at h
    split at h
    · cases h
    · cases h
      exact same rfl
  | resume id => exact resume_frees hi h h1 h2
  | _ =>
    cases h
    exact same rfl

theorem table_coherent (h : Reach L true s) : Coherent L s := by
  have hi := reach_inv h
  refine ⟨fun j k hj hk hd hn => hi.tab.one j k hj hk (Prod.ext hd hn), hi.tab.refs, fun p hp a ho e he => ?_,
    fun p hp r id h0 => ?_,
    fun p r h0 => hi.last (Or.inl h0), fun p hp a ho s' key e h1 h2 => ?_⟩
  · rcases inv_act hi hp a ho with ⟨s', e', -⟩ | h | h
    · cases he.symm.trans e'
    · cases he.symm.trans h
      exact Or.inl rfl
    · cases he.symm.trans h
      exact Or.inr rfl
  · obtain ⟨s', e, -, h⟩ := hi.ilockLoad hp h0
    exact ⟨s', by simpa [act, resume, h0] using e, h⟩
  · obtain ⟨r, h0, hk⟩ := act_frees hi ho e h1 h2
    obtain ⟨hn, hl⟩ := hi.last (Or.inr h0)
    exact ⟨r, h0, hk, hk ▸ hn, hl⟩

/-- A process allocates an inode and locks it. -/
theorem table_coherent_first : ∃ s s', Reach ⟨1, 1, 2⟩ true s ∧ (s.inode 0).ref = (s.refsTo 0).card ∧
    act ⟨1, 1, 2⟩ 0 s (.resume 1) = .ok s' ∧ (s'.inode 0).d = s'.disk (s'.inode 0).key ∧ (s'.inode 0).d.type ≠ 0 := by
  let acts : List (Nat × Act) := [(0, .ialloc 1 2), (0, .resume 0), (0, .resume 0), (0, .ilock ⟨0, 0⟩),
    (0, .resume 1)]
  have hpc : (runActs ⟨1, 1, 2⟩ true acts (.init fun _ => ⟨0, 0, 0, 0, 0, []⟩)).toOption.map (·.pc 0) =
    some (.load ⟨0, 0⟩) := by decide +kernel
  cases e : runActs ⟨1, 1, 2⟩ true acts (.init fun _ => ⟨0, 0, 0, 0, 0, []⟩) with
  | error m => simp [e, Except.toOption] at hpc
  | ok s =>
    have hr := reach_runActs (.init _) e
    have h := table_coherent hr
    obtain ⟨s', e', -, -, hd, ht⟩ := h.ilock_reads 0 (by decide) ⟨0, 0⟩ 1 (by simpa [e, Except.toOption] using hpc)
    exact ⟨s, s', hr, h.refs_exact 0, e', hd, ht⟩

/-- The last link goes, and the last reference; another process calls iget for the number, which
    is still allocated, before iput writes the dinode. -/
theorem iget_while_freed : ∃ L s p a, Reach L false s ∧ p < L.NPROC ∧ a.Ok L false p s ∧
    act L p s a = .error "ilock: no type" := by
  let file : Dinode := ⟨2, 0, 0, 1, 0, []⟩
  let acts : List (Nat × Act) :=
    [(0, .iget (1, 1) 0), (0, .ilock ⟨0, 0⟩), (0, .resume 1), (0, .resume 1),
      (0, .write ⟨0, 0⟩ { file with nlink := 0 }), (0, .iupdate ⟨0, 0⟩),
      (0, .iunlock ⟨0, 0⟩), (0, .iput ⟨0, 0⟩), (1, .iget (1, 1) 1), (0, .resume 2), (0, .resume 2), (0, .resume 2),
        (0, .resume 2),
      (1, .ilock ⟨0, 1⟩), (1, .resume 2), (1, .resume 2)]
  have hm : (match runActs ⟨2, 1, 2⟩ false acts (.init fun _ => file) with | .error m => m | .ok _ => "") =
    "ilock: no type" := by decide +kernel
  cases e : runActs ⟨2, 1, 2⟩ false acts (.init fun _ => file) with
  | ok s => simp [e] at hm
  | error m =>
    simp only [e] at hm
    subst hm
    obtain ⟨s, p, a, h⟩ := runActs_error (.init _) e (by decide)
    exact ⟨_, s, p, a, h⟩

end

end Xv6Labs.Fs.Itable
