/-
  Xv6Labs.Cow.Eager — a fork that shares pages is a fork that copies them.

  A run is a list of actions on address spaces. The cow kernel and the eager one (uvmcopy of
  the pagetables lab, stores in place) start it from worlds that show the same spaces, each on
  a machine of its own: how much memory the eager kernel needs is not a matter of what it shows.

  - `step_refines`, `runs_refine`: while kalloc has pages, either kernel does to what it shows
    what `Act.run` says, and panics when that has no result.
  - `cow_is_eager`: so both return the same and every address space reads the same; a store or
    copyout in one of the spaces changes no byte read in another; and one panics exactly if the
    other does.
-/

import Xv6Labs.Lib.Runs
import Xv6Labs.Cow.Kernels
import Xv6Labs.Cow.Readonly

namespace Xv6Labs.Cow

open Lib Vm

variable {L : Layout} {K : Kernel} {P : Nat → Prop} {room : Nat → Bool} {w w' : World} {sps : List Space}
    {m m' : Mach Kmem} {i : Nat} {sp : Space} {t : Nat}

/-- The address spaces of `w` are `sps`, in order. -/
structure Shows (L : Layout) (P : Nat → Prop) (w : World) (sps : List Space) : Prop where
  fine : Fine L P w.live w.mach
  len : sps.length = w.live.length
  views : ∀ (i t : Nat) (sp : Space), w.live[i]? = some t → sps[i]? = some sp → Views w.mach.mem t sp

/-- The byte the user of address space `i` reads. -/
def World.reads (w : World) (i va : Nat) : Option UInt8 :=
  match w.live[i]? with
  | none => none
  | some t =>
    if va < MAXVA ∧ (lookup w.mach.mem t (va / 4096)).any (·.testBit 4) = true then byteAt w.mach.mem t va else none

theorem Shows.get (h : Shows L P w sps) (ht : w.live[i]? = some t) : ∃ sp, sps[i]? = some sp ∧
    Views w.mach.mem t sp := by
  have hi : i < sps.length := by
    rw [h.len]
    exact (List.getElem?_eq_some_iff.mp ht).1
  exact ⟨sps[i], List.getElem?_eq_getElem hi, h.views i t _ ht (List.getElem?_eq_getElem hi)⟩

theorem Shows.missing (h : Shows L P w sps) (ht : w.live[i]? = none) : sps[i]? = none := by
  rw [List.getElem?_eq_none_iff] at ht ⊢
  rw [h.len]
  exact ht

theorem Views.reads (h : Views m.mem t sp) (va : Nat) :
    (if va < MAXVA ∧ (lookup m.mem t (va / 4096)).any (·.testBit 4) = true then byteAt m.mem t va else none) =
      if sp.allows va then some (sp.byte va) else none := by
  by_cases ha : sp.allows va = true
  · obtain ⟨hva, w, hl, hU⟩ := (Views.allows_iff h).mp ha
    have hv := vpn_of_lt hva
    have hu := h.user _ hv
    rw [hl] at hu
    rw [if_pos ha, if_pos ⟨hva, by rw [hl]; exact hU⟩, h.byte va hv, ← hu]
    rfl
  · rw [if_neg ha, if_neg]
    intro ⟨hva, hc⟩
    rw [Option.any_eq_true] at hc
    exact ha ((Views.allows_iff h).mpr ⟨hva, hc⟩)

theorem Shows.reads (h : Shows L P w sps) (i va : Nat) :
    w.reads i va = (sps[i]?).bind fun sp => if sp.allows va then some (sp.byte va) else none := by
  unfold World.reads
  cases ht : w.live[i]? with
  | none =>
    rw [h.missing ht]
    rfl
  | some t =>
    obtain ⟨sp, hsp, hv⟩ := h.get ht
    rw [hsp]
    exact Views.reads hv va

/-- One table shows another space, the others what they did. -/
theorem Shows.set (h : Shows L P w sps) (ht : w.live[i]? = some t) (hf : Fine L P w.live m') (hv : Views m'.mem t sp)
    (hu : Untouched w.live t w.mach m') : Shows L P { w with mach := m' } (sps.set i sp) := by
  refine ⟨hf, by rw [List.length_set]; exact h.len, fun j tj spj htj hspj => ?_⟩
  have htj : w.live[j]? = some tj := htj
  by_cases e : j = i
  · subst e
    rw [ht] at htj
    obtain rfl := Option.some.inj htj
    have hj : j < sps.length := by
      rw [h.len]
      exact (List.getElem?_eq_some_iff.mp ht).1
    rw [List.getElem?_set_self hj] at hspj
    obtain rfl := Option.some.inj hspj
    exact hv
  · rw [List.getElem?_set_ne fun e' => e e'.symm] at hspj
    have hne : tj ≠ t :=
      fun e' => e ((List.getElem?_inj (List.getElem?_eq_some_iff.mp htj).1 h.fine.nodup).mp (by rw [htj, ht, e']))
    exact hu tj (List.mem_of_getElem? htj) hne spj (h.views j tj spj htj hspj)

theorem Shows.erase (h : Shows L P w sps) (ht : w.live[i]? = some t) (hf : Fine L P (w.live.erase t) m')
    (hu : Untouched w.live t w.mach m') :
    Shows L P ⟨m', w.live.eraseIdx i⟩ (sps.eraseIdx i) := by
  obtain ⟨hi, he⟩ := List.getElem?_eq_some_iff.mp ht
  have herase : w.live.erase t = w.live.eraseIdx i := by
    rw [← he]
    exact h.fine.nodup.erase_getElem i hi
  refine ⟨herase ▸ hf, ?_, fun j tj spj htj hspj => ?_⟩
  · show (sps.eraseIdx i).length = (w.live.eraseIdx i).length
    rw [List.length_eraseIdx, List.length_eraseIdx, h.len]
  · have htj : (w.live.eraseIdx i)[j]? = some tj := htj
    have hmem : tj ∈ w.live ∧ tj ≠ t := by
      have hmem := List.mem_of_getElem? htj
      rw [← herase, h.fine.nodup.mem_erase_iff] at hmem
      exact ⟨hmem.2, hmem.1⟩
    rw [List.getElem?_eraseIdx] at htj hspj
    refine hu tj hmem.1 hmem.2 spj ?_
    by_cases hlt : j < i
    · rw [if_pos hlt] at htj hspj
      exact h.views j tj spj htj hspj
    · rw [if_neg hlt] at htj hspj
      exact h.views (j + 1) tj spj htj hspj

/-- A new table beside the others. -/
theorem Shows.append {new : Nat} (h : Shows L P w sps) (hf : Fine L P (w.live ++ [new]) m') (hv : Views m'.mem new sp)
    (hkeep : ∀ t ∈ w.live, ∀ sp, Views w.mach.mem t sp → Views m'.mem t sp) :
      Shows L P ⟨m', w.live ++ [new]⟩ (sps ++ [sp]) := by
  refine ⟨hf, ?_, fun j tj spj htj hspj => ?_⟩
  · show (sps ++ [sp]).length = (w.live ++ [new]).length
    rw [List.length_append, List.length_append, h.len]
    rfl
  · have htj : (w.live ++ [new])[j]? = some tj := htj
    by_cases hlt : j < w.live.length
    · rw [List.getElem?_append_left hlt] at htj
      rw [List.getElem?_append_left (by rw [h.len]; exact hlt)] at hspj
      exact hkeep tj (List.mem_of_getElem? htj) spj (h.views j tj spj htj hspj)
    · rw [List.getElem?_append_right (by omega)] at htj
      rw [List.getElem?_append_right (by rw [h.len]; omega), h.len] at hspj
      cases hd : j - w.live.length with
      | zero =>
        rw [hd] at htj hspj
        cases htj
        cases hspj
        exact hv
      | succ d =>
        rw [hd] at htj
        cases htj

/-! ## One action -/

/-- The call did what `Act.run` says, or found no memory, or panicked where `Act.run` has no result. -/
def Follows (L : Layout) (P : Nat → Prop) (w : World) (spec : Option (Out × List Space))
    (run : Except String (Out × World)) : Prop :=
  (∃ o sps' w', spec = some (o, sps') ∧ run = .ok (o, w') ∧ Shows L P w' sps' ∧
    w'.mach.kmem.nfail = w.mach.kmem.nfail) ∨
    (∃ o w', run = .ok (o, w') ∧ w.mach.kmem.nfail < w'.mach.kmem.nfail) ∨
    spec = none ∧ ∃ e, run = .error e

theorem Follows.done {o : Out} {sps' : List Space} {spec : Option (Out × List Space)}
    {run : Except String (Out × World)} (hs : spec = some (o, sps'))
    (hr : run = .ok (o, w')) (h : Shows L P w' sps') (hf : w'.mach.kmem.nfail = w.mach.kmem.nfail) :
      Follows L P w spec run :=
  Or.inl ⟨o, sps', w', hs, hr, h, hf⟩

theorem Follows.full {o : Out} {spec : Option (Out × List Space)} {run : Except String (Out × World)}
    (hr : run = .ok (o, w')) (hf : w.mach.kmem.nfail < w'.mach.kmem.nfail) : Follows L P w spec run :=
  Or.inr (Or.inl ⟨o, w', hr, hf⟩)

theorem Follows.panic {e : String} {spec : Option (Out × List Space)} {run : Except String (Out × World)}
    (hs : spec = none) (hr : run = .error e) :
    Follows L P w spec run :=
  Or.inr (Or.inr ⟨hs, e, hr⟩)

/-- Both sides look the address space up first. -/
theorem Follows.within (h : Shows L P w sps) {f : Space → Option (Out × List Space)}
    {g : Nat → Except String (Out × World)}
    (hfg : ∀ t sp, w.live[i]? = some t → Views w.mach.mem t sp → Follows L P w (f sp) (g t)) :
    Follows L P w (withSpace sps i f) (withTable w i g) := by
  unfold withSpace withTable
  cases ht : w.live[i]? with
  | none =>
    rw [h.missing ht]
    exact .panic rfl rfl
  | some t =>
    obtain ⟨sp, hsp, hv⟩ := h.get ht
    rw [hsp]
    exact hfg t sp ht hv

theorem step_fork_follows (hK : Implements L K P room) (h : Shows L P w sps) (hroom : room (w.live.length + 1) = true)
    (i sz : Nat) :
    Follows L P w ((Act.fork i sz).run sps) (step L K w (.fork i sz)) := by
  refine .within h fun t sp ht hv => ?_
  obtain ⟨k, hk⟩ := h.fine.inv
  have hmem := List.mem_of_getElem? ht
  rcases uvmcreate_spec hk with ⟨m, e, -, -, hf⟩ | ⟨new, m, k', e, hnl, hk', kp, hempty, hf, -⟩
  · rw [e]
    refine .full rfl ?_
    show w.mach.kmem.nfail < (spec256 L).fails m.kmem
    rw [hf]
    exact Nat.lt_succ_self _
  · rw [e]
    dsimp only
    have hf : m.kmem.nfail = w.mach.kmem.nfail := hf
    have hfine : Fine L P (w.live ++ [new]) m := h.fine.step hk' fun t' ht' v hv' => by
      rcases List.mem_append.mp ht' with ht' | ht'
      · exact Or.inl ⟨ht', kp.lookup t' ht' v hv'⟩
      · obtain rfl := List.mem_singleton.mp ht'
        exact Or.inr (Or.inl (hempty v hv'))
    have hlen : room (w.live ++ [new]).length = true := by
      rw [List.length_append]
      exact hroom
    have hnew : new ∈ w.live ++ [new] := List.mem_append_right _ (List.mem_singleton_self _)
    rcases hK.uvmcopy sz hfine (List.mem_append_left _ hmem) hnew (fun e => hnl (e ▸ hmem)) hlen hempty
      (kp.views hmem hv) with
      ⟨hcov, m', e', f', hv', hu, hf'⟩ | ⟨r, m', e', hf'⟩ | ⟨hcov, e, e'⟩
    · rw [e']
      refine .done (if_pos hcov) rfl (h.append f' hv' fun t' ht' sp' hs' => ?_) (hf'.trans hf)
      exact hu t' (List.mem_append_left _ ht') (fun e => hnl (e ▸ ht')) sp' (kp.views ht' hs')
    · rw [e']
      refine .full rfl ?_
      show w.mach.kmem.nfail < m'.kmem.nfail
      omega
    · rw [e']
      exact .panic (if_neg hcov) rfl

/-- A call that works inside one table. -/
theorem Follows.inside {α : Type} {ret : α} {run : Except String (α × Mach Kmem)} (code : α → Int)
    (h : Shows L P w sps) (ht : w.live[i]? = some t)
    (hr : (∃ m', run = .ok (ret, m') ∧ Fine L P w.live m' ∧ Views m'.mem t sp ∧ Untouched w.live t w.mach m' ∧
      m'.kmem.nfail = w.mach.kmem.nfail) ∨
      ∃ r m', run = .ok (r, m') ∧ w.mach.kmem.nfail < m'.kmem.nfail) :
    Follows L P w (some (⟨code ret, []⟩, sps.set i sp))
      (run >>= fun x => .ok (⟨code x.1, []⟩, { w with mach := x.2 })) := by
  rcases hr with ⟨m', e, hf, hv, hu, hn⟩ | ⟨r, m', e, hn⟩
  · rw [e]
    exact .done rfl rfl (h.set ht hf hv hu) hn
  · rw [e]
    exact .full rfl hn

/-- Nothing changed. -/
theorem Follows.same {o : Out} (h : Shows L P w sps) : Follows L P w (some (o, sps)) (.ok (o, w)) :=
  .done rfl rfl h rfl

theorem step_uvmalloc_follows (hK : Implements L K P room) (h : Shows L P w sps) (i oldsz newsz : Nat) :
    Follows L P w ((Act.uvmalloc i oldsz newsz).run sps) (step L K w (.uvmalloc i oldsz newsz)) := by
  refine .within h fun t sp ht hv => ?_
  by_cases hlt : newsz < oldsz
  · dsimp only
    unfold Vm.uvmalloc
    rw [if_pos hlt, if_pos hlt]
    exact .same h
  · dsimp only
    rw [if_neg hlt]
    rcases fine_uvmalloc h.fine hK.user (List.mem_of_getElem? ht) hv (Nat.le_of_not_lt hlt) with ⟨hvac, hok⟩ | hfull |
      ⟨hvac, e, he⟩
    · rw [if_pos hvac]
      exact .inside Int.ofNat h ht (Or.inl hok)
    · obtain ⟨r, m', e, hf⟩ := hfull
      rw [e]
      exact .full rfl hf
    · rw [if_neg hvac, he]
      exact .panic rfl rfl

theorem step_uvmdealloc_follows (h : Shows L P w sps) (i oldsz newsz : Nat) :
    Follows L P w ((Act.uvmdealloc i oldsz newsz).run sps) (step L K w (.uvmdealloc i oldsz newsz)) := by
  refine .within h fun t sp ht hv => ?_
  dsimp only
  rw [uvmdealloc_eq]
  rcases fine_unmapLoop h.fine (List.mem_of_getElem? ht) hv (n := deallocN oldsz newsz) (pgroundup_mod newsz) with
    ⟨hcov, m', e, hok⟩ | ⟨hcov, e, he⟩
  · have hret : (if newsz ≥ oldsz then (oldsz : Int) else newsz) =
      Int.ofNat (if newsz ≥ oldsz then oldsz else newsz) := by
      split
      · rfl
      · rfl
    rw [if_pos hcov, e, hret]
    exact .inside Int.ofNat h ht (Or.inl ⟨m', rfl, hok⟩)
  · rw [if_neg hcov, he]
    exact .panic rfl rfl

theorem step_uvmfree_follows (hK : Implements L K P room) (h : Shows L P w sps) (i sz : Nat) :
    Follows L P w ((Act.uvmfree i sz).run sps) (step L K w (.uvmfree i sz)) := by
  refine .within h fun t sp ht hv => ?_
  dsimp only
  rcases fine_uvmfree h.fine hK.read (List.mem_of_getElem? ht) hv sz with ⟨hfit, m', e, hf, hu, hn⟩ | ⟨hfit, e, he⟩
  · rw [if_pos hfit, e]
    exact .done rfl rfl (h.erase ht hf hu) hn
  · rw [if_neg hfit, he]
    exact .panic rfl rfl

/-- Whether the action is a fork. -/
def Act.forks : Act → Bool
  | .fork .. => true
  | _ => false

theorem step_refines (hK : Implements L K P room) (h : Shows L P w sps) (a : Act)
    (hroom : a.forks = true → room (w.live.length + 1) = true) :
    Follows L P w (a.run sps) (step L K w a) := by
  cases a with
  | fork i sz => exact step_fork_follows hK h (hroom rfl) i sz
  | store i va b =>
    refine .within h fun t sp ht hv => ?_
    exact .inside (fun ok : Bool => if ok then 0 else -1) h ht (hK.store va b h.fine (List.mem_of_getElem? ht) hv)
  | copyout i dstva src =>
    refine .within h fun t sp ht hv => ?_
    exact .inside (fun r : Int => r) h ht (hK.copyout dstva src h.fine (List.mem_of_getElem? ht) hv)
  | copyin i srcva len =>
    refine .within h fun t sp ht hv => ?_
    dsimp only
    rw [copyin_views hv (h.fine.nonNull (List.mem_of_getElem? ht))]
    exact .same h
  | uvmalloc i oldsz newsz => exact step_uvmalloc_follows hK h i oldsz newsz
  | uvmdealloc i oldsz newsz => exact step_uvmdealloc_follows h i oldsz newsz
  | uvmfree i sz => exact step_uvmfree_follows hK h i sz

/-! ## Runs -/

/-- The kernel answers an action, no kalloc fails in it, and a fork has room. -/
def Served (L : Layout) (K : Kernel) (room : Nat → Bool) (e : Act × Out) (w w' : World) : Prop :=
  step L K w e.1 = .ok (e.2, w') ∧ w'.mach.kmem.nfail = w.mach.kmem.nfail ∧
    (e.1.forks = true → room (w.live.length + 1) = true)

/-- An action on spaces and its answer. -/
def Shown (e : Act × Out) (sps sps' : List Space) : Prop := e.1.run sps = some (e.2, sps')

theorem served_shows (hK : Implements L K P room) (h : Shows L P w sps) {e : Act × Out}
    (hs : Served L K room e w w') : ∃ sps', Shown e sps sps' ∧ Shows L P w' sps' := by
  obtain ⟨hr, hn, hroom⟩ := hs
  rcases step_refines hK h e.1 hroom with ⟨o, sps', w1, hs, hr1, h1, -⟩ | ⟨o, w1, hr1, hlt⟩ | ⟨-, x, hr1⟩
  · rw [hr] at hr1
    cases hr1
    exact ⟨sps', hs, h1⟩
  · rw [hr] at hr1
    cases hr1
    omega
  · rw [hr] at hr1
    cases hr1

theorem runs_refine (hK : Implements L K P room) {es : List (Act × Out)} (hr : Runs (Served L K room) es w w') :
    ∀ {sps}, Shows L P w sps → ∃ sps', Runs Shown es sps sps' ∧ Shows L P w' sps' := by
  induction hr with
  | nil w => exact fun h => ⟨_, .nil _, h⟩
  | cons hs _ ih =>
    intro sps h
    obtain ⟨sps1, hs1, h1⟩ := served_shows hK h hs
    obtain ⟨sps', hr', h'⟩ := ih h1
    exact ⟨sps', .cons hs1 hr', h'⟩

theorem shown_unique (a : Act) (o1 o2 : Out) (sps sps1 sps2 : List Space) (h1 : Shown (a, o1) sps sps1)
    (h2 : Shown (a, o2) sps sps2) : o1 = o2 ∧ sps1 = sps2 := by
  have h := h1.symm.trans h2
  cases h
  exact ⟨rfl, rfl⟩

/-- Where one kernel panics, there is nothing to show. -/
theorem panic_shows (hK : Implements L K P room) (h : Shows L P w sps) {a : Act}
    (hroom : a.forks = true → room (w.live.length + 1) = true) {x : String}
    (e : step L K w a = .error x) : a.run sps = none := by
  rcases step_refines hK h a hroom with ⟨o, sps', w1, -, hr1, -⟩ | ⟨o, w1, hr1, -⟩ | ⟨hs, -⟩
  · rw [e] at hr1
    cases hr1
  · rw [e] at hr1
    cases hr1
  · exact hs

theorem shows_panic (hK : Implements L K P room) (h : Shows L P w sps) {a : Act}
    (hroom : a.forks = true → room (w.live.length + 1) = true)
    (hs : a.run sps = none) : (∃ x, step L K w a = .error x) ∨ ∃ o w', step L K w a = .ok (o, w') ∧
      w.mach.kmem.nfail < w'.mach.kmem.nfail := by
  rcases step_refines hK h a hroom with ⟨o, sps', w1, hs1, -⟩ | hfull | ⟨-, hpanic⟩
  · rw [hs] at hs1
    cases hs1
  · exact Or.inr hfull
  · exact Or.inl hpanic

/-- The address space an action writes to, and no other. -/
def Act.target : Act → Option Nat
  | .store i .. => some i
  | .copyout i .. => some i
  | _ => none

/-- What a write to one space does to the bytes read in another: nothing. -/
theorem write_spares (hK : Implements L K P room) (h : Shows L P w sps) {e : Act × Out} (hs : Served L K room e w w')
    (ht : e.1.target = some i) {j : Nat} (hne : j ≠ i) (va : Nat) : w'.reads j va = w.reads j va := by
  obtain ⟨sps', hs', h'⟩ := served_shows hK h hs
  have hsame : sps'[j]? = sps[j]? := by
    obtain ⟨a, o⟩ := e
    cases a with
    | store i' va b =>
      obtain rfl := Option.some.inj ht
      unfold Shown Act.run withSpace at hs'
      dsimp only at hs'
      split at hs'
      · cases hs'
      · cases hs'
        exact List.getElem?_set_ne (Ne.symm hne)
    | copyout i' dstva src =>
      obtain rfl := Option.some.inj ht
      unfold Shown Act.run withSpace at hs'
      dsimp only at hs'
      split at hs'
      · cases hs'
      · cases hs'
        exact List.getElem?_set_ne (Ne.symm hne)
    | fork | copyin | uvmalloc | uvmdealloc | uvmfree => cases ht
  rw [h'.reads, h.reads, hsame]

/-- The next action panics in one kernel: then in the other, unless that one is out of memory. -/
theorem panic_follows {L' : Layout} {K' : Kernel} {P' : Nat → Prop} {room' : Nat → Bool} (hK : Implements L K P room)
    (hK' : Implements L' K' P' room') (h : Shows L P w sps) (h' : Shows L' P' w' sps) {a : Act}
    (hroom : a.forks = true → room (w.live.length + 1) = true)
    (hroom' : a.forks = true → room' (w'.live.length + 1) = true) {x : String} (e : step L K w a = .error x) :
    (∃ x', step L' K' w' a = .error x') ∨ ∃ o w1, step L' K' w' a = .ok (o, w1) ∧
      w'.mach.kmem.nfail < w1.mach.kmem.nfail :=
  shows_panic hK' h' hroom' (panic_shows hK h hroom e)

/-- Two runs of the same actions, one of each kernel, none of them short of memory: the answers are
    the same, every address space reads the same, a write to one space changes no other, and
    the next action panics in one kernel exactly if in the other, where memory does not run
    out. -/
theorem cow_is_eager {L' : Layout} {wc wc' we we' : World} {cs es : List (Act × Out)} (hc : Shows L CowLeaf wc sps)
    (he : Shows L' EagerLeaf we sps) (rc : Runs (Served L (cowKernel L) bytesOf) cs wc wc')
    (re : Runs (Served L' (eagerKernel L') anyNumber) es we we') (hacts : cs.map (·.1) = es.map (·.1)) :
    cs = es ∧ (∀ i va, wc'.reads i va = we'.reads i va) ∧
    (∀ e w i, Served L (cowKernel L) bytesOf e wc' w → e.1.target = some i → ∀ j va, j ≠ i →
      w.reads j va = wc'.reads j va) ∧
    ∀ a, (a.forks = true → wc'.live.length + 1 ≤ 256) →
      (∀ x, step L (cowKernel L) wc' a = .error x →
        (∃ x', step L' (eagerKernel L') we' a = .error x') ∨ ∃ o w, step L' (eagerKernel L') we' a = .ok (o, w) ∧
          we'.mach.kmem.nfail < w.mach.kmem.nfail) ∧
      ∀ x, step L' (eagerKernel L') we' a = .error x →
        (∃ x', step L (cowKernel L) wc' a = .error x') ∨ ∃ o w, step L (cowKernel L) wc' a = .ok (o, w) ∧
          wc'.mach.kmem.nfail < w.mach.kmem.nfail := by
  obtain ⟨sps1, r1, h1⟩ := runs_refine cow_implements rc hc
  obtain ⟨sps2, r2, h2⟩ := runs_refine eager_implements re he
  obtain ⟨hes, rfl⟩ := Runs.unique shown_unique r1 r2 hacts
  refine ⟨hes, fun i va => ?_, fun e w i hs ht j va hne => write_spares cow_implements h1 hs ht hne va,
    fun a hroom => ⟨fun x e => ?_, fun x e => ?_⟩⟩
  · rw [h1.reads, h2.reads]
  · exact panic_follows cow_implements eager_implements h1 h2 (fun ha => decide_eq_true (hroom ha)) (fun _ => rfl) e
  · exact panic_follows eager_implements cow_implements h2 h1 (fun _ => rfl) (fun ha => decide_eq_true (hroom ha)) e

/-! ## A fork, and a store of the child -/

/-- kinit and a first table, empty. -/
theorem first_shows {m : Mem} {s1 s2 : Mach Kmem} (e1 : kinit L (boot m) = .ok s1)
    (e2 : uvmcreate (lab L) s1 = (some t, s2)) :
    Shows L P ⟨s2, [t]⟩ [Space.empty] := by
  obtain ⟨s1', e1', -, hi⟩ := kinit_spec (L := L) 256 m (by decide) (by decide)
  rw [e1] at e1'
  obtain rfl := Except.ok.inj e1'
  rcases uvmcreate_spec (VmInv.init (H := spec256 L) hi) with ⟨s2', e2', -⟩ | ⟨t', s2', k2, e2', -, v2, -, hempty, -⟩
  · rw [e2] at e2'
    cases e2'
  rw [e2] at e2'
  cases e2'
  have hnone : ∀ t' ∈ [t], ∀ v < VPN, ∀ w, lookup s2.mem t' v ≠ some w := fun t' ht v hv w hl => by
    rw [List.mem_singleton.mp ht, hempty v hv] at hl
    cases hl
  refine ⟨⟨⟨k2, v2⟩, fun t' ht v hv w hl => absurd hl (hnone t' ht v hv w),
    fun t' ht v hv w hl => absurd hl (hnone t' ht v hv w)⟩, rfl, fun i t' sp ht hs => ?_⟩
  cases i with
  | zero =>
    cases ht
    cases hs
    exact views_empty hempty
  | succ i => cases ht

/-- The actions one after another, as long as they are served. -/
def serve (L : Layout) (K : Kernel) (room : Nat → Bool) : World → List Act → Option (List (Act × Out) × World)
  | w, [] => some ([], w)
  | w, a :: acts =>
    match step L K w a with
    | .error _ => none
    | .ok (o, w1) =>
      if w1.mach.kmem.nfail = w.mach.kmem.nfail ∧ (a.forks = true → room (w.live.length + 1) = true) then
        (serve L K room w1 acts).map fun x => ((a, o) :: x.1, x.2)
      else none

theorem serve_runs {acts : List Act} {es : List (Act × Out)} (h : serve L K room w acts = some (es, w')) :
    Runs (Served L K room) es w w' ∧ es.map (·.1) = acts := by
  induction acts generalizing w es with
  | nil =>
    cases h
    exact ⟨.nil _, rfl⟩
  | cons a acts ih =>
    unfold serve at h
    split at h
    · cases h
    · rename_i o w1 e
      split at h
      · rename_i hok
        obtain ⟨x, hx, hes⟩ := Option.map_eq_some_iff.mp h
        cases hes
        obtain ⟨hr, hm⟩ := ih hx
        exact ⟨.cons ⟨e, hok⟩ hr, congrArg (a :: ·) hm⟩
      · cases h

def tenPages : Layout := ⟨KERNBASE, KERNBASE + 10 * 4096, Nat.le_refl KERNBASE, by decide, by decide⟩

/-- A page, a fork of it, and the child writes a byte to it that the parent then reads. -/
def forkStore : List Act := [.uvmalloc 0 0 4096, .fork 0 4096, .store 1 5 7, .copyin 0 5 1, .copyin 1 5 1]

def served (K : Kernel) (room : Nat → Bool) : Option (List Out) :=
  match kinit tenPages (boot fun _ => 0) with
  | .error _ => none
  | .ok s =>
    match uvmcreate (lab tenPages) s with
    | (none, _) => none
    | (some t, s) => (serve tenPages K room ⟨s, [t]⟩ forkStore).map fun x => x.1.map (·.2)

theorem served_run {outs : List Out} (h : served K room = some outs) :
    ∃ w es w', (∀ P, Shows tenPages P w [Space.empty]) ∧ Runs (Served tenPages K room) es w w' ∧
      es.map (·.1) = forkStore ∧ es.map (·.2) = outs := by
  unfold served at h
  split at h
  · cases h
  rename_i s1 e1
  split at h
  · cases h
  rename_i t s2 e2
  obtain ⟨⟨es, w'⟩, hx, hout⟩ := Option.map_eq_some_iff.mp h
  obtain ⟨hr, hm⟩ := serve_runs hx
  exact ⟨⟨s2, [t]⟩, es, w', fun P => first_shows e1 e2, hr, hm, hout⟩

/-- The parent reads 0 and the child 7, under either kernel. -/
theorem cow_is_eager_store : ∃ wc wc' we we' es, Runs (Served tenPages (cowKernel tenPages) bytesOf) es wc wc' ∧
    Runs (Served tenPages (eagerKernel tenPages) anyNumber) es we we' ∧
      es.map (·.2) = [⟨4096, []⟩, ⟨0, []⟩, ⟨0, []⟩, ⟨0, [0]⟩, ⟨0, [7]⟩] ∧
    ∀ i va, wc'.reads i va = we'.reads i va := by
  have h : served (cowKernel tenPages) bytesOf = some [⟨4096, []⟩, ⟨0, []⟩, ⟨0, []⟩, ⟨0, [0]⟩, ⟨0, [7]⟩] ∧
    (served (eagerKernel tenPages) anyNumber).isSome = true := by
    decide +kernel
  obtain ⟨outs, ho⟩ := Option.isSome_iff_exists.mp h.2
  obtain ⟨wc, cs, wc', hc, rc, hmc, hout⟩ := served_run h.1
  obtain ⟨we, es, we', he, re, hme, -⟩ := served_run ho
  obtain ⟨rfl, hreads, -⟩ := cow_is_eager (hc _) (he _) rc re (hmc.trans hme.symm)
  exact ⟨wc, wc', we, we', cs, rc, re, hout, hreads⟩

end Xv6Labs.Cow
