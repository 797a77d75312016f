/-
  Xv6Labs.Fs.Graph — a volume as inodes that name one another, and its link counts.

  `links`: the entries that name an inode, over all directories and without `.` and `..`; `kids`:
  those of a directory that name directories. `Sane`: a link count covers both, and an inode that
  nobody holds has a link to spare, so that it does not go while it is linked.

  - `Sane.link`, `Unlinks.sane`, `Unlinks.sane_drop`, `Sane.mkdir`: what the system calls do to the
    graph keeps this, as long as the count that is raised is not the greatest short.
-/

import Xv6Labs.Lib.Census
import Xv6Labs.Fs.Sysfile

namespace Xv6Labs.Fs.Disk

open Lib

abbrev Entries := Slots (List UInt8) Nat

inductive Node
  | free
  | file
  | dir (t : Entries)

def Node.table : Node → Option Entries
  | .dir t => some t
  | _ => none

def Node.isDir (n : Node) : Bool := n.table.isSome

structure Graph where
  node : Nat → Node
  nlink : Nat → UInt16

namespace Graph

/-- Neither `.` nor `..`. -/
def plain (k : List UInt8) : Bool := k ≠ dot ∧ k ≠ dotdot

/-- An entry for inode `i`. -/
def names (i : Nat) (x : List UInt8 × Nat) : Bool := plain x.1 ∧ x.2 = i

/-- An entry for a directory. -/
def child (g : Graph) (x : List UInt8 × Nat) : Bool := plain x.1 ∧ (g.node x.2).isDir

def tables (g : Graph) (j : Nat) : Option Entries := (g.node j).table

def links (g : Graph) (N i : Nat) : Nat := census N g.tables (names i)

def kids (g : Graph) (j : Nat) : Nat := tally (g.tables j) g.child

/-! ## What the calls do -/

def link (g : Graph) (d : Nat) (t : Entries) (k : List UInt8) (i : Nat) : Graph where
  node := Function.update g.node d (.dir (t.put t.free (some (k, i))))
  nlink := Function.update g.nlink i (g.nlink i + 1)

/-- The entry goes, and the counts go down. -/
def unlink (g : Graph) (d : Nat) (t : Entries) (n i : Nat) : Graph where
  node := Function.update g.node d (.dir (t.put n none))
  nlink := Function.update (if (g.node i).isDir then Function.update g.nlink d (g.nlink d - 1) else g.nlink) i
    (g.nlink i - 1)

def drop (g : Graph) (i : Nat) : Graph where
  node := Function.update g.node i .free
  nlink := g.nlink

/-- `.` and `..`. -/
def fresh (a d : Nat) : Entries :=
  ((⟨0, fun _ => none, fun _ _ => rfl⟩ : Entries).put 0 (some (dot, a))).put 1 (some (dotdot, d))

def mkdir (g : Graph) (d : Nat) (t : Entries) (k : List UInt8) (a : Nat) : Graph where
  node := Function.update (Function.update g.node a (.dir (fresh a d))) d (.dir (t.put t.free (some (k, a))))
  nlink := Function.update (Function.update g.nlink d (g.nlink d + 1)) a 1

def mknod (g : Graph) (d : Nat) (t : Entries) (k : List UInt8) (a : Nat) : Graph where
  node := Function.update (Function.update g.node a .file) d (.dir (t.put t.free (some (k, a))))
  nlink := Function.update g.nlink a 1

/-- A directory, or any other inode. -/
def make (g : Graph) (dir : Bool) (d : Nat) (t : Entries) (k : List UInt8) (a : Nat) : Graph :=
  if dir then g.mkdir d t k a else g.mknod d t k a

/-! ## Link counts that are large enough -/

/-- A directory starts with `.` and `..`. -/
def Dots (t : Entries) : Prop := (∃ x, t.entry 0 = some (dot, x)) ∧ ∃ x, t.entry 1 = some (dotdot, x)

structure Sane (g : Graph) (N : Nat) (busy : Nat → Prop) : Prop where
  enough : ∀ i < N, g.node i ≠ .free → (g.links N i + g.kids i : Int) ≤ short (g.nlink i)
  kept : ∀ i < N, g.node i ≠ .free → ¬ busy i → (g.kids i : Int) < short (g.nlink i)
  free : ∀ i < N, g.node i = .free → g.links N i = 0
  dots : ∀ i < N, ∀ t, g.node i = .dir t → Dots t
  alloc : ∀ i < N, busy i → g.node i ≠ .free

variable {g g' : Graph} {N d i a n : Nat} {busy : Nat → Prop} {t : Entries} {k : List UInt8}

theorem short_succ {x : UInt16} (h : short x < 32767) : short (x + 1) = short x + 1 := by
  have hx := x.toNat_lt
  unfold short at h ⊢
  rw [UInt16.toNat_add]
  show (if (x.toNat + 1) % 2 ^ 16 < 2 ^ 15 then (((x.toNat + 1) % 2 ^ 16 : Nat) : Int) else
    ((x.toNat + 1) % 2 ^ 16 : Nat) - 2 ^ 16) = _
  split_ifs at h ⊢ <;> omega

theorem short_pred {x : UInt16} (h : 0 < short x) : short (x - 1) = short x - 1 := by
  have hx := x.toNat_lt
  unfold short at h ⊢
  rw [UInt16.toNat_sub]
  show (if (2 ^ 16 - 1 + x.toNat) % 2 ^ 16 < 2 ^ 15 then (((2 ^ 16 - 1 + x.toNat) % 2 ^ 16 : Nat) : Int) else
    ((2 ^ 16 - 1 + x.toNat) % 2 ^ 16 : Nat) - 2 ^ 16) = _
  split_ifs at h ⊢ <;> omega

theorem short_zero {x : UInt16} : short x = 0 ↔ x = 0 := by
  have hx := x.toNat_lt
  constructor
  · intro h
    refine UInt16.toNat_inj.mp ?_
    show x.toNat = 0
    unfold short at h
    split at h <;> omega
  · rintro rfl
    rfl

/-! ## Counting -/

theorem tables_update (m : Node) (f : Nat → UInt16) :
    tables ⟨Function.update g.node d m, f⟩ = Function.update g.tables d m.table := by
  funext j
  show (Function.update g.node d m j).table = _
  by_cases h : j = d
  · rw [h, Function.update_self, Function.update_self]
  · rw [Function.update_of_ne h, Function.update_of_ne h]
    rfl

theorem tables_dir (h : g.node d = .dir t) : g.tables d = some t := congrArg Node.table h

theorem child_congr {x : List UInt8 × Nat} (h : plain x.1 = true → (g'.node x.2).isDir = (g.node x.2).isDir) :
    g'.child x = g.child x := by
  unfold child
  cases hp : plain x.1 with
  | false => simp
  | true => simp [h hp]

theorem names_apply (i j : Nat) (hk : plain k = true) : (names j (k, i)).toNat = if j = i then 1 else 0 := by
  unfold names
  by_cases h : j = i
  · simp [h, hk]
  · simp [h, Ne.symm h]

theorem child_apply (hk : plain k = true) : (g.child (k, i)).toNat = if (g.node i).isDir then 1 else 0 := by
  unfold child
  cases (g.node i).isDir <;> simp [hk]

/-- No entry of a table is plain. -/
def Bare (t : Entries) : Prop := ∀ n x, t.entry n = some x → plain x.1 = false

theorem Bare.tally (h : Bare t) (i : Nat) : Lib.tally (some t) (names i) = 0 ∧ Lib.tally (some t) g.child = 0 := by
  constructor
  · exact Slots.count_zero.mpr fun n x hx => by simp [names, h n x hx]
  · exact Slots.count_zero.mpr fun n x hx => by simp [child, h n x hx]

theorem links_zero : g.links N i = 0 ↔ ∀ j < N, ∀ t, g.node j = .dir t → ∀ n x, t.entry n = some x →
    plain x.1 = true → x.2 ≠ i := by
  unfold links
  rw [census_zero]
  refine forall_congr' fun j => forall_congr' fun _ => ?_
  unfold tables
  cases g.node j with
  | free => exact ⟨fun _ t h => (by cases h), fun _ => rfl⟩
  | file => exact ⟨fun _ t h => (by cases h), fun _ => rfl⟩
  | dir t =>
    show t.count (names i) = 0 ↔ _
    rw [Slots.count_zero]
    constructor
    · intro h t' ht n x hx hp he
      cases ht
      have := h n x hx
      simp [names, hp, he] at this
    · intro h n x hx
      by_contra hn
      have hn : plain x.1 = true ∧ x.2 = i := by simpa [names] using hn
      exact h t rfl n x hx hn.1 hn.2

theorem links_pos (hj : d < N) (hd : g.node d = .dir t) (hx : t.entry n = some (k, i)) (hk : plain k = true) :
    0 < g.links N i :=
  Nat.pos_of_ne_zero fun h => links_zero.mp h d hj t hd n _ hx hk rfl

/-- What a plain entry names is there, and its count is positive. -/
theorem Sane.linked (hs : Sane g N busy) (hj : d < N) (hd : g.node d = .dir t) (hx : t.entry n = some (k, i))
    (hk : plain k = true) (hi : i < N) :
    g.node i ≠ .free ∧ 1 ≤ short (g.nlink i) := by
  have hpos := links_pos hj hd hx hk
  have hf : g.node i ≠ .free := fun e => by
    have := hs.free i hi e
    omega
  have := hs.enough i hi hf
  exact ⟨hf, by omega⟩

/-- A name that a directory has not got is not one of the two that it has. -/
theorem Sane.plain (hs : Sane g N busy) (hj : d < N) (hd : g.node d = .dir t) (hk : t.lookup k = none) :
    plain k = true := by
  obtain ⟨⟨x, h0⟩, y, h1⟩ := hs.dots d hj t hd
  have hno := Slots.lookup_none.mp hk
  have hne : k ≠ dot ∧ k ≠ dotdot := ⟨fun e => hno 0 x (e ▸ h0), fun e => hno 1 y (e ▸ h1)⟩
  exact decide_eq_true hne

/-- `.` and `..` stay when another slot is written. -/
theorem dots_put {o : Option (List UInt8 × Nat)} (h : Dots t) (hn : n ≠ 0 ∧ n ≠ 1) : Dots (t.put n o) := by
  unfold Dots
  rw [Slots.put_ne (Ne.symm hn.1), Slots.put_ne (Ne.symm hn.2)]
  exact h

theorem free_dots (h : Dots t) : t.free ≠ 0 ∧ t.free ≠ 1 := by
  obtain ⟨⟨x, h0⟩, y, h1⟩ := h
  have hf := t.entry_free
  exact ⟨fun e => (by rw [e, h0] at hf; cases hf), fun e => (by rw [e, h1] at hf; cases hf)⟩

/-! ## One directory written -/

section

variable {t' : Entries} {f : Nat → UInt16}

theorem dir_isDir (hnd : g.node d = .dir t) (j : Nat) :
    (Function.update g.node d (.dir t') j).isDir = (g.node j).isDir := by
  by_cases h : j = d
  · rw [h, Function.update_self, hnd]
    rfl
  · rw [Function.update_of_ne h]

theorem dir_free (hnd : g.node d = .dir t) (j : Nat) : Function.update g.node d (.dir t') j = .free ↔
    g.node j = .free := by
  by_cases h : j = d
  · rw [h, Function.update_self, hnd]
    exact ⟨fun e => (by cases e), fun e => (by cases e)⟩
  · rw [Function.update_of_ne h]

theorem dir_links (hd : d < N) (hnd : g.node d = .dir t) (i : Nat) :
    links ⟨Function.update g.node d (.dir t'), f⟩ N i + t.count (names i) = g.links N i + t'.count (names i) := by
  have := census_update (T := g.tables) hd (some t') (names i)
  rw [tables_dir hnd] at this
  unfold links
  rw [tables_update]
  exact this

theorem dir_kids (hnd : g.node d = .dir t) (j : Nat) :
    kids ⟨Function.update g.node d (.dir t'), f⟩ j = if j = d then t'.count g.child else g.kids j := by
  have hc : child ⟨Function.update g.node d (.dir t'), f⟩ = g.child :=
    funext fun x => child_congr fun _ => dir_isDir hnd x.2
  unfold kids
  rw [hc, tables_update]
  by_cases h : j = d
  · rw [h, Function.update_self, if_pos rfl]
    rfl
  · rw [Function.update_of_ne h, if_neg h]

theorem dir_dots (h : ∀ i < N, ∀ t, g.node i = .dir t → Dots t) (ht : Dots t') :
    ∀ i < N, ∀ t, Function.update g.node d (.dir t') i = .dir t → Dots t := by
  intro i hi t e
  by_cases hid : i = d
  · rw [hid, Function.update_self] at e
    cases e
    exact ht
  · rw [Function.update_of_ne hid] at e
    exact h i hi t e

end

/-! ## A node without entries exchanged -/

def BareNode (m : Node) : Prop := ∀ t, m = .dir t → Bare t

theorem BareNode.tally {m : Node} (h : BareNode m) (i : Nat) : Lib.tally m.table (names i) = 0 ∧
    Lib.tally m.table g.child = 0 := by
  cases m with
  | free => exact ⟨rfl, rfl⟩
  | file => exact ⟨rfl, rfl⟩
  | dir t => exact (h t rfl).tally i

section

variable {m : Node} {f : Nat → UInt16}

theorem bare_links (hi : i < N) (hold : BareNode (g.node i)) (hnew : BareNode m) (j : Nat) :
    links ⟨Function.update g.node i m, f⟩ N j = g.links N j := by
  have h1 := census_update (T := g.tables) hi m.table (names j)
  rw [tables, (hold.tally j (g := g)).1, (hnew.tally j (g := g)).1] at h1
  unfold links
  rw [tables_update]
  exact h1

theorem bare_kids (hz : g.links N i = 0) {j : Nat} (hj : j < N) (hne : j ≠ i) :
    kids ⟨Function.update g.node i m, f⟩ j = g.kids j := by
  unfold kids
  rw [tables_update, Function.update_of_ne hne]
  unfold tables
  cases e : g.node j with
  | free => rfl
  | file => rfl
  | dir t =>
    refine Slots.count_congr fun n x hx => child_congr fun hp => ?_
    show (Function.update g.node i m x.2).isDir = _
    rw [Function.update_of_ne (links_zero.mp hz j hj t e n x hx hp)]

end

/-! ## sys_link -/

theorem link_links (hd : d < N) (hnd : g.node d = .dir t) (hp : Graph.plain k = true) (i j : Nat) :
    (g.link d t k i).links N j = g.links N j + if j = i then 1 else 0 := by
  have h1 : (g.link d t k i).links N j + _ = _ := dir_links hd hnd j
  rw [Slots.count_fill t.entry_free, names_apply i j hp] at h1
  omega

theorem link_kids (hnd : g.node d = .dir t) (hni : g.node i = .file) (hp : Graph.plain k = true) (j : Nat) :
    (g.link d t k i).kids j = g.kids j := by
  rw [Graph.link, dir_kids hnd]
  split
  · rename_i h
    rw [Slots.count_fill t.entry_free, child_apply hp, hni, h]
    show _ = tally (g.tables d) g.child
    rw [tables_dir hnd]
    rfl
  · rfl

theorem link_nlink (hn : short (g.nlink i) < 32767) (j : Nat) :
    short ((g.link d t k i).nlink j) = short (g.nlink j) + if j = i then 1 else 0 := by
  show short (Function.update g.nlink i _ j) = _
  by_cases h : j = i
  · rw [h, Function.update_self, if_pos rfl, short_succ hn]
  · rw [Function.update_of_ne h, if_neg h, Int.add_zero]

theorem Sane.link (hs : Sane g N busy) (hd : d < N) (hnd : g.node d = .dir t) (hni : g.node i = .file)
    (hk : t.lookup k = none) (hn : short (g.nlink i) < 32767) : Sane (g.link d t k i) N busy := by
  have hp := hs.plain hd hnd hk
  have hlinks := link_links hd hnd hp i
  have hkids := link_kids hnd hni hp
  have hnlink := link_nlink (d := d) (t := t) (k := k) hn
  refine ⟨fun j hj h0 => ?_, fun j hj h0 hb => ?_, fun j hj h0 => ?_,
    dir_dots hs.dots (dots_put (hs.dots d hd t hnd) (free_dots (hs.dots d hd t hnd))),
    fun j hj hb => (dir_free hnd j).not.mpr (hs.alloc j hj hb)⟩
  · have := hs.enough j hj ((dir_free hnd j).not.mp h0)
    rw [hlinks, hkids, hnlink]
    split <;> omega
  · have := hs.kept j hj ((dir_free hnd j).not.mp h0) hb
    rw [hkids, hnlink]
    split <;> omega
  · have h0 := (dir_free hnd j).mp h0
    rw [hlinks, hs.free j hj h0, if_neg fun e => by rw [e, hni] at h0; cases h0]

/-! ## sys_unlink -/

/-- A directory that isdirempty takes for empty has no entries to count. -/
theorem bare_of_empty (h : Dots t) (he : ∀ n, 2 ≤ n → t.entry n = none) : Bare t := by
  obtain ⟨⟨x, h0⟩, y, h1⟩ := h
  intro n z hz
  match n with
  | 0 =>
    rw [h0] at hz
    cases hz
    exact decide_eq_false fun h => h.1 rfl
  | 1 =>
    rw [h1] at hz
    cases hz
    exact decide_eq_false fun h => h.2 rfl
  | n + 2 =>
    rw [he (n + 2) (by omega)] at hz
    cases hz

/-- What is unlinked: entry `n` of directory `d`, for inode `i`, which has no entries of its own. -/
structure Unlinks (g : Graph) (N d : Nat) (t : Entries) (n i : Nat) : Prop where
  dir : d < N
  node : g.node d = .dir t
  entry : ∃ k, plain k = true ∧ t.entry n = some (k, i)
  lt : i < N
  ne : i ≠ d
  empty : BareNode (g.node i)

theorem Unlinks.linked (h : Unlinks g N d t n i) : 1 ≤ g.links N i := by
  obtain ⟨k, hk, he⟩ := h.entry
  exact links_pos h.dir h.node he hk

theorem Unlinks.links (h : Unlinks g N d t n i) (j : Nat) :
    (g.unlink d t n i).links N j + (if j = i then 1 else 0) = g.links N j := by
  obtain ⟨k, hk, he⟩ := h.entry
  have h1 : (g.unlink d t n i).links N j + _ = _ := dir_links h.dir h.node j
  rw [← Slots.count_clear he, names_apply i j hk] at h1
  omega

theorem Unlinks.kids (h : Unlinks g N d t n i) (j : Nat) :
    (g.unlink d t n i).kids j + (if j = d ∧ (g.node i).isDir then 1 else 0) = g.kids j := by
  obtain ⟨k, hk, he⟩ := h.entry
  rw [Graph.unlink, dir_kids h.node]
  by_cases hj : j = d
  · have hold : g.kids d = t.count g.child := by
      unfold Graph.kids
      rw [tables_dir h.node]
      rfl
    rw [if_pos hj, hj, hold, ← Slots.count_clear he, child_apply hk]
    simp
  · rw [if_neg hj, if_neg fun e => hj e.1]
    rfl

theorem Unlinks.no_kids (h : Unlinks g N d t n i) : g.kids i = 0 := (h.empty.tally 0).2

theorem Unlinks.pos (h : Unlinks g N d t n i) (hs : Sane g N busy) : 1 ≤ short (g.nlink i) := by
  obtain ⟨k, hk, he⟩ := h.entry
  exact (hs.linked h.dir h.node he hk h.lt).2

theorem Unlinks.nlink (h : Unlinks g N d t n i) (hs : Sane g N busy) (j : Nat) : short ((g.unlink d t n i).nlink j) =
    short (g.nlink j) - (if j = i then 1 else 0) - if j = d ∧ (g.node i).isDir then 1 else 0 := by
  show short (Function.update (if (g.node i).isDir then Function.update g.nlink d (g.nlink d - 1) else g.nlink) i
    (g.nlink i - 1) j) = _
  by_cases hj : j = i
  · have hne : ¬ (j = d ∧ (g.node i).isDir = true) := fun e => h.ne (hj.symm.trans e.1)
    rw [if_neg hne, if_pos hj, hj, Function.update_self, short_pred (h.pos hs)]
    omega
  · rw [Function.update_of_ne hj, if_neg hj]
    cases hdir : (g.node i).isDir with
    | false => simp
    | true =>
      by_cases hd : j = d
      · have hk := h.kids d
        rw [if_pos ⟨rfl, hdir⟩] at hk
        have := hs.enough d h.dir (by rw [h.node]; intro e; cases e)
        subst hd
        rw [if_pos rfl, Function.update_self, short_pred (by omega)]
        simp
      · rw [if_pos rfl, Function.update_of_ne hd]
        simp [hd]

theorem Unlinks.slot (h : Unlinks g N d t n i) (hs : Sane g N busy) : n ≠ 0 ∧ n ≠ 1 := by
  obtain ⟨k, hk, he⟩ := h.entry
  obtain ⟨⟨x, h0⟩, y, h1⟩ := hs.dots d h.dir t h.node
  have hk : k ≠ dot ∧ k ≠ dotdot := of_decide_eq_true hk
  constructor
  · intro e
    rw [e, h0] at he
    cases he
    exact hk.1 rfl
  · intro e
    rw [e, h1] at he
    cases he
    exact hk.2 rfl

theorem Unlinks.enough (h : Unlinks g N d t n i) (hs : Sane g N busy) (j : Nat) (hj : j < N)
    (h0 : (g.unlink d t n i).node j ≠ .free) :
    ((g.unlink d t n i).links N j + (g.unlink d t n i).kids j : Int) ≤ short ((g.unlink d t n i).nlink j) := by
  have := hs.enough j hj ((dir_free h.node j).not.mp h0)
  have := h.links j
  have := h.kids j
  rw [h.nlink hs]
  split_ifs at * <;> omega

theorem Unlinks.kept (h : Unlinks g N d t n i) (hs : Sane g N busy) (j : Nat) (hj : j < N) (hne : j ≠ i)
    (h0 : (g.unlink d t n i).node j ≠ .free) (hb : ¬ busy j) :
    ((g.unlink d t n i).kids j : Int) < short ((g.unlink d t n i).nlink j) := by
  have := hs.kept j hj ((dir_free h.node j).not.mp h0) hb
  have := h.kids j
  rw [h.nlink hs, if_neg hne]
  split_ifs at * <;> omega

theorem Unlinks.free (h : Unlinks g N d t n i) (hs : Sane g N busy) (j : Nat) (hj : j < N)
    (h0 : (g.unlink d t n i).node j = .free) :
    (g.unlink d t n i).links N j = 0 := by
  have := hs.free j hj ((dir_free h.node j).mp h0)
  have := h.links j
  omega

theorem Unlinks.dots (h : Unlinks g N d t n i) (hs : Sane g N busy) :
    ∀ j < N, ∀ t', (g.unlink d t n i).node j = .dir t' → Dots t' :=
  dir_dots hs.dots (dots_put (hs.dots d h.dir t h.node) (h.slot hs))

theorem Unlinks.alloc (h : Unlinks g N d t n i) (hs : Sane g N busy) :
    ∀ j < N, busy j → (g.unlink d t n i).node j ≠ .free :=
  fun j hj hb => (dir_free h.node j).not.mpr (hs.alloc j hj hb)

/-- The inode stays. -/
theorem Unlinks.sane (h : Unlinks g N d t n i) (hs : Sane g N busy)
    (hstay : busy i ∨ (g.unlink d t n i).nlink i ≠ 0) : Sane (g.unlink d t n i) N busy := by
  refine ⟨h.enough hs, fun j hj h0 hb => ?_, h.free hs, h.dots hs, h.alloc hs⟩
  by_cases hji : j = i
  · subst hji
    have h1 := short_zero.not.mpr (hstay.resolve_left hb)
    have h2 := h.no_kids
    have h3 := h.kids j
    have h4 := h.enough hs j hj h0
    omega
  · exact h.kept hs j hj hji h0 hb

/-- An inode goes that nobody holds and nothing names, and that names nothing itself. -/
theorem sane_of_drop (hs : ∀ j < N, g.node j ≠ .free → (g.links N j + g.kids j : Int) ≤ short (g.nlink j))
    (hkept : ∀ j < N, j ≠ i → g.node j ≠ .free → ¬ busy j → (g.kids j : Int) < short (g.nlink j))
    (hfree : ∀ j < N, g.node j = .free → g.links N j = 0)
    (hdots : ∀ j < N, ∀ t, g.node j = .dir t → Dots t) (halloc : ∀ j < N, busy j → g.node j ≠ .free) (hi : i < N)
    (hbare : BareNode (g.node i)) (hz : g.links N i = 0) (hb : ¬ busy i) : Sane (g.drop i) N busy := by
  have hnode : ∀ j, j ≠ i → (g.drop i).node j = g.node j := fun j hj => Function.update_of_ne hj _ _
  have hself : (g.drop i).node i = .free := Function.update_self ..
  have hlinks : ∀ j, (g.drop i).links N j = g.links N j := bare_links hi hbare fun t e => by cases e
  have hkids : ∀ j < N, j ≠ i → (g.drop i).kids j = g.kids j := fun j hj hne => bare_kids hz hj hne
  refine ⟨fun j hj h0 => ?_, fun j hj h0 hb => ?_, fun j hj h0 => ?_, fun j hj t' e => ?_, fun j hj hbj => ?_⟩
  · have hne : j ≠ i := fun e => h0 (e ▸ hself)
    rw [hnode j hne] at h0
    rw [hlinks, hkids j hj hne]
    exact hs j hj h0
  · have hne : j ≠ i := fun e => h0 (e ▸ hself)
    rw [hnode j hne] at h0
    rw [hkids j hj hne]
    exact hkept j hj hne h0 hb
  · rw [hlinks]
    by_cases hne : j = i
    · rw [hne, hz]
    · rw [hnode j hne] at h0
      exact hfree j hj h0
  · have hne : j ≠ i := fun e' => by rw [e', hself] at e; cases e
    rw [hnode j hne] at e
    exact hdots j hj t' e
  · have hne : j ≠ i := fun e => hb (e ▸ hbj)
    rw [hnode j hne]
    exact halloc j hj hbj

/-- The inode goes. -/
theorem Unlinks.sane_drop (h : Unlinks g N d t n i) (hs : Sane g N busy) (hb : ¬ busy i)
    (hgo : (g.unlink d t n i).nlink i = 0) :
    Sane ((g.unlink d t n i).drop i) N busy := by
  have hstill : (g.unlink d t n i).node i = g.node i := Function.update_of_ne h.ne _ _
  have hz : (g.unlink d t n i).links N i = 0 := by
    by_cases h0 : (g.unlink d t n i).node i = .free
    · exact h.free hs i h.lt h0
    · have h1 := h.enough hs i h.lt h0
      rw [short_zero.mpr hgo] at h1
      omega
  exact sane_of_drop (h.enough hs) (h.kept hs) (h.free hs) (h.dots hs) (h.alloc hs) h.lt (hstill ▸ h.empty) hz hb

/-! ## sys_mkdir -/

theorem bare_fresh (a d : Nat) : Bare (fresh a d) := by
  refine bare_of_empty ⟨⟨a, ?_⟩, d, Slots.put_self ..⟩ fun n hn => ?_
  · rw [fresh, Slots.put_ne (by decide), Slots.put_self]
  · rw [fresh, Slots.put_ne (by omega), Slots.put_ne (by omega)]

/-- A free inode becomes `m`, and is entered in a directory. -/
structure Enters (g : Graph) (N d : Nat) (t : Entries) (k : List UInt8) (a : Nat) (m : Node) (g' : Graph) : Prop where
  dir : d < N
  lt : a < N
  node : g.node d = .dir t
  unused : g.node a = .free
  name : Graph.plain k = true
  bare : BareNode m
  used : m ≠ .free
  after : g'.node = Function.update (Function.update g.node a m) d (.dir (t.put t.free (some (k, a))))

section

variable {m : Node}

theorem Enters.ne (h : Enters g N d t k a m g') : a ≠ d := fun e => by
  have h1 := h.node
  rw [← e, h.unused] at h1
  cases h1

/-- The new inode, and then its entry. -/
theorem Enters.graph (h : Enters g N d t k a m g') :
    g' = ⟨Function.update (Function.update g.node a m) d (.dir (t.put t.free (some (k, a)))), g'.nlink⟩ := by
  rw [← h.after]

theorem Enters.node1 (h : Enters g N d t k a m g') : Function.update g.node a m d = .dir t := by
  rw [Function.update_of_ne h.ne.symm, h.node]

theorem Enters.links (h : Enters g N d t k a m g') (j : Nat) :
    g'.links N j = g.links N j + if j = a then 1 else 0 := by
  have h1 : Graph.links ⟨Function.update (Function.update g.node a m) d (.dir (t.put t.free (some (k, a)))),
    g'.nlink⟩ N j + _ = _ :=
    dir_links (g := ⟨Function.update g.node a m, g'.nlink⟩) h.dir h.node1 j
  rw [Slots.count_fill t.entry_free, names_apply a j h.name,
    bare_links h.lt (fun t e => (by rw [h.unused] at e; cases e)) h.bare] at h1
  rw [h.graph]
  omega

theorem Enters.kids (h : Enters g N d t k a m g') (hz : g.links N a = 0) {j : Nat} (hj : j < N) :
    g'.kids j = (if j = a then 0 else g.kids j) + if j = d ∧ m.isDir = true then 1 else 0 := by
  let g1 : Graph := ⟨Function.update g.node a m, g'.nlink⟩
  have hself : g1.node a = m := Function.update_self ..
  have hkids1 : g1.kids j = if j = a then 0 else g.kids j := by
    by_cases hja : j = a
    · rw [if_pos hja, hja]
      unfold Graph.kids Graph.tables
      rw [hself]
      exact (h.bare.tally 0).2
    · rw [if_neg hja, bare_kids hz hj hja]
  have hnd1 : g1.node d = .dir t := h.node1
  rw [h.graph, ← hkids1, dir_kids hnd1]
  by_cases hjd : j = d
  · have hold : g1.kids d = t.count g1.child := by
      unfold Graph.kids
      rw [tables_dir hnd1]
      rfl
    rw [if_pos hjd, Slots.count_fill t.entry_free, ← hold, ← hjd, child_apply h.name, hself]
    cases m.isDir <;> simp
  · rw [if_neg hjd, if_neg fun e => hjd e.1, Nat.add_zero]

theorem Enters.free (h : Enters g N d t k a m g') (j : Nat) : g'.node j = .free ↔ j ≠ a ∧ g.node j = .free := by
  rw [h.after, dir_free (g := ⟨Function.update g.node a m, g'.nlink⟩) h.node1]
  show Function.update g.node a m j = .free ↔ _
  by_cases hja : j = a
  · rw [hja, Function.update_self]
    exact ⟨fun e => absurd e h.used, fun e => absurd rfl e.1⟩
  · rw [Function.update_of_ne hja]
    exact ⟨fun e => ⟨hja, e⟩, fun e => e.2⟩

theorem Enters.dots (h : Enters g N d t k a m g') (hs : Sane g N busy) (hm : ∀ t, m = .dir t → Dots t) :
    ∀ j < N, ∀ t', g'.node j = .dir t' → Dots t' := by
  have hdots1 : ∀ j < N, ∀ t', Function.update g.node a m j = .dir t' → Dots t' := fun j hj t' e => by
    by_cases hja : j = a
    · rw [hja, Function.update_self] at e
      exact hm t' e
    · rw [Function.update_of_ne hja] at e
      exact hs.dots j hj t' e
  rw [h.after]
  exact dir_dots (g := ⟨_, g'.nlink⟩) hdots1
    (dots_put (hs.dots d h.dir t h.node) (free_dots (hs.dots d h.dir t h.node)))

/-- The counts: 1 for the new inode, and one more for the directory if a directory is made. -/
theorem Enters.sane (h : Enters g N d t k a m g') (hs : Sane g N busy) (hm : ∀ t, m = .dir t → Dots t)
    (hn : ∀ j, short (g'.nlink j) = if j = a then 1 else short (g.nlink j) + if j = d ∧
      m.isDir = true then 1 else 0) : Sane g' N busy := by
  have hz := hs.free a h.lt h.unused
  refine ⟨fun j hj h0 => ?_, fun j hj h0 hb => ?_, fun j hj h0 => ?_, h.dots hs hm,
    fun j hj hb h0 => hs.alloc j hj hb ((h.free j).mp h0).2⟩
  · rw [h.links, h.kids hz hj, hn]
    by_cases hja : j = a
    · rw [if_pos hja, if_pos hja, if_pos hja, if_neg fun e => h.ne (hja.symm.trans e.1), hja, hz]
      decide
    · have := hs.enough j hj fun e => h0 ((h.free j).mpr ⟨hja, e⟩)
      rw [if_neg hja, if_neg hja, if_neg hja]
      split <;> omega
  · rw [h.kids hz hj, hn]
    by_cases hja : j = a
    · rw [if_pos hja, if_pos hja, if_neg fun e => h.ne (hja.symm.trans e.1)]
      decide
    · have := hs.kept j hj (fun e => h0 ((h.free j).mpr ⟨hja, e⟩)) hb
      rw [if_neg hja, if_neg hja]
      split <;> omega
  · obtain ⟨hja, h0⟩ := (h.free j).mp h0
    rw [h.links, if_neg hja, hs.free j hj h0]

end

theorem fresh_dots (a d : Nat) : Dots (fresh a d) :=
  ⟨⟨a, by rw [fresh, Slots.put_ne (by decide), Slots.put_self]⟩, d, Slots.put_self ..⟩

theorem mkdir_enters (hd : d < N) (hnd : g.node d = .dir t) (ha : a < N) (hna : g.node a = .free)
    (hp : Graph.plain k = true) :
    Enters g N d t k a (.dir (fresh a d)) (g.mkdir d t k a) :=
  ⟨hd, ha, hnd, hna, hp, fun t e => (by cases e; exact bare_fresh a d), fun e => (by cases e), rfl⟩

theorem mkdir_nlink (hn : short (g.nlink d) < 32767) (j : Nat) :
    short ((g.mkdir d t k a).nlink j) = if j = a then 1 else short (g.nlink j) + if j = d ∧
      (Node.dir (fresh a d)).isDir = true then 1 else 0 := by
  show short (Function.update (Function.update g.nlink d (g.nlink d + 1)) a 1 j) = _
  by_cases hja : j = a
  · rw [hja, Function.update_self, if_pos rfl]
    rfl
  · rw [Function.update_of_ne hja, if_neg hja]
    by_cases hjd : j = d
    · rw [hjd, Function.update_self, if_pos ⟨rfl, rfl⟩, short_succ hn]
    · rw [Function.update_of_ne hjd, if_neg fun e => hjd e.1, Int.add_zero]

theorem Sane.mkdir (hs : Sane g N busy) (hd : d < N) (hnd : g.node d = .dir t) (ha : a < N) (hna : g.node a = .free)
    (hk : t.lookup k = none) (hn : short (g.nlink d) < 32767) : Sane (g.mkdir d t k a) N busy :=
  (mkdir_enters hd hnd ha hna (hs.plain hd hnd hk)).sane hs (fun t e => (by cases e; exact fresh_dots a d))
    (mkdir_nlink hn)

/-! ## sys_mknod -/

theorem mknod_enters (hd : d < N) (hnd : g.node d = .dir t) (ha : a < N) (hna : g.node a = .free)
    (hp : Graph.plain k = true) :
    Enters g N d t k a .file (g.mknod d t k a) :=
  ⟨hd, ha, hnd, hna, hp, fun t e => (by cases e), fun e => (by cases e), rfl⟩

theorem mknod_nlink (j : Nat) :
    short ((g.mknod d t k a).nlink j) = if j = a then 1 else short (g.nlink j) + if j = d ∧
      Node.file.isDir = true then 1 else 0 := by
  show short (Function.update g.nlink a 1 j) = _
  by_cases hja : j = a
  · rw [hja, Function.update_self, if_pos rfl]
    rfl
  · rw [Function.update_of_ne hja, if_neg hja, if_neg fun e => Bool.false_ne_true e.2, Int.add_zero]

theorem Sane.mknod (hs : Sane g N busy) (hd : d < N) (hnd : g.node d = .dir t) (ha : a < N) (hna : g.node a = .free)
    (hk : t.lookup k = none) :
    Sane (g.mknod d t k a) N busy :=
  (mknod_enters hd hnd ha hna (hs.plain hd hnd hk)).sane hs (fun t e => (by cases e)) mknod_nlink

/-! ## One call -/

inductive LinkStep (N i : Nat) (g : Graph) : Graph → Prop
  | link {d : Nat} {t : Entries} {k : List UInt8} : d < N → g.node d = .dir t → g.node i = .file → t.lookup k = none →
      LinkStep N i g (g.link d t k i)

inductive UnlinkStep (N : Nat) (busy : Nat → Prop) (g : Graph) : Graph → Prop
  | stays {d n i : Nat} {t : Entries} : Unlinks g N d t n i → busy i ∨ (g.unlink d t n i).nlink i ≠ 0 →
      UnlinkStep N busy g (g.unlink d t n i)
  | goes {d n i : Nat} {t : Entries} : Unlinks g N d t n i → ¬ busy i → (g.unlink d t n i).nlink i = 0 →
      UnlinkStep N busy g ((g.unlink d t n i).drop i)

inductive MkdirStep (N d : Nat) (g : Graph) : Graph → Prop
  | mkdir {a : Nat} {t : Entries} {k : List UInt8} : d < N → a < N → g.node d = .dir t → g.node a = .free →
      t.lookup k = none →
      MkdirStep N d g (g.mkdir d t k a)

inductive MknodStep (N : Nat) (g : Graph) : Graph → Prop
  | mknod {d a : Nat} {t : Entries} {k : List UInt8} : d < N → a < N → g.node d = .dir t → g.node a = .free →
      t.lookup k = none →
      MknodStep N g (g.mknod d t k a)

/-- The count of `i` goes up, and `i` stays. -/
structure Raises (g g' : Graph) (i : Nat) : Prop where
  before : g.node i ≠ .free
  after : g'.node i ≠ .free
  count : g'.nlink i = g.nlink i + 1

theorem LinkStep.sane (h : LinkStep N i g g') (hs : Sane g N busy) (hn : short (g.nlink i) < 32767) :
    Sane g' N busy := by
  cases h with
  | link hd hnd hni hk => exact hs.link hd hnd hni hk hn

theorem LinkStep.file (h : LinkStep N i g g') : g.node i = .file := by
  cases h with
  | link _ _ hni _ => exact hni

theorem LinkStep.raises (h : LinkStep N i g g') : Raises g g' i := by
  cases h with
  | @link d t k hd hnd hni hk =>
    have hne : i ≠ d := fun e => by
      rw [e, hnd] at hni
      cases hni
    have hnode : (g.link d t k i).node i = .file := (Function.update_of_ne hne _ _).trans hni
    exact ⟨by rw [hni]; nofun, by rw [hnode]; nofun, Function.update_self ..⟩

theorem UnlinkStep.sane (h : UnlinkStep N busy g g') (hs : Sane g N busy) : Sane g' N busy := by
  cases h with
  | stays hu hstay => exact hu.sane hs hstay
  | goes hu hb hgo => exact hu.sane_drop hs hb hgo

theorem MkdirStep.sane (h : MkdirStep N d g g') (hs : Sane g N busy) (hn : short (g.nlink d) < 32767) :
    Sane g' N busy := by
  cases h with
  | mkdir hd ha hnd hna hk => exact hs.mkdir hd hnd ha hna hk hn

theorem MknodStep.sane (h : MknodStep N g g') (hs : Sane g N busy) : Sane g' N busy := by
  cases h with
  | mknod hd ha hnd hna hk => exact hs.mknod hd hnd ha hna hk

theorem MkdirStep.raises (h : MkdirStep N d g g') : Raises g g' d := by
  cases h with
  | @mkdir a t k hd ha hnd hna hk =>
    have hne : d ≠ a := fun e => by
      rw [e, hna] at hnd
      cases hnd
    have hnode : (g.mkdir d t k a).node d = .dir (t.put t.free (some (k, a))) := Function.update_self ..
    exact ⟨by rw [hnd]; nofun, by rw [hnode]; nofun, (Function.update_of_ne hne _ _).trans (Function.update_self ..)⟩

end Graph

end Xv6Labs.Fs.Disk
