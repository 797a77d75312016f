/-
  Xv6Labs.Fs.Paths — path resolution is a fold over the components.

  `components`: what stands between slashes, without the empty pieces and cut at DIRSIZ bytes.

  - `walk_components`: `walk` looks one component up after the other.
  - `namex_total`: namex returns when every inode it locks is allocated and unlocked and the
    inode table has two free slots: it holds one inode while it takes the next.
-/

import Xv6Labs.Fs.Undo

namespace Xv6Labs.Fs.Disk

open Lib
open Ftable (one one_self one_ne one_nonneg)

section

variable {sb : Superblock} {s s' s0 s1 : St} {ip dp cwd a : Nat} {r l : Nat → Int} {disk disk' : Mem}
    {name : List UInt8}

/-! ## Components -/

def components (path : List UInt8) : List (List UInt8) :=
  ((path.splitOn slash).filter (· ≠ [])).map (List.take DIRSIZ)

theorem components_slash (path : List UInt8) : components (slash :: path) = components path := by
  have h := List.splitOn_append_cons_self [] path (a := slash)
  unfold components
  rw [List.nil_append] at h
  rw [h, List.splitOn_nil]
  rfl

theorem dropWhile_slash (path : List UInt8) :
    (path.dropWhile (· = slash)).dropWhile (· = slash) = path.dropWhile (· = slash) := by
  induction path with
  | nil => rfl
  | cons c path ih =>
    by_cases hc : c = slash
    · rw [List.dropWhile_cons_of_pos (by simpa using hc), ih]
    · rw [List.dropWhile_cons_of_neg (by simpa using hc), List.dropWhile_cons_of_neg (by simpa using hc)]

theorem components_dropWhile (path : List UInt8) : components (path.dropWhile (· = slash)) = components path := by
  induction path with
  | nil => rfl
  | cons c path ih =>
    by_cases hc : c = slash
    · rw [List.dropWhile_cons_of_pos (by simpa using hc), ih, hc, components_slash]
    · rw [List.dropWhile_cons_of_neg (by simpa using hc)]

/-- A piece without a slash, and what follows it. -/
theorem components_piece {w rest : List UInt8} (hw : slash ∉ w) (h0 : w ≠ [])
    (hrest : rest = [] ∨ rest.head? = some slash) :
    components (w ++ rest) = w.take DIRSIZ :: components rest := by
  have hkeep : ∀ L : List (List UInt8), ((w :: L).filter (· ≠ [])).map (List.take DIRSIZ) =
    w.take DIRSIZ :: (L.filter (· ≠ [])).map (List.take DIRSIZ) :=
    fun L => by rw [List.filter_cons_of_pos (by simpa using h0), List.map_cons]
  rcases hrest with e | e
  · subst e
    unfold components
    rw [List.append_nil, List.splitOn_eq_singleton hw, hkeep]
    rfl
  · obtain ⟨t, rfl⟩ : ∃ t, rest = slash :: t := by
      cases rest with
      | nil => cases e
      | cons c t =>
        cases e
        exact ⟨t, rfl⟩
    rw [components_slash]
    unfold components
    rw [List.splitOn_append_cons_self, List.splitOn_eq_singleton hw]
    exact hkeep _

/-- skipelem takes one component off. -/
theorem components_skipelem (path : List UInt8) : components path = (skipelem path).elim [] fun y =>
    y.2 :: components y.1 := by
  rw [← components_dropWhile]
  unfold skipelem
  dsimp only
  by_cases h0 : path.dropWhile (· = slash) = []
  · rw [if_pos h0, h0]
    rfl
  · rw [if_neg h0]
    have hhead : ∀ c, (path.dropWhile (· = slash)).head? = some c → c ≠ slash := fun c hc e => by
      have := List.head?_dropWhile_not (fun x : UInt8 => decide (x = slash)) path
      rw [hc] at this
      exact absurd (decide_eq_true e) (by simpa using this)
    generalize path.dropWhile (· = slash) = p at h0 hhead
    have hsplit := (List.takeWhile_append_dropWhile (p := (· ≠ slash)) (l := p)).symm
    have hw : slash ∉ p.takeWhile (· ≠ slash) := fun hm => by
      have := List.all_eq_true.mp List.all_takeWhile slash hm
      simp at this
    have hw0 : p.takeWhile (· ≠ slash) ≠ [] := fun e => by
      cases p with
      | nil => exact h0 rfl
      | cons c t =>
        rw [List.takeWhile_cons_of_pos (by simpa using hhead c rfl)] at e
        cases e
    have hrest : p.dropWhile (· ≠ slash) = [] ∨ (p.dropWhile (· ≠ slash)).head? = some slash := by
      have := List.head?_dropWhile_not (fun x : UInt8 => decide (x ≠ slash)) p
      cases hd : p.dropWhile (· ≠ slash) with
      | nil => exact Or.inl rfl
      | cons c t =>
        rw [hd] at this
        exact Or.inr (by simpa using this)
    conv_lhs => rw [hsplit]
    rw [components_piece hw hw0 hrest]
    show _ = (p.takeWhile (· ≠ slash)).take DIRSIZ :: components ((p.dropWhile (· ≠ slash)).dropWhile (· = slash))
    rw [components_dropWhile]

/-! ## The fold -/

variable (sb) in
/-- The entry for one component. -/
def descend (disk : Mem) (i : Nat) (c : List UInt8) : Option Nat :=
  if (inodeOf sb disk i).type = T_DIR then (lookup sb disk i c).map (·.1) else none

variable (sb) in
def descendAll (disk : Mem) (cs : List (List UInt8)) (i : Nat) : Option Nat := cs.foldlM (descend sb disk) i

variable (sb) in
/-- The parent and the last component. -/
def parentOf (disk : Mem) (cs : List (List UInt8)) (i : Nat) : Option (Nat × List UInt8) :=
  match cs.getLast? with
  | none => none
  | some c => (descendAll sb disk cs.dropLast i).bind fun j =>
      if (inodeOf sb disk j).type = T_DIR then some (j, c) else none

theorem skipelem_shorter {path rest c : List UInt8} (h : skipelem path = some (rest, c)) :
    rest.length < path.length := by
  unfold skipelem at h
  dsimp only at h
  split at h
  · cases h
  · rename_i h0
    cases h
    have h1 : (path.dropWhile (· = slash)).length ≤ path.length := (List.dropWhile_sublist _).length_le
    have h2 : (((path.dropWhile (· = slash)).dropWhile (· ≠ slash)).dropWhile (· = slash)).length ≤
      ((path.dropWhile (· = slash)).dropWhile (· ≠ slash)).length :=
      (List.dropWhile_sublist _).length_le
    have h3 : ((path.dropWhile (· = slash)).dropWhile (· ≠ slash)).length < (path.dropWhile (· = slash)).length := by
      have hhead := List.head?_dropWhile_not (fun x : UInt8 => decide (x = slash)) path
      cases hd : path.dropWhile (· = slash) with
      | nil => exact absurd hd h0
      | cons x t =>
        rw [hd] at hhead
        rw [List.dropWhile_cons_of_pos (by simpa using hhead)]
        exact Nat.lt_succ_of_le (List.dropWhile_sublist _).length_le
    omega

/-- The rest of a path has no slash in front. -/
theorem skipelem_rest {path rest c : List UInt8} (h : skipelem path = some (rest, c)) : components rest = [] ↔
    rest = [] := by
  have hdrop : rest.dropWhile (· = slash) = rest := by
    unfold skipelem at h
    dsimp only at h
    split at h
    · cases h
    · cases h
      exact dropWhile_slash _
  constructor
  · intro h0
    rw [components_skipelem] at h0
    cases hs : skipelem rest with
    | none =>
      unfold skipelem at hs
      dsimp only at hs
      rw [hdrop] at hs
      split at hs
      · assumption
      · cases hs
    | some y =>
      rw [hs] at h0
      cases h0
  · intro e
    rw [e]
    rfl

theorem parentOf_cons (disk : Mem) (c : List UInt8) {cs : List (List UInt8)} (h : cs ≠ []) (i : Nat) :
    parentOf sb disk (c :: cs) i = (descend sb disk i c).bind fun j => parentOf sb disk cs j := by
  obtain ⟨c', cs', rfl⟩ := List.exists_cons_of_ne_nil h
  unfold parentOf
  rw [List.getLast?_cons_cons, List.dropLast_cons_cons]
  cases (c' :: cs').getLast? with
  | none => cases descend sb disk i c <;> rfl
  | some z =>
    show ((descend sb disk i c).bind fun j => descendAll sb disk (c' :: cs').dropLast j).bind _ = _
    rw [Option.bind_assoc]

/-- The loop of namex is the fold over the components. -/
theorem walk_components (disk : Mem) : ∀ (n : Nat) (path nm : List UInt8) (i : Nat), path.length < n →
    (walk sb disk false n path nm i).map (·.1) = descendAll sb disk (components path) i ∧
      walk sb disk true n path nm i = parentOf sb disk (components path) i := by
  intro n
  induction n with
  | zero =>
    intro path nm i hn
    exact absurd hn (Nat.not_lt_zero _)
  | succ n ih =>
    intro path nm i hn
    rw [components_skipelem]
    unfold walk
    cases hs : skipelem path with
    | none => exact ⟨rfl, rfl⟩
    | some y =>
      obtain ⟨rest, c⟩ := y
      have hlen := skipelem_shorter hs
      have hnext := fun j => ih rest c j (by omega)
      have hall : descendAll sb disk (c :: components rest) i = (descend sb disk i c).bind fun j =>
        descendAll sb disk (components rest) j := rfl
      have hlast : rest = [] ∨ components rest ≠ [] :=
        (em (rest = [])).imp_right fun h e => h ((skipelem_rest hs).mp e)
      dsimp only [Option.elim]
      rw [hall]
      by_cases ht : (inodeOf sb disk i).type = T_DIR
      · have hd : descend sb disk i c = (lookup sb disk i c).map (·.1) := if_pos ht
        rw [hd]
        constructor
        · rw [if_neg (not_not.mpr ht), if_neg (by simp)]
          cases lookup sb disk i c with
          | none => rfl
          | some x => exact (hnext x.1).1
        · rw [if_neg (not_not.mpr ht)]
          rcases hlast with e | hne
          · subst e
            exact (if_pos ⟨rfl, rfl⟩).trans (if_pos ht).symm
          · rw [if_neg fun h => hne (by rw [h.2]; rfl), parentOf_cons disk c hne, hd]
            cases lookup sb disk i c with
            | none => rfl
            | some x => exact (hnext x.1).2
      · have hd : descend sb disk i c = none := if_neg ht
        rw [hd]
        refine ⟨by rw [if_pos ht]; rfl, ?_⟩
        rw [if_pos ht]
        rcases hlast with e | hne
        · subst e
          exact (if_neg ht).symm
        · rw [parentOf_cons disk c hne, hd]
          rfl

/-! ## namex returns -/

/-- A free slot is enough for iget. -/
theorem iget_total (dev inum : Nat) {k : Nat} (hk : k < NINODE) (h0 : (s.inode k).ref = 0) :
    ∃ i s', iget dev inum s = .ok (i, s') := by
  rcases iget_cases s dev inum with h | ⟨-, h⟩
  · exact h
  · exact absurd h0 (h k hk)

theorem ilock_total (hp : 0 < (s.inode ip).ref) (hl : (s.inode ip).lock = false)
    (ht : (s.inode ip).valid = false → (inodeOf sb s.disk (s.inode ip).inum).type ≠ 0) :
      ∃ s', ilock sb ip s = .ok s' := by
  unfold ilock
  dsimp only
  rw [if_neg (by omega), hl, if_neg (by decide)]
  by_cases hv : (s.inode ip).valid = true
  · rw [if_pos hv]
    exact ⟨_, rfl⟩
  · rw [if_neg hv, if_neg (show ¬(loadDinode s.disk (dinode sb (s.inode ip).inum)).type =
      0 from ht (Bool.not_eq_true _ ▸ hv))]
    exact ⟨_, rfl⟩

/-- Letting a locked inode go that stays. -/
theorem iunlockput_total (hp : 0 < (s.inode ip).ref) (hl : (s.inode ip).lock = true)
    (hk : (s.inode ip).ref = 1 → (s.inode ip).valid = true → (s.inode ip).d.nlink ≠ 0) :
      ∃ s', iunlockput sb ip s = .ok s' := by
  unfold iunlockput iunlock iput
  dsimp only
  rw [hl, if_neg (by rw [not_or]; exact ⟨by decide, by omega⟩), ok_bind, setInode_self,
    if_neg fun h => hk h.1 h.2.1 h.2.2, ok_bind]
  exact ⟨_, rfl⟩

theorem dirlookup_total (ht : (s.inode dp).d.type = T_DIR) (hm : Mapped s.disk (s.inode dp).d)
    (h16 : (s.inode dp).d.size % 16 = 0) {k : Nat} (hk : k < NINODE) (h0 : (s.inode k).ref = 0) (name : List UInt8) :
      ∃ found s', dirlookup sb dp name s = .ok (found, s') := by
  have hloop : ∀ n off, off % 16 = 0 → ∃ found s', dirlookupLoop sb dp name n off s = .ok (found, s') := by
    intro n
    induction n with
    | zero => exact fun off _ => ⟨none, s, rfl⟩
    | succ n ih =>
      intro off h16'
      unfold dirlookupLoop
      by_cases hoff : off < (s.inode dp).d.size
      · have hmax := (hm off hoff).1
        have hlt : off + 16 < 2 ^ 32 := by simp only [MAXFILE, NINDIRECT2, NDIRECT, NINDIRECT, BSIZE] at hmax; omega
        have hmin : min 16 ((s.inode dp).d.size - off) = 16 := by omega
        rw [if_pos hoff, readi_mapped sb hlt fun k _ h1 _ => hm k h1, ok_bind, hmin]
        dsimp only
        rw [if_neg (by rw [List.length_map, List.length_range]; exact fun h => h rfl)]
        split
        · exact ih (off + 16) (by omega)
        split
        · obtain ⟨i, s1, e⟩ := iget_total (s.inode dp).dev _ hk h0
          rw [e]
          exact ⟨_, _, rfl⟩
        · exact ih (off + 16) (by omega)
      · rw [if_neg hoff]
        exact ⟨_, _, rfl⟩
  unfold dirlookup
  rw [if_neg (not_not.mpr ht)]
  exact hloop _ 0 rfl

/-- A tree of directories in use by nobody, with two free slots of the inode table. -/
structure Tree (sb : Superblock) (cwd : Nat) (s : St) : Prop extends Names sb cwd s where
  aligned : ∀ dir < sb.ninodes, (inodeOf sb s.disk dir).type = T_DIR → (inodeOf sb s.disk dir).size % 16 = 0
  alloc : ∀ inum, Named sb s.disk (s.inode cwd).inum inum → (inodeOf sb s.disk inum).type ≠ 0
  idle : ∀ i, (s.inode i).lock = false
  room : ∃ j k, j ≠ k ∧ j < NINODE ∧ k < NINODE ∧ (s.inode j).ref = 0 ∧ (s.inode k).ref = 0

theorem held_zero (h : held s ip = 0) : (s.inode ip).lock = false := by
  unfold held at h
  split at h
  · cases h
  · rename_i hl
    exact Bool.not_eq_true _ ▸ hl

theorem Tree.held (hT : Tree sb cwd s) (i : Nat) : held s i = 0 := if_neg (by rw [hT.idle i]; decide)

theorem Tree.ilock (hT : Tree sb cwd s0) (h : Calm sb s0 s r l) (h1 : 1 ≤ r ip) (hl : l ip = 0)
    (hn : Named sb s0.disk (s0.inode cwd).inum (s.inode ip).inum) : ∃ s', ilock sb ip s = .ok s' :=
  ilock_total (h.live hT.table h1) (held_zero (by rw [h.lock ip, hT.held ip, hl]; rfl)) fun _ => by
    rw [h.disk]
    exact hT.alloc _ hn

theorem Tree.iunlockput (hT : Tree sb cwd s0) (h : Calm sb s0 s r l) (hr : ∀ i, 0 ≤ r i) (h1 : 1 ≤ r ip)
    (hl : l ip = 1)
    (hn : Named sb s0.disk (s0.inode cwd).inum (s.inode ip).inum) : ∃ s', iunlockput sb ip s = .ok s' := by
  refine iunlockput_total (h.live hT.table h1) ?_ (h.toDelta.spared h.table hr h1 (hT.named _ hn).2 (by rw [h.disk]))
  have hheld := h.lock ip
  rw [hT.held ip, hl] at hheld
  unfold Disk.held at hheld
  split at hheld
  · assumption
  · cases hheld

/-- While only `ip` was taken, one of the free slots is left. -/
theorem Tree.dirlookup (hT : Tree sb cwd s0) (h : Calm sb s0 s (one ip) l) (hv : (s.inode ip).valid = true)
    (hn : Named sb s0.disk (s0.inode cwd).inum (s.inode ip).inum) (ht : (s.inode ip).d.type = T_DIR)
    (name : List UInt8) :
    ∃ found s', dirlookup sb ip name s = .ok (found, s') := by
  have hd := (h.table.copy ip (h.live hT.table (by rw [one_self])) hv).1
  rw [h.disk] at hd
  obtain ⟨j, k, hjk, hj, hk, hj0, hk0⟩ := hT.room
  have hfree : ∀ i, i ≠ ip → (s0.inode i).ref = 0 → (s.inode i).ref = 0 := fun i hi h0 => by
    rw [h.ref i, h0, one_ne hi]; rfl
  rw [hd] at ht
  have hin := (hT.named _ hn).1
  have hm : Mapped s.disk (s.inode ip).d := by
    rw [hd, h.disk]
    exact hT.mapped _ hin ht
  have h16 : (s.inode ip).d.size % 16 = 0 := by
    rw [hd]
    exact hT.aligned _ hin ht
  rw [← hd] at ht
  by_cases e : j = ip
  · exact dirlookup_total ht hm h16 hk (hfree k (fun e' => hjk (e.trans e'.symm)) hk0) name
  · exact dirlookup_total ht hm h16 hj (hfree j e hj0) name

theorem namexLoop_total (hT : Tree sb cwd s0) {parent : Bool} : ∀ {n path name ip s}, path.length < n →
    Calm sb s0 s (one ip) 0 →
    Named sb s0.disk (s0.inode cwd).inum (s.inode ip).inum → ∃ x s',
      namexLoop sb parent n path name ip s = .ok (x, s') := by
  intro n
  induction n with
  | zero => exact fun hn => absurd hn (Nat.not_lt_zero _)
  | succ n ih =>
    intro path name ip s hlen h hn
    have hip : ∀ i, 0 ≤ one ip i := one_nonneg ip
    have hone : 1 ≤ one ip ip := by rw [one_self]
    unfold namexLoop
    cases hskip : skipelem path with
    | none =>
      dsimp only
      cases parent with
      | true =>
        have hput : (iput sb ip s) = .ok (s.setInode ip { s.inode ip with ref := (s.inode ip).ref - 1 }) := by
          unfold iput
          rw [if_neg fun hc => h.toDelta.spared h.table hip hone (hT.named _ hn).2
            (by rw [h.disk]) hc.1 hc.2.1 hc.2.2]
          rfl
        rw [if_pos rfl, hput]
        exact ⟨_, _, rfl⟩
      | false => exact ⟨_, _, rfl⟩
    | some y =>
      obtain ⟨rest, elem⟩ := y
      dsimp only
      obtain ⟨s1, e1⟩ := hT.ilock h hone rfl hn
      obtain ⟨hl, hv, hp⟩ := calm_ilock h.table e1
      have h1 := (h.then hip hl).congr (a := one ip) (b := one ip) (fun _ => Int.add_zero _) fun _ => Int.zero_add _
      have hkey : (s1.inode ip).inum = (s.inode ip).inum := (hl.key ip (h.live hT.table hone)).2
      rw [← hkey] at hn
      rw [e1, ok_bind]
      obtain ⟨s2, e2⟩ := hT.iunlockput h1 hip hone (one_self ip) hn
      split
      · rw [e2]
        exact ⟨_, _, rfl⟩
      rename_i ht
      split
      · unfold iunlockput at e2
        obtain ⟨s3, e3, -⟩ := bind_ok e2
        rw [e3]
        exact ⟨_, _, rfl⟩
      obtain ⟨next, s3, e3⟩ := hT.dirlookup h1 hv hn (not_not.mp ht) elem
      obtain ⟨h3, -, hnext⟩ := hT.toNames.dirlookup h1 hip hp hv hn e3
      have hkey3 : (s3.inode ip).inum = (s1.inode ip).inum := ((dirlookup_delta e3).key ip hp).2
      have hr3 : ∀ i, 0 ≤ (one ip + took (next.map (·.1))) i := fun i => Int.add_nonneg (hip i) (took_nonneg _ i)
      have hone3 : 1 ≤ (one ip + took (next.map (·.1))) ip := by
        have := took_nonneg (next.map (·.1)) ip
        show 1 ≤ one ip ip + _
        omega
      rw [← hkey3] at hn
      obtain ⟨s4, e4⟩ := hT.iunlockput h3 hr3 hone3 (one_self ip) hn
      have h4 := hT.toNames.iunlockput h3 hr3 hone3 hn e4
      rw [e3, ok_bind]
      dsimp only
      rw [e4, ok_bind]
      cases next with
      | none => exact ⟨_, _, rfl⟩
      | some f =>
        obtain ⟨k, o⟩ := f
        have hpk : 0 < (s3.inode k).ref := by
          refine h3.live hT.table ?_
          have := hip k
          show 1 ≤ one ip k + one k k
          rw [one_self]
          omega
        have hk := hnext (k, o) rfl
        dsimp only at hk
        rw [← ((iunlockput_delta e4).key k hpk).2] at hk
        have := skipelem_shorter hskip
        exact ih (by omega) (h4.congr (fun i => by show one ip i + one k i + -one ip i = one k i; omega) fun i =>
          Int.add_right_neg _) hk

theorem namex_total (hT : Tree sb cwd s) (path : List UInt8) (parent : Bool) :
    ∃ x s', namex sb cwd path parent s = .ok (x, s') := by
  unfold namex namexStart
  split
  · obtain ⟨j, -, -, hj, -, hj0, -⟩ := hT.room
    obtain ⟨ip, s1, e1⟩ := iget_total ROOTDEV ROOTINO hj hj0
    obtain ⟨hc, hk⟩ := calm_iget hT.table (hT.named _ .root).1 e1
    rw [e1, ok_bind]
    exact namexLoop_total hT (Nat.lt_succ_self _) hc (by rw [hk]; exact .root)
  · refine namexLoop_total hT (Nat.lt_succ_self _) (calm_idup hT.table hT.live) ?_
    have hk : ((idup cwd s).inode cwd).inum = (s.inode cwd).inum := by
      unfold idup
      rw [setInode_self]
    rw [hk]
    exact .start

/-- Where resolution starts. -/
def start (cwd : Nat) (path : List UInt8) (s : St) : Nat :=
  if path.head? = some slash then ROOTINO else (s.inode cwd).inum

/-- One reference was taken, if something was found, and no lock is held. -/
structure Taken (s s' : St) (x : Option Nat) : Prop where
  ref : ∀ i, (s'.inode i).ref = (s.inode i).ref + took x i
  lock : ∀ i, (s'.inode i).lock = false
  disk : s'.disk = s.disk

theorem Tree.taken (hT : Tree sb cwd s) {x : Option Nat} (h : Calm sb s s' (took x) 0) : Taken s s' x :=
  ⟨h.ref, fun i => held_zero (by rw [h.lock i, hT.held i]; rfl), h.disk⟩

theorem path_resolution_is_fold (hT : Tree sb cwd s) (path : List UInt8) :
    (∃ x s', namei sb cwd path s = .ok (x, s') ∧
      (x.map fun i => (s'.inode i).inum) = descendAll sb s.disk (components path) (start cwd path s) ∧ Taken s s' x) ∧
    ∃ x s', nameiparent sb cwd path s = .ok (x, s') ∧
      (x.map fun f => ((s'.inode f.1).inum, f.2)) = parentOf sb s.disk (components path) (start cwd path s) ∧
        Taken s s' (x.map (·.1)) := by
  have hwalk := @walk_components sb s.disk (path.length + 1) path [] (start cwd path s) (Nat.lt_succ_self _)
  constructor
  · obtain ⟨x, s', e⟩ := namex_total hT path false
    obtain ⟨hc, hx, -⟩ := namex_calm hT.toNames e
    refine ⟨x.map (·.1), s', by unfold namei; rw [e]; rfl, ?_, hT.taken hc⟩
    rw [← hwalk.1]
    show _ = (resolve sb s.disk false (s.inode cwd).inum path).map (·.1)
    rw [← hx, Option.map_map, Option.map_map]
    rfl
  · obtain ⟨x, s', e⟩ := namex_total hT path true
    obtain ⟨hc, hx, -⟩ := namex_calm hT.toNames e
    exact ⟨x, s', e, hx.trans hwalk.2, hT.taken hc⟩

end

theorem atRoot_tree : Tree smallDisk 0 (atRoot linkCycle).fs := by
  refine ⟨atRoot_settled.toNames, fun i hi ht => ?_, fun i hn => ?_, fun i => ?_,
    ⟨1, 2, by decide, by decide, by decide, rfl, rfl⟩⟩
  · have hne : (inodeOf smallDisk linkCycle i).type ≠ 0 := fun e => absurd (e.symm.trans ht) (by decide)
    rcases linkCycle_inodes hi hne with e | e <;> subst e <;> decide
  · rcases linkCycle_named hn with e | e <;> subst e <;> decide
  · show (if i = 0 then _ else _ : Inode).lock = false
    split <;> rfl

/-- `/a` is inode 2. -/
theorem path_resolution_is_fold_link : (∃ x s', namei smallDisk 0 [slash, 97] (atRoot linkCycle).fs = .ok (x, s') ∧
      (x.map fun i => (s'.inode i).inum) = some 2 ∧ Taken (atRoot linkCycle).fs s' x) ∧
    ∃ x s', nameiparent smallDisk 0 [slash, 97] (atRoot linkCycle).fs = .ok (x, s') ∧
      (x.map fun f => ((s'.inode f.1).inum, f.2)) = some (1, [97]) ∧ Taken (atRoot linkCycle).fs s'
      (x.map (·.1)) := by
  have h := path_resolution_is_fold atRoot_tree [slash, 97]
  have h1 : descendAll smallDisk linkCycle (components [slash, 97]) (start 0 [slash, 97] (atRoot linkCycle).fs) =
    some 2 := by decide +kernel
  have h2 : parentOf smallDisk linkCycle (components [slash, 97]) (start 0 [slash, 97] (atRoot linkCycle).fs) =
    some (1, [97]) := by decide +kernel
  rw [show (atRoot linkCycle).fs.disk = linkCycle from rfl, h1, h2] at h
  exact h

/-! ## When it does not return -/

/-- Inode 2 was removed while a process was in it. Its `..` is for inode 3, which was removed
    after it and is free. -/
def orphan : Mem := fun x =>
  match x with
  | 2112 => 1 | 2118 => 1 | 2120 => 16 | 2124 => 10
  | 2176 => 1 | 2184 => 32 | 2188 => 11
  | 3072 => 255 | 3073 => 12
  | 10240 => 1 | 10242 => 46
  | 11264 => 2 | 11266 => 46
  | 11280 => 3 | 11282 => 46 | 11283 => 46
  | _ => 0

/-- The process in inode 2, which nothing else refers to. -/
def inOrphan : St :=
  ⟨orphan, [], fun i =>
    if i = 0 then ⟨1, 2, 1, false, true, loadDinode orphan 2176⟩
    else ⟨0, 0, 0, false, false, loadDinode (fun _ => 0) 0⟩⟩

/-- Room for the inode table and more. -/
def manyInodes : Superblock := ⟨64, 60, 2, 6⟩

/-- The root directory has the entry `a` for inode 2, a file. Inodes 3 to 51 are files without
    links. -/
def crowded : Mem := fun x =>
  if 2240 ≤ x ∧ x < 5376 ∧ x % 64 = 0 then 2
  else
    match x with
    | 2112 => 1 | 2118 => 1 | 2120 => 16 | 2124 => 10
    | 2176 => 2 | 2182 => 1
    | 6144 => 127 | 6145 => 4
    | 10240 => 2 | 10242 => 97
    | _ => 0

/-- The process is in the root directory, and the files without links are all in use. -/
def inCrowded : St :=
  ⟨crowded, [], fun i => ⟨1, if i = 0 then 1 else i + 2, 1, false, true,
    inodeOf manyInodes crowded (if i = 0 then 1 else i + 2)⟩⟩

/-- `../x` in the directory that was removed, and `a` with all inodes in use: namei panics. -/
theorem namei_panics : descendAll smallDisk orphan (components [46, 46, slash, 120]) 2 = none ∧
    namei smallDisk 0 [46, 46, slash, 120] inOrphan = .error "ilock: no type" ∧
    descendAll manyInodes crowded (components [97]) 1 = some 2 ∧
      namei manyInodes 0 [97] inCrowded = .error "iget: no inodes" := by
  refine ⟨by decide +kernel, error_of_message ?_ (by decide), by decide +kernel, error_of_message ?_ (by decide)⟩
  · decide +kernel
  · decide +kernel

end Xv6Labs.Fs.Disk
