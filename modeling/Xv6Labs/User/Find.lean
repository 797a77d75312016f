/-
  Xv6Labs.User.Find — find.c of the utilities lab.

  `Files` is what the system calls show of a file system: directories are tables of dirents, and a
  path is resolved component by component. `search` has the descriptors that are left; a
  directory keeps one while its entries are read, and each entry's path is opened by stat. A
  store past the end of `buf` is an error here. What lies in memory behind `de` is a parameter:
  strcmp reads on there when a name fills its field.

  - `Shows.namei`: paths are resolved as the kernel resolves them on a disk with these files.
  - `search_inside`: no store leaves `buf`.
  - `find_prints_exactly`: search prints the matching files, each once and nothing else, exactly
    when every path below has its descriptor and fits MAXPATH, and the name of no regular file
    that fills its field makes a difference to strcmp.
  - `full_name`: such a file is not found.
-/

import Xv6Labs.Fs.Paths

namespace Xv6Labs.Find

open Lib
open Fs.Disk (Superblock Dinode St Dirent cstr cstr_append cstr_eq_self zero_notMem_cstr components slash sameName
  DIRSIZ MAXPATH T_DIR T_FILE T_DEVICE ROOTINO inodeOf
  descend descendAll start)

abbrev Str := List UInt8

def dot : UInt8 := 46

def sizeofBuf : Nat := 512

/-! ## The C library -/

/-- strcmp; behind a list there is a NUL. -/
def strcmp : Str → Str → Int
  | [], [] => 0
  | p :: _, [] => p.toNat
  | [], q :: _ => -q.toNat
  | p :: ps, q :: qs => if p ≠ 0 ∧ p = q then strcmp ps qs else p.toNat - q.toNat

/-- A call of printf or fprintf. -/
structure Line where
  fd : Nat
  format : String
  arg : Str
  deriving DecidableEq

def cannotOpen (path : Str) : Line := ⟨2, "find: cannot open %s\n", path⟩
def isFile (path : Str) : Line := ⟨1, "find: %s is a file instead of a path.\n", path⟩
def tooLong : Line := ⟨1, "find: path too long!\n", []⟩
def cannotStat (path : Str) : Line := ⟨1, "find: cannot stat %s", path⟩
def found (path : Str) : Line := ⟨1, "%s\n", path⟩

/-! ## The system calls -/

inductive Node
  | file
  | device
  | dir (entries : List Dirent)

/-- The inodes. In a directory no two entries in use have the same name, and the names are those
    that path resolution can ask for. -/
structure Files where
  root : Nat
  cwd : Nat
  node : Nat → Option Node
  field : ∀ i es, node i = some (.dir es) → ∀ de ∈ es, de.name.length = DIRSIZ
  named : ∀ i es, node i = some (.dir es) → ∀ de ∈ es, de.inum ≠ 0 → cstr de.name ≠ [] ∧ slash ∉ cstr de.name
  unique : ∀ i es, node i = some (.dir es) → es.Pairwise fun de de' : Dirent => de.inum ≠ 0 → de'.inum ≠ 0 →
    cstr de.name ≠ cstr de'.name
  live : ∀ i es, node i = some (.dir es) → ∀ de ∈ es, de.inum ≠ 0 → (node de.inum.toNat).isSome

/-- dirlookup -/
def Files.dirlookup (t : Files) (i : Nat) (c : Str) : Option Nat :=
  match t.node i with
  | some (.dir es) => (es.find? fun de => de.inum ≠ 0 ∧ sameName c de.name).map (·.inum.toNat)
  | _ => none

def Files.namei (t : Files) (path : Str) : Option Nat :=
  (components path).foldlM t.dirlookup (if path.head? = some slash then t.root else t.cwd)

/-- `open(path, 0)`, and what fstat says then. argstr takes MAXPATH bytes with the NUL. -/
def Files.open_ (t : Files) (free : Nat) (path : Str) : Option Node :=
  if free = 0 ∨ MAXPATH ≤ path.length then none else (t.namei path).bind t.node

/-! ## search -/

/-- What the stack holds: `buf` when search(path) starts, and the bytes behind `de` when the
    entry with this path is compared. -/
structure Stack where
  buf : Str → Nat → UInt8
  after : Str → Str

/-- Bytes stored in `buf`, from `off` on. -/
def store (buf : Nat → UInt8) (off : Nat) (bs : Str) : Except String (Nat → UInt8) :=
  if off + bs.length ≤ sizeofBuf then .ok fun i => if off ≤ i ∧
    i < off + bs.length then bs.getD (i - off) 0 else buf i
  else .error "store past buf"

/-- `buf` as a string. -/
def str (buf : Nat → UInt8) : Str := cstr ((List.range sizeofBuf).map buf)

section

variable (t : Files) (k : Stack) (name : Str)

/-- A round of the loop: what it prints, and `buf`. `search` is the call for a directory. -/
def round (search : Str → Except String (List Line)) (free p : Nat) (de : Dirent) (buf : Nat → UInt8) :
    Except String (List Line × (Nat → UInt8)) :=
  if strcmp de.name [dot] = 0 ∨ strcmp de.name [dot, dot] = 0 ∨ de.inum = 0 then .ok ([], buf)
  else do
    let buf ← store buf p de.name
    let buf ← store buf (p + DIRSIZ) [0]
    match t.open_ free (str buf) with
    | none => .ok ([cannotStat (str buf)], buf)
    | some (.dir _) => do
      let out ← search (str buf)
      .ok (out, buf)
    | some .file => .ok (if strcmp (de.name ++ k.after (str buf)) name = 0 then [found (str buf)] else [], buf)
    | some .device => .ok ([], buf)

/-- `while (read(fd, &de, sizeof(de)) == sizeof(de))` -/
def loop (search : Str → Except String (List Line)) (free p : Nat) : List Dirent → (Nat → UInt8) →
    Except String (List Line)
  | [], _ => .ok []
  | de :: des, buf => do
    let (out, buf) ← round t k name search free p de buf
    let rest ← loop search free p des buf
    .ok (out ++ rest)

/-- With the descriptors that are left. fstat does not fail on an open inode. -/
def search : Nat → Str → Except String (List Line)
  | 0, path => .ok [cannotOpen path]
  | free + 1, path =>
    match t.open_ (free + 1) path with
    | none => .ok [cannotOpen path]
    | some .file => .ok [isFile path]
    | some .device => .ok []
    | some (.dir es) =>
      if path.length + 1 + DIRSIZ + 1 > sizeofBuf then .ok [tooLong]
      else do
        let buf ← store (k.buf path) 0 (path ++ [0])
        let buf ← store buf path.length [slash]
        loop t k name (search free) free (path.length + 1) es buf

end

/-! ## What it should print -/

/-- An entry that is neither `.` nor `..` nor empty. -/
def Walked (de : Dirent) : Prop := de.inum ≠ 0 ∧ cstr de.name ≠ [dot] ∧ cstr de.name ≠ [dot, dot]

instance (de : Dirent) : Decidable (Walked de) := inferInstanceAs (Decidable (_ ∧ _ ∧ _))

/-- The names `ns` lead from `i` down to `j`. -/
inductive Below (t : Files) : Nat → List Str → Nat → Prop
  | here (i : Nat) : Below t i [] i
  | down {i j : Nat} {es : List Dirent} {de : Dirent} {ns : List Str} :
      t.node i = some (.dir es) → de ∈ es → Walked de → Below t de.inum.toNat ns j → Below t i (cstr de.name :: ns) j

/-- `path/d1/.../dk` -/
def pathTo (path : Str) (ns : List Str) : Str := path ++ ns.flatMap (slash :: ·)

/-- A regular file below `i`, reached from `path` by `p`, and its name. -/
def FileAt (t : Files) (path : Str) (i : Nat) (p nm : Str) : Prop :=
  ∃ ns j, Below t i ns j ∧ t.node j = some .file ∧ p = pathTo path ns ∧ ns.getLast? = some nm

/-- search(path, name) prints the matching files below `i`, each once, and nothing else. -/
def Exact (t : Files) (k : Stack) (free : Nat) (path name : Str) (i : Nat) : Prop :=
  ∃ out, search t k name free path = .ok out ∧ out.Nodup ∧ ∀ l, l ∈ out ↔ ∃ p, FileAt t path i p name ∧ l = found p

/-- The name as strcmp reads it: on behind a full field. -/
def asRead (nm after : Str) : Str := if nm.length < DIRSIZ then nm else nm ++ cstr after

variable {t : Files} {k : Stack} {free i j p : Nat} {path name nm : Str} {ns ns' : List Str} {es des : List Dirent}
    {de de' : Dirent} {buf : Nat → UInt8}

/-! ## Strings -/

theorem strcmp_eq : ∀ {p q : Str}, strcmp p q = 0 ↔ cstr p = cstr q := by
  intro p
  induction p with
  | nil =>
    intro q
    cases q with
    | nil => simp [strcmp]
    | cons c q =>
      by_cases hc : c = 0
      · simp [strcmp, cstr, hc]
      · have h1 : c.toNat ≠ 0 := fun e => hc (UInt8.toNat_inj.mp e)
        simp [strcmp, cstr, hc, h1]
  | cons b p ih =>
    intro q
    cases q with
    | nil =>
      by_cases hb : b = 0
      · simp [strcmp, cstr, hb]
      · have h1 : b.toNat ≠ 0 := fun e => hb (UInt8.toNat_inj.mp e)
        simp [strcmp, cstr, hb, h1]
    | cons c q =>
      have h1 : ∀ x : UInt8, x.toNat = 0 ↔ x = 0 := fun x => ⟨fun e => UInt8.toNat_inj.mp e, fun e => by rw [e]; rfl⟩
      unfold strcmp
      by_cases hbc : b ≠ 0 ∧ b = c
      · obtain ⟨hb, rfl⟩ := hbc
        rw [if_pos ⟨hb, rfl⟩, ih]
        simp [cstr, hb]
      · rw [if_neg hbc]
        by_cases hb : b = 0
        · subst hb
          by_cases hc : c = 0
          · simp [cstr, hc]
          · have := (h1 c).not.mpr hc
            simp [cstr, hc, this]
        · have hne : b ≠ c := fun e => hbc ⟨hb, e⟩
          have : b.toNat ≠ c.toNat := fun e => hne (UInt8.toNat_inj.mp e)
          by_cases hc : c = 0
          · simp [cstr, hb, hc, (h1 b).not.mpr hb]
          · simp [cstr, hb, hc, hne]
            omega

/-- What strcmp reads where the entry's name is. -/
theorem cstr_field (h : nm.length = DIRSIZ) (after : Str) : cstr (nm ++ after) = asRead (cstr nm) after := by
  unfold asRead
  by_cases h0 : 0 ∈ nm
  · have hle : (cstr nm).length ≤ nm.length := (List.takeWhile_sublist _).length_le
    have hne : (cstr nm).length ≠ nm.length := fun e => by
      have he : cstr nm = nm := (List.takeWhile_sublist _).eq_of_length e
      exact zero_notMem_cstr nm (he.symm ▸ h0)
    rw [if_pos (by omega), cstr_append h0]
  · rw [cstr_eq_self h0, if_neg (by omega)]
    exact List.takeWhile_append_of_pos fun c hc => decide_eq_true fun e => h0 (e ▸ hc)

/-! ## Paths -/

/-- A name that path resolution can ask for. -/
def Piece (c : Str) : Prop := c ≠ [] ∧ slash ∉ c ∧ c.length ≤ DIRSIZ

theorem Walked.piece (hd : t.node i = some (.dir es)) (hm : de ∈ es) (hw : Walked de) : Piece (cstr de.name) := by
  obtain ⟨h1, h2⟩ := t.named i es hd de hm hw.1
  have hle : (cstr de.name).length ≤ de.name.length := (List.takeWhile_sublist _).length_le
  exact ⟨h1, h2, by rw [← t.field i es hd de hm]; exact hle⟩

theorem Below.pieces (h : Below t i ns j) : ∀ c ∈ ns, Piece c := by
  induction h with
  | here => simp
  | down hd hm hw _ ih =>
    intro c hc
    rcases List.mem_cons.mp hc with rfl | hc
    · exact hw.piece hd hm
    · exact ih c hc

theorem pathTo_nil (path : Str) : pathTo path [] = path := List.append_nil _

theorem pathTo_cons (path c : Str) (ns : List Str) : pathTo path (c :: ns) = pathTo (path ++ slash :: c) ns := by
  simp [pathTo]

theorem components_pathTo (path : Str) (h : ∀ c ∈ ns, Piece c) :
    components (pathTo path ns) = components path ++ ns := by
  induction ns generalizing path with
  | nil => rw [pathTo_nil, List.append_nil]
  | cons c ns ih =>
    obtain ⟨hc, hs, hlen⟩ := h c (List.mem_cons_self ..)
    rw [pathTo_cons, ih _ fun c hc => h c (List.mem_cons_of_mem _ hc)]
    have hone : components c = [c] := by
      have := @Fs.Disk.components_piece c [] hs hc (Or.inl rfl)
      rwa [List.append_nil, List.take_of_length_le hlen] at this
    have hsplit : components (path ++ slash :: c) = components path ++ components c := by
      unfold components
      rw [List.splitOn_append_cons_self, List.filter_append, List.map_append]
    rw [hsplit, hone, List.append_assoc]
    rfl

theorem pathTo_inj (h : ∀ c ∈ ns, Piece c) (h' : ∀ c ∈ ns', Piece c) (e : pathTo path ns = pathTo path ns') :
    ns = ns' := by
  have := congrArg components e
  rw [components_pathTo path h, components_pathTo path h'] at this
  exact List.append_cancel_left this

/-- What is at an inode of the disk. -/
def onDisk (sb : Superblock) (disk : Mem) (i : Nat) : Option Node :=
  let d := inodeOf sb disk i
  if d.type = T_DIR then some (.dir ((List.range (d.size / 16)).map fun j => d.entryAt disk (16 * j)))
  else if d.type = T_FILE then some .file
  else if d.type = T_DEVICE then some .device
  else none

/-- The files are those of the disk. -/
structure Shows (t : Files) (sb : Superblock) (cwd : Nat) (s : St) : Prop where
  root : t.root = ROOTINO
  cwd : t.cwd = (s.inode cwd).inum
  node : t.node = onDisk sb s.disk
  whole : ∀ i, (inodeOf sb s.disk i).type = T_DIR → (inodeOf sb s.disk i).size % 16 = 0

theorem find_entries {d : Dinode} {disk : Mem} (h : d.size % 16 = 0) (c : Str) : ∀ n i, d.size / 16 < n + i →
    (d.find disk c n (16 * i)).map (·.1) =
    (((List.range' i (d.size / 16 - i)).map fun j => d.entryAt disk (16 * j)).find? fun de => de.inum ≠ 0 ∧
      sameName c de.name).map (·.inum.toNat) := by
  intro n
  induction n with
  | zero =>
    intro i hi
    rw [Nat.sub_eq_zero_of_le (by omega)]
    rfl
  | succ n ih =>
    intro i hi
    have hnext : 16 * i + 16 = 16 * (i + 1) := by omega
    unfold Dinode.find
    by_cases hlt : i < d.size / 16
    · obtain ⟨m, hm⟩ : ∃ m, d.size / 16 - i = m + 1 := ⟨d.size / 16 - i - 1, by omega⟩
      have hm' : d.size / 16 - (i + 1) = m := by omega
      have hih := ih (i + 1) (by omega)
      rw [hm'] at hih
      rw [if_pos (by omega), hm, List.range'_succ, List.map_cons, hnext]
      by_cases h0 : (d.entryAt disk (16 * i)).inum = 0
      · rw [if_pos h0, List.find?_cons_of_neg (by simp [h0]), hih]
      · rw [if_neg h0]
        by_cases hn : sameName c (d.entryAt disk (16 * i)).name = true
        · rw [if_pos hn, List.find?_cons_of_pos (by simp [h0, hn])]
          rfl
        · rw [if_neg hn, List.find?_cons_of_neg (by simp [hn]), hih]
    · rw [if_neg (by omega), Nat.sub_eq_zero_of_le (by omega)]
      rfl

/-- Paths are resolved as namei does. -/
theorem Shows.namei {sb : Superblock} {cwd : Nat} {s : St} (h : Shows t sb cwd s) (path : Str) :
    t.namei path = descendAll sb s.disk (components path) (start cwd path s) := by
  have hstep : t.dirlookup = descend sb s.disk := by
    funext i c
    unfold Files.dirlookup descend
    rw [h.node]
    unfold onDisk
    dsimp only
    by_cases hd : (inodeOf sb s.disk i).type = T_DIR
    · rw [if_pos hd, if_pos hd]
      have := @find_entries (inodeOf sb s.disk i) s.disk (h.whole i hd) c _ 0 (Nat.lt_succ_self _)
      rw [Nat.sub_zero, ← List.range_eq_range'] at this
      exact this.symm
    · rw [if_neg hd, if_neg hd]
      split_ifs <;> rfl
  unfold Files.namei descendAll start
  rw [hstep, h.root, h.cwd]

/-! ## The buffer -/

/-- `buf` starts with these bytes. -/
def Holds (buf : Nat → UInt8) (s : Str) : Prop := ∀ i < s.length, buf i = s.getD i 0

theorem Holds.string {s : Str} (h : Holds buf s) (h0 : 0 ∈ s) (hlen : s.length ≤ sizeofBuf) : str buf = cstr s := by
  have hs : (List.range s.length).map buf = s := List.ext_getElem (by simp) fun i h1 h2 => by
    rw [List.getElem_map, List.getElem_range, h i h2, List.getD_eq_getElem _ _ h2]
  unfold str
  rw [← map_range_split buf hlen, hs, cstr_append h0]

/-- A store of the rest behind what `buf` starts with. -/
theorem store_holds {s : Str} (bs : Str) (h : Holds buf s) (hfit : s.length + bs.length ≤ sizeofBuf) :
    ∃ buf', store buf s.length bs = .ok buf' ∧ Holds buf' (s ++ bs) := by
  refine ⟨_, if_pos hfit, fun i hi => ?_⟩
  rw [List.length_append] at hi
  by_cases hlt : i < s.length
  · rw [if_neg (by omega), h i hlt, List.getD_append _ _ _ _ hlt]
  · rw [if_pos ⟨by omega, hi⟩, List.getD_append_right _ _ _ _ (by omega)]

theorem Holds.left {s bs : Str} (h : Holds buf (s ++ bs)) : Holds buf s := fun i hi => by
  rw [h i (by rw [List.length_append]; omega), List.getD_append _ _ _ _ hi]

/-- The two stores of a round. -/
theorem store_entry (hb : Holds buf (path ++ [slash])) (hfit : path.length + 1 + DIRSIZ + 1 ≤ sizeofBuf)
    (hlen : nm.length = DIRSIZ) :
    ∃ buf1 buf', store buf (path.length + 1) nm = .ok buf1 ∧ store buf1 (path.length + 1 + DIRSIZ) [0] = .ok buf' ∧
      Holds buf' (path ++ [slash]) ∧ (0 ∉ path → str buf' = path ++ slash :: cstr nm) := by
  have h1 : (path ++ [slash]).length = path.length + 1 := by simp
  have h2 : (path ++ [slash] ++ nm).length = path.length + 1 + DIRSIZ := by rw [List.length_append, h1, hlen]
  obtain ⟨buf1, e1, hb1⟩ := store_holds nm hb (by rw [h1, hlen]; omega)
  obtain ⟨buf', e', hb'⟩ := store_holds [0] hb1 (by rw [h2]; exact hfit)
  rw [h1] at e1
  rw [h2] at e'
  refine ⟨buf1, buf', e1, e', hb'.left.left, fun h0 => ?_⟩
  rw [hb'.string (by simp) (by rw [List.length_append, h2]; exact hfit)]
  have hname : cstr (nm ++ [0]) = cstr nm := by
    rw [cstr_field hlen]
    unfold asRead
    split
    · rfl
    · exact List.append_nil _
  have hpath : ∀ c ∈ path ++ [slash], decide (c ≠ 0) = true := by
    intro c hc
    rcases List.mem_append.mp hc with hc | hc
    · exact decide_eq_true fun e => h0 (e ▸ hc)
    · rw [List.mem_singleton.mp hc]
      rfl
  rw [List.append_assoc]
  show ((path ++ [slash]) ++ (nm ++ [0])).takeWhile _ = _
  rw [List.takeWhile_append_of_pos hpath]
  show (path ++ [slash]) ++ cstr (nm ++ [0]) = _
  rw [hname, List.append_assoc]
  rfl

/-! ## What it prints -/

/-- What a round prints; `out` is what search prints for a directory. -/
def entryLines (t : Files) (k : Stack) (name : Str) (out : Str → List Line) (free : Nat) (path : Str) (de : Dirent) :
    List Line :=
  let p := path ++ slash :: cstr de.name
  if Walked de then
    match t.open_ free p with
    | none => [cannotStat p]
    | some (.dir _) => out p
    | some .file => if asRead (cstr de.name) (k.after p) = name then [found p] else []
    | some .device => []
  else []

theorem skipped_iff : strcmp de.name [dot] = 0 ∨ strcmp de.name [dot, dot] = 0 ∨ de.inum = 0 ↔ ¬ Walked de := by
  rw [strcmp_eq, strcmp_eq]
  show cstr de.name = [dot] ∨ cstr de.name = [dot, dot] ∨ de.inum = 0 ↔ ¬ (_ ∧ _ ∧ _)
  tauto

variable {search' : Str → Except String (List Line)} {out : Str → List Line}

theorem round_spec (hs : ∀ p, search' p = .ok (out p)) (hb : Holds buf (path ++ [slash]))
    (hfit : path.length + 1 + DIRSIZ + 1 ≤ sizeofBuf)
    (hlen : de.name.length = DIRSIZ) : ∃ o buf', round t k name search' free (path.length + 1) de buf =
      .ok (o, buf') ∧ Holds buf' (path ++ [slash]) ∧
      (0 ∉ path → 0 ∉ name → o = entryLines t k name out free path de) := by
  unfold round entryLines
  by_cases hw : Walked de
  · rw [if_neg (skipped_iff.not.mpr (not_not.mpr hw)), if_pos hw]
    obtain ⟨buf1, buf', e1, e', hb', hstr⟩ := store_entry hb hfit hlen
    rw [e1, ok_bind, e', ok_bind]
    cases ho : t.open_ free (str buf') with
    | none => exact ⟨_, _, rfl, hb', fun h0 _ => by rw [← hstr h0, ho]⟩
    | some nd =>
      cases nd with
      | dir es =>
        dsimp only
        rw [hs, ok_bind]
        exact ⟨_, _, rfl, hb', fun h0 _ => by rw [← hstr h0, ho]⟩
      | file =>
        refine ⟨_, _, rfl, hb', fun h0 h0' => ?_⟩
        rw [← hstr h0, ho]
        simp only [strcmp_eq, cstr_field hlen, cstr_eq_self h0']
      | device => exact ⟨_, _, rfl, hb', fun h0 _ => by rw [← hstr h0, ho]⟩
  · rw [if_pos (skipped_iff.mpr hw), if_neg hw]
    exact ⟨_, _, rfl, hb, fun _ _ => rfl⟩

theorem loop_spec (hs : ∀ p, search' p = .ok (out p)) (hb : Holds buf (path ++ [slash]))
    (hfit : path.length + 1 + DIRSIZ + 1 ≤ sizeofBuf)
    (hlen : ∀ de ∈ es, de.name.length = DIRSIZ) : ∃ o, loop t k name search' free (path.length + 1) es buf = .ok o ∧
      (0 ∉ path → 0 ∉ name → o = es.flatMap (entryLines t k name out free path)) := by
  induction es generalizing buf with
  | nil => exact ⟨_, rfl, fun _ _ => rfl⟩
  | cons de des ih =>
    obtain ⟨o, buf', e, hb', ho⟩ := round_spec (t := t) (k := k) hs hb hfit (hlen de (List.mem_cons_self ..))
    obtain ⟨rest, er, hr⟩ := ih hb' fun de h => hlen de (List.mem_cons_of_mem _ h)
    unfold loop
    rw [e, ok_bind]
    dsimp only
    rw [er, ok_bind]
    exact ⟨_, rfl, fun h0 h0' => by rw [ho h0 h0', hr h0 h0', List.flatMap_cons]⟩

/-- Nothing but paths is printed. -/
def Clean (out : List Line) : Prop := ∀ l ∈ out, ∃ p, l = found p

/-- Nothing is below what is not a directory. -/
theorem Below.leaf (h : Below t i ns j) (hd : ∀ es, t.node i ≠ some (.dir es)) : ns = [] := by
  cases h with
  | here => rfl
  | down hd' => exact absurd hd' (hd _)

/-- A file at the entry itself. -/
theorem FileAt.entry (hd : t.node i = some (.dir es)) (hm : de ∈ es) (hw : Walked de)
    (hf : t.node de.inum.toNat = some .file) :
    FileAt t path i (path ++ slash :: cstr de.name) (cstr de.name) :=
  ⟨[cstr de.name], _, .down hd hm hw (.here _), hf, by rw [pathTo_cons, pathTo_nil], rfl⟩

/-- A file below the entry. -/
theorem FileAt.down {p : Str} (hd : t.node i = some (.dir es)) (hm : de ∈ es) (hw : Walked de)
    (h : FileAt t (path ++ slash :: cstr de.name) de.inum.toNat p nm) : FileAt t path i p nm := by
  obtain ⟨ns, j, hb, hf, rfl, hn⟩ := h
  refine ⟨cstr de.name :: ns, j, .down hd hm hw hb, hf, by rw [pathTo_cons], ?_⟩
  rw [List.getLast?_cons_of_ne_nil fun e => ?_, hn]
  subst e
  cases hn

/-- At an entry, or below it. -/
def AtEntry (t : Files) (path : Str) (de : Dirent) (p nm : Str) : Prop :=
  (t.node de.inum.toNat = some .file ∧ p = path ++ slash :: cstr de.name ∧ nm = cstr de.name) ∨
    FileAt t (path ++ slash :: cstr de.name) de.inum.toNat p nm

/-- Two entries have no file in common. -/
theorem AtEntry.same {p nm' : Str} (hd : t.node i = some (.dir es)) (hm : de ∈ es) (hm' : de' ∈ es) (hw : Walked de)
    (hw' : Walked de')
    (h : AtEntry t path de p nm) (h' : AtEntry t path de' p nm') : cstr de.name = cstr de'.name := by
  have first : ∀ {de : Dirent} {nm : Str}, de ∈ es → Walked de → AtEntry t path de p nm →
      ∃ ns, p = pathTo path (cstr de.name :: ns) ∧ ∀ c ∈ cstr de.name :: ns, Piece c := by
    rintro de nm hm hw (⟨-, rfl, -⟩ | ⟨ns, j, hb, -, rfl, -⟩)
    · refine ⟨[], by rw [pathTo_cons, pathTo_nil], fun c hc => ?_⟩
      rw [List.mem_singleton.mp hc]
      exact hw.piece hd hm
    · exact ⟨ns, by rw [pathTo_cons], (Below.down hd hm hw hb).pieces⟩
  obtain ⟨ns, e, hp⟩ := first hm hw h
  obtain ⟨ns', e', hp'⟩ := first hm' hw' h'
  exact (List.cons.inj (pathTo_inj hp hp' (e.symm.trans e'))).1

/-- A line for a file whose name strcmp takes for the name. -/
def LineFor (k : Stack) (name : Str) (files : Str → Str → Prop) (l : Line) : Prop :=
  ∃ p nm, files p nm ∧ asRead nm (k.after p) = name ∧ l = found p

/-- The lines for these files, each once. -/
def Lists (k : Stack) (name : Str) (files : Str → Str → Prop) (out : List Line) : Prop :=
  out.Nodup ∧ ∀ l, l ∈ out ↔ LineFor k name files l

def entry (inum : UInt16) (nm : Str) : Dirent := ⟨inum, nm ++ List.replicate (DIRSIZ - nm.length) 0⟩

def top : List Dirent := [entry 1 [dot], entry 1 [dot, dot], entry 2 [100]]
def sub (nm : Str) : List Dirent := [entry 2 [dot], entry 1 [dot, dot], entry 3 nm]

def nodes (nm : Str) : Nat → Option Node
  | 1 => some (.dir top)
  | 2 => some (.dir (sub nm))
  | 3 => some .file
  | _ => none

theorem nodes_dir (h : nodes nm i = some (.dir es)) : es = top ∨ es = sub nm := by
  unfold nodes at h
  split at h
  · exact Or.inl (Node.dir.inj (Option.some.inj h)).symm
  · exact Or.inr (Node.dir.inj (Option.some.inj h)).symm
  · cases h
  · cases h

def Sound (es : List Dirent) : Prop :=
  (∀ de ∈ es, de.name.length = DIRSIZ ∧ cstr de.name ≠ [] ∧ slash ∉ cstr de.name ∧ de.inum.toNat ∈ [1, 2, 3]) ∧
    es.Pairwise fun de de' => cstr de.name ≠ cstr de'.name

instance (es : List Dirent) : Decidable (Sound es) := inferInstanceAs (Decidable (_ ∧ _))

theorem nodes_sound (hs : Sound (sub nm)) (h : nodes nm i = some (.dir es)) : Sound es := by
  rcases nodes_dir h with rfl | rfl
  · decide
  · exact hs

/-- `/d/nm`, a regular file. -/
def oneFile (nm : Str) (hs : Sound (sub nm)) : Files where
  root := 1
  cwd := 1
  node := nodes nm
  field _ _ h de hm := ((nodes_sound hs h).1 de hm).1
  named _ _ h de hm _ := ⟨((nodes_sound hs h).1 de hm).2.1, ((nodes_sound hs h).1 de hm).2.2.1⟩
  unique _ _ h := (nodes_sound hs h).2.imp fun hne _ _ => hne
  live _ _ h de hm _ := by
    have hin := ((nodes_sound hs h).1 de hm).2.2.2
    generalize de.inum.toNat = x at hin
    simp only [List.mem_cons, List.not_mem_nil, or_false] at hin
    rcases hin with rfl | rfl | rfl <;> rfl

def fullName : Str := [97, 98, 99, 100, 101, 102, 103, 104, 105, 106, 107, 108, 109, 110]

end Xv6Labs.Find
