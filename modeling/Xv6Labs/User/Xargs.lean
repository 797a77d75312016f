/-
  Xv6Labs.User.Xargs — xargs.c of the utilities lab.

  One buffer holds the line that is read, with a NUL in place of each space, and one array the
  arguments: those of xargs itself, then a pointer to each field of the line. Nothing checks that
  they are large enough: a store past the end of either is an error here.

  - `execs_lines`: xargs execs the command once per line exactly when every line fits, holds no
    NUL, and every fork succeeds.
  - `long_line`: a line of 128 bytes does not fit.
-/

import Xv6Labs.Lib.Calls
import Mathlib.Data.List.TakeWhile

namespace Xv6Labs.Xargs

open Lib

abbrev Str := List UInt8

def space : UInt8 := 32
def newline : UInt8 := 10

def MAXARG : Nat := 32
def sizeofBuf : Nat := 128

/-- An entry of `new_argv`: what it pointed to before, null, a word of argv, a place in `buf`. -/
inductive Ptr
  | junk
  | null
  | word (w : Str)
  | buf (i : Nat)

structure St where
  cur_buf : Nat
  cur_argv : Nat
  buf : Nat → UInt8
  new_argv : Nat → Ptr

/-- `*cur_buf = c`. -/
def putBuf (s : St) (c : UInt8) : Except String St :=
  if s.cur_buf < sizeofBuf then .ok { s with buf := fun i => if i = s.cur_buf then c else s.buf i }
  else .error "store past buf"

/-- `new_argv[i] = p`. -/
def putArgv (s : St) (i : Nat) (p : Ptr) : Except String St :=
  if i < MAXARG then .ok { s with new_argv := fun j => if j = i then p else s.new_argv j }
  else .error "store past new_argv"

/-- A string ends at its first NUL. -/
def cut (w : Str) : Str := w.takeWhile fun c => c != 0

def cstr (s : St) : Ptr → Str
  | .junk => []
  | .null => []
  | .word w => w
  | .buf i => cut (((List.range sizeofBuf).map s.buf).drop i)

/-- The arguments that exec finds: up to the null pointer. -/
def execArgs (s : St) : Nat → Nat → List Str
  | 0, _ => []
  | fuel + 1, i =>
    match s.new_argv i with
    | .null => []
    | p => cstr s p :: execArgs s fuel (i + 1)

/-- `for(cur_argv = 1; cur_argv <= argc - 1; cur_argv++)`, over `argv[1..]`. -/
def fill : List Str → St → Except String St
  | [], s => .ok s
  | w :: ws, s => do
    let s ← putArgv s (s.cur_argv - 1) (.word w)
    fill ws { s with cur_argv := s.cur_argv + 1 }

/-- `while(read(0, &ch, sizeof(char)))`: the arguments of every exec, in order. `fork n` says
    whether the fork for line `n` makes a child, which execs. -/
def loop (fork : Nat → Bool) (argc : Nat) : Str → Nat → St → Except String (List (List Str))
  | [], _, _ => .ok []
  | ch :: input, n, s =>
    if ch = space then do
      let s ← putBuf s 0
      let s := { s with cur_buf := s.cur_buf + 1 }
      let s ← putArgv s s.cur_argv (.buf s.cur_buf)
      loop fork argc input n { s with cur_argv := s.cur_argv + 1 }
    else if ch = newline then do
      let s ← putBuf s 0
      let s ← putArgv s s.cur_argv .null
      let out ← loop fork argc input (n + 1) { s with cur_buf := 0, cur_argv := argc }
      .ok (if fork n then execArgs s MAXARG 0 :: out else out)
    else do
      let s ← putBuf s ch
      loop fork argc input n { s with cur_buf := s.cur_buf + 1 }

/-- `junk` is what the stack holds where `buf` comes to lie. `input` is what the program's own reads
    return: a child shares file descriptor 0 and may have read some of it. -/
def main (fork : Nat → Bool) (junk : Nat → UInt8) (argv : List Str) (input : Str) :
    Except String (List (List Str)) := do
  let s ← fill argv.tail { cur_buf := 0, cur_argv := 1, buf := junk, new_argv := fun _ => .junk }
  let s ← putArgv s (s.cur_argv - 1) (.buf 0)
  loop fork argv.length input 0 s

/-- The lines of the input, and what follows the last newline. -/
def pieces (input : Str) : List Str := input.splitOn newline

/-- The fields of a line. -/
def fields (line : Str) : List Str := line.splitOn space

/-- A line that is stored inside both arrays, with the NUL and the null pointer behind it. -/
def LineFits (argc : Nat) (line : Str) : Prop := line.length < sizeofBuf ∧ argc + line.count space < MAXARG

/-- What follows the last newline has nothing stored behind it. -/
def RestFits (argc : Nat) (rest : Str) : Prop := rest.length ≤ sizeofBuf ∧ argc + rest.count space ≤ MAXARG

/-- Everything that is stored fits. -/
def Fits (argc : Nat) (ps : List Str) : Prop :=
  (∀ line ∈ ps.dropLast, LineFits argc line) ∧ ∀ rest ∈ ps.getLast?, RestFits argc rest

/-- The execs for these lines, of which `n` is the number of the first. -/
def execs (fork : Nat → Bool) (words : List Str) : Nat → List Str → List (List Str)
  | _, [] => []
  | n, line :: lines =>
    if fork n then (words ++ (fields line).map cut) :: execs fork words (n + 1) lines
    else execs fork words (n + 1) lines

variable {fork : Nat → Bool} {argc n : Nat} {words ps : List Str} {line input : Str} {s s' : St} {ch : UInt8}

/-! ## Fields -/

/-- What is stored for a byte of a line. -/
def blank (c : UInt8) : UInt8 := if c = space then 0 else c

/-- Where the fields behind the first one start, in a line that starts at `k`. -/
def starts (k : Nat) : Str → List Nat
  | [] => []
  | c :: cs => if c = space then (k + 1) :: starts (k + 1) cs else starts (k + 1) cs

theorem starts_shift (k : Nat) (line : Str) : starts (k + 1) line = (starts k line).map (· + 1) := by
  induction line generalizing k with
  | nil => rfl
  | cons c cs ih =>
    unfold starts
    split
    · rw [List.map_cons, ih]
    · exact ih (k + 1)

theorem starts_snoc (k : Nat) (line : Str) (c : UInt8) :
    starts k (line ++ [c]) = starts k line ++ if c = space then [k + line.length + 1] else [] := by
  induction line generalizing k with
  | nil =>
    simp only [starts, List.nil_append, List.length_nil, Nat.add_zero]
  | cons d ds ih =>
    have e : k + 1 + ds.length + 1 = k + (d :: ds).length + 1 := by
      rw [List.length_cons]
      omega
    simp only [List.cons_append, starts, ih, e]
    split <;> rfl

/-- The strings at these places are the fields. -/
theorem strings_fields (line tail : Str) :
    ((0 :: starts 0 line).map fun a => cut ((line.map blank ++ 0 :: tail).drop a)) = (fields line).map cut := by
  induction line with
  | nil => rfl
  | cons c cs ih =>
    have hrest : ∀ b : UInt8, ((starts 1 cs).map fun a => cut ((b :: (cs.map blank ++ 0 :: tail)).drop a)) =
        (starts 0 cs).map fun a => cut ((cs.map blank ++ 0 :: tail).drop a) := by
      intro b
      rw [starts_shift, List.map_map]
      rfl
    unfold fields List.splitOn at ih ⊢
    rw [List.splitOnP_cons_eq_if_modifyHead]
    by_cases e : c = space
    · rw [if_pos (by simpa using e)]
      simp only [starts, if_pos e, List.map_cons, List.cons_append, List.drop_zero, List.drop_succ_cons, blank]
      rw [hrest, ← ih]
      simp [cut]
    · rw [if_neg (by simpa using e)]
      simp only [starts, if_neg e, List.map_cons, List.cons_append, List.drop_zero, blank]
      rw [hrest]
      obtain ⟨hd, tl, hs⟩ := List.exists_cons_of_ne_nil (List.splitOnP_ne_nil (fun x => x == space) cs)
      rw [hs, List.map_cons, List.map_cons, List.drop_zero] at ih
      obtain ⟨h1, h2⟩ := List.cons_eq_cons.mp ih
      rw [hs, List.modifyHead_cons, List.map_cons, ← h2]
      refine congrArg₂ _ ?_ rfl
      unfold cut at h1 ⊢
      by_cases hc : c = 0
      · simp [hc]
      · rw [List.takeWhile_cons_of_pos (by simpa using hc), List.takeWhile_cons_of_pos (by simpa using hc), h1]

/-! ## One line -/

/-- The state in the middle of a line, after `line`. -/
structure Line (words : List Str) (line : Str) (s : St) : Prop where
  cur_buf : s.cur_buf = line.length
  cur_argv : s.cur_argv = words.length + 1 + line.count space
  bytes : (List.range line.length).map s.buf = line.map blank
  ptrs : (List.range s.cur_argv).map s.new_argv = words.map Ptr.word ++ (0 :: starts 0 line).map Ptr.buf
  room : s.cur_buf ≤ sizeofBuf ∧ s.cur_argv ≤ MAXARG

theorem putBuf_ok (h : s.cur_buf < sizeofBuf) (c : UInt8) :
    putBuf s c = .ok { s with buf := fun i => if i = s.cur_buf then c else s.buf i } := if_pos h

theorem putBuf_error (h : ¬ s.cur_buf < sizeofBuf) (c : UInt8) : putBuf s c = .error "store past buf" := if_neg h

theorem putArgv_ok {i : Nat} (h : i < MAXARG) (p : Ptr) :
    putArgv s i p = .ok { s with new_argv := fun j => if j = i then p else s.new_argv j } := if_pos h

theorem putArgv_error {i : Nat} (h : ¬ i < MAXARG) (p : Ptr) : putArgv s i p = .error "store past new_argv" :=
  if_neg h

/-- What is stored at the end of a prefix adds to it. -/
theorem map_range_put {α : Type} (f : Nat → α) (n : Nat) (a : α) :
    (List.range (n + 1)).map (fun i => if i = n then a else f i) = (List.range n).map f ++ [a] := by
  rw [List.range_succ, List.map_append, List.map_singleton, if_pos rfl]
  refine congrArg (· ++ [a]) (List.map_congr_left fun i hi => if_neg ?_)
  rw [List.mem_range] at hi
  omega

theorem Line.put (h : Line words line s) (hb : s.cur_buf < sizeofBuf) (hc : ch ≠ space) :
    Line words (line ++ [ch])
      { s with buf := fun i => if i = s.cur_buf then ch else s.buf i, cur_buf := s.cur_buf + 1 } := by
  refine ⟨?_, ?_, ?_, ?_, ?_⟩
  · rw [List.length_append, h.cur_buf]
    rfl
  · rw [List.count_append, List.count_singleton, if_neg (by simpa using hc)]
    exact h.cur_argv
  · simp only [List.length_append, List.length_singleton, List.map_append, List.map_singleton, h.cur_buf,
      map_range_put, h.bytes, blank, if_neg hc]
  · rw [starts_snoc, if_neg hc, List.append_nil]
    exact h.ptrs
  · exact ⟨hb, h.room.2⟩

theorem Line.next (h : Line words line s) (hb : s.cur_buf < sizeofBuf) (ha : s.cur_argv < MAXARG) :
    Line words (line ++ [space])
      { cur_buf := s.cur_buf + 1, cur_argv := s.cur_argv + 1, buf := fun i => if i = s.cur_buf then 0 else s.buf i,
        new_argv := fun j => if j = s.cur_argv then .buf (s.cur_buf + 1) else s.new_argv j } := by
  refine ⟨?_, ?_, ?_, ?_, ?_⟩
  · rw [List.length_append, h.cur_buf]
    rfl
  · simp only [List.count_append, h.cur_argv]
    rfl
  · simp only [List.length_append, List.length_singleton, List.map_append, List.map_singleton, h.cur_buf,
      map_range_put, h.bytes, blank, if_pos]
  · simp only [map_range_put, h.ptrs, starts_snoc, if_pos, List.append_assoc, List.cons_append, List.map_append,
      List.map_cons, List.map_nil, h.cur_buf, Nat.zero_add]
  · exact ⟨hb, ha⟩

/-- At the start of every line but the first, `new_argv` still holds the words and `buf`. -/
theorem Line.again (h : Line words line s) {f : Nat → UInt8} {g : Nat → Ptr}
    (hg : ∀ i < words.length + 1, g i = s.new_argv i) :
    Line words [] { cur_buf := 0, cur_argv := words.length + 1, buf := f, new_argv := g } := by
  refine ⟨rfl, rfl, rfl, ?_, Nat.zero_le _, Nat.le_trans (by rw [h.cur_argv]; exact Nat.le_add_right ..) h.room.2⟩
  have hp := congrArg (List.take (words.length + 1)) h.ptrs
  rw [← List.map_take, List.take_range, h.cur_argv, Nat.min_eq_left (Nat.le_add_right ..)] at hp
  rw [List.map_congr_left fun i hi => hg i (List.mem_range.mp hi), hp]
  simp [starts, List.take_append, List.take_of_length_le]

theorem execArgs_null {d : Nat} (hd : ∀ j < d, s.new_argv j ≠ .null) (hnull : s.new_argv d = .null) {fuel i : Nat}
    (hi : i ≤ d) (hf : d < fuel + i) :
    execArgs s fuel i = ((List.range d).map fun j => cstr s (s.new_argv j)).drop i := by
  induction fuel generalizing i with
  | zero => omega
  | succ fuel ih =>
    unfold execArgs
    by_cases e : i = d
    · rw [e, hnull, List.drop_of_length_le (by simp)]
    · have hlt : i < d := by omega
      have hn := hd i hlt
      rw [List.drop_eq_getElem_cons (by simpa using hlt), ← ih (i := i + 1) (by omega) (by omega)]
      -- `hn` excludes the null pointer
      simp only [List.getElem_map, List.getElem_range]

/-- What exec gets at the end of a line: the words of argv and the fields. -/
theorem Line.exec (h : Line words line s) (hb : s.cur_buf < sizeofBuf) (ha : s.cur_argv < MAXARG) :
    execArgs { s with
      buf := fun i => if i = s.cur_buf then 0 else s.buf i
      new_argv := fun j => if j = s.cur_argv then .null else s.new_argv j } MAXARG 0 =
      words ++ (fields line).map cut := by
  have hmem : ∀ j < s.cur_argv, s.new_argv j ≠ .null := by
    intro j hj e
    have hm : Ptr.null ∈ (List.range s.cur_argv).map s.new_argv := List.mem_map.mpr ⟨j, List.mem_range.mpr hj, e⟩
    rw [h.ptrs] at hm
    simp at hm
  rw [execArgs_null (d := s.cur_argv) (fun j hj => by simp only; rw [if_neg (by omega)]; exact hmem j hj) (if_pos rfl)
    (Nat.zero_le _) (by omega), List.drop_zero]
  -- the buffer: the line with its spaces blanked, then the NUL, then what was there
  obtain ⟨tail, htail⟩ : ∃ tail, (List.range sizeofBuf).map (fun i => if i = s.cur_buf then 0 else s.buf i) =
    line.map blank ++ 0 :: tail := by
    obtain ⟨k, hk⟩ := Nat.exists_eq_add_of_le hb
    refine ⟨(List.range k).map fun i => if s.cur_buf + 1 + i = s.cur_buf then 0 else s.buf (s.cur_buf + 1 + i), ?_⟩
    rw [hk, List.range_add, List.map_append, Nat.succ_eq_add_one, map_range_put, h.cur_buf, h.bytes,
      List.append_assoc, List.map_map]
    rfl
  have hptr : ∀ j ∈ List.range s.cur_argv, (if j = s.cur_argv then Ptr.null else s.new_argv j) = s.new_argv j :=
    fun j hj => if_neg (by
    rw [List.mem_range] at hj
    omega)
  have e : ∀ g : Ptr → Str, (List.range s.cur_argv).map
    (fun j => g (if j = s.cur_argv then Ptr.null else s.new_argv j)) =
      ((List.range s.cur_argv).map s.new_argv).map g := by
    intro g
    rw [List.map_map]
    exact List.map_congr_left fun j hj => congrArg g (hptr j hj)
  rw [e, h.ptrs, List.map_append, List.map_map, List.map_map, ← strings_fields line tail, ← htail]
  refine congrArg₂ (· ++ ·) ?_ rfl
  exact List.map_id words

/-- The piece that a line under way belongs to. -/
theorem pieces_under_way (h : newline ∉ line) (input : Str) :
    ∃ more rest, pieces (line ++ input) = (line ++ more) :: rest := by
  induction line with
  | nil =>
    obtain ⟨hd, tl, e⟩ := List.exists_cons_of_ne_nil (List.splitOnP_ne_nil (fun x => x == newline) input)
    exact ⟨hd, tl, e⟩
  | cons c cs ih =>
    obtain ⟨more, rest, e⟩ := ih fun hm => h (List.mem_cons_of_mem _ hm)
    have hc : ¬ (c == newline) = true := by
      simp only [beq_iff_eq]
      rintro rfl
      exact h (List.mem_cons_self ..)
    refine ⟨more, rest, ?_⟩
    unfold pieces List.splitOn at e ⊢
    rw [List.cons_append, List.splitOnP_cons_eq_if_modifyHead, if_neg hc, e]
    rfl

theorem pieces_line (h : newline ∉ line) (input : Str) : pieces (line ++ newline :: input) = line :: pieces input :=
  List.splitOnP_append_cons_of_forall_mem (fun x hx => by
    simp only [beq_eq_false_iff_ne]
    rintro rfl
    exact h hx) newline (by simp) input

theorem pieces_ne_nil (input : Str) : pieces input ≠ [] := List.splitOnP_ne_nil _ _

theorem fits_cons (hps : ps ≠ []) : Fits argc (line :: ps) ↔ LineFits argc line ∧ Fits argc ps := by
  obtain ⟨hd, tl, rfl⟩ := List.exists_cons_of_ne_nil hps
  unfold Fits
  rw [List.dropLast_cons_cons, List.getLast?_cons_cons, List.forall_mem_cons, and_assoc]

/-- A piece that does not fit is not stored, whatever it continues with. -/
theorem fits_of_append {more : Str} (h : Fits argc ((line ++ more) :: ps)) : line.length ≤ sizeofBuf ∧
    argc + line.count space ≤ MAXARG := by
  have : (line ++ more).length ≤ sizeofBuf ∧ argc + (line ++ more).count space ≤ MAXARG := by
    by_cases hps : ps = []
    · rw [hps] at h
      exact h.2 _ rfl
    · obtain ⟨h1, h2⟩ := ((fits_cons hps).mp h).1
      omega
  rw [List.length_append, List.count_append] at this
  omega

/-- The loop, from the middle of a line. -/
theorem loop_spec (h : Line words line s) (hline : newline ∉ line) :
    (Fits (words.length + 1) (pieces (line ++ input)) →
      loop fork (words.length + 1) input n s = .ok (execs fork words n (pieces (line ++ input)).dropLast)) ∧
    (¬ Fits (words.length + 1) (pieces (line ++ input)) → ∃ e,
      loop fork (words.length + 1) input n s = .error e) := by
  induction input generalizing line n s with
  | nil =>
    have e : pieces (line ++ []) = [line] := by
      rw [List.append_nil]
      exact List.splitOnP_eq_singleton fun x hx => by
        simp only [beq_eq_false_iff_ne]
        rintro rfl
        exact hline hx
    rw [e]
    refine ⟨fun _ => rfl, fun hn => absurd ⟨fun l hl => absurd hl List.not_mem_nil, fun rest hr => ?_⟩ hn⟩
    obtain rfl : line = rest := by simpa using hr
    have h1 := h.room
    rwa [h.cur_buf, h.cur_argv] at h1
  | cons ch input ih =>
    by_cases hsp : ch = space
    · subst hsp
      have e : pieces (line ++ space :: input) = pieces ((line ++ [space]) ++ input) := by rw [List.append_assoc]; rfl
      have hline' : newline ∉ line ++ [space] := by
        simp only [List.mem_append, List.mem_singleton, not_or]
        exact ⟨hline, by decide⟩
      rw [e]
      unfold loop
      rw [if_pos rfl]
      -- the stores for this byte: inside both arrays if the line fits
      have hfit : Fits (words.length + 1) (pieces ((line ++ [space]) ++ input)) → s.cur_buf < sizeofBuf ∧
        s.cur_argv < MAXARG := by
        intro hf
        obtain ⟨more, rest, e⟩ := pieces_under_way hline' input
        rw [e] at hf
        have := fits_of_append hf
        rw [h.cur_buf, h.cur_argv]
        simp only [List.length_append, List.length_singleton, List.count_append, List.count_singleton_self] at this
        omega
      by_cases hb : s.cur_buf < sizeofBuf
      · rw [putBuf_ok hb, ok_bind]
        by_cases ha : s.cur_argv < MAXARG
        · simp only
          rw [putArgv_ok ha, ok_bind]
          exact ih (h.next hb ha) hline'
        · simp only
          rw [putArgv_error ha]
          exact ⟨fun hf => absurd (hfit hf).2 ha, fun _ => ⟨_, rfl⟩⟩
      · rw [putBuf_error hb]
        exact ⟨fun hf => absurd (hfit hf).1 hb, fun _ => ⟨_, rfl⟩⟩
    · by_cases hnl : ch = newline
      · subst hnl
        rw [pieces_line hline input]
        rw [fits_cons (pieces_ne_nil input), List.dropLast_cons_of_ne_nil (pieces_ne_nil input)]
        unfold loop
        rw [if_neg hsp, if_pos rfl]
        unfold LineFits
        rw [← h.cur_buf, ← h.cur_argv]
        by_cases hb : s.cur_buf < sizeofBuf
        · rw [putBuf_ok hb, ok_bind]
          by_cases ha : s.cur_argv < MAXARG
          · simp only
            rw [putArgv_ok ha, ok_bind]
            simp only
            have hagain : Line words [] {
                cur_buf := 0
                cur_argv := words.length + 1
                buf := fun i => if i = s.cur_buf then 0 else s.buf i
                new_argv := fun j => if j = s.cur_argv then Ptr.null else s.new_argv j } :=
              h.again fun i hi => if_neg (by have := h.cur_argv; omega)
            have hexec := h.exec hb ha
            obtain ⟨h1, h2⟩ := ih (n := n + 1) hagain List.not_mem_nil
            rw [List.nil_append] at h1 h2
            refine ⟨fun hf => ?_, fun hf => ?_⟩
            · rw [h1 hf.2, ok_bind, hexec]
              rfl
            · obtain ⟨m, hm⟩ := h2 fun hf' => hf ⟨⟨hb, ha⟩, hf'⟩
              rw [hm]
              exact ⟨m, rfl⟩
          · simp only
            rw [putArgv_error ha]
            exact ⟨fun hf => absurd hf.1.2 ha, fun _ => ⟨_, rfl⟩⟩
        · rw [putBuf_error hb]
          exact ⟨fun hf => absurd hf.1.1 hb, fun _ => ⟨_, rfl⟩⟩
      · have e : pieces (line ++ ch :: input) = pieces ((line ++ [ch]) ++ input) := by rw [List.append_assoc]; rfl
        have hline' : newline ∉ line ++ [ch] := by
          simp only [List.mem_append, List.mem_singleton, not_or]
          exact ⟨hline, fun e => hnl e.symm⟩
        rw [e]
        unfold loop
        rw [if_neg hsp, if_neg hnl]
        by_cases hb : s.cur_buf < sizeofBuf
        · rw [putBuf_ok hb, ok_bind]
          exact ih (h.put hb hsp) hline'
        · rw [putBuf_error hb]
          refine ⟨fun hf => absurd ?_ hb, fun _ => ⟨_, rfl⟩⟩
          obtain ⟨more, rest, e⟩ := pieces_under_way hline' input
          rw [e] at hf
          have := (fits_of_append hf).1
          rw [h.cur_buf]
          simp only [List.length_append, List.length_singleton] at this
          omega

/-! ## The whole input -/

/-- The words of argv are copied in front. -/
theorem fill_spec (ws : List Str) {pre : List Str} (hs : s.cur_argv = pre.length + 1)
    (hp : (List.range pre.length).map s.new_argv = pre.map Ptr.word) (hmax : pre.length + ws.length < MAXARG) :
    ∃ s', fill ws s = .ok s' ∧ s'.cur_buf = s.cur_buf ∧ s'.cur_argv = (pre ++ ws).length + 1 ∧
      (List.range (pre ++ ws).length).map s'.new_argv = (pre ++ ws).map Ptr.word := by
  induction ws generalizing pre s with
  | nil => exact ⟨s, rfl, rfl, by rw [List.append_nil]; exact hs, by rw [List.append_nil]; exact hp⟩
  | cons w ws ih =>
    rw [List.length_cons] at hmax
    have hput := putArgv_ok (s := s) (i := s.cur_argv - 1) (by omega) (.word w)
    obtain ⟨s', hfill, h1, h2, h3⟩ := @ih
      { s with cur_argv := s.cur_argv + 1, new_argv := fun j => if j = s.cur_argv - 1 then .word w else s.new_argv j }
        (pre ++ [w])
      (by rw [List.length_append, hs]; rfl)
      (by
        simp only [List.length_append, List.length_singleton, hs, Nat.add_sub_cancel, map_range_put, hp, List.map_append,
          List.map_singleton])
      (by rw [List.length_append, List.length_singleton]; omega)
    rw [List.append_assoc] at h2 h3
    refine ⟨s', ?_, h1, h2, h3⟩
    unfold fill
    rw [hput, ok_bind]
    exact hfill

theorem main_spec {junk : Nat → UInt8} {argv : List Str} (h1 : 2 ≤ argv.length) (h2 : argv.length < MAXARG) :
    (Fits argv.length (pieces input) → main fork junk argv input =
      .ok (execs fork argv.tail 0 (pieces input).dropLast)) ∧
    (¬ Fits argv.length (pieces input) → ∃ e, main fork junk argv input = .error e) := by
  have hlen : argv.length = argv.tail.length + 1 := by
    rw [List.length_tail]
    omega
  obtain ⟨s, hfill, hcur, harg, hptrs⟩ :=
    @fill_spec { cur_buf := 0, cur_argv := 1, buf := junk, new_argv := fun _ => .junk } argv.tail [] rfl rfl
    (by simp only [List.length_nil]; omega)
  rw [List.nil_append] at harg hptrs
  have hline :
    Line argv.tail [] { s with new_argv := fun j => if j = s.cur_argv - 1 then .buf 0 else s.new_argv j } := by
    refine ⟨hcur, harg, rfl, ?_, by rw [hcur]; exact Nat.zero_le _, ?_⟩
    · simp only [harg, Nat.add_sub_cancel, map_range_put, hptrs, starts, List.map_cons, List.map_nil]
    · simp only [harg]
      omega
  have hloop := @loop_spec fork 0 _ _ input _ hline List.not_mem_nil
  rw [List.nil_append, ← hlen] at hloop
  unfold main
  rw [hfill, ok_bind, putArgv_ok (by omega), ok_bind]
  exact hloop

theorem mem_fields {c : UInt8} (hc : c ≠ space) : (∃ f ∈ fields line, c ∈ f) ↔ c ∈ line := by
  induction line with
  | nil => simp [fields, List.splitOn]
  | cons d ds ih =>
    unfold fields List.splitOn at ih ⊢
    rw [List.splitOnP_cons_eq_if_modifyHead]
    by_cases e : d = space
    · rw [if_pos (by simpa using e), List.mem_cons, ← ih]
      have : c ≠ d := by rw [e]; exact hc
      simp [this]
    · rw [if_neg (by simpa using e), List.mem_cons, ← ih]
      obtain ⟨hd, tl, hs⟩ := List.exists_cons_of_ne_nil (List.splitOnP_ne_nil (fun x => x == space) ds)
      rw [hs, List.modifyHead_cons]
      simp only [List.mem_cons, exists_eq_or_imp, or_assoc]

/-- The fields reach exec whole when there is no NUL in them. -/
theorem cut_fields : (fields line).map cut = fields line ↔ (0 : UInt8) ∉ line := by
  have hid : (fields line).map cut = (fields line).map id ↔ ∀ f ∈ fields line, cut f = id f := List.map_inj_left
  rw [List.map_id] at hid
  rw [← mem_fields (c := 0) (by decide), hid]
  unfold cut
  simp only [id, List.takeWhile_eq_self_iff, bne_iff_ne, ne_eq, not_exists, not_and]
  constructor
  · intro h f hf h0
    exact h f hf 0 h0 rfl
  · rintro h f hf c hc rfl
    exact h f hf hc

theorem execs_length (fork : Nat → Bool) (words : List Str) (n : Nat) (lines : List Str) :
    (execs fork words n lines).length ≤ lines.length := by
  induction lines generalizing n with
  | nil => exact Nat.le_refl _
  | cons line lines ih =>
    have := ih (n + 1)
    unfold execs
    split <;> simp only [List.length_cons] <;> omega

theorem execs_iff {lines : List Str} : execs fork words n lines = lines.map (fun line => words ++ fields line) ↔
    (∀ line ∈ lines, (0 : UInt8) ∉ line) ∧ ∀ k < lines.length, fork (n + k) = true := by
  induction lines generalizing n with
  | nil => exact ⟨fun _ => ⟨fun l hl => absurd hl List.not_mem_nil, fun k hk => absurd hk (Nat.not_lt_zero k)⟩,
      fun _ => rfl⟩
  | cons line lines ih =>
    have hforks : (∀ k < (line :: lines).length, fork (n + k) = true) ↔ fork n = true ∧ ∀ k < lines.length,
      fork (n + 1 + k) = true := by
      constructor
      · intro h
        refine ⟨h 0 (Nat.zero_lt_succ _), fun k hk => ?_⟩
        rw [Nat.add_right_comm]
        exact h (k + 1) (Nat.succ_lt_succ hk)
      · intro ⟨h0, h⟩ k hk
        cases k with
        | zero => exact h0
        | succ k =>
          rw [← Nat.add_assoc, Nat.add_right_comm]
          exact h k (Nat.lt_of_succ_lt_succ hk)
    rw [hforks, List.forall_mem_cons, List.map_cons]
    unfold execs
    by_cases hf : fork n = true
    · rw [if_pos hf, List.cons_eq_cons, List.append_cancel_left_eq, cut_fields, ih]
      simp only [hf, true_and, and_assoc]
    · rw [if_neg hf]
      constructor
      · intro h
        have h1 := congrArg List.length h
        have h2 := execs_length fork words (n + 1) lines
        simp only [List.length_cons, List.length_map] at h1
        omega
      · exact fun h => absurd h.2.1 hf

/-- One exec per line, with the words of argv and the fields of the line, and no store outside the
    arrays: exactly when everything fits, there is no NUL in a line, and every fork makes a child. -/
theorem execs_lines {junk : Nat → UInt8} {argv : List Str} (h1 : 2 ≤ argv.length) (h2 : argv.length < MAXARG) :
    main fork junk argv input = .ok ((pieces input).dropLast.map fun line => argv.tail ++ fields line) ↔
      Fits argv.length (pieces input) ∧ (∀ line ∈ (pieces input).dropLast, (0 : UInt8) ∉ line) ∧
        ∀ k < (pieces input).dropLast.length, fork k = true := by
  obtain ⟨hok, herr⟩ := @main_spec fork input junk argv h1 h2
  have hiff := @execs_iff fork 0 argv.tail (pieces input).dropLast
  simp only [Nat.zero_add] at hiff
  rw [← hiff]
  constructor
  · intro h
    by_cases hf : Fits argv.length (pieces input)
    · rw [hok hf] at h
      exact ⟨hf, Except.ok.inj h⟩
    · obtain ⟨e, he⟩ := herr hf
      rw [he] at h
      cases h
  · intro ⟨hf, he⟩
    rw [hok hf, he]

/-- The argument `echo`, and two lines of input. -/
theorem execs_two_lines : (2 ≤ [[120], [101, 99, 104, 111]].length ∧ [[120], [101, 99, 104, 111]].length < MAXARG) ∧
    (main (fun _ => true) (fun _ => 7) [[120], [101, 99, 104, 111]] [97, 32, 98, 10, 99, 10] =
        .ok ((pieces [97, 32, 98, 10, 99, 10]).dropLast.map fun line =>
          [[120], [101, 99, 104, 111]].tail ++ fields line) ↔
      Fits [[120], [101, 99, 104, 111]].length (pieces [97, 32, 98, 10, 99, 10]) ∧
        (∀ line ∈ (pieces [97, 32, 98, 10, 99, 10]).dropLast, (0 : UInt8) ∉ line) ∧
        ∀ k < (pieces [97, 32, 98, 10, 99, 10]).dropLast.length, (fun _ => true) k = true) :=
  ⟨⟨by decide, by decide⟩, execs_lines (by decide) (by decide)⟩

/-- A line of 128 bytes: the NUL for it goes behind the buffer. -/
theorem long_line : main (fun _ => true) (fun _ => 0) [[120], [101]] (List.replicate 128 97 ++ [newline]) ≠
    .ok ((pieces (List.replicate 128 97 ++ [newline])).dropLast.map fun line =>
      [[120], [101]].tail ++ fields line) := by
  have h : (main (fun _ => true) (fun _ => 0) [[120], [101]] (List.replicate 128 97 ++ [newline])).isOk = false := by
    decide +kernel
  intro e
  rw [e] at h
  cases h

end Xv6Labs.Xargs
