/-
  Xv6Labs.Lib.Codes — texts that can be taken apart again.

  `Delimits P f`: where the text `f a` of an `a` with `P` ends can be told whatever follows, so
  that `a` and the rest can be read off. Texts one after the other then give the list back
  (`Delimits.flatMap_inj`). `Block`: one stretch for each index, with the index at its head;
  the concatenation gives the stretches back (`blocks_inj`).
-/

import Mathlib.Data.List.TakeWhile

namespace Xv6Labs.Lib

variable {α β : Type}

/-! ## Cutting a list in two -/

/-- The first stretch has `p` throughout, and the second does not start with it. -/
theorem split_inj {p : β → Bool} {xs ys r r' : List β} (hx : ∀ c ∈ xs, p c = true) (hy : ∀ c ∈ ys, p c = true)
    (hr : ∀ c ∈ r.head?, p c = false)
    (hr' : ∀ c ∈ r'.head?, p c = false) (e : xs ++ r = ys ++ r') : xs = ys ∧ r = r' := by
  have hnil : ∀ {l : List β}, (∀ c ∈ l.head?, p c = false) → l.takeWhile p = [] := fun {l} h => by
    cases l with
    | nil => rfl
    | cons c l => exact List.takeWhile_cons_of_neg (by rw [h c rfl]; exact Bool.false_ne_true)
  have h := congrArg (List.takeWhile p) e
  rw [List.takeWhile_append_of_pos hx, List.takeWhile_append_of_pos hy, hnil hr, hnil hr', List.append_nil,
    List.append_nil] at h
  subst h
  exact ⟨rfl, List.append_cancel_left e⟩

/-! ## Texts one after the other -/

def Delimits (P : α → Prop) (f : α → List β) : Prop := ∀ a b, P a → P b → ∀ r r', f a ++ r = f b ++ r' → a = b ∧
    r = r'

theorem Delimits.flatMap_inj {P : α → Prop} {f : α → List β} (h : Delimits P f) (hne : ∀ a, f a ≠ []) : ∀ xs ys :
    List α, (∀ a ∈ xs, P a) → (∀ b ∈ ys, P b) →
    xs.flatMap f = ys.flatMap f → xs = ys := by
  intro xs
  induction xs with
  | nil =>
    intro ys _ _ e
    cases ys with
    | nil => rfl
    | cons b ys => exact absurd (List.append_eq_nil_iff.mp e.symm).1 (hne b)
  | cons a xs ih =>
    intro ys hx hy e
    cases ys with
    | nil => exact absurd (List.append_eq_nil_iff.mp e).1 (hne a)
    | cons b ys =>
      rw [List.flatMap_cons, List.flatMap_cons] at e
      obtain ⟨rfl, er⟩ := h a b (hx a (List.mem_cons_self ..)) (hy b (List.mem_cons_self ..)) _ _ e
      rw [ih ys (fun c hc => hx c (List.mem_cons_of_mem a hc)) (fun c hc => hy c (List.mem_cons_of_mem a hc)) er]

/-! ## Stretches with their index at the head -/

/-- Stretch `i` is empty, or it has one element that is a head, the first one, with index `i`. -/
def Block (head : α → Bool) (ix : α → Nat) (i : Nat) (l : List α) : Prop :=
  l = [] ∨ ∃ a r, l = a :: r ∧ head a = true ∧ ix a = i ∧ ∀ x ∈ r, head x = false

variable {head : α → Bool} {ix : α → Nat} {f g : Nat → List α}

/-- What follows stretch `s` starts with a head of a later one. -/
theorem block_rest (hf : ∀ i, Block head ix i (f i)) : ∀ n s, ∀ a ∈ ((List.range' s n).flatMap f).head?,
    head a = true ∧ s ≤ ix a := by
  intro n
  induction n with
  | zero => exact fun s a h => by cases h
  | succ n ih =>
    intro s a h
    rw [List.range'_succ, List.flatMap_cons] at h
    rcases hf s with e | ⟨b, r, e, hb, hi, -⟩
    · rw [e, List.nil_append] at h
      obtain ⟨h1, h2⟩ := ih (s + 1) a h
      exact ⟨h1, by omega⟩
    · rw [e] at h
      cases h
      exact ⟨hb, by omega⟩

theorem blocks_inj (hf : ∀ i, Block head ix i (f i)) (hg : ∀ i, Block head ix i (g i)) :
    ∀ n s, (List.range' s n).flatMap f = (List.range' s n).flatMap g → ∀ i, s ≤ i → i < s + n → f i = g i := by
  intro n
  induction n with
  | zero =>
    intro s _ i h1 h2
    omega
  | succ n ih =>
    intro s e i h1 h2
    rw [List.range'_succ, List.flatMap_cons, List.flatMap_cons] at e
    have hrest : ∀ {f : Nat → List α}, (∀ i, Block head ix i (f i)) → ∀ a r,
      (List.range' (s + 1) n).flatMap f = a :: r → ix a ≠ s := fun h a r e => by
      have := block_rest h n (s + 1) a (by rw [e]; rfl)
      omega
    have hhead : ∀ {f : Nat → List α}, (∀ i, Block head ix i (f i)) → ∀ a ∈ ((List.range' (s + 1) n).flatMap f).head?,
      (!head a) = false := fun h a ha => by
      rw [(block_rest h n (s + 1) a ha).1]
      rfl
    obtain ⟨hs, ht⟩ : f s = g s ∧ (List.range' (s + 1) n).flatMap f = (List.range' (s + 1) n).flatMap g := by
      rcases hf s with ef | ⟨a, r, ef, -, hi, hr⟩ <;> rcases hg s with eg | ⟨b, r', eg, -, hi', hr'⟩
      · rw [ef, eg] at e
        exact ⟨by rw [ef, eg], e⟩
      · rw [ef, eg] at e
        exact absurd hi' (hrest hf b _ e)
      · rw [ef, eg] at e
        exact absurd hi (hrest hg a _ e.symm)
      · rw [ef, eg, List.cons_append, List.cons_append] at e
        obtain ⟨rfl, e1⟩ := List.cons.inj e
        obtain ⟨rfl, e2⟩ := split_inj (p := fun x => !head x) (fun x hx => by rw [hr x hx]; rfl)
          (fun x hx => by rw [hr' x hx]; rfl) (hhead hf) (hhead hg) e1
        exact ⟨by rw [ef, eg], e2⟩
    by_cases his : i = s
    · rw [his, hs]
    · exact ih (s + 1) ht i (by omega) (by omega)

end Xv6Labs.Lib
