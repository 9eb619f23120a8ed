import Mathlib.Data.List.Nodup
import Mathlib.Data.List.Perm.Basic
import Mathlib.Logic.Function.Basic
import Mathlib.Tactic.Common

/-!
# Singly linked rings

Items in a ring, each of which knows only the next one. A ring can be read from any of its items on, and it is changed behind an item: one
is put in there, or the next one is taken out.
-/

namespace Xv6SnifferBakery.Lib

variable {α : Type} {next next' : α → α} {a b x z : α} {xs ys : List α}

/-- From `a` through `xs` to `z`. -/
def Path (next : α → α) : α → List α → α → Prop
  | a, [], z => next a = z
  | a, b :: xs, z => next a = b ∧ Path next b xs z

/-- The ring of `a` and `xs`, in order. -/
def IsCycle (next : α → α) (a : α) (xs : List α) : Prop := Path next a xs a

theorem path_append : Path next a (xs ++ b :: ys) z ↔ Path next a xs b ∧ Path next b ys z := by
  induction xs generalizing a with
  | nil => rfl
  | cons x xs ih => simp only [List.cons_append, Path, ih, and_assoc]

theorem Path.congr (h : Path next a xs z) (heq : ∀ x ∈ a :: xs, next' x = next x) : Path next' a xs z := by
  induction xs generalizing a with
  | nil => exact (heq a (List.mem_singleton_self a)).trans h
  | cons x xs ih =>
    exact ⟨(heq a (List.mem_cons_self ..)).trans h.1, ih h.2 (fun y hy => heq y (List.mem_cons_of_mem _ hy))⟩

theorem Path.next_mem (h : Path next a xs z) (hx : x ∈ a :: xs) : next x ∈ z :: xs := by
  induction xs generalizing a with
  | nil =>
    obtain rfl := List.mem_singleton.mp hx
    exact List.mem_singleton.mpr h
  | cons y ys ih =>
    rcases List.mem_cons.mp hx with rfl | hx
    · rw [h.1]
      exact List.mem_cons_of_mem _ (List.mem_cons_self ..)
    · rcases List.mem_cons.mp (ih h.2 hx) with hz | hy
      · rw [hz]
        exact List.mem_cons_self ..
      · exact List.mem_cons_of_mem _ (List.mem_cons_of_mem _ hy)

theorem Path.exists_prev (h : Path next a xs z) (hb : b ∈ z :: xs) : ∃ x ∈ a :: xs, next x = b := by
  induction xs generalizing a with
  | nil =>
    obtain rfl := List.mem_singleton.mp hb
    exact ⟨a, List.mem_singleton_self a, h⟩
  | cons y ys ih =>
    have hcases : b = y ∨ b ∈ z :: ys := by
      simp only [List.mem_cons] at hb ⊢
      tauto
    rcases hcases with rfl | hb
    · exact ⟨a, List.mem_cons_self .., h.1⟩
    · obtain ⟨x, hx, hnext⟩ := ih h.2 hb
      exact ⟨x, List.mem_cons_of_mem _ hx, hnext⟩

namespace IsCycle

theorem exists_prev (h : IsCycle next a xs) (hb : b ∈ a :: xs) : ∃ x ∈ a :: xs, next x = b := Path.exists_prev h hb

/-- Only the last item leads to the first. -/
theorem last_of_next (h : IsCycle next a xs) (hnodup : (a :: xs).Nodup) {pre post : List α} (hsplit : a :: xs = pre ++ x :: post)
    (hx : next x = a) : post = [] := by
  cases post with
  | nil => rfl
  | cons y post =>
    have hxy : next x = y := by
      cases pre with
      | nil =>
        cases hsplit
        exact h.1
      | cons a' pre =>
        cases hsplit
        exact (path_append.mp h).2.1
    rw [hx] at hxy
    rw [hsplit, ← hxy] at hnodup
    have ha : a ∈ pre ++ [x] := by
      cases pre with
      | nil => simp [(List.cons.inj hsplit).1]
      | cons a' pre => simp [(List.cons.inj hsplit).1]
    rw [show pre ++ x :: a :: post = (pre ++ [x]) ++ a :: post by simp] at hnodup
    exact absurd rfl ((List.nodup_append.mp hnodup).2.2 a ha a (List.mem_cons_self ..))

theorem next_mem (h : IsCycle next a xs) (hx : x ∈ a :: xs) : next x ∈ a :: xs := Path.next_mem h hx

/-- A ring read from another item on. -/
theorem rotate (h : IsCycle next a xs) (hb : b ∈ a :: xs) : ∃ ys, IsCycle next b ys ∧ (b :: ys).Perm (a :: xs) := by
  rcases List.mem_cons.mp hb with rfl | hb
  · exact ⟨xs, h, .refl _⟩
  · obtain ⟨l, r, rfl⟩ := List.append_of_mem hb
    obtain ⟨h1, h2⟩ := path_append.mp h
    refine ⟨r ++ a :: l, path_append.mpr ⟨h2, h1⟩, ?_⟩
    have h3 : (b :: r ++ a :: l).Perm (a :: l ++ b :: r) := List.perm_append_comm
    exact h3

/-- Another first item has the same ring behind it. -/
theorem congr (h : IsCycle next a xs) (heq : ∀ x ∈ a :: xs, next' x = next x) : IsCycle next' a xs := Path.congr h heq

/-- An item is put in behind the first one. -/
theorem insert [DecidableEq α] (h : IsCycle next a xs) (hb : b ∉ a :: xs) (hnodup : (a :: xs).Nodup) :
    IsCycle (Function.update (Function.update next b (next a)) a b) a (b :: xs) := by
  have hne : b ≠ a := fun he => hb (he ▸ List.mem_cons_self ..)
  refine ⟨Function.update_self .., ?_⟩
  have hb' : Function.update (Function.update next b (next a)) a b b = next a := by
    rw [Function.update_of_ne hne, Function.update_self]
  cases xs with
  | nil => exact hb'.trans h
  | cons x xs =>
    refine ⟨hb'.trans h.1, h.2.congr (fun y hy => ?_)⟩
    have hya : y ≠ a := fun he => (List.nodup_cons.mp hnodup).1 (he ▸ hy)
    have hyb : y ≠ b := fun he => hb (List.mem_cons_of_mem _ (he ▸ hy))
    rw [Function.update_of_ne hya, Function.update_of_ne hyb]

/-- The item behind the first one is taken out. -/
theorem remove [DecidableEq α] (h : IsCycle next a (b :: xs)) (hnodup : (a :: b :: xs).Nodup) :
    IsCycle (Function.update next a (next b)) a xs := by
  obtain ⟨hab, h⟩ := h
  cases xs with
  | nil =>
    change Function.update next a (next b) a = a
    rw [Function.update_self]
    exact h
  | cons x xs =>
    refine ⟨(Function.update_self ..).trans h.1, h.2.congr (fun y hy => ?_)⟩
    have hya : y ≠ a := fun he => (List.nodup_cons.mp hnodup).1 (he ▸ List.mem_cons_of_mem _ hy)
    rw [Function.update_of_ne hya]

end IsCycle

/-! ## Search -/

/-- The first item from `a` on at which a loop stops, for a number of turns. -/
def search (stop : α → Prop) [DecidablePred stop] (next : α → α) : Nat → α → Option α
  | 0, _ => none
  | n + 1, a => if stop a then some a else search stop next n (next a)

variable {stop : α → Prop} [DecidablePred stop] {n : Nat}

theorem search_stop (h : search stop next n a = some x) : stop x := by
  induction n generalizing a with
  | zero => cases h
  | succ n ih =>
    unfold search at h
    split at h
    · rename_i hs
      obtain rfl := Option.some.inj h
      exact hs
    · exact ih h

/-- A loop along a path that it must stop on stops there, at the first item that stops it. -/
theorem Path.search (h : Path next a xs z) (hstop : ∃ x ∈ a :: xs, stop x) (hn : xs.length < n) :
    ∃ x pre post, Lib.search stop next n a = some x ∧ a :: xs = pre ++ x :: post ∧ ∀ y ∈ pre, ¬stop y := by
  induction xs generalizing a n with
  | nil =>
    obtain ⟨n, rfl⟩ := Nat.exists_eq_succ_of_ne_zero (Nat.ne_zero_of_lt hn)
    obtain ⟨x, hx, hs⟩ := hstop
    obtain rfl := List.mem_singleton.mp hx
    exact ⟨x, [], [], by rw [Lib.search, if_pos hs], rfl, by simp⟩
  | cons b xs ih =>
    obtain ⟨n, rfl⟩ := Nat.exists_eq_succ_of_ne_zero (Nat.ne_zero_of_lt hn)
    by_cases hs : stop a
    · exact ⟨a, [], b :: xs, by rw [Lib.search, if_pos hs], rfl, by simp⟩
    · have hrest : ∃ x ∈ b :: xs, stop x := by
        obtain ⟨x, hx, hsx⟩ := hstop
        rcases List.mem_cons.mp hx with rfl | hx
        · exact absurd hsx hs
        · exact ⟨x, hx, hsx⟩
      obtain ⟨x, pre, post, hfound, hsplit, hpre⟩ := ih h.2 hrest (Nat.lt_of_succ_lt_succ hn)
      refine ⟨x, a :: pre, post, ?_, by rw [hsplit]; rfl, ?_⟩
      · rw [Lib.search, if_neg hs, h.1, hfound]
      · intro y hy
        rcases List.mem_cons.mp hy with rfl | hy
        · exact hs
        · exact hpre y hy

end Xv6SnifferBakery.Lib
