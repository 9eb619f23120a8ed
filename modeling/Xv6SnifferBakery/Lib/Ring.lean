import Mathlib.Data.List.Basic
import Mathlib.Data.Nat.ModEq
import Mathlib.Logic.Function.Basic
import Mathlib.Tactic.Common

/-!
# Rings with free-running counters

A ring of `cap` slots is read and written through counters that are never reduced modulo `cap` but only modulo the range of their
machine integer. `Stores slots cap r q` says that the slots from counter `r` on hold the queue `q`, its front first. As long as `cap`
divides the range, a counter that wraps around still names the same slot.
-/

namespace Xv6SnifferBakery.Lib.Ring

variable {α : Type} {slots : Nat → α} {cap r : Nat} {q : List α} {x : α}

/-- The slots from counter `r` on hold `q`. -/
def Stores (slots : Nat → α) (cap r : Nat) (q : List α) : Prop :=
  ∀ k x, q[k]? = some x → slots ((r + k) % cap) = x

/-- What the slots hold between two counters that are `len` apart. -/
def contents (slots : Nat → α) (cap r len : Nat) : List α := (List.range len).map (fun k => slots ((r + k) % cap))

theorem Stores.nil : Stores slots cap r [] := by
  intro k x hk
  simp at hk

/-- A stored queue is what the slots hold. -/
theorem Stores.contents (h : Stores slots cap r q) : contents slots cap r q.length = q := by
  refine List.ext_getElem (by simp [Ring.contents]) ?_
  intro k h1 h2
  simp only [Ring.contents, List.getElem_map, List.getElem_range]
  exact h k _ (List.getElem?_eq_getElem h2)

/-- Writing the slot behind the queue extends it, as long as a slot is left: no other slot of the queue is the same one. -/
theorem Stores.push (h : Stores slots cap r q) (hlt : q.length < cap) (x : α) :
    Stores (Function.update slots ((r + q.length) % cap) x) cap r (q ++ [x]) := by
  intro k y hk
  by_cases hlast : k = q.length
  · subst hlast
    rw [List.getElem?_append_right (Nat.le_refl _), Nat.sub_self, List.getElem?_singleton, if_pos rfl] at hk
    rw [Function.update_self]
    exact Option.some.inj hk
  · have hkq : k < q.length := by
      have := (List.getElem?_eq_some_iff.mp hk).1
      rw [List.length_append, List.length_singleton] at this
      omega
    rw [List.getElem?_append_left hkq] at hk
    have hne : (r + k) % cap ≠ (r + q.length) % cap := by
      intro heq
      have hmod : k ≡ q.length [MOD cap] := Nat.ModEq.add_left_cancel' r heq
      have := Nat.ModEq.eq_of_lt_of_lt hmod (by omega) hlt
      omega
    rw [Function.update_of_ne hne]
    exact h k y hk

/-- The front of the queue is in the slot of the counter. -/
theorem Stores.front (h : Stores slots cap r (x :: q)) : slots (r % cap) = x := h 0 x rfl

/-- Advancing the counter drops the front. -/
theorem Stores.pop (h : Stores slots cap r (x :: q)) : Stores slots cap (r + 1) q := by
  intro k y hk
  have := h (k + 1) y hk
  rwa [Nat.add_comm k 1, ← Nat.add_assoc] at this

/-- A counter that wraps around its range names the same slots. -/
theorem Stores.wrap {range : Nat} (hdvd : cap ∣ range) (h : Stores slots cap r q) : Stores slots cap (r % range) q := by
  intro k y hk
  have := h k y hk
  rwa [Nat.add_mod, ← Nat.mod_mod_of_dvd r hdvd, ← Nat.add_mod] at this

end Xv6SnifferBakery.Lib.Ring
