import Xv6SnifferBakery.Lib.Pool

/-!
# Reference counts

A table of reference counts is balanced when every count is the number of references there are. Taking a reference adds one to both
sides, giving one up takes one off both; moving a reference between holders changes neither.
-/

namespace Xv6SnifferBakery.Lib

variable {ι : Type} [DecidableEq ι]

/-- Every count is the number of references. -/
def Balanced (ref : ι → Nat) (refs : Multiset ι) : Prop := ∀ i, ref i = refs.count i

namespace Balanced

variable {ref : ι → Nat} {refs refs' : Multiset ι} {i : ι}

theorem congr (h : Balanced ref refs) (he : refs' = refs) : Balanced ref refs' := by
  rw [he]
  exact h

/-- One more reference, and one more in the count. -/
theorem take (h : Balanced ref refs) (i : ι) : Balanced (Function.update ref i (ref i + 1)) ({i} + refs) := by
  intro j
  rw [Multiset.count_add, Multiset.count_singleton, Function.update_apply]
  by_cases hj : j = i
  · rw [if_pos hj, if_pos hj, hj, h i]
    omega
  · rw [if_neg hj, if_neg hj, h j]
    omega

/-- One reference less, and one less in the count. -/
theorem give (h : Balanced ref ({i} + refs)) : Balanced (Function.update ref i (ref i - 1)) refs := by
  intro j
  have hj := h j
  rw [Multiset.count_add, Multiset.count_singleton] at hj
  rw [Function.update_apply]
  by_cases hji : j = i
  · rw [if_pos hji] at hj ⊢
    rw [← hji]
    omega
  · rw [if_neg hji] at hj ⊢
    omega

theorem pos_iff (h : Balanced ref refs) : 0 < ref i ↔ i ∈ refs := by
  rw [h i]
  exact Multiset.count_pos

/-- Who gives up the only reference leaves none. -/
theorem last (h : Balanced ref ({i} + refs)) (hone : ref i = 1) : i ∉ refs := by
  have hi := h i
  rw [Multiset.count_add, Multiset.count_singleton_self] at hi
  exact Multiset.count_eq_zero.mp (by omega)

end Balanced

/-- How often a table holds a resource is the number of its slots with it. -/
theorem count_content (n : Nat) (f : Nat → Option ι) (i : ι) : (content n f).count i = (List.range n).countP (fun j => f j = some i) := by
  induction n with
  | zero => rfl
  | succ n ih =>
    unfold content at ih ⊢
    rw [Finset.sum_range_succ, Multiset.count_add, ih, List.range_succ, List.countP_append]
    congr 1
    cases hf : f n with
    | none => simp [hf]
    | some a => by_cases ha : a = i <;> simp [hf, ha, Multiset.count_singleton, eq_comm]

end Xv6SnifferBakery.Lib
