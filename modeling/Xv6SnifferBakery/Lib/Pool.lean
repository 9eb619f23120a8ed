import Mathlib.Algebra.BigOperators.Group.Finset.Basic
import Mathlib.Algebra.BigOperators.Intervals
import Mathlib.Data.Multiset.AddSub
import Mathlib.Algebra.Order.Group.Multiset
import Mathlib.Tactic.Abel

/-!
# Pools of indivisible resources

A resource (a page of memory, a block of a disk) is in exactly one place when the multiset of all places counts it once. A table
with finitely many slots, each empty or holding one resource, contributes the multiset `content n f`; the lemmas say how writing
one slot of the table moves one resource.
-/

namespace Xv6SnifferBakery.Lib

variable {α : Type}

/-- What one slot holds. -/
def slot (o : Option α) : Multiset α := o.elim 0 (fun a => {a})

@[simp] theorem slot_none : slot (none : Option α) = 0 := rfl
@[simp] theorem slot_some (a : α) : slot (some a) = {a} := rfl

/-- What the first `n` slots of a table hold. -/
def content (n : Nat) (f : Nat → Option α) : Multiset α := ∑ i ∈ Finset.range n, slot (f i)

/-- Replacing one of `n` holders replaces what it holds: no other holder changes. -/
theorem sum_update {β : Type} (holds : β → Multiset α) {n : Nat} (f : Nat → β) (i : Nat) (b : β) (hi : i < n) :
    ∑ j ∈ Finset.range n, holds (Function.update f i b j) + holds (f i) = ∑ j ∈ Finset.range n, holds (f j) + holds b := by
  have hmem : i ∈ Finset.range n := Finset.mem_range.mpr hi
  rw [← Finset.add_sum_erase _ _ hmem, ← Finset.add_sum_erase (Finset.range n) (fun j => holds (f j)) hmem]
  have hrest : ∑ j ∈ (Finset.range n).erase i, holds (Function.update f i b j) = ∑ j ∈ (Finset.range n).erase i, holds (f j) :=
    Finset.sum_congr rfl (fun j hj => by rw [Function.update_of_ne (Finset.ne_of_mem_erase hj)])
  rw [hrest, Function.update_self]
  abel

/-- Writing slot `i` of a table replaces what the slot held. -/
theorem content_update (n : Nat) (f : Nat → Option α) (i : Nat) (o : Option α) (hi : i < n) :
    content n (Function.update f i o) + slot (f i) = content n f + slot o :=
  sum_update slot f i o hi

/-- Filling an empty slot adds one resource. -/
theorem content_fill (n : Nat) (f : Nat → Option α) (i : Nat) (a : α) (hi : i < n) (hf : f i = none) :
    content n (Function.update f i (some a)) = content n f + {a} := by
  have h := content_update n f i (some a) hi
  rwa [hf, slot_none, add_zero, slot_some] at h

/-- Emptying a slot takes out what it held. -/
theorem content_clear (n : Nat) (f : Nat → Option α) (i : Nat) (hi : i < n) :
    content n (Function.update f i none) + slot (f i) = content n f := by
  have h := content_update n f i none hi
  rwa [slot_none, add_zero] at h

/-- Slots at or above the bound are not part of the content. -/
theorem content_congr {n : Nat} {f g : Nat → Option α} (h : ∀ i < n, f i = g i) : content n f = content n g :=
  Finset.sum_congr rfl (fun i hi => by rw [h i (Finset.mem_range.mp hi)])

/-- A table with only empty slots holds nothing. -/
theorem content_none {n : Nat} {f : Nat → Option α} (h : ∀ i < n, f i = none) : content n f = 0 :=
  Finset.sum_eq_zero (fun i hi => by rw [h i (Finset.mem_range.mp hi), slot_none])

/-- What a slot below the bound holds is part of the content. -/
theorem mem_content {n : Nat} {f : Nat → Option α} {a : α} : a ∈ content n f ↔ ∃ i < n, f i = some a := by
  unfold content
  rw [Multiset.mem_sum]
  constructor
  · rintro ⟨i, hi, ha⟩
    refine ⟨i, Finset.mem_range.mp hi, ?_⟩
    cases hf : f i with
    | none => simp [hf] at ha
    | some b => simp only [hf, slot_some, Multiset.mem_singleton] at ha; rw [ha]
  · rintro ⟨i, hi, hf⟩
    exact ⟨i, Finset.mem_range.mpr hi, by simp [hf]⟩

/-- When a table holds no resource twice, two slots that hold the same resource are one slot. -/
theorem slot_injective {n : Nat} {f : Nat → Option α} {i j : Nat} {a : α} (hn : (content n f).Nodup) (hi : i < n) (hj : j < n)
    (hfi : f i = some a) (hfj : f j = some a) : i = j := by
  by_contra hne
  have hj' : Function.update f i none j = some a := by rw [Function.update_of_ne (Ne.symm hne), hfj]
  have hmem : a ∈ content n (Function.update f i none) := mem_content.mpr ⟨j, hj, hj'⟩
  rw [← content_clear n f i hi, hfi, slot_some, Multiset.nodup_add] at hn
  exact Multiset.disjoint_right.mp hn.2.2 (Multiset.mem_singleton_self a) hmem

/-- A table of `a * b` slots seen as `a` tables of `b` slots. -/
theorem sum_content_blocks (a b : Nat) (f : Nat → Option α) :
    ∑ i ∈ Finset.range a, content b (fun j => f (i * b + j)) = content (a * b) f := by
  induction a with
  | zero => simp [content]
  | succ a ih =>
    unfold content at ih ⊢
    rw [Finset.sum_range_succ, ih, Nat.succ_mul, Finset.sum_range_add]

end Xv6SnifferBakery.Lib
