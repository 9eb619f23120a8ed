import Mathlib.Data.Finset.Card
import Mathlib.Tactic.Common

/-!
# Exclusive ownership

An allocator marks what it hands out, and places refer to what they own. Ownership is exclusive when everything that is referred to is
marked, no two places refer to the same item, and no place refers to an item that the allocator keeps for itself.
-/

namespace Xv6SnifferBakery.Lib

variable {ι β : Type}

structure Exclusive (reserved used : β → Prop) (own : ι → Option β) : Prop where
  used_of : ∀ x b, own x = some b → used b
  unique : ∀ x y b, own x = some b → own y = some b → x = y
  apart : ∀ b, reserved b → used b ∧ ∀ x, own x ≠ some b

namespace Exclusive

variable {reserved used used' : β → Prop} {own own' : ι → Option β}

/-- An item that is not marked is nobody's. -/
theorem fresh (h : Exclusive reserved used own) {b : β} (hb : ¬used b) (x : ι) : own x ≠ some b :=
  fun hx => hb (h.used_of x b hx)

/-- References are dropped, and nothing that is still referred to or reserved loses its mark. -/
theorem drop (h : Exclusive reserved used own) (hown : ∀ x b, own' x = some b → own x = some b)
    (hused : ∀ b, used b → ¬used' b → ¬reserved b ∧ ∀ x, own' x ≠ some b) : Exclusive reserved used' own' where
  used_of x b hx := by
    by_contra hb
    exact (hused b (h.used_of x b (hown x b hx)) hb).2 x hx
  unique x y b hx hy := h.unique x y b (hown x b hx) (hown y b hy)
  apart b hr := by
    refine ⟨?_, fun x hx => (h.apart b hr).2 x (hown x b hx)⟩
    by_contra hb
    exact (hused b (h.apart b hr).1 hb).1 hr

/-- More is marked, and nobody refers to anything new. -/
theorem mark (h : Exclusive reserved used own) (hused : ∀ b, used b → used' b) (hown : ∀ x, own' x = own x) :
    Exclusive reserved used' own' :=
  h.drop (fun x b hx => by rwa [hown] at hx) (fun b hb hb' => absurd (hused b hb) hb')

/-- One place gets a reference to an item that is marked and that nobody refers to. -/
theorem grant (h : Exclusive reserved used own) {b : β} (x₀ : ι) (hb : used b) (hr : ¬reserved b) (hfree : ∀ x, own x ≠ some b)
    (hown : ∀ x c, own' x = some c → own x = some c ∨ (x = x₀ ∧ c = b)) : Exclusive reserved used own' where
  used_of x c hx := by
    rcases hown x c hx with hx | ⟨-, rfl⟩
    · exact h.used_of x c hx
    · exact hb
  unique x y c hx hy := by
    rcases hown x c hx with hx | ⟨rfl, rfl⟩
    · rcases hown y c hy with hy | ⟨-, rfl⟩
      · exact h.unique x y c hx hy
      · exact absurd hx (hfree x)
    · rcases hown y c hy with hy | ⟨rfl, -⟩
      · exact absurd hy (hfree y)
      · rfl
  apart c hc := by
    refine ⟨(h.apart c hc).1, ?_⟩
    intro x hx
    rcases hown x c hx with hx | ⟨-, rfl⟩
    · exact (h.apart c hc).2 x hx
    · exact hr hc

/-- When everything that is marked has an owner, there are as many owners as marked items. -/
theorem card_owners (h : Exclusive reserved used own) (places : Finset ι) (items : Finset β) (hplaces : ∀ x b, own x = some b → x ∈ places)
    (hitems : ∀ b, b ∈ items ↔ used b) (howned : ∀ b, used b → ∃ x, own x = some b) :
    (places.filter (fun x => (own x).isSome)).card = items.card := by
  refine Finset.card_bij (fun x hx => (own x).get (Finset.mem_filter.mp hx).2) ?_ ?_ ?_
  · intro x hx
    exact (hitems _).mpr (h.used_of x _ (Option.some_get _).symm)
  · intro x hx y hy heq
    have hget : (own x).get (Finset.mem_filter.mp hx).2 = (own y).get (Finset.mem_filter.mp hy).2 := heq
    refine h.unique x y ((own x).get (Finset.mem_filter.mp hx).2) (Option.some_get _).symm ?_
    rw [hget]
    exact (Option.some_get _).symm
  · intro b hb
    obtain ⟨x, hx⟩ := howned b ((hitems b).mp hb)
    have hsome : (own x).isSome := by
      rw [hx]
      rfl
    refine ⟨x, Finset.mem_filter.mpr ⟨hplaces x b hx, hsome⟩, ?_⟩
    simp only [hx, Option.get_some]

end Exclusive

end Xv6SnifferBakery.Lib
