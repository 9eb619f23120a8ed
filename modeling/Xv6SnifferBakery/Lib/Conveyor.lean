import Mathlib.Data.List.Nodup
import Mathlib.Logic.Function.Basic
import Mathlib.Tactic.Common

/-!
# Conveyors

Stages `0, ..., n - 1` of items, each a queue. An item enters at the end of stage 0 and moves from the front of one stage to the end
of the next. The items that have reached a stage, in the order in which they did, are those of the later stages followed by its own:
a move adds one item to one of these lists, and every such list is a prefix of the list of all items. So items never overtake.
-/

namespace Xv6SnifferBakery.Lib

variable {α β : Type}

/-! ## Order in a list -/

/-- One item comes before another in a list. -/
def Before (l : List α) (a b : α) : Prop := ∃ l₁ l₂, l = l₁ ++ l₂ ∧ a ∈ l₁ ∧ b ∈ l₂

theorem Before.mem {l : List α} {a b : α} (h : Before l a b) : a ∈ l ∧ b ∈ l := by
  obtain ⟨l₁, l₂, rfl, ha, hb⟩ := h
  exact ⟨List.mem_append_left _ ha, List.mem_append_right _ hb⟩

theorem Before.append {l : List α} {a b : α} (h : Before l a b) (r : List α) : Before (l ++ r) a b := by
  obtain ⟨l₁, l₂, rfl, ha, hb⟩ := h
  exact ⟨l₁, l₂ ++ r, List.append_assoc _ _ _, ha, List.mem_append_left _ hb⟩

/-- What holds between every two items of a list holds between one and a later one. -/
theorem Before.rel {l : List α} {a b : α} {R : α → α → Prop} (h : Before l a b) (hp : l.Pairwise R) : R a b := by
  obtain ⟨l₁, l₂, rfl, ha, hb⟩ := h
  exact (List.pairwise_append.mp hp).2.2 a ha b hb

/-- Two items of a list that are related one way only are in that order. -/
theorem before_of_rel {l : List α} {a b : α} {R : α → α → Prop} (hp : l.Pairwise R) (ha : a ∈ l) (hb : b ∈ l) (hne : a ≠ b)
    (hn : ¬R b a) : Before l a b := by
  obtain ⟨l₁, l₂, rfl⟩ := List.append_of_mem ha
  rcases List.mem_append.mp hb with hb | hb
  · exact absurd ((List.pairwise_append.mp hp).2.2 b hb a List.mem_cons_self) hn
  · refine ⟨l₁ ++ [a], l₂, by simp, by simp, ?_⟩
    rcases List.mem_cons.mp hb with rfl | hb
    · exact absurd rfl hne
    · exact hb

/-- The order of what some items of a list are mapped to is the order of the items. -/
theorem Before.of_filterMap {l : List α} {f : α → Option β} {a b : β} (h : Before (l.filterMap f) a b) :
    ∃ x y, Before l x y ∧ f x = some a ∧ f y = some b := by
  obtain ⟨m₁, m₂, hm, ha, hb⟩ := h
  obtain ⟨l₁, l₂, rfl, rfl, rfl⟩ := List.filterMap_eq_append_iff.mp hm
  obtain ⟨x, hx, hfx⟩ := List.mem_filterMap.mp ha
  obtain ⟨y, hy, hfy⟩ := List.mem_filterMap.mp hb
  exact ⟨x, y, ⟨l₁, l₂, rfl, hx, hy⟩, hfx, hfy⟩

/-! ## Stages -/

/-- The items that have reached stage `n - d`, the first to do so first. -/
def reachedAux (stage : Nat → List α) (n : Nat) : Nat → List α
  | 0 => []
  | d + 1 => reachedAux stage n d ++ stage (n - (d + 1))

/-- The items that have reached stage `k` of `n`. -/
def reached (stage : Nat → List α) (n k : Nat) : List α := reachedAux stage n (n - k)

variable {stage : Nat → List α} {n k : Nat}

theorem reached_end (h : n ≤ k) : reached stage n k = [] := by
  rw [reached, Nat.sub_eq_zero_of_le h, reachedAux]

theorem reached_step (h : k < n) : reached stage n k = reached stage n (k + 1) ++ stage k := by
  unfold reached
  rw [show n - k = n - (k + 1) + 1 by omega, reachedAux, show n - (n - (k + 1) + 1) = k by omega]

/-- Stages that agree from `k` on have been reached by the same items. -/
theorem reached_congr {stage' : Nat → List α} (h : ∀ j, k ≤ j → j < n → stage' j = stage j) :
    reached stage' n k = reached stage n k := by
  obtain ⟨d, hd⟩ : ∃ d, n - k = d := ⟨_, rfl⟩
  induction d generalizing k with
  | zero => rw [reached_end (by omega), reached_end (by omega)]
  | succ d ih =>
    have hk : k < n := by omega
    have hlater := ih (k := k + 1) (fun j hj hjn => h j (by omega) hjn) (by omega)
    rw [reached_step hk, reached_step hk, hlater, h k (Nat.le_refl k) hk]

theorem reached_prefix_step (h : k < n) : reached stage n (k + 1) <+: reached stage n k := by
  rw [reached_step h]
  exact List.prefix_append _ _

/-- What has reached a later stage has reached the earlier ones, in the same order. -/
theorem reached_antitone {j : Nat} (h : j ≤ k) : reached stage n k <+: reached stage n j := by
  induction h with
  | refl => exact List.prefix_refl _
  | @step m _ ih =>
    by_cases hm : m < n
    · exact (reached_prefix_step hm).trans ih
    · rw [reached_end (by omega)]
      exact List.nil_prefix

theorem mem_reached {a : α} : a ∈ reached stage n k ↔ ∃ j, k ≤ j ∧ j < n ∧ a ∈ stage j := by
  obtain ⟨d, hd⟩ : ∃ d, n - k = d := ⟨_, rfl⟩
  induction d generalizing k with
  | zero =>
    rw [reached_end (by omega)]
    constructor
    · intro h
      nomatch h
    · rintro ⟨j, h1, h2, -⟩
      omega
  | succ d ih =>
    rw [reached_step (by omega), List.mem_append, ih (by omega)]
    constructor
    · rintro (⟨j, h1, h2, h3⟩ | h)
      · exact ⟨j, by omega, h2, h3⟩
      · exact ⟨k, (Nat.le_refl _), by omega, h⟩
    · rintro ⟨j, h1, h2, h3⟩
      by_cases hj : j = k
      · exact Or.inr (hj ▸ h3)
      · exact Or.inl ⟨j, by omega, h2, h3⟩

/-- An item enters, at the end of the first stage. -/
def feed (stage : Nat → List α) (a : α) : Nat → List α := Function.update stage 0 (stage 0 ++ [a])

theorem reached_feed_zero (a : α) (hn : 0 < n) : reached (feed stage a) n 0 = reached stage n 0 ++ [a] := by
  have hlater : reached (feed stage a) n 1 = reached stage n 1 :=
    reached_congr (fun j hj _ => Function.update_of_ne (by omega) _ _)
  rw [reached_step hn, reached_step hn, hlater, feed, Function.update_self, List.append_assoc]

theorem reached_feed_pos (a : α) (hk : 0 < k) : reached (feed stage a) n k = reached stage n k :=
  reached_congr (fun j hj _ => Function.update_of_ne (by omega) _ _)

/-- The front of stage `k` moves to the end of the next. -/
def push (stage : Nat → List α) (k : Nat) : Nat → List α :=
  Function.update (Function.update stage k (stage k).tail) (k + 1) (stage (k + 1) ++ (stage k).take 1)

theorem push_self : push stage k k = (stage k).tail := by
  rw [push, Function.update_of_ne (by omega), Function.update_self]

theorem push_next : push stage k (k + 1) = stage (k + 1) ++ (stage k).take 1 :=
  Function.update_self ..

theorem push_of_ne {j : Nat} (h : j ≠ k) (h' : j ≠ k + 1) : push stage k j = stage j := by
  rw [push, Function.update_of_ne h', Function.update_of_ne h]

/-- The items that have reached the next stage get one more. -/
theorem reached_push_next (hk : k + 1 < n) : reached (push stage k) n (k + 1) = reached stage n (k + 1) ++ (stage k).take 1 := by
  have hlater : reached (push stage k) n (k + 2) = reached stage n (k + 2) :=
    reached_congr (fun j hj _ => push_of_ne (by omega) (by omega))
  rw [reached_step hk, reached_step hk, hlater, push_next, List.append_assoc]

/-- The items that have reached any other stage stay the same. -/
theorem reached_push_of_ne {j : Nat} (hk : k + 1 < n) (hj : j ≠ k + 1) : reached (push stage k) n j = reached stage n j := by
  have hself : reached (push stage k) n k = reached stage n k := by
    have hkn : k < n := by omega
    rw [reached_step hkn, reached_push_next hk, reached_step hkn, push_self, List.append_assoc]
    cases stage k <;> simp
  rcases Nat.lt_or_ge k j with hlt | hge
  · exact reached_congr (fun i hi _ => push_of_ne (by omega) (by omega))
  -- below the stage, the lists are built from equal parts
  obtain ⟨d, hd⟩ : ∃ d, k - j = d := ⟨_, rfl⟩
  induction d generalizing j with
  | zero =>
    obtain rfl : j = k := by omega
    exact hself
  | succ d ih =>
    have hstep : reached (push stage k) n (j + 1) = reached stage n (j + 1) := ih (by omega) (by omega) (by omega)
    have hjn : j < n := by omega
    rw [reached_step hjn, hstep, push_of_ne (by omega) (by omega), reached_step hjn]

/-- When nothing is in the conveyor twice, an item is at one stage only. -/
theorem stage_unique {a : α} {i j : Nat} (hn : (reached stage n 0).Nodup) (hi : i < n) (hj : j < n) (ha : a ∈ stage i)
    (hb : a ∈ stage j) : i = j := by
  by_contra hne
  have hlt : ∀ {i j : Nat}, i < j → j < n → a ∈ stage i → a ∈ stage j → False := by
    intro i j hij hj ha hb
    have hni : (reached stage n i).Nodup := hn.sublist (reached_antitone (Nat.zero_le i)).sublist
    rw [reached_step (by omega)] at hni
    exact List.disjoint_of_nodup_append hni (mem_reached.mpr ⟨j, by omega, hj, hb⟩) ha
  rcases Nat.lt_or_gt_of_ne hne with h | h
  · exact hlt h hj ha hb
  · exact hlt h hi hb ha

/-- When nothing is in the conveyor twice, no stage holds what has gone past it. -/
theorem not_mem_reached_next {a : α} (hn : (reached stage n k).Nodup) (hk : k < n) (ha : a ∈ stage k) : a ∉ reached stage n (k + 1) := by
  rw [reached_step hk] at hn
  exact fun h => List.disjoint_of_nodup_append hn h ha

end Xv6SnifferBakery.Lib
