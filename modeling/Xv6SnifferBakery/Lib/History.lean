import Mathlib.Data.List.Basic
import Mathlib.Data.List.Nodup
import Mathlib.Tactic.Common

/-!
# Histories

A history is the list of the things that happened, oldest first. A thing can happen more than once; what counts here is when it
happened last.
-/

namespace Xv6SnifferBakery.Lib

variable {α : Type} {h : List α} {a b : α} {j k : Nat}

/-- `a` happened last at time `k`. -/
structure LastAt (h : List α) (a : α) (k : Nat) : Prop where
  at_time : h[k]? = some a
  not_after : ∀ l, k < l → h[l]? ≠ some a

namespace LastAt

theorem lt (hk : LastAt h a k) : k < h.length := by
  obtain ⟨hlt, -⟩ := List.getElem?_eq_some_iff.mp hk.at_time
  exact hlt

/-- There is only one last time. -/
theorem unique (hj : LastAt h a j) (hk : LastAt h a k) : j = k := by
  rcases Nat.lt_trichotomy j k with hlt | heq | hlt
  · exact absurd hk.at_time (hj.not_after k hlt)
  · exact heq
  · exact absurd hj.at_time (hk.not_after j hlt)

/-- Only one thing happens at a time. -/
theorem eq_of_same (ha : LastAt h a k) (hb : LastAt h b k) : a = b :=
  Option.some.inj (ha.at_time.symm.trans hb.at_time)

/-- What happens now happened last now. -/
theorem now (h : List α) (a : α) : LastAt (h ++ [a]) a h.length := by
  refine ⟨by simp, ?_⟩
  intro l hl
  rw [List.getElem?_eq_none]
  · nofun
  · rw [List.length_append, List.length_singleton]
    exact hl

/-- What happens later leaves the last time of everything else. -/
theorem append {l : List α} (ha : LastAt h a k) (hl : a ∉ l) : LastAt (h ++ l) a k := by
  refine ⟨by rw [List.getElem?_append_left ha.lt]; exact ha.at_time, ?_⟩
  intro n hn
  rcases Nat.lt_or_ge n h.length with hlt | hge
  · rw [List.getElem?_append_left hlt]
    exact ha.not_after n hn
  · rw [List.getElem?_append_right hge]
    exact fun he => hl (List.mem_of_getElem? he)

theorem later (ha : LastAt h a k) (hne : b ≠ a) : LastAt (h ++ [b]) a k :=
  ha.append (fun hm => hne (List.mem_singleton.mp hm).symm)

end LastAt

/-- In a list without duplicates everything happened once. -/
theorem LastAt.of_nodup (hn : h.Nodup) (hk : h[k]? = some a) : LastAt h a k := by
  refine ⟨hk, ?_⟩
  intro l hl hla
  obtain ⟨hlt, rfl⟩ := List.getElem?_eq_some_iff.mp hk
  obtain ⟨hlt', he⟩ := List.getElem?_eq_some_iff.mp hla
  exact absurd (hn.getElem_inj_iff.mp he) (Nat.ne_of_gt hl)

/-! ## A part of a history -/

section Part

variable {β : Type} {f : α → Option β} {c : β}

/-- How much of the part of a history that `f` picks happened before time `k`. -/
def rank (f : α → Option β) (h : List α) (k : Nat) : Nat := ((h.take k).filterMap f).length

/-- What happened last at some time happened last at its rank, in the part. -/
theorem LastAt.part (hk : h[k]? = some a) (hf : f a = some c) (hlast : ∀ l, k < l → ∀ b, h[l]? = some b → f b ≠ some c) :
    LastAt (h.filterMap f) c (rank f h k) := by
  obtain ⟨hlt, rfl⟩ := List.getElem?_eq_some_iff.mp hk
  have hsplit : h.filterMap f = (h.take k).filterMap f ++ [c] ++ (h.drop (k + 1)).filterMap f := by
    have hcons : (h.drop k).filterMap f = c :: (h.drop (k + 1)).filterMap f := by
      rw [List.drop_eq_getElem_cons hlt, List.filterMap_cons_some hf]
    rw [List.append_assoc, List.singleton_append, ← hcons, ← List.filterMap_append, List.take_append_drop]
  rw [hsplit]
  refine (LastAt.now _ c).append ?_
  intro hm
  obtain ⟨b, hb, hbc⟩ := List.mem_filterMap.mp hm
  obtain ⟨l, hl⟩ := List.mem_iff_getElem?.mp hb
  rw [List.getElem?_drop] at hl
  exact hlast (k + 1 + l) (by omega) b hl hbc

/-- Ranks grow with time. -/
theorem rank_lt (hk : h[k]? = some a) (hf : f a = some c) (hlt : k < j) : rank f h k < rank f h j := by
  have hnext : rank f h (k + 1) = rank f h k + 1 := by
    unfold rank
    rw [List.take_add_one, hk, List.filterMap_append]
    simp [hf]
  have hmono : rank f h (k + 1) ≤ rank f h j := ((List.take_prefix_take_left hlt).filterMap f).length_le
  omega

end Part

end Xv6SnifferBakery.Lib
