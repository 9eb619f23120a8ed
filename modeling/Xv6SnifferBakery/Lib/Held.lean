import Mathlib.Data.List.Nodup
import Mathlib.Data.List.Perm.Basic
import Mathlib.Logic.Function.Basic
import Xv6SnifferBakery.Lib.Transition

/-!
# Locks and their holders

A table says who holds each lock; each worker's position in its code says which locks it should hold. The two agree, and taking or giving
up a lock keeps them so. Then no two workers hold one lock. `Mutex` is what a table of locks is for, without the code: a lock that is free
is taken, and is given up by who took it.
-/

namespace Xv6SnifferBakery.Lib

variable {κ γ ι : Type}

/-- The table of holders says the same as the lists of what is held. -/
structure Held (lock : κ → Option γ) (locks : γ → List κ) : Prop where
  holder : ∀ k c, lock k = some c ↔ k ∈ locks c
  nodup : ∀ c, (locks c).Nodup

namespace Held

variable {lock : κ → Option γ} {locks locks' : γ → List κ} {c c' : γ} {k : κ}

/-- A lock has one holder. -/
theorem unique (h : Held lock locks) (hc : k ∈ locks c) (hc' : k ∈ locks c') : c = c' := by
  have hk : lock k = some c := (h.holder k c).mpr hc
  rw [(h.holder k c').mpr hc'] at hk
  exact (Option.some.inj hk).symm

theorem not_mem (h : Held lock locks) (hk : lock k = none) (c : γ) : k ∉ locks c := by
  intro hc
  rw [(h.holder k c).mpr hc] at hk
  cases hk

/-- A worker moves on without a lock operation. -/
theorem keep (h : Held lock locks) (hc : ∀ x, (locks' x).Perm (locks x)) : Held lock locks' where
  holder k x := (h.holder k x).trans (hc x).mem_iff.symm
  nodup x := (hc x).nodup_iff.mpr (h.nodup x)

section

variable [DecidableEq κ]

theorem acquire (h : Held lock locks) (hk : lock k = none) (hc : (locks' c).Perm (k :: locks c)) (ho : ∀ x, x ≠ c → locks' x = locks x) :
    Held (Function.update lock k (some c)) locks' where
  holder k' x := by
    by_cases hx : x = c
    · subst hx
      rw [hc.mem_iff, List.mem_cons]
      by_cases hk' : k' = k
      · simp [hk']
      · rw [Function.update_of_ne hk', h.holder]
        simp [hk']
    · rw [ho x hx, ← h.holder]
      by_cases hk' : k' = k
      · subst hk'
        simp [hk, Ne.symm hx]
      · rw [Function.update_of_ne hk']
  nodup x := by
    by_cases hx : x = c
    · subst hx
      rw [hc.nodup_iff]
      exact List.nodup_cons.mpr ⟨h.not_mem hk x, h.nodup x⟩
    · rw [ho x hx]
      exact h.nodup x

theorem release (h : Held lock locks) (hc : (locks c).Perm (k :: locks' c)) (ho : ∀ x, x ≠ c → locks' x = locks x) :
    Held (Function.update lock k none) locks' := by
  have hnodup : (k :: locks' c).Nodup := hc.nodup_iff.mp (h.nodup c)
  have hmem : k ∈ locks c := hc.mem_iff.mpr (List.mem_cons_self ..)
  constructor
  · intro k' x
    by_cases hk' : k' = k
    · subst hk'
      simp only [Function.update_self, reduceCtorEq, false_iff]
      intro hx
      by_cases hxc : x = c
      · rw [hxc] at hx
        exact (List.nodup_cons.mp hnodup).1 hx
      · rw [ho x hxc] at hx
        exact hxc (h.unique hx hmem)
    · rw [Function.update_of_ne hk', h.holder]
      by_cases hxc : x = c
      · rw [hxc, hc.mem_iff, List.mem_cons]
        simp [hk']
      · rw [ho x hxc]
  · intro x
    by_cases hxc : x = c
    · rw [hxc]
      exact (List.nodup_cons.mp hnodup).2
    · rw [ho x hxc]
      exact h.nodup x

end

end Held

/-! ## The specification of a mutual exclusion -/

inductive Mutex.Act (κ ι : Type) where
  | take (i : ι) (k : κ)
  | drop (i : ι) (k : κ)

variable [DecidableEq κ]

/-- A free lock is taken, a lock is given up by its owner. -/
inductive Mutex.Step : (κ → Option ι) → Mutex.Act κ ι → (κ → Option ι) → Prop where
  | take {m : κ → Option ι} {i : ι} {k : κ} : m k = none → Mutex.Step m (.take i k) (Function.update m k (some i))
  | drop {m : κ → Option ι} {i : ι} {k : κ} : m k = some i → Mutex.Step m (.drop i k) (Function.update m k none)

/-- A table of owners that the specification reaches from the one without owners, as the relation `owns`. -/
def Mutex.Reached (owns : ι → κ → Prop) : Prop :=
  ∃ m as, Run Mutex.Step (fun _ => none) as m ∧ ∀ i k, owns i k ↔ m k = some i

namespace Mutex

variable {owns owns' : ι → κ → Prop} {i : ι} {k : κ}

theorem Reached.unique {j : ι} (h : Reached owns) (hi : owns i k) (hj : owns j k) : i = j := by
  obtain ⟨m, -, -, hm⟩ := h
  have hk : m k = some i := (hm i k).mp hi
  rw [(hm j k).mp hj] at hk
  exact (Option.some.inj hk).symm

theorem Reached.init (h : ∀ i k, ¬owns i k) : Reached owns :=
  ⟨fun _ => none, [], Run.nil _, fun i k => by simp [h i k]⟩

theorem Reached.take (h : Reached owns) (hfree : ∀ j, ¬owns j k) (heq : ∀ j l, owns' j l ↔ owns j l ∨ (j = i ∧ l = k)) : Reached owns' := by
  obtain ⟨m, as, hrun, hm⟩ := h
  have hk : m k = none := by
    cases hmk : m k with
    | none => rfl
    | some j => exact absurd ((hm j k).mpr hmk) (hfree j)
  refine ⟨_, _, hrun.snoc (Step.take (i := i) hk), fun j l => ?_⟩
  rw [heq, hm]
  by_cases hl : l = k
  · subst hl
    simp [hk, eq_comm]
  · simp [hl]

theorem Reached.drop (h : Reached owns) (hi : owns i k) (heq : ∀ j l, owns' j l ↔ owns j l ∧ ¬(j = i ∧ l = k)) : Reached owns' := by
  obtain ⟨m, as, hrun, hm⟩ := h
  have hk : m k = some i := (hm i k).mp hi
  refine ⟨_, _, hrun.snoc (Step.drop hk), fun j l => ?_⟩
  rw [heq, hm]
  by_cases hl : l = k
  · subst hl
    simp [hk, eq_comm]
  · simp [hl]

end Mutex

end Xv6SnifferBakery.Lib
