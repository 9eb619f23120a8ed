import Xv6SnifferBakery.Bakery.Clock

/-!
# The bakery conserves its resources

Ovens, chefs, places on the sofa and people inside are accounted for at every point of the simulation.
-/

namespace Xv6SnifferBakery.Bakery

open Lib

/-- The customers with a cake in an oven, waiting to pay, and paying. -/
def Sim.served (s : Sim) : List Nat := s.baking.map Task.cust ++ s.ready ++ if s.registerBusy then [s.accepting.cust] else []

/-- Everything is in one place. -/
structure Conserves (s : Sim) : Prop where
  ovens : (s.baking.length : Int) + s.ovensAvailable = 4
  chefs : ((List.range numChefs).filter (fun i => !s.chefFree i)).length = s.baking.length + if s.registerBusy then 1 else 0
  oneTask : (s.baking.map Task.chef ++ if s.registerBusy then [s.accepting.chef] else []).Nodup
  people : s.peopleInside = s.standing.length + s.sofa.length
  entered : s.peopleInside = (history s.out .enters).length - (history s.out .leaves).length
  capacity : 0 ≤ s.peopleInside ∧ s.peopleInside ≤ maxCapacity
  sofa : s.sofa.length ≤ sofaCapacity ∧ s.sofa.Nodup
  onSofa : ∀ x ∈ s.served, x ∈ s.sofa
  oneStage : s.served.Nodup

section Inv

variable {arrivals : List Arrival} {s : Sim} {st : Nat → List Nat} {ta tp tb tr : Int}

/-- The busy chefs are those with a task. -/
theorem ChefsOk.count {busy : List Nat} {free : Nat → Bool} (h : ChefsOk busy free) :
    ((List.range numChefs).filter (fun i => !free i)).length = busy.length := by
  have hperm : (((List.range numChefs).filter (fun i => !free i)).map Nat.succ).Perm busy := by
    refine (List.perm_ext_iff_of_nodup ?_ h.nodup).mpr ?_
    · exact (List.nodup_range.filter _).map Nat.succ_injective
    · intro c
      rw [h.mem, List.mem_map]
      constructor
      · rintro ⟨i, hi, rfl⟩
        rw [List.mem_filter, List.mem_range] at hi
        refine ⟨by omega, by have : i < 4 := hi.1; omega, by simpa using hi.2⟩
      · rintro ⟨h1, h4, hf⟩
        refine ⟨c - 1, ?_, by omega⟩
        rw [List.mem_filter, List.mem_range]
        exact ⟨by unfold numChefs; omega, by simp [hf]⟩
  rw [← hperm.length_eq, List.length_map]

/-- The sofa has the customers of five stages, each once. -/
theorem Inv.sofa_mem (h : Inv arrivals s st ta tp tb tr) : s.sofa.Nodup ∧ ∀ k, 1 ≤ k → k ≤ 5 → ∀ x ∈ st k, x ∈ s.sofa := by
  have hone : (reached st 7 1).Nodup := h.placed.nodup.sublist (reached_antitone (Nat.zero_le 1)).sublist
  have hsofa : reached st 7 1 = st 6 ++ s.sofa := by
    rw [h.queues.sofa, reached_step (by omega), reached_step (by omega), reached_step (by omega), reached_step (by omega),
      reached_step (by omega), reached_step (by omega), reached_end (by omega)]
    simp
  rw [hsofa] at hone
  refine ⟨(List.nodup_append.mp hone).2.1, fun k h1 h5 x hx => ?_⟩
  rw [h.queues.sofa]
  simp only [List.mem_append]
  obtain rfl | rfl | rfl | rfl | rfl : k = 1 ∨ k = 2 ∨ k = 3 ∨ k = 4 ∨ k = 5 := by omega
  · exact Or.inr (Or.inr (Or.inr (Or.inr hx)))
  · exact Or.inr (Or.inr (Or.inr (Or.inl hx)))
  · exact Or.inr (Or.inr (Or.inl hx))
  · exact Or.inr (Or.inl hx)
  · exact Or.inl hx

/-- The customers that are served are at three stages of the conveyor. -/
theorem Inv.served (h : Inv arrivals s st ta tp tb tr) : s.served = st 3 ++ st 4 ++ st 5 := by
  unfold Sim.served
  rw [h.queues.baking, h.queues.ready, h.queues.accepting]

theorem Inv.conserves (h : Inv arrivals s st ta tp tb tr) : Conserves s := by
  obtain ⟨c0, c1, c2, c3⟩ := h.counts
  have hthree : ∀ {k x : Nat}, x ∈ st k → k < 7 → ∀ {j : Nat}, j < 7 → x ∈ st j → k = j :=
    fun hx hk _ hj hy => stage_unique h.placed.nodup hk hj hx hy
  refine ⟨c3, ?_, h.chefs.nodup, c1, ?_, ⟨by omega, c2⟩, ⟨c0, h.sofa_mem.1⟩, ?_, ?_⟩
  · rw [h.chefs.count, Sim.busyChefs, List.length_append, List.length_map]
    split <;> rfl
  · have hall : reached st 7 0 = st 6 ++ (s.sofa ++ s.standing) := by
      rw [h.queues.sofa, h.queues.standing, reached_step (by omega), reached_step (by omega), reached_step (by omega),
        reached_step (by omega), reached_step (by omega), reached_step (by omega), reached_step (by omega), reached_end (by omega)]
      simp
    have hleft : reached st 7 6 = st 6 := by
      rw [reached_step (by omega), reached_end (by omega), List.nil_append]
    have henter : history s.out .enters = st 6 ++ (s.sofa ++ s.standing) := (h.placed.log.history .enters).trans hall
    have hleave : history s.out .leaves = st 6 := (h.placed.log.history .leaves).trans hleft
    rw [henter, hleave, List.length_append, List.length_append]
    omega
  · intro x hx
    rw [h.served, List.mem_append, List.mem_append] at hx
    rcases hx with (hx | hx) | hx
    · exact h.sofa_mem.2 3 (by omega) (by omega) x hx
    · exact h.sofa_mem.2 4 (by omega) (by omega) x hx
    · exact h.sofa_mem.2 5 (by omega) (by omega) x hx
  · rw [h.served, List.nodup_append, List.nodup_append]
    refine ⟨⟨h.placed.stage_nodup (by omega), h.placed.stage_nodup (by omega), ?_⟩, h.placed.stage_nodup (by omega), ?_⟩
    · rintro x hx y hy rfl
      exact absurd (hthree hx (by omega) (by omega) hy) (by omega)
    · rintro x hx y hy rfl
      rcases List.mem_append.mp hx with hx | hx
      · exact absurd (hthree hx (by omega) (by omega) hy) (by omega)
      · exact absurd (hthree hx (by omega) (by omega) hy) (by omega)

end Inv

/-- At every point of the simulation, whatever the arrivals, everything is in one place. -/
theorem bakery_conserves {input : List Arrival} {ph : Phase} {s : Sim} (h : Point input ph s) : Conserves s := by
  obtain ⟨-, st, hinv⟩ := h.holds
  exact hinv.conserves

/-- After second 6 of four customers: one has just come, a cake is baked for another, one waits to pay, and a payment is accepted. -/
theorem bakery_conserves_busy : ∃ s, (s.standing = [3] ∧ s.sofa = [0, 1, 2] ∧ s.ready = [1] ∧ s.baking.map Task.cust = [2] ∧
    s.registerBusy = true) ∧ Conserves s := by
  have hrun : ((Sim.init (readInput [⟨0, 1⟩, ⟨6, 4⟩, ⟨3, 3⟩, ⟨1, 2⟩])).afterSeconds
      (readInput [⟨0, 1⟩, ⟨6, 4⟩, ⟨3, 3⟩, ⟨1, 2⟩]) 6).any (fun s =>
        (s.tick (readInput [⟨0, 1⟩, ⟨6, 4⟩, ⟨3, 3⟩, ⟨1, 2⟩])).standing = [3] ∧
          (s.tick (readInput [⟨0, 1⟩, ⟨6, 4⟩, ⟨3, 3⟩, ⟨1, 2⟩])).sofa = [0, 1, 2] ∧
          (s.tick (readInput [⟨0, 1⟩, ⟨6, 4⟩, ⟨3, 3⟩, ⟨1, 2⟩])).ready = [1] ∧
          (s.tick (readInput [⟨0, 1⟩, ⟨6, 4⟩, ⟨3, 3⟩, ⟨1, 2⟩])).baking.map Task.cust = [2] ∧
          (s.tick (readInput [⟨0, 1⟩, ⟨6, 4⟩, ⟨3, 3⟩, ⟨1, 2⟩])).registerBusy = true) = true := by
    decide +kernel
  obtain ⟨s, hs, hbusy⟩ := (Option.any_eq_true _ _).mp hrun
  exact ⟨_, of_decide_eq_true hbusy, bakery_conserves (Point.afterSeconds (.start (by decide)) hs).tick⟩

end Xv6SnifferBakery.Bakery
