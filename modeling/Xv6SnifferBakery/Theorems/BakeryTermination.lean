import Xv6SnifferBakery.Bakery.Clock

/-!
# The simulation ends in time

The loop of `main` returns whatever the arrivals are, in a second in which nobody is inside or to come. A second that changes nothing
is one of a wait, and nothing waits for more than two seconds but for an arrival, or for the clock to reach 0: so the last second is
known from the arrivals, and so is the room that the clock needs.
-/

namespace Xv6SnifferBakery.Bakery

open Lib

section Wait

variable {arrivals : List Arrival} {s : Sim} {st : Nat → List Nat} {ta tp tb tr last : Int}

/-- The next thing happens within two seconds, unless it waits for an arrival or for the clock to reach 0. -/
theorem Inv.wait_le (h : Inv arrivals s st ta tp tb tr) (hlast : ∀ a ∈ arrivals, a.ts ≤ last) :
    s.currentTime + s.wait arrivals ≤ max (s.currentTime + 2) (max last 0) := by
  have hpast : ∀ (act : Act) {x : Nat}, x ∈ st act.rank → (s.customers x).time act ≤ s.currentTime :=
    fun act _ hx => h.placed.log.le_now (mem_reached.mpr ⟨_, Nat.le_refl _, act.rank_lt, hx⟩)
  unfold Sim.wait
  split
  · rename_i hbusy
    have hend := (h.clock.payment hbusy).1
    have hstart : (s.customers s.accepting.cust).tAcceptStart ≤ s.currentTime :=
      hpast .accepts (h.payer_mem hbusy ▸ List.mem_singleton_self _)
    omega
  split
  · rename_i b bs hbake
    have hb : b ∈ s.baking := hbake ▸ List.mem_cons_self
    have hend := (h.clock.cake b hb).1
    have hstart : (s.customers b.cust).tBakeStart ≤ s.currentTime := hpast .bakes (h.task_mem hb)
    omega
  split
  · rename_i ci rest hstand
    have harrived : (s.customers ci).arrivalTs ≤ s.currentTime := hpast .enters (by
      change ci ∈ st 0
      rw [← h.queues.standing, hstand]
      exact List.mem_cons_self)
    have hfreed : s.lastSeatFreed = -1 ∨ s.lastSeatFreed ≤ s.currentTime := h.clock.freed.imp id And.left
    unfold Sim.allowedSit tCustomerAction
    simp only
    split <;> split <;> omega
  · cases ha : arrivals[s.arrivalIdx]? with
    | none =>
      simp only [Option.map_none, Option.getD_none]
      omega
    | some a =>
      have := hlast a (List.mem_of_getElem? ha)
      simp only [Option.map_some, Option.getD_some]
      omega

end Wait

/-- The clock is not ahead of what has happened, nor is what is waited for. -/
structure Timely (arrivals : List Arrival) (last : Int) (s : Sim) : Prop where
  now : s.currentTime ≤ max last 0 + 3 * s.size + 2
  next : s.currentTime + s.wait arrivals ≤ max last 0 + 3 * s.size + 2

/-- A second keeps the clock in time: one that changes nothing is covered by the wait, another by what has happened. -/
theorem Timely.second {input : List Arrival} {last : Int} (hlast : ∀ a ∈ readInput input, a.ts ≤ last) {s t : Sim}
    (h : Point input .arrive s) (he : s.early) (ht : s.tick (readInput input) = t) (hstop : t.stops (readInput input) = false)
    (hs : Timely (readInput input) last s) : Timely (readInput input) last t.advance := by
  obtain ⟨now, next⟩ := hs
  have hcheck := h.tick
  have hclock := h.tick_clock
  rw [ht] at hcheck hclock
  obtain ⟨-, st, hinv⟩ := (Point.again hcheck hstop).holds
  have hwait := hinv.wait_le hlast
  have hnext : t.advance.currentTime = s.currentTime + 1 := congrArg (· + 1) hclock
  rw [hnext] at hwait
  rcases second_passes h he ht hstop with hlt | ⟨heq, hpos, hwait'⟩
  · exact ⟨by omega, by omega⟩
  · exact ⟨by omega, by omega⟩

theorem Timely.init {input : List Arrival} {last : Int} (hne : readInput input ≠ []) (hlast : ∀ a ∈ readInput input, a.ts ≤ last) :
    Timely (readInput input) last (Sim.init (readInput input)) := by
  obtain ⟨-, st, hinv⟩ := (Point.start hne).holds
  have hwait := hinv.wait_le hlast
  have hsize : (Sim.init (readInput input)).size = 0 := rfl
  have hfirst : (Sim.init (readInput input)).currentTime ≤ last := by
    cases hr : readInput input with
    | nil => exact absurd hr hne
    | cons a l => exact hlast a (hr ▸ List.mem_cons_self)
  exact ⟨by omega, by omega⟩

/-- For every input with an arrival the loop of `main` reaches a second in which no task is in progress, nobody is inside and every
arrival has been taken, and returns. From the last arrival on, or from time 0 if that is later, it takes at most 24 seconds for each
arrival and two more. -/
theorem bakery_terminates {input : List Arrival} {last : Int} (hne : input ≠ []) (hlast : ∀ a ∈ input, a.ts ≤ last) :
    ∃ n s, main input n = some s ∧ s.registerBusy = false ∧ s.baking = [] ∧ s.peopleInside = 0 ∧ s.arrivalIdx = input.length ∧
      s.currentTime ≤ max last 0 + 24 * input.length + 2 := by
  have hlen : (readInput input).length = input.length := List.length_insertionSort _ input
  have hne' : readInput input ≠ [] := fun h => hne (List.length_eq_zero_iff.mp (hlen ▸ congrArg List.length h))
  have hlast' : ∀ a ∈ readInput input, a.ts ≤ last := fun a ha => hlast a ((List.mem_insertionSort _).mp ha)
  have hearly : (Sim.init (readInput input)).early := by
    intro e he
    nomatch he
  obtain ⟨n, s', s, hn, hs, hpoint, htimely, hstop⟩ :=
    mainLoop_ends (fun s t => Timely.second hlast') _ _ (.start hne') hearly (.init hne' hlast') rfl
  have hcheck := hpoint.tick
  have hclock := hpoint.tick_clock
  rw [hs] at hcheck hclock
  obtain ⟨-, st, hinv⟩ := hcheck.holds
  obtain ⟨-, st', hinv'⟩ := hpoint.holds
  have hsize := hinv'.size_le
  have hnow := htimely.now
  have hidx := hinv.placed.le
  have hpeople := hinv.counts.people
  unfold Sim.stops at hstop
  simp only [Bool.and_eq_true, Bool.not_eq_true', Bool.or_eq_false_iff, decide_eq_false_iff_not] at hstop
  obtain ⟨⟨hbusy, hbake⟩, ⟨⟨⟨hinside, harrive⟩, -⟩, -⟩, -⟩ := hstop
  refine ⟨n, s, (if_neg hne').trans hn, hbusy, List.length_eq_zero_iff.mp (by omega), by omega, by omega, by omega⟩

/-- Two customers, the first long before the second and before time 0. -/
theorem bakery_terminates_two : ∃ n s, main [⟨5, 2⟩, ⟨-300, 1⟩] n = some s ∧ s.registerBusy = false ∧ s.baking = [] ∧
    s.peopleInside = 0 ∧ s.arrivalIdx = 2 ∧ s.currentTime ≤ 55 :=
  @bakery_terminates [⟨5, 2⟩, ⟨-300, 1⟩] 5 (by decide) (by decide)

/-- The clock fits when the last arrival leaves 24 seconds for each customer, and two more. -/
theorem clockFits_of_last {input : List Arrival} {last : Int} (hlast : ∀ a ∈ input, a.ts ≤ last)
    (hroom : max last 0 + 24 * input.length + 2 ≤ longMax) : ClockFits input := by
  by_cases hne : input = []
  · subst hne
    intro s hs
    refine absurd rfl (hs.second_induction (P := fun _ => readInput [] ≠ []) id ?_)
    exact fun _ _ hne _ => hne
  · obtain ⟨n, s, hs, -, -, -, -, hend⟩ := bakery_terminates hne hlast
    exact clockFits_of_end hs (hend.trans hroom)

end Xv6SnifferBakery.Bakery
