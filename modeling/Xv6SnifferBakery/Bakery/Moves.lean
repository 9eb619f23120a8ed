import Mathlib.Data.List.Perm.Basic
import Xv6SnifferBakery.Bakery.Invariant

/-!
# The invariant, move by move

The variables of the simulation against the conveyor: the queues are stages of it, the counters count it, the chefs are those of the
tasks, and no task and no arrival is overdue. Entering, sitting, asking, baking, paying and leaving each keep all of it.
-/

namespace Xv6SnifferBakery.Bakery

open Lib

/-! ## Queues, counters, chefs and time -/

/-- The queues are the stages. The sofa has everybody from the seated to the paying, the first to sit down in front. -/
structure Queues (s : Sim) (st : Nat → List Nat) : Prop where
  standing : s.standing = st 0
  sofa : s.sofa = st 5 ++ (st 4 ++ (st 3 ++ (st 2 ++ st 1)))
  ready : s.ready = st 4
  baking : s.baking.map Task.cust = st 3
  accepting : st 5 = if s.registerBusy then [s.accepting.cust] else []

/-- The counters. -/
structure Counts (s : Sim) : Prop where
  seats : s.sofa.length ≤ 4
  people : s.peopleInside = s.standing.length + s.sofa.length
  room : s.peopleInside ≤ 25
  ovens : (s.baking.length : Int) + s.ovensAvailable = 4

/-- The chefs of the tasks in progress. -/
def Sim.busyChefs (s : Sim) : List Nat := s.baking.map Task.chef ++ if s.registerBusy then [s.accepting.chef] else []

/-- The chefs with a task are those that are not free, and each has one task. -/
structure ChefsOk (busy : List Nat) (free : Nat → Bool) : Prop where
  nodup : busy.Nodup
  mem : ∀ c, c ∈ busy ↔ 1 ≤ c ∧ c ≤ 4 ∧ free (c - 1) = false

/-- Nothing is overdue: no arrival before `ta`, no payment before `tp`, no cake before `tb`, and nobody was seated before `tr` who has
not asked. A seat was freed after somebody came. -/
structure Clock (arrivals : List Arrival) (s : Sim) (st : Nat → List Nat) (ta tp tb tr : Int) : Prop where
  pending : ∀ i a, arrivals[i]? = some a → s.arrivalIdx ≤ i → ta ≤ a.ts
  payment : s.registerBusy = true → s.accepting.endTime = (s.customers s.accepting.cust).tAcceptStart + 2 ∧ tp ≤ s.accepting.endTime
  cake : ∀ b ∈ s.baking, b.endTime = (s.customers b.cust).tBakeStart + 2 ∧ tb ≤ b.endTime
  seated : ∀ x ∈ st 1, tr ≤ (s.customers x).tSat
  freed : s.lastSeatFreed = -1 ∨ (s.lastSeatFreed ≤ s.currentTime ∧ ∃ a ∈ arrivals, a.ts ≤ s.lastSeatFreed)

/-- The invariant. -/
structure Inv (arrivals : List Arrival) (s : Sim) (st : Nat → List Nat) (ta tp tb tr : Int) : Prop where
  placed : Placed arrivals s st
  queues : Queues s st
  counts : Counts s
  chefs : ChefsOk s.busyChefs s.chefFree
  clock : Clock arrivals s st ta tp tb tr

/-! ### Chefs -/

section Chefs

variable {busy busy' : List Nat} {free : Nat → Bool} {c : Nat}

/-- A free chef takes a task. -/
theorem ChefsOk.take (h : ChefsOk busy free) (hc : 1 ≤ c ∧ c ≤ 4 ∧ free (c - 1) = true) (hp : busy'.Perm (c :: busy)) :
    ChefsOk busy' (Function.update free (c - 1) false) := by
  obtain ⟨h1, h4, hfree⟩ := hc
  refine ⟨hp.nodup_iff.mpr (List.nodup_cons.mpr ⟨fun hm => ?_, h.nodup⟩), fun d => ?_⟩
  · rw [((h.mem c).mp hm).2.2] at hfree
    nomatch hfree
  rw [hp.mem_iff, List.mem_cons, h.mem]
  by_cases hd : d = c
  · subst hd
    simp [h1, h4]
  · constructor
    · rintro (rfl | ⟨hd1, hd4, hdf⟩)
      · exact absurd rfl hd
      · exact ⟨hd1, hd4, by rw [Function.update_of_ne (by omega)]; exact hdf⟩
    · rintro ⟨hd1, hd4, hdf⟩
      rw [Function.update_of_ne (by omega)] at hdf
      exact Or.inr ⟨hd1, hd4, hdf⟩

/-- A chef's task ends. -/
theorem ChefsOk.release (h : ChefsOk busy free) (hp : busy.Perm (c :: busy')) :
    ChefsOk busy' (Function.update free (c - 1) true) := by
  have hn := List.nodup_cons.mp (hp.nodup_iff.mp h.nodup)
  have hc := (h.mem c).mp (hp.mem_iff.mpr List.mem_cons_self)
  refine ⟨hn.2, fun d => ?_⟩
  have hmem := h.mem d
  rw [hp.mem_iff, List.mem_cons] at hmem
  by_cases hd : d = c
  · subst hd
    simp [hn.1]
  · constructor
    · intro hd'
      obtain ⟨hd1, hd4, hdf⟩ := hmem.mp (Or.inr hd')
      exact ⟨hd1, hd4, by rw [Function.update_of_ne (by omega)]; exact hdf⟩
    · rintro ⟨hd1, hd4, hdf⟩
      rw [Function.update_of_ne (by omega)] at hdf
      exact (hmem.mpr ⟨hd1, hd4, hdf⟩).resolve_left hd

/-- `get_free_chef` returns a free chef, when there is one. -/
theorem getFreeChef_spec {s : Sim} (h : s.getFreeChef ≠ 0) :
    1 ≤ s.getFreeChef ∧ s.getFreeChef ≤ 4 ∧ s.chefFree (s.getFreeChef - 1) = true := by
  unfold Sim.getFreeChef at h ⊢
  cases hf : (List.range numChefs).find? (fun i => s.chefFree i) with
  | none =>
    rw [hf] at h
    exact absurd rfl h
  | some i =>
    have hi := List.mem_range.mp (List.mem_of_find?_eq_some hf)
    have hfree : s.chefFree i = true := by simpa using List.find?_some hf
    simp only [Nat.add_sub_cancel]
    exact ⟨by omega, by unfold numChefs at hi; omega, hfree⟩

/-- Without a free chef all four have a task. -/
theorem getFreeChef_zero {s : Sim} (h : ChefsOk s.busyChefs s.chefFree) (h0 : s.getFreeChef = 0) : 4 ≤ s.busyChefs.length := by
  have hbusy : ∀ i < 4, s.chefFree i = false := by
    intro i hi
    unfold Sim.getFreeChef at h0
    cases hf : (List.range numChefs).find? (fun i => s.chefFree i) with
    | none => simpa using List.find?_eq_none.mp hf i (List.mem_range.mpr hi)
    | some j =>
      rw [hf] at h0
      nomatch h0
  have hsub : [1, 2, 3, 4] ⊆ s.busyChefs := by
    intro c hc
    have : c = 1 ∨ c = 2 ∨ c = 3 ∨ c = 4 := by simpa using hc
    exact (h.mem c).mpr ⟨by omega, by omega, hbusy (c - 1) (by omega)⟩
  exact (List.subperm_of_subset (by decide) hsub).length_le

end Chefs

/-! ## Moves -/

section Moves

variable {arrivals : List Arrival} {s : Sim} {st : Nat → List Nat} {ta tp tb tr : Int} {ci : Nat} {rest : List Nat}

/-- The front of a stage is at no other stage. -/
theorem Inv.front_ne (h : Inv arrivals s st ta tp tb tr) {j k x : Nat} (hk : k < 7) (hst : st k = ci :: rest) (hj : j < 7) (hjk : j ≠ k)
    (hx : x ∈ st j) : x ≠ ci := by
  rintro rfl
  exact hjk (stage_unique h.placed.nodup hj hk hx (hst ▸ List.mem_cons_self))

theorem Inv.front_not_rest (h : Inv arrivals s st ta tp tb tr) {k x : Nat} (hk : k < 7) (hst : st k = ci :: rest) (hx : x ∈ rest) :
    x ≠ ci := by
  have hnd := h.placed.stage_nodup hk
  rw [hst] at hnd
  rintro rfl
  exact (List.nodup_cons.mp hnd).1 hx

theorem Inv.front_stage (h : Inv arrivals s st ta tp tb tr) {k : Nat} (hk : k < 7) (hst : st k = ci :: rest) :
    AtStage k (s.customers ci) := h.placed.stage k hk ci (hst ▸ List.mem_cons_self)

/-- A task for a cake is for a customer at the stage of cakes. -/
theorem Inv.task_mem (h : Inv arrivals s st ta tp tb tr) {b : Task} (hb : b ∈ s.baking) : b.cust ∈ st 3 := by
  rw [← h.queues.baking]
  exact List.mem_map_of_mem hb

/-- The customer who pays is at the stage of payments. -/
theorem Inv.payer_mem (h : Inv arrivals s st ta tp tb tr) (hb : s.registerBusy = true) : st 5 = [s.accepting.cust] := by
  rw [h.queues.accepting, if_pos hb]

/-- Whoever is at a stage came by now. -/
theorem Inv.came (h : Inv arrivals s st ta tp tb tr) {k x : Nat} (hk : k < 7) (hx : x ∈ st k) : ∃ a ∈ arrivals, a.ts ≤ s.currentTime := by
  have hin : x ∈ reached st 7 0 := mem_reached.mpr ⟨k, Nat.zero_le k, hk, hx⟩
  obtain ⟨a, ha⟩ : ∃ a, arrivals[x]? = some a := ⟨_, List.getElem?_eq_getElem (Nat.lt_of_lt_of_le (h.placed.lt x hin) h.placed.le)⟩
  refine ⟨a, List.mem_of_getElem? ha, ?_⟩
  have hpast : (s.customers x).time .enters ≤ s.currentTime := h.placed.log.le_now hin
  rw [← (h.placed.info x a ha).2]
  exact hpast

/-! ### Sitting -/

theorem sit_moved : Moved s (s.sit ci rest) ci .sits (fun c => { c with seated := true, tSat := s.currentTime }) :=
  ⟨rfl, ⟨none, by simp [Sim.sit, Sim.printCustomer, Sim.setCustomer]⟩, rfl⟩

theorem sit_stamps : Stamps s ci .sits (fun c => { c with seated := true, tSat := s.currentTime }) := by
  refine ⟨rfl, ?_, rfl⟩
  intro act hact
  cases act <;> first | rfl | exact absurd rfl hact

/-- A customer sits down. -/
theorem Inv.sit (h : Inv arrivals s st ta tp tb tr) (hst : st 0 = ci :: rest) (hseat : s.sofa.length < 4)
    (htime : (s.customers ci).arrivalTs + 1 ≤ s.currentTime) (hr : tr ≤ s.currentTime) :
    Inv arrivals (s.sit ci rest) (push st 0) ta tp tb tr := by
  have hm : Moved s (s.sit ci rest) ci .sits _ := sit_moved
  have hne : ∀ j x, 0 < j → j < 7 → x ∈ st j → x ≠ ci := fun j x hj hj7 hx => h.front_ne (by omega) hst hj7 (by omega) hx
  have hat := h.front_stage (by omega) hst
  refine ⟨h.placed.push rfl hst hm sit_stamps rfl ?_, ?_, ?_, h.chefs, ?_⟩
  · intro _
    refine ⟨hat.entered, rfl, hat.requested, hat.baking, hat.baked, fun _ => htime, ?_, ?_, ?_, ?_, ?_⟩ <;> intro hk <;> omega
  · obtain ⟨h0, h1, h2, h3, h4⟩ := h.queues
    refine ⟨?_, ?_, h2, h3, h4⟩
    · rw [push_self, hst]
      rfl
    · change s.sofa ++ [ci] = _
      rw [h1, push_next, hst]
      simp [push]
  · obtain ⟨h0, h1, h2, h3⟩ := h.counts
    have hlen : s.standing.length = rest.length + 1 := by rw [h.queues.standing, hst, List.length_cons]
    have hsofa : (s.sit ci rest).sofa.length = s.sofa.length + 1 := List.length_append
    refine ⟨by omega, ?_, h2, h3⟩
    change s.peopleInside = (rest.length : Int) + ((s.sit ci rest).sofa.length : Int)
    omega
  · obtain ⟨h0, h1, h2, h3, h4⟩ := h.clock
    refine ⟨h0, ?_, ?_, ?_, h4⟩
    · intro hb
      rw [hm.other (hne 5 _ (by omega) (by omega) (h.payer_mem hb ▸ List.mem_singleton_self _))]
      exact h1 hb
    · intro b hb
      rw [hm.other (hne 3 _ (by omega) (by omega) (h.task_mem hb))]
      exact h2 b hb
    · intro x hx
      rw [push_next, hst] at hx
      rcases List.mem_append.mp hx with hx | hx
      · rw [hm.other (hne 1 x (by omega) (by omega) hx)]
        exact h3 x hx
      · obtain rfl : x = ci := by simpa using hx
        rw [hm.self]
        exact hr

/-! ### Asking -/

/-- The state after a customer has asked for a cake. -/
def Sim.asked (s : Sim) (ci : Nat) : Sim :=
  (s.setCustomer ci (fun c => { c with requested := true, tRequest := s.currentTime })).printCustomer ci .requests

theorem asked_moved : Moved s (s.asked ci) ci .requests (fun c => { c with requested := true, tRequest := s.currentTime }) :=
  ⟨rfl, ⟨none, by simp [Sim.asked, Sim.printCustomer, Sim.setCustomer]⟩, rfl⟩

theorem asked_stamps : Stamps s ci .requests (fun c => { c with requested := true, tRequest := s.currentTime }) := by
  refine ⟨rfl, ?_, rfl⟩
  intro act hact
  cases act <;> first | rfl | exact absurd rfl hact

/-- A customer asks for a cake. -/
theorem Inv.asked (h : Inv arrivals s st ta tp tb tr) (hst : st 1 = ci :: rest) (htime : (s.customers ci).tSat + 1 = s.currentTime) :
    Inv arrivals (s.asked ci) (push st 1) ta tp tb tr := by
  have hm : Moved s (s.asked ci) ci .requests _ := asked_moved
  have hne : ∀ j x, j ≠ 1 → j < 7 → x ∈ st j → x ≠ ci := fun j x hj hj7 hx => h.front_ne (by omega) hst hj7 hj hx
  have hat := h.front_stage (by omega) hst
  refine ⟨h.placed.push rfl hst hm asked_stamps rfl ?_, ?_, ⟨h.counts.seats, h.counts.people, h.counts.room, h.counts.ovens⟩, h.chefs, ?_⟩
  · intro _
    refine ⟨hat.entered, hat.seated, rfl, hat.baking, hat.baked, fun _ => hat.sat (by omega), fun _ => htime.symm, ?_, ?_, ?_, ?_⟩ <;>
      intro hk <;> omega
  · obtain ⟨h0, h1, h2, h3, h4⟩ := h.queues
    refine ⟨h0, ?_, h2, h3, h4⟩
    change s.sofa = _
    rw [h1, push_self, push_next, hst]
    simp [push]
  · obtain ⟨h0, h1, h2, h3, h4⟩ := h.clock
    refine ⟨h0, ?_, ?_, ?_, h4⟩
    · intro hb
      rw [hm.other (hne 5 _ (by omega) (by omega) (h.payer_mem hb ▸ List.mem_singleton_self _))]
      exact h1 hb
    · intro b hb
      rw [hm.other (hne 3 _ (by omega) (by omega) (h.task_mem hb))]
      exact h2 b hb
    · intro x hx
      rw [push_self, hst] at hx
      rw [hm.other (h.front_not_rest (by omega) hst hx)]
      exact h3 x (hst ▸ List.mem_cons_of_mem _ hx)

/-! ### Baking -/

variable {chef : Nat}

theorem startBake_moved : Moved s (s.startBake chef ci) ci .bakes
    (fun c => { c with baking := true, tBakeStart := s.currentTime, tBakeEnd := s.currentTime + tChefAction }) :=
  ⟨rfl, ⟨some chef, by simp [Sim.startBake, Sim.printChef, Sim.setCustomer, Sim.setChef]⟩, rfl⟩

theorem startBake_stamps : Stamps s ci .bakes
    (fun c => { c with baking := true, tBakeStart := s.currentTime, tBakeEnd := s.currentTime + tChefAction }) := by
  refine ⟨rfl, ?_, rfl⟩
  intro act hact
  cases act <;> first | rfl | exact absurd rfl hact

theorem startBake_baking : (s.startBake chef ci).baking = s.baking ++ [Task.mk ci chef (s.currentTime + 2)] := by
  simp [Sim.startBake, Sim.printChef, Sim.setCustomer, Sim.setChef, tChefAction]

/-- A free chef bakes for the first customer who has asked. -/
theorem Inv.startBake (h : Inv arrivals s st ta tp tb tr) (hst : st 2 = ci :: rest)
    (hchef : 1 ≤ chef ∧ chef ≤ 4 ∧ s.chefFree (chef - 1) = true) (htime : (s.customers ci).tRequest + 1 ≤ s.currentTime)
    (hb : tb ≤ s.currentTime + 2) : Inv arrivals (s.startBake chef ci) (push st 2) ta tp tb tr := by
  have hm : Moved s (s.startBake chef ci) ci .bakes _ := startBake_moved
  have hne : ∀ j x, j ≠ 2 → j < 7 → x ∈ st j → x ≠ ci := fun j x hj hj7 hx => h.front_ne (by omega) hst hj7 hj hx
  have hat := h.front_stage (by omega) hst
  refine ⟨h.placed.push rfl hst hm startBake_stamps rfl ?_, ?_, ?_, ?_, ?_⟩
  · intro _
    refine ⟨hat.entered, hat.seated, hat.requested, rfl, hat.baked, fun _ => hat.sat (by omega), fun _ => hat.asked (by omega),
      fun _ => htime, ?_, ?_, ?_⟩ <;> intro hk <;> omega
  · obtain ⟨h0, h1, h2, h3, h4⟩ := h.queues
    refine ⟨h0, ?_, h2, ?_, h4⟩
    · change s.sofa = _
      rw [h1, push_self, push_next, hst]
      simp [push]
    · rw [startBake_baking, List.map_append, h3, push_next, hst]
      rfl
  · obtain ⟨h0, h1, h2, h3⟩ := h.counts
    refine ⟨h0, h1, h2, ?_⟩
    rw [startBake_baking, List.length_append, List.length_singleton]
    change ((s.baking.length + 1 : Nat) : Int) + (s.ovensAvailable - 1) = 4
    omega
  · refine h.chefs.take hchef ?_
    unfold Sim.busyChefs
    rw [startBake_baking, List.map_append, List.map_singleton, List.append_assoc, List.singleton_append]
    exact List.perm_middle
  · obtain ⟨h0, h1, h2, h3, h4⟩ := h.clock
    refine ⟨h0, ?_, ?_, ?_, h4⟩
    · intro hb
      rw [hm.other (hne 5 _ (by omega) (by omega) (h.payer_mem hb ▸ List.mem_singleton_self _))]
      exact h1 hb
    · intro b hb'
      rw [startBake_baking] at hb'
      rcases List.mem_append.mp hb' with hb' | hb'
      · rw [hm.other (hne 3 _ (by omega) (by omega) (h.task_mem hb'))]
        exact h2 b hb'
      · rw [List.mem_singleton.mp hb', hm.self]
        exact ⟨rfl, hb⟩
    · intro x hx
      rw [push_of_ne (by omega) (by omega)] at hx
      rw [hm.other (hne 1 x (by omega) (by omega) hx)]
      exact h3 x hx

/-- The state after a cake is ready: `bs` are the other tasks. -/
def Sim.cakeReady (s : Sim) (b : Task) (bs : List Task) : Sim := { s.bakeDone b with baking := bs }

theorem cakeReady_moved {b : Task} {bs : List Task} : Moved s (s.cakeReady b bs) b.cust .pays
    (fun c => { c with baked := true, baking := false, tBakeEnd := s.currentTime, tPayTime := s.currentTime }) :=
  ⟨rfl, ⟨none, by simp [Sim.cakeReady, Sim.bakeDone, Sim.printCustomer, Sim.setCustomer, Sim.setChef]⟩, rfl⟩

theorem cakeReady_stamps : Stamps s ci .pays
    (fun c => { c with baked := true, baking := false, tBakeEnd := s.currentTime, tPayTime := s.currentTime }) := by
  refine ⟨rfl, ?_, rfl⟩
  intro act hact
  cases act <;> first | rfl | exact absurd rfl hact

/-- The first cake is ready. -/
theorem Inv.cakeReady {b : Task} {bs : List Task} (h : Inv arrivals s st ta tp tb tr) (hbk : s.baking = b :: bs)
    (hend : b.endTime = s.currentTime) : Inv arrivals (s.cakeReady b bs) (push st 3) ta tp tb tr := by
  have hm : Moved s (s.cakeReady b bs) b.cust .pays _ := cakeReady_moved
  have hst : st 3 = b.cust :: bs.map Task.cust := by rw [← h.queues.baking, hbk, List.map_cons]
  have hb : b ∈ s.baking := hbk ▸ List.mem_cons_self
  have hne : ∀ j x, j ≠ 3 → j < 7 → x ∈ st j → x ≠ b.cust := fun j x hj hj7 hx => h.front_ne (by omega) hst hj7 hj hx
  have hat := h.front_stage (by omega) hst
  refine ⟨h.placed.push rfl hst hm cakeReady_stamps rfl ?_, ?_, ?_, ?_, ?_⟩
  · intro _
    have htime : s.currentTime = (s.customers b.cust).tBakeStart + 2 := hend.symm.trans (h.clock.cake b hb).1
    refine ⟨hat.entered, hat.seated, hat.requested, rfl, rfl, fun _ => hat.sat (by omega), fun _ => hat.asked (by omega),
      fun _ => hat.bakes (by omega), fun _ => htime, ?_, ?_⟩ <;> intro hk <;> omega
  · obtain ⟨h0, h1, h2, h3, h4⟩ := h.queues
    refine ⟨h0, ?_, ?_, ?_, h4⟩
    · change s.sofa = _
      rw [h1, push_self, push_next, hst]
      simp [push]
    · change s.ready ++ [b.cust] = _
      rw [h2, push_next, hst]
      rfl
    · rw [push_self, hst]
      rfl
  · obtain ⟨h0, h1, h2, h3⟩ := h.counts
    refine ⟨h0, h1, h2, ?_⟩
    rw [hbk, List.length_cons] at h3
    change (bs.length : Int) + (s.ovensAvailable + 1) = 4
    omega
  · refine h.chefs.release (c := b.chef) ?_
    unfold Sim.busyChefs
    rw [hbk, List.map_cons, List.cons_append]
    exact List.Perm.refl _
  · obtain ⟨h0, h1, h2, h3, h4⟩ := h.clock
    refine ⟨h0, ?_, ?_, ?_, h4⟩
    · intro hb
      rw [hm.other (hne 5 _ (by omega) (by omega) (h.payer_mem hb ▸ List.mem_singleton_self _))]
      exact h1 hb
    · intro b' hb'
      have hrest : b'.cust ∈ bs.map Task.cust := List.mem_map_of_mem hb'
      rw [hm.other (h.front_not_rest (by omega) hst hrest)]
      exact h2 b' (hbk ▸ List.mem_cons_of_mem _ hb')
    · intro x hx
      rw [push_of_ne (by omega) (by omega)] at hx
      rw [hm.other (hne 1 x (by omega) (by omega) hx)]
      exact h3 x hx

/-! ### Paying -/

theorem startAccept_moved : Moved s (s.startAccept chef ci rest) ci .accepts
    (fun c => { c with acceptStarted := true, tAcceptStart := s.currentTime, tAcceptEnd := s.currentTime + tChefAction }) :=
  ⟨rfl, ⟨some chef, by simp [Sim.startAccept, Sim.printChef, Sim.setCustomer, Sim.setChef]⟩, rfl⟩

theorem startAccept_stamps : Stamps s ci .accepts
    (fun c => { c with acceptStarted := true, tAcceptStart := s.currentTime, tAcceptEnd := s.currentTime + tChefAction }) := by
  refine ⟨rfl, ?_, rfl⟩
  intro act hact
  cases act <;> first | rfl | exact absurd rfl hact

theorem startAccept_accepting : (s.startAccept chef ci rest).accepting = ⟨ci, chef, s.currentTime + 2⟩ := by
  simp [Sim.startAccept, Sim.printChef, Sim.setCustomer, Sim.setChef, tChefAction]

/-- A free chef accepts the payment of the first customer who waits to pay. -/
theorem Inv.startAccept (h : Inv arrivals s st ta tp tb tr) (hst : st 4 = ci :: rest) (hidle : s.registerBusy = false)
    (hchef : 1 ≤ chef ∧ chef ≤ 4 ∧ s.chefFree (chef - 1) = true) (htime : (s.customers ci).tPayTime + 1 ≤ s.currentTime)
    (hp : tp ≤ s.currentTime + 2) : Inv arrivals (s.startAccept chef ci rest) (push st 4) ta tp tb tr := by
  have hm : Moved s (s.startAccept chef ci rest) ci .accepts _ := startAccept_moved
  have hne : ∀ j x, j ≠ 4 → j < 7 → x ∈ st j → x ≠ ci := fun j x hj hj7 hx => h.front_ne (by omega) hst hj7 hj hx
  have hat := h.front_stage (by omega) hst
  have h5 : st 5 = [] := by rw [h.queues.accepting, if_neg (by simp [hidle])]
  refine ⟨h.placed.push rfl hst hm startAccept_stamps rfl ?_, ?_, ⟨h.counts.seats, h.counts.people, h.counts.room, h.counts.ovens⟩, ?_, ?_⟩
  · intro _
    refine ⟨hat.entered, hat.seated, hat.requested, hat.baking, hat.baked, fun _ => hat.sat (by omega), fun _ => hat.asked (by omega),
      fun _ => hat.bakes (by omega), fun _ => hat.pays (by omega), fun _ => htime, ?_⟩
    intro hk
    omega
  · obtain ⟨h0, h1, h2, h3, h4⟩ := h.queues
    refine ⟨h0, ?_, ?_, h3, ?_⟩
    · change s.sofa = _
      rw [h1, push_self, push_next, hst]
      simp [push]
    · rw [push_self, hst]
      rfl
    · rw [push_next, hst, h5, startAccept_accepting]
      rfl
  · refine h.chefs.take hchef ?_
    unfold Sim.busyChefs
    rw [startAccept_accepting, hidle]
    change (s.baking.map Task.chef ++ [chef]).Perm (chef :: (s.baking.map Task.chef ++ []))
    rw [List.append_nil]
    exact List.perm_append_singleton _ _
  · obtain ⟨h0, h1, h2, h3, h4⟩ := h.clock
    refine ⟨h0, ?_, ?_, ?_, h4⟩
    · intro _
      rw [startAccept_accepting, hm.self]
      exact ⟨rfl, hp⟩
    · intro b hb
      rw [hm.other (hne 3 _ (by omega) (by omega) (h.task_mem hb))]
      exact h2 b hb
    · intro x hx
      rw [push_of_ne (by omega) (by omega)] at hx
      rw [hm.other (hne 1 x (by omega) (by omega) hx)]
      exact h3 x hx

/-- The record of a customer who leaves. -/
def Customer.left (now : Int) (c : Customer) : Customer :=
  { c with tAcceptEnd := now, acceptStarted := false, paid := true, tLeave := now, done := true }

theorem leave_moved (hb : s.registerBusy = true) (hend : s.accepting.endTime = s.currentTime) :
    Moved s s.finishAccept s.accepting.cust .leaves (Customer.left s.currentTime) := by
  unfold Sim.finishAccept
  rw [if_pos ⟨hb, hend⟩]
  exact ⟨rfl, ⟨none, by simp [Sim.printCustomer, Sim.setCustomer, Sim.setChef, Customer.left]⟩, rfl⟩

theorem leave_stamps : Stamps s ci .leaves (Customer.left s.currentTime) := by
  refine ⟨rfl, ?_, rfl⟩
  intro act hact
  cases act <;> first | rfl | exact absurd rfl hact

/-- The payment is accepted, and its customer leaves. -/
theorem Inv.leave (h : Inv arrivals s st ta tp tb tr) (hb : s.registerBusy = true) (hend : s.accepting.endTime = s.currentTime)
    (tp' : Int) : Inv arrivals s.finishAccept (push st 5) ta tp' tb tr := by
  have hm := leave_moved hb hend
  have hst : st 5 = s.accepting.cust :: [] := h.payer_mem hb
  have hne : ∀ j x, j ≠ 5 → j < 7 → x ∈ st j → x ≠ s.accepting.cust := fun j x hj hj7 hx => h.front_ne (by omega) hst hj7 hj hx
  have hat := h.front_stage (by omega) hst
  have hfin : s.finishAccept = { s.finishAccept with registerBusy := false, sofa := s.sofa.filter (fun x => x ≠ s.accepting.cust) } := by
    unfold Sim.finishAccept
    rw [if_pos ⟨hb, hend⟩]
    rfl
  have hbusy : s.finishAccept.registerBusy = false := by rw [hfin]
  have hkeep : s.finishAccept.standing = s.standing ∧ s.finishAccept.ready = s.ready ∧ s.finishAccept.baking = s.baking ∧
      s.finishAccept.peopleInside = s.peopleInside - 1 ∧ s.finishAccept.ovensAvailable = s.ovensAvailable ∧
      s.finishAccept.arrivalIdx = s.arrivalIdx ∧ s.finishAccept.lastSeatFreed = s.currentTime ∧
      s.finishAccept.chefFree = Function.update s.chefFree (s.accepting.chef - 1) true := by
    unfold Sim.finishAccept
    rw [if_pos ⟨hb, hend⟩]
    exact ⟨rfl, rfl, rfl, rfl, rfl, rfl, rfl, rfl⟩
  obtain ⟨k0, k1, k2, k3, k4, k5, k6, k7⟩ := hkeep
  -- the customer who leaves is the front of the sofa, and nowhere else on it
  have hsofa : s.finishAccept.sofa = st 4 ++ (st 3 ++ (st 2 ++ st 1)) := by
    have hsub : s.finishAccept.sofa = s.sofa.filter (fun x => x ≠ s.accepting.cust) := by rw [hfin]
    rw [hsub, h.queues.sofa, hst, List.cons_append, List.nil_append, List.filter_cons_of_neg (by simp), List.filter_eq_self]
    intro x hx
    simp only [List.mem_append] at hx
    rcases hx with hx | hx | hx | hx
    · simpa using hne 4 x (by omega) (by omega) hx
    · simpa using hne 3 x (by omega) (by omega) hx
    · simpa using hne 2 x (by omega) (by omega) hx
    · simpa using hne 1 x (by omega) (by omega) hx
  refine ⟨h.placed.push rfl hst hm leave_stamps k5 ?_, ?_, ?_, ?_, ?_⟩
  · intro _
    have htime : s.currentTime = (s.customers s.accepting.cust).tAcceptStart + 2 := hend.symm.trans (h.clock.payment hb).1
    exact ⟨hat.entered, hat.seated, hat.requested, hat.baking, hat.baked, fun _ => hat.sat (by omega), fun _ => hat.asked (by omega),
      fun _ => hat.bakes (by omega), fun _ => hat.pays (by omega), fun _ => hat.accepts (by omega),
      fun _ => htime⟩
  · obtain ⟨h0, h1, h2, h3, h4⟩ := h.queues
    refine ⟨k0.trans h0, ?_, k1.trans h2, ?_, ?_⟩
    · rw [hsofa, push_self, hst]
      simp [push]
    · rw [k2, push_of_ne (by omega) (by omega)]
      exact h3
    · rw [push_self, hst, hbusy]
      rfl
  · obtain ⟨h0, h1, h2, h3⟩ := h.counts
    have hlen : s.sofa.length = s.finishAccept.sofa.length + 1 := by
      rw [hsofa, h.queues.sofa, hst]
      simp
    refine ⟨by omega, ?_, by omega, ?_⟩
    · rw [k0, k3]
      omega
    · rw [k2, k4]
      exact h3
  · rw [k7]
    refine h.chefs.release (c := s.accepting.chef) ?_
    unfold Sim.busyChefs
    rw [k2, hbusy, hb]
    change (s.baking.map Task.chef ++ [s.accepting.chef]).Perm (s.accepting.chef :: (s.baking.map Task.chef ++ []))
    rw [List.append_nil]
    exact List.perm_append_singleton _ _
  · obtain ⟨h0, h1, h2, h3, h4⟩ := h.clock
    refine ⟨k5 ▸ h0, ?_, ?_, ?_, Or.inr ?_⟩
    · intro hb'
      rw [hbusy] at hb'
      cases hb'
    · intro b hb'
      rw [k2] at hb'
      rw [hm.other (hne 3 _ (by omega) (by omega) (h.task_mem hb'))]
      exact h2 b hb'
    · intro x hx
      rw [push_of_ne (by omega) (by omega)] at hx
      rw [hm.other (hne 1 x (by omega) (by omega) hx)]
      exact h3 x hx
    · rw [k6, hm.currentTime]
      exact ⟨le_refl _, h.came (by decide) (hst ▸ List.mem_cons_self)⟩

/-! ### Entering -/

theorem enter_moved : Moved s s.enter s.arrivalIdx .enters (fun c => { c with entered := true }) :=
  ⟨rfl, ⟨none, by simp [Sim.enter, Sim.printCustomer, Sim.setCustomer]⟩, rfl⟩

/-- The next customer enters. -/
theorem Inv.enter {a : Arrival} (h : Inv arrivals s st ta tp tb tr) (ha : arrivals[s.arrivalIdx]? = some a) (hts : a.ts = s.currentTime)
    (hroom : s.peopleInside < 25) : Inv arrivals s.enter (feed st s.arrivalIdx) ta tp tb tr := by
  have hm : Moved s s.enter s.arrivalIdx .enters _ := enter_moved
  have hnew : s.arrivalIdx ∉ reached st 7 0 := fun hx => Nat.lt_irrefl _ (h.placed.lt _ hx)
  have hne : ∀ j x, j < 7 → x ∈ st j → x ≠ s.arrivalIdx := by
    rintro j x hj hx rfl
    exact hnew (mem_reached.mpr ⟨j, Nat.zero_le _, hj, hx⟩)
  have hzero : reached (feed st s.arrivalIdx) 7 0 = reached st 7 0 ++ [s.arrivalIdx] := reached_feed_zero _ (by omega)
  have hfeed : ∀ j, j ≠ 0 → feed st s.arrivalIdx j = st j := fun j hj => Function.update_of_ne hj _ _
  have hfresh := h.placed.fresh _ a ha hnew
  have hlt : s.arrivalIdx < arrivals.length := (List.getElem?_eq_some_iff.mp ha).1
  have hmem : ∀ x, x ∈ reached (feed st s.arrivalIdx) 7 0 ↔ x ∈ reached st 7 0 ∨ x = s.arrivalIdx := by
    intro x
    rw [hzero, List.mem_append, List.mem_singleton]
  refine ⟨⟨?_, ?_, hlt, ?_, ?_, ?_, ?_⟩, ?_, ?_, h.chefs, ?_⟩
  · rw [hzero, List.pairwise_append]
    refine ⟨h.placed.sorted, List.pairwise_singleton _ _, ?_⟩
    intro x hx y hy
    rw [List.mem_singleton.mp hy]
    exact h.placed.lt x hx
  · intro x hx
    change x < s.arrivalIdx + 1
    rcases (hmem x).mp hx with hx | hx
    · exact Nat.lt_succ_of_lt (h.placed.lt x hx)
    · omega
  · intro j hj x hx
    by_cases hj0 : j = 0
    · subst hj0
      rw [feed, Function.update_self] at hx
      rcases List.mem_append.mp hx with hx | hx
      · rw [hm.other (hne 0 x hj hx)]
        exact h.placed.stage 0 hj x hx
      · rw [List.mem_singleton.mp hx, hm.self, hfresh]
        refine ⟨rfl, rfl, rfl, rfl, rfl, ?_, ?_, ?_, ?_, ?_, ?_⟩ <;> intro hk <;> omega
    · rw [hfeed j hj0] at hx
      rw [hm.other (hne j x hj hx)]
      exact h.placed.stage j hj x hx
  · intro x b hb hx
    rw [hmem, not_or] at hx
    rw [hm.other hx.2]
    exact h.placed.fresh x b hb hx.1
  · intro x b hb
    by_cases hx : x = s.arrivalIdx
    · subst hx
      rw [hm.self]
      exact h.placed.info _ b hb
    · rw [hm.other hx]
      exact h.placed.info x b hb
  · have htime : (s.customers s.arrivalIdx).arrivalTs = s.currentTime := (h.placed.info _ a ha).2.trans hts
    have hstamps : Stamps s s.arrivalIdx .enters (fun c => { c with entered := true }) := by
      refine ⟨htime, ?_, rfl⟩
      intro act _
      cases act <;> rfl
    refine h.placed.log.move hm hstamps hnew ?_
    intro act
    cases act with
    | enters => exact hzero
    | _ => exact reached_feed_pos _ (by decide)
  · obtain ⟨h0, h1, h2, h3, h4⟩ := h.queues
    refine ⟨?_, ?_, ?_, ?_, ?_⟩
    · change s.standing ++ [s.arrivalIdx] = _
      rw [h0, feed, Function.update_self]
    · rw [hfeed 5 (by omega), hfeed 4 (by omega), hfeed 3 (by omega), hfeed 2 (by omega), hfeed 1 (by omega)]
      exact h1
    · rw [hfeed 4 (by omega)]
      exact h2
    · rw [hfeed 3 (by omega)]
      exact h3
    · rw [hfeed 5 (by omega)]
      exact h4
  · obtain ⟨h0, h1, h2, h3⟩ := h.counts
    refine ⟨h0, ?_, ?_, h3⟩
    · change s.peopleInside + 1 = ((s.standing ++ [s.arrivalIdx]).length : Int) + (s.sofa.length : Int)
      rw [List.length_append, List.length_singleton]
      omega
    · change s.peopleInside + 1 ≤ 25
      omega
  · obtain ⟨h0, h1, h2, h3, h4⟩ := h.clock
    refine ⟨?_, ?_, ?_, ?_, h4⟩
    · intro i b hb hi
      change s.arrivalIdx + 1 ≤ i at hi
      exact h0 i b hb (by omega)
    · intro hb
      rw [hm.other (hne 5 _ (by omega) (h.payer_mem hb ▸ List.mem_singleton_self _))]
      exact h1 hb
    · intro b hb
      rw [hm.other (hne 3 _ (by omega) (h.task_mem hb))]
      exact h2 b hb
    · intro x hx
      rw [hfeed 1 (by omega)] at hx
      rw [hm.other (hne 1 x (by omega) hx)]
      exact h3 x hx

/-- A customer who finds the bakery full goes away. -/
theorem Inv.skip (h : Inv arrivals s st ta tp tb tr) (hlt : s.arrivalIdx < arrivals.length) :
    Inv arrivals { s with arrivalIdx := s.arrivalIdx + 1 } st ta tp tb tr := by
  obtain ⟨h0, h1, h2, h3, h4⟩ := h.clock
  obtain ⟨q0, q1, q2, q3, q4⟩ := h.queues
  obtain ⟨c0, c1, c2, c3⟩ := h.counts
  refine ⟨h.placed.congr rfl rfl (le_refl _) (Nat.le_succ _) hlt, ⟨q0, q1, q2, q3, q4⟩, ⟨c0, c1, c2, c3⟩, h.chefs, ⟨?_, h1, h2, h3, h4⟩⟩
  intro i a ha hi
  change s.arrivalIdx + 1 ≤ i at hi
  exact h0 i a ha (by omega)

end Moves

end Xv6SnifferBakery.Bakery
