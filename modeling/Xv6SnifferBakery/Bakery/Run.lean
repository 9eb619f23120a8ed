import Xv6SnifferBakery.Bakery.Moves

/-!
# The invariant through a second

Each of the six functions of the loop is a series of moves, and every customer it picks is the front of a stage. So each function
keeps the invariant, and in time each brings one bound forward; when the clock ticks the bounds are where they started.
-/

namespace Xv6SnifferBakery.Bakery

open Lib

variable {arrivals : List Arrival} {s : Sim} {st : Nat → List Nat} {ta tp tb tr : Int}

/-- The invariant for some conveyor, at a given time. -/
def Holds (arrivals : List Arrival) (now : Int) (ta tp tb tr : Int) (s : Sim) : Prop :=
  s.currentTime = now ∧ ∃ st, Inv arrivals s st ta tp tb tr

theorem Inv.mono {ta' tp' tb' tr' : Int} (h : Inv arrivals s st ta tp tb tr) (ha : ta' ≤ ta) (hp : tp' ≤ tp) (hb : tb' ≤ tb)
    (hr : tr' ≤ tr) : Inv arrivals s st ta' tp' tb' tr' := by
  obtain ⟨h0, h1, h2, h3, h4⟩ := h.clock
  refine ⟨h.placed, h.queues, h.counts, h.chefs, ⟨?_, ?_, ?_, ?_, h4⟩⟩
  · intro i a hi hle
    exact ha.trans (h0 i a hi hle)
  · intro hbusy
    exact ⟨(h1 hbusy).1, hp.trans (h1 hbusy).2⟩
  · intro b hmem
    exact ⟨(h2 b hmem).1, hb.trans (h2 b hmem).2⟩
  · intro x hx
    exact hr.trans (h3 x hx)

/-! ## Arrivals -/

/-- After `process_arrivals_at_time` the next arrival is later. -/
theorem arrivalsLoop_holds (hsorted : arrivals.Pairwise (fun a b => a.ts ≤ b.ts)) {n : Nat} (hn : arrivals.length ≤ s.arrivalIdx + n)
    (h : Inv arrivals s st s.currentTime tp tb tr) :
    Holds arrivals s.currentTime (s.currentTime + 1) tp tb tr (Sim.arrivalsLoop arrivals n s) := by
  induction n generalizing s st with
  | zero =>
    obtain ⟨h0, h1, h2, h3, h4⟩ := h.clock
    refine ⟨rfl, st, h.placed, h.queues, h.counts, h.chefs, ⟨?_, h1, h2, h3, h4⟩⟩
    intro i a hi hle
    change s.arrivalIdx ≤ i at hle
    have := (List.getElem?_eq_some_iff.mp hi).1
    omega
  | succ n ih =>
    rw [Sim.arrivalsLoop]
    cases ha : arrivals[s.arrivalIdx]? with
    | none =>
      obtain ⟨h0, h1, h2, h3, h4⟩ := h.clock
      have hlen := List.getElem?_eq_none_iff.mp ha
      refine ⟨rfl, st, h.placed, h.queues, h.counts, h.chefs, ⟨?_, h1, h2, h3, h4⟩⟩
      intro i a hi hle
      change s.arrivalIdx ≤ i at hle
      have := (List.getElem?_eq_some_iff.mp hi).1
      omega
    | some a =>
      have hlt : s.arrivalIdx < arrivals.length := (List.getElem?_eq_some_iff.mp ha).1
      simp only
      split
      · rename_i hts
        obtain ⟨h0, h1, h2, h3, h4⟩ := h.clock
        refine ⟨rfl, st, h.placed, h.queues, h.counts, h.chefs, ⟨?_, h1, h2, h3, h4⟩⟩
        intro i b hi hle
        change s.arrivalIdx ≤ i at hle
        have hge := h0 _ a ha (le_refl _)
        have hab : a.ts ≤ b.ts := by
          obtain ⟨hi', rfl⟩ := List.getElem?_eq_some_iff.mp hi
          obtain ⟨_, rfl⟩ := List.getElem?_eq_some_iff.mp ha
          rcases Nat.lt_or_eq_of_le hle with hlt' | heq
          · exact List.pairwise_iff_getElem.mp hsorted _ _ hlt hi' hlt'
          · simp [heq]
        omega
      rename_i hts
      split
      · exact ih (by change _ ≤ s.arrivalIdx + 1 + n; omega) (h.skip hlt)
      · rename_i hroom
        have hroom' : s.peopleInside < 25 := by
          unfold maxCapacity at hroom
          omega
        exact ih (by change _ ≤ s.arrivalIdx + 1 + n; omega) (h.enter ha (by simpa using hts) hroom')

theorem processArrivals_holds {now : Int} (hsorted : arrivals.Pairwise (fun a b => a.ts ≤ b.ts)) (h : Holds arrivals now now tp tb tr s) :
    Holds arrivals now (now + 1) tp tb tr (s.processArrivals arrivals) := by
  obtain ⟨rfl, st, h⟩ := h
  exact arrivalsLoop_holds hsorted (by omega) h

/-! ## Tasks that end -/

/-- After the first part of `finish_tasks_at_time` no payment ends now. -/
theorem finishAccept_holds {now : Int} (h : Holds arrivals now ta now tb tr s) : Holds arrivals now ta (now + 1) tb tr s.finishAccept := by
  obtain ⟨rfl, st, h⟩ := h
  by_cases hc : s.registerBusy = true ∧ s.accepting.endTime = s.currentTime
  · exact ⟨(leave_moved hc.1 hc.2).currentTime, _, h.leave hc.1 hc.2 _⟩
  · unfold Sim.finishAccept
    rw [if_neg hc]
    obtain ⟨h0, h1, h2, h3, h4⟩ := h.clock
    refine ⟨rfl, st, h.placed, h.queues, h.counts, h.chefs, ⟨h0, ?_, h2, h3, h4⟩⟩
    intro hb
    obtain ⟨h5, h6⟩ := h1 hb
    have hne : s.accepting.endTime ≠ s.currentTime := fun he => hc ⟨hb, he⟩
    exact ⟨h5, by omega⟩

/-- Cakes are ready in the order in which they were begun. -/
theorem Inv.cakes_sorted (h : Inv arrivals s st ta tp tb tr) : s.baking.Pairwise (fun b b' => b.endTime ≤ b'.endTime) := by
  have hmono := h.placed.log.stage_monotone .bakes
  change (st 3).Pairwise _ at hmono
  rw [← h.queues.baking, List.pairwise_map] at hmono
  refine hmono.imp_of_mem ?_
  intro b b' hb hb' hle
  rw [(h.clock.cake b hb).1, (h.clock.cake b' hb').1]
  exact Int.add_le_add_right hle 2

/-- The loop over the cakes: `kept` and what is to come are the tasks in progress. -/
theorem finishBakesLoop_holds {bs kept : List Task} (h : Inv arrivals { s with baking := kept ++ bs } st ta tp s.currentTime tr)
    (hkept : ∀ b ∈ kept, s.currentTime + 1 ≤ b.endTime) :
    Holds arrivals s.currentTime ta tp (s.currentTime + 1) tr
      { (Sim.finishBakesLoop bs s kept).1 with baking := (Sim.finishBakesLoop bs s kept).2 } := by
  induction bs generalizing s st kept with
  | nil =>
    rw [List.append_nil] at h
    obtain ⟨h0, h1, h2, h3, h4⟩ := h.clock
    refine ⟨rfl, st, h.placed, h.queues, h.counts, h.chefs, ⟨h0, h1, ?_, h3, h4⟩⟩
    intro b hb
    exact ⟨(h2 b hb).1, hkept b hb⟩
  | cons b bs ih =>
    rw [Sim.finishBakesLoop]
    by_cases hend : b.endTime = s.currentTime
    · rw [if_pos hend]
      -- what is kept ends later, so there is nothing kept yet
      have hnil : kept = [] := by
        by_contra hne
        obtain ⟨b', hb'⟩ := List.exists_mem_of_ne_nil kept hne
        have hle := (List.pairwise_append.mp h.cakes_sorted).2.2 b' hb' b List.mem_cons_self
        have := hkept b' hb'
        omega
      subst hnil
      have hnext : Inv arrivals ({ s with baking := [] ++ b :: bs }.cakeReady b bs) _ ta tp s.currentTime tr := h.cakeReady rfl hend
      have htime : (s.bakeDone b).currentTime = s.currentTime := rfl
      have := @ih (s.bakeDone b) _ [] hnext (by simp)
      rwa [htime] at this
    · rw [if_neg hend]
      have hlist : kept ++ b :: bs = kept ++ [b] ++ bs := by simp
      rw [hlist] at h
      refine ih h ?_
      intro b' hb'
      rcases List.mem_append.mp hb' with hb' | hb'
      · exact hkept b' hb'
      · obtain rfl := List.mem_singleton.mp hb'
        have hle : s.currentTime ≤ b'.endTime := (h.clock.cake b' (by simp)).2
        omega

/-- After `finish_tasks_at_time` no task ends now. -/
theorem finishBakes_holds {now : Int} (h : Holds arrivals now ta tp now tr s) : Holds arrivals now ta tp (now + 1) tr s.finishBakes := by
  obtain ⟨rfl, st, h⟩ := h
  unfold Sim.finishBakes
  split
  · exact finishBakesLoop_holds (by exact h) (by simp)
  · rename_i hlen
    have hnil : s.baking = [] := List.length_eq_zero_iff.mp (by omega)
    obtain ⟨h0, h1, h2, h3, h4⟩ := h.clock
    refine ⟨rfl, st, h.placed, h.queues, h.counts, h.chefs, ⟨h0, h1, ?_, h3, h4⟩⟩
    intro b hb
    rw [hnil] at hb
    nomatch hb

/-! ## The sofa -/

theorem moveLoop_holds {n : Nat} (h : Inv arrivals s st ta tp tb tr) (hr : tr ≤ s.currentTime) :
    Holds arrivals s.currentTime ta tp tb tr (Sim.moveLoop n s) := by
  induction n generalizing s st with
  | zero => exact ⟨rfl, st, h⟩
  | succ n ih =>
    rw [Sim.moveLoop]
    cases hs : s.standing with
    | nil => exact ⟨rfl, st, h⟩
    | cons ci rest =>
      simp only
      split
      · exact ⟨rfl, st, h⟩
      rename_i hseat
      split
      · exact ⟨rfl, st, h⟩
      rename_i htime
      have hst : st 0 = ci :: rest := by rw [← h.queues.standing, hs]
      have hearly : (s.customers ci).arrivalTs + 1 ≤ s.currentTime := by
        unfold Sim.allowedSit tCustomerAction at htime
        simp only at htime
        split at htime <;> omega
      exact ih (h.sit hst (by unfold sofaCapacity at hseat; omega) hearly hr) hr

theorem moveStanding_holds {now : Int} (h : Holds arrivals now ta tp tb tr s) (hr : tr ≤ now) :
    Holds arrivals now ta tp tb tr s.moveStanding := by
  obtain ⟨rfl, st, h⟩ := h
  exact moveLoop_holds h hr

/-- A customer's request does not look at the sofa. -/
theorem request_sofa (s : Sim) (ci : Nat) (sofa : List Nat) : Sim.request { s with sofa := sofa } ci = { s.request ci with sofa := sofa } := by
  unfold Sim.request
  simp only
  split
  · split <;> rfl
  · rfl

theorem request_keeps (s : Sim) (ci : Nat) : (s.request ci).sofa = s.sofa ∧ (s.request ci).currentTime = s.currentTime := by
  unfold Sim.request
  split
  · split <;> exact ⟨rfl, rfl⟩
  · exact ⟨rfl, rfl⟩

/-- Turning the sofa once lets each customer on it ask, in order, and leaves it as it was. -/
theorem requestLoop_eq (l r : List Nat) (s : Sim) :
    Sim.requestLoop l.length { s with sofa := l ++ r } = { l.foldl Sim.request s with sofa := r ++ l } := by
  induction l generalizing s r with
  | nil =>
    rw [List.append_nil]
    rfl
  | cons ci l ih =>
    rw [List.length_cons, Sim.requestLoop]
    simp only [List.cons_append, request_sofa]
    have := ih (r ++ [ci]) (s.request ci)
    rw [← List.append_assoc] at this
    rw [this, List.foldl_cons, List.append_assoc, List.singleton_append]

theorem foldl_request_keeps (l : List Nat) (s : Sim) :
    (l.foldl Sim.request s).sofa = s.sofa ∧ (l.foldl Sim.request s).currentTime = s.currentTime := by
  induction l generalizing s with
  | nil => exact ⟨rfl, rfl⟩
  | cons ci l ih =>
    rw [List.foldl_cons, (ih _).1, (ih _).2]
    exact request_keeps s ci

theorem makeRequests_eq (s : Sim) : s.makeRequests = s.sofa.foldl Sim.request s := by
  have h := requestLoop_eq s.sofa [] s
  rw [List.append_nil] at h
  have hself : ∀ (t : Sim) (sofa : List Nat), t.sofa = sofa → { t with sofa := sofa } = t := by
    rintro t _ rfl
    rfl
  exact h.trans (hself _ _ (foldl_request_keeps s.sofa s).1)

/-- Customers who have asked do not ask again. -/
theorem foldl_request_same {l : List Nat} (h : ∀ x ∈ l, (s.customers x).requested = true ∨ s.currentTime ≤ (s.customers x).tSat) :
    l.foldl Sim.request s = s := by
  induction l with
  | nil => rfl
  | cons ci l ih =>
    have hsame : s.request ci = s := by
      unfold Sim.request
      rcases h ci List.mem_cons_self with hr | hr
      · rw [if_neg (by simp [hr])]
      · split
        · rw [if_neg (by unfold tCustomerAction; omega)]
        · rfl
    rw [List.foldl_cons, hsame]
    exact ih (fun x hx => h x (List.mem_cons_of_mem _ hx))

/-- The customers who sat down a second ago ask, in order; those who have just sat down do not. -/
theorem foldl_request_holds {l : List Nat} (hl : st 1 = l) (h : Inv arrivals s st ta tp tb (s.currentTime - 1)) :
    Holds arrivals s.currentTime ta tp tb s.currentTime (l.foldl Sim.request s) := by
  have hmono := h.placed.log.stage_monotone .sits
  change (st 1).Pairwise _ at hmono
  induction l generalizing s st with
  | nil =>
    obtain ⟨h0, h1, h2, h3, h4⟩ := h.clock
    refine ⟨rfl, st, h.placed, h.queues, h.counts, h.chefs, ⟨h0, h1, h2, ?_, h4⟩⟩
    rw [hl]
    simp
  | cons ci l ih =>
    have hci : ci ∈ st 1 := hl ▸ List.mem_cons_self
    have hat := h.placed.stage 1 (by omega) ci hci
    have hlow := h.clock.seated ci hci
    by_cases htime : (s.customers ci).tSat + 1 ≤ s.currentTime
    · have heq : (s.customers ci).tSat + 1 = s.currentTime := by omega
      have hreq : s.request ci = s.asked ci := by
        unfold Sim.request
        rw [if_pos (by rw [hat.seated, hat.requested]; decide), if_pos (by unfold tCustomerAction; omega)]
        rfl
      rw [List.foldl_cons, hreq]
      have hnext := h.asked hl heq
      refine ih ?_ hnext ?_
      · rw [push_self, hl]
        rfl
      · exact hnext.placed.log.stage_monotone .sits
    · -- nobody behind sat down earlier
      have hlate : ∀ x ∈ ci :: l, s.currentTime ≤ (s.customers x).tSat := by
        rw [hl] at hmono
        intro x hx
        rcases List.mem_cons.mp hx with rfl | hx
        · omega
        · have hle : (s.customers ci).tSat ≤ (s.customers x).tSat := (List.pairwise_cons.mp hmono).1 x hx
          omega
      rw [foldl_request_same (fun x hx => Or.inr (hlate x hx))]
      obtain ⟨h0, h1, h2, h3, h4⟩ := h.clock
      refine ⟨rfl, st, h.placed, h.queues, h.counts, h.chefs, ⟨h0, h1, h2, ?_, h4⟩⟩
      rw [hl]
      exact hlate

/-- After `make_requests_from_sofa` those who have not asked have just sat down. -/
theorem makeRequests_holds {now : Int} (h : Holds arrivals now ta tp tb (now - 1) s) : Holds arrivals now ta tp tb now s.makeRequests := by
  obtain ⟨rfl, st, h⟩ := h
  rw [makeRequests_eq]
  have hsofa := h.queues.sofa
  simp only [← List.append_assoc] at hsofa
  rw [hsofa, List.foldl_append]
  have hsame : (st 5 ++ st 4 ++ st 3 ++ st 2).foldl Sim.request s = s := by
    refine foldl_request_same (fun x hx => Or.inl ?_)
    simp only [List.mem_append] at hx
    rcases hx with ((hx | hx) | hx) | hx
    · rw [(h.placed.stage 5 (by omega) x hx).requested]
      rfl
    · rw [(h.placed.stage 4 (by omega) x hx).requested]
      rfl
    · rw [(h.placed.stage 3 (by omega) x hx).requested]
      rfl
    · rw [(h.placed.stage 2 (by omega) x hx).requested]
      rfl
  rw [hsame]
  exact foldl_request_holds rfl h

/-! ## Tasks that begin -/

theorem acceptLoop_holds {n : Nat} (h : Inv arrivals s st ta tp tb tr) (hp : tp ≤ s.currentTime + 2) :
    Holds arrivals s.currentTime ta tp tb tr (Sim.acceptLoop n s) := by
  induction n generalizing s st with
  | zero => exact ⟨rfl, st, h⟩
  | succ n ih =>
    rw [Sim.acceptLoop]
    split
    · exact ⟨rfl, st, h⟩
    rename_i hidle
    split
    · exact ⟨rfl, st, h⟩
    rename_i hchef
    cases hr : s.ready with
    | nil => exact ⟨rfl, st, h⟩
    | cons ci rest =>
      simp only
      split
      · exact ⟨rfl, st, h⟩
      rename_i htime
      have hst : st 4 = ci :: rest := by rw [← h.queues.ready, hr]
      have hpay : (s.customers ci).tPayTime + 1 ≤ s.currentTime := by
        unfold tCustomerAction at htime
        omega
      have hm : Moved s (s.startAccept s.getFreeChef ci rest) ci .accepts _ := startAccept_moved
      have := ih (h.startAccept hst (by simpa using hidle) (getFreeChef_spec hchef) hpay hp) hp
      rwa [hm.currentTime] at this

theorem scheduleAccepts_holds {now : Int} (h : Holds arrivals now ta tp tb tr s) (hp : tp ≤ now + 2) :
    Holds arrivals now ta tp tb tr s.scheduleAccepts := by
  obtain ⟨rfl, st, h⟩ := h
  exact acceptLoop_holds h hp

/-- The customer a chef bakes for is the first who has asked. -/
theorem find_eligible {ci : Nat} (h : Inv arrivals s st ta tp tb tr) (hf : s.sofa.find? s.eligible = some ci) :
    ∃ rest, st 2 = ci :: rest ∧ (s.customers ci).tRequest + 1 ≤ s.currentTime := by
  have hno : ∀ k < 7, k ≠ 2 → ∀ x ∈ st k, s.eligible x = false := by
    intro k hk hk2 x hx
    have hat := h.placed.stage k hk x hx
    unfold Sim.eligible
    rw [hat.requested, hat.baking, hat.baked]
    obtain hlt | rfl | hge : k < 2 ∨ k = 3 ∨ 4 ≤ k := by omega
    · simp [show ¬2 ≤ k by omega]
    · rfl
    · simp [hge]
  have hskip : ∀ k < 7, k ≠ 2 → (st k).find? s.eligible = none :=
    fun k hk hk2 => List.find?_eq_none.mpr (fun x hx => by rw [hno k hk hk2 x hx]; simp)
  rw [h.queues.sofa, List.find?_append, hskip 5 (by omega) (by omega), Option.none_or, List.find?_append, hskip 4 (by omega) (by omega),
    Option.none_or, List.find?_append, hskip 3 (by omega) (by omega), Option.none_or, List.find?_append, hskip 1 (by omega) (by omega),
    Option.or_none] at hf
  have hel : s.eligible ci = true := by simpa using List.find?_some hf
  have htime : (s.customers ci).tRequest + 1 ≤ s.currentTime := by
    unfold Sim.eligible tCustomerAction at hel
    simp only [Bool.and_eq_true, decide_eq_true_eq] at hel
    exact hel.2
  have hmem := List.mem_of_find?_eq_some hf
  cases hst : st 2 with
  | nil =>
    rw [hst] at hmem
    nomatch hmem
  | cons x rest =>
    refine ⟨rest, ?_, htime⟩
    -- whoever asked first is eligible too
    have hx : x ∈ st 2 := hst ▸ List.mem_cons_self
    have hmono := h.placed.log.stage_monotone .requests
    change (st 2).Pairwise _ at hmono
    have hle : (s.customers x).tRequest ≤ (s.customers ci).tRequest := by
      rw [hst] at hmono hmem
      rcases List.mem_cons.mp hmem with rfl | hmem
      · exact le_refl _
      · exact (List.pairwise_cons.mp hmono).1 ci hmem
    have hat := h.placed.stage 2 (by omega) x hx
    have helx : s.eligible x = true := by
      unfold Sim.eligible tCustomerAction
      rw [hat.requested, hat.baking, hat.baked]
      simp only [Bool.and_eq_true, decide_eq_true_eq]
      exact ⟨by decide, by omega⟩
    rw [hst, List.find?_cons_of_pos helx] at hf
    rw [Option.some.inj hf]

theorem bakeLoop_holds {n : Nat} (h : Inv arrivals s st ta tp tb tr) (hb : tb ≤ s.currentTime + 2) :
    Holds arrivals s.currentTime ta tp tb tr (Sim.bakeLoop n s) := by
  induction n generalizing s st with
  | zero => exact ⟨rfl, st, h⟩
  | succ n ih =>
    rw [Sim.bakeLoop]
    split
    · exact ⟨rfl, st, h⟩
    split
    · exact ⟨rfl, st, h⟩
    rename_i hchef
    cases hf : s.sofa.find? s.eligible with
    | none => exact ⟨rfl, st, h⟩
    | some ci =>
      obtain ⟨rest, hst, htime⟩ := find_eligible h hf
      have hm : Moved s (s.startBake s.getFreeChef ci) ci .bakes _ := startBake_moved
      have := ih (h.startBake hst (getFreeChef_spec hchef) htime hb) hb
      rwa [hm.currentTime] at this

theorem scheduleBakes_holds {now : Int} (h : Holds arrivals now ta tp tb tr s) (hb : tb ≤ now + 2) :
    Holds arrivals now ta tp tb tr s.scheduleBakes := by
  obtain ⟨rfl, st, h⟩ := h
  exact bakeLoop_holds h hb

/-! ## The loop -/

instance : Std.Total (fun x y : Arrival => x.le y = true) where
  total a b := by
    simp only [Arrival.le, decide_eq_true_eq]
    omega

instance : IsTrans Arrival (fun x y => x.le y = true) where
  trans a b c hab hbc := by
    simp only [Arrival.le, decide_eq_true_eq] at hab hbc ⊢
    omega

/-- The input is sorted by `cmp_arrival`. -/
theorem readInput_pairwise (input : List Arrival) : (readInput input).Pairwise (fun a b => a.le b = true) :=
  List.pairwise_insertionSort _ input

theorem readInput_sorted (input : List Arrival) : (readInput input).Pairwise (fun a b => a.ts ≤ b.ts) := by
  refine (readInput_pairwise input).imp ?_
  intro a b hab
  simp only [Arrival.le, decide_eq_true_eq] at hab
  omega

/-- How far each bound is at each function: now, or a second on. -/
def Phase.bounds (now : Int) : Phase → Int × Int × Int × Int
  | .arrive => (now, now, now, now - 1)
  | .finish => (now + 1, now, now, now - 1)
  | .move => (now + 1, now + 1, now + 1, now - 1)
  | .request => (now + 1, now + 1, now + 1, now - 1)
  | .accept => (now + 1, now + 1, now + 1, now)
  | .bake => (now + 1, now + 1, now + 1, now)
  | .check => (now + 1, now + 1, now + 1, now)

/-- The invariant with the bounds of a phase. -/
def AtPhase (arrivals : List Arrival) (ph : Phase) (s : Sim) : Prop :=
  Holds arrivals s.currentTime (ph.bounds s.currentTime).1 (ph.bounds s.currentTime).2.1 (ph.bounds s.currentTime).2.2.1
    (ph.bounds s.currentTime).2.2.2 s

/-- Nobody has entered at the start. -/
theorem init_holds (hsorted : arrivals.Pairwise (fun a b => a.ts ≤ b.ts)) : AtPhase arrivals .arrive (Sim.init arrivals) := by
  have hnone : ∀ k, reached (fun _ => ([] : List Nat)) 7 k = [] := by
    intro k
    refine List.eq_nil_iff_forall_not_mem.mpr (fun x hx => ?_)
    obtain ⟨j, -, -, hj⟩ := mem_reached.mp hx
    nomatch hj
  have hcust : ∀ x a, arrivals[x]? = some a → (Sim.init arrivals).customers x = Customer.fresh a := by
    intro x a ha
    change Customer.fresh (arrivals.getD x _) = _
    rw [List.getD_eq_getElem?_getD, ha]
    rfl
  refine ⟨rfl, fun _ => [], ⟨?_, ?_, Nat.zero_le _, ?_, ?_, ?_, ⟨?_, ?_, ?_, ?_, List.Pairwise.nil⟩⟩, ⟨rfl, rfl, rfl, rfl, rfl⟩,
    ⟨Nat.zero_le 4, rfl, show (0 : Int) ≤ 25 by decide, rfl⟩, ⟨List.nodup_nil, ?_⟩, ⟨?_, ?_, ?_, ?_, Or.inl rfl⟩⟩
  · rw [hnone]
    exact List.Pairwise.nil
  · rw [hnone]
    simp
  · simp
  · intro x a ha _
    exact hcust x a ha
  · intro x a ha
    rw [hcust x a ha]
    exact ⟨rfl, rfl⟩
  · intro act
    rw [hnone]
    rfl
  · intro e he
    nomatch he
  · intro e he
    nomatch he
  · intro e he
    nomatch he
  · intro c
    change c ∈ [] ↔ 1 ≤ c ∧ c ≤ 4 ∧ true = false
    simp
  · intro i a ha _
    cases arrivals with
    | nil => nomatch ha
    | cons b l =>
      change b.ts ≤ a.ts
      cases i with
      | zero =>
        obtain rfl := Option.some.inj ha
        exact le_refl _
      | succ i => exact (List.pairwise_cons.mp hsorted).1 a (List.mem_of_getElem? ha)
  · intro hb
    nomatch hb
  · intro b hb
    nomatch hb
  · intro x hx
    nomatch hx

/-- The invariant holds at every point of the simulation. -/
theorem Point.holds {input : List Arrival} {ph : Phase} {s : Sim} (h : Point input ph s) : AtPhase (readInput input) ph s := by
  have keep : ∀ {now ta tp tb tr : Int} {s : Sim}, Holds (readInput input) now ta tp tb tr s → s.currentTime = now := fun h => h.1
  induction h with
  | start => exact init_holds (readInput_sorted input)
  | @arrive s _ ih =>
    have h := processArrivals_holds (readInput_sorted input) ih
    unfold AtPhase
    rw [keep h]
    exact h
  | @finish s _ ih =>
    have h := finishBakes_holds (finishAccept_holds ih)
    unfold AtPhase
    rw [Sim.finishTasks, keep h]
    exact h
  | @move s _ ih =>
    have h := moveStanding_holds ih (by change s.currentTime - 1 ≤ _; omega)
    unfold AtPhase
    rw [keep h]
    exact h
  | @request s _ ih =>
    have h := makeRequests_holds ih
    unfold AtPhase
    rw [keep h]
    exact h
  | @accept s _ ih =>
    have h := scheduleAccepts_holds ih (by change s.currentTime + 1 ≤ _; omega)
    unfold AtPhase
    rw [keep h]
    exact h
  | @bake s _ ih =>
    have h := scheduleBakes_holds ih (by change s.currentTime + 1 ≤ _; omega)
    unfold AtPhase
    rw [keep h]
    exact h
  | @again s _ _ ih =>
    obtain ⟨-, st, h⟩ := ih
    obtain ⟨h0, h1, h2, h3, h4⟩ := h.clock
    obtain ⟨q0, q1, q2, q3, q4⟩ := h.queues
    obtain ⟨c0, c1, c2, c3⟩ := h.counts
    have hle : s.currentTime ≤ s.advance.currentTime := by
      change s.currentTime ≤ s.currentTime + 1
      omega
    refine ⟨rfl, st, h.placed.congr rfl rfl hle (le_refl _) h.placed.le, ⟨q0, q1, q2, q3, q4⟩, ⟨c0, c1, c2, c3⟩, h.chefs,
      ⟨h0, h1, h2, ?_, ?_⟩⟩
    · intro x hx
      have := h3 x hx
      change s.currentTime + 1 - 1 ≤ _
      change s.currentTime ≤ _ at this
      change _ ≤ (s.customers x).tSat
      omega
    · exact h4.imp id (fun hf => ⟨hf.1.trans hle, hf.2⟩)

/-- A second does not move the clock. -/
theorem Point.tick_clock {input : List Arrival} {s : Sim} (h : Point input .arrive s) :
    (s.tick (readInput input)).currentTime = s.currentTime := by
  have h₀ : Holds (readInput input) s.currentTime s.currentTime s.currentTime s.currentTime (s.currentTime - 1) s := h.holds
  have h₁ := processArrivals_holds (readInput_sorted input) h₀
  have h₂ := finishBakes_holds (finishAccept_holds h₁)
  have h₃ := moveStanding_holds h₂ (by omega)
  have h₄ := makeRequests_holds h₃
  have h₅ := scheduleAccepts_holds h₄ (by omega)
  exact (scheduleBakes_holds h₅ (by omega)).1

end Xv6SnifferBakery.Bakery
