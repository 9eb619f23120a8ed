import Xv6SnifferBakery.Theorems.BakeryTermination

/-!
# Payments first, and no idle chefs

`schedule_accepts` looks at the front of its queue only, and `schedule_bakes` runs after it. Customers finish paying in the order in
which they wait, so when the front cannot be served nobody can: at the end of a second nothing waits that a free chef could have begun.
That is so of every second that has an end, and when the clock fits a `long` every second has one.
-/

namespace Xv6SnifferBakery.Bakery

open Lib

/-! ## Where the loops stop -/

variable {arrivals : List Arrival} {s : Sim} {st : Nat → List Nat} {ta tp tb tr : Int}

/-- There is a free chef exactly when `get_free_chef` finds one. -/
theorem getFreeChef_ne_zero : s.getFreeChef ≠ 0 ↔ ∃ i < numChefs, s.chefFree i = true := by
  constructor
  · intro h
    obtain ⟨h1, h4, hfree⟩ := getFreeChef_spec h
    exact ⟨s.getFreeChef - 1, by unfold numChefs; omega, hfree⟩
  · rintro ⟨i, hi, hfree⟩ h0
    unfold Sim.getFreeChef at h0
    cases hf : (List.range numChefs).find? (fun i => s.chefFree i) with
    | none => exact List.find?_eq_none.mp hf i (List.mem_range.mpr hi) hfree
    | some j =>
      rw [hf] at h0
      nomatch h0

/-- A payment can begin: the register and a chef are free, and the front of the queue has finished to pay. -/
def Sim.payable (s : Sim) : Prop :=
  s.registerBusy = false ∧ s.getFreeChef ≠ 0 ∧ ∃ ci rest, s.ready = ci :: rest ∧ (s.customers ci).tPayTime + 1 ≤ s.currentTime

/-- `schedule_accepts` begins a payment when one can begin, and then none can. -/
theorem scheduleAccepts_done (s : Sim) :
    ¬s.scheduleAccepts.payable ∧ (s.payable → history s.scheduleAccepts.out .accepts ≠ history s.out .accepts) := by
  unfold Sim.scheduleAccepts
  cases hr : s.ready with
  | nil =>
    have hno : ¬s.payable := by
      rintro ⟨-, -, ci, rest, h, -⟩
      rw [hr] at h
      cases h
    exact ⟨hno, fun h => absurd h hno⟩
  | cons ci rest =>
    rw [List.length_cons, Sim.acceptLoop]
    split
    · rename_i hbusy
      have hno : ¬s.payable := fun h => by
        rw [h.1] at hbusy
        cases hbusy
      exact ⟨hno, fun h => absurd h hno⟩
    split
    · rename_i hchef
      have hno : ¬s.payable := fun h => h.2.1 hchef
      exact ⟨hno, fun h => absurd h hno⟩
    rw [hr]
    simp only
    split
    · rename_i htime
      have hno : ¬s.payable := by
        rintro ⟨-, -, cj, rest', h, hpay⟩
        obtain ⟨rfl, rfl⟩ := List.cons.inj (hr.symm.trans h)
        unfold tCustomerAction at htime
        omega
      exact ⟨hno, fun h => absurd h hno⟩
    · -- the register is busy now, so that the loop ends
      have hbusy : (s.startAccept s.getFreeChef ci rest).registerBusy = true := rfl
      have hend : Sim.acceptLoop rest.length (s.startAccept s.getFreeChef ci rest) = s.startAccept s.getFreeChef ci rest := by
        cases rest.length with
        | zero => rfl
        | succ n => rw [Sim.acceptLoop, if_pos hbusy]
      rw [hend]
      refine ⟨fun h => ?_, fun _ heq => ?_⟩
      · rw [h.1] at hbusy
        cases hbusy
      · obtain ⟨chef, hout⟩ := (startAccept_moved : Moved s (s.startAccept s.getFreeChef ci rest) ci .accepts _).out
        rw [hout, history_append, if_pos rfl] at heq
        exact absurd heq (by simp)

theorem scheduleAccepts_of_busy (h : s.getFreeChef = 0) : s.scheduleAccepts = s := by
  unfold Sim.scheduleAccepts
  cases s.ready.length with
  | zero => rfl
  | succ n =>
    rw [Sim.acceptLoop, if_pos h, ite_self]

theorem scheduleBakes_of_busy (h : s.getFreeChef = 0) : s.scheduleBakes = s := by
  unfold Sim.scheduleBakes
  cases s.ovensAvailable.toNat with
  | zero => rfl
  | succ n =>
    rw [Sim.bakeLoop, if_pos h, ite_self]

/-- What `schedule_bakes` leaves as it was: the register, the queue of payments, and the chefs that are not free. -/
theorem bakeLoop_frame (n : Nat) (s : Sim) :
    (Sim.bakeLoop n s).registerBusy = s.registerBusy ∧ (Sim.bakeLoop n s).ready = s.ready ∧
      (Sim.bakeLoop n s).currentTime = s.currentTime ∧ (∀ x, ((Sim.bakeLoop n s).customers x).tPayTime = (s.customers x).tPayTime) ∧
      ∀ i, (Sim.bakeLoop n s).chefFree i = true → s.chefFree i = true := by
  induction n generalizing s with
  | zero => exact ⟨rfl, rfl, rfl, fun _ => rfl, fun _ h => h⟩
  | succ n ih =>
    rw [Sim.bakeLoop]
    split
    · exact ⟨rfl, rfl, rfl, fun _ => rfl, fun _ h => h⟩
    split
    · exact ⟨rfl, rfl, rfl, fun _ => rfl, fun _ h => h⟩
    cases s.sofa.find? s.eligible with
    | none => exact ⟨rfl, rfl, rfl, fun _ => rfl, fun _ h => h⟩
    | some ci =>
      obtain ⟨h1, h2, h3, h4, h5⟩ := ih (s.startBake s.getFreeChef ci)
      refine ⟨h1, h2, h3, fun x => ?_, fun i hi => ?_⟩
      · rw [h4]
        by_cases hx : x = ci
        · subst hx
          rw [(startBake_moved (s := s)).self]
        · rw [(startBake_moved (s := s)).other hx]
      · have hfree : Function.update s.chefFree (s.getFreeChef - 1) false i = true := h5 i hi
        by_cases hc : i = s.getFreeChef - 1
        · rw [hc, Function.update_self] at hfree
          cases hfree
        · rwa [Function.update_of_ne hc] at hfree

/-- `schedule_bakes` goes on until there is no oven, no chef or nobody to bake for. -/
theorem bakeLoop_done {n : Nat} (hn : s.ovensAvailable ≤ n) : (Sim.bakeLoop n s).ovensAvailable ≤ 0 ∨
    (Sim.bakeLoop n s).getFreeChef = 0 ∨ (Sim.bakeLoop n s).sofa.find? (Sim.bakeLoop n s).eligible = none := by
  induction n generalizing s with
  | zero => exact Or.inl hn
  | succ n ih =>
    rw [Sim.bakeLoop]
    split
    · exact Or.inl (by assumption)
    split
    · exact Or.inr (Or.inl (by assumption))
    cases hf : s.sofa.find? s.eligible with
    | none => exact Or.inr (Or.inr hf)
    | some ci =>
      refine ih ?_
      change s.ovensAvailable - 1 ≤ _
      omega

/-! ## The theorem -/

/-- The customer at the front of the queue of payments began to pay first. -/
theorem Inv.front_paid (h : Inv arrivals s st ta tp tb tr) {x : Nat} (hx : x ∈ s.ready)
    (hpay : (s.customers x).tPayTime + 1 ≤ s.currentTime) :
    ∃ ci rest, s.ready = ci :: rest ∧ (s.customers ci).tPayTime + 1 ≤ s.currentTime := by
  have hmono := h.placed.log.stage_monotone .pays
  change (st 4).Pairwise _ at hmono
  rw [← h.queues.ready] at hmono
  cases hr : s.ready with
  | nil =>
    rw [hr] at hx
    nomatch hx
  | cons ci rest =>
    rw [hr] at hx hmono
    refine ⟨ci, rest, rfl, ?_⟩
    rcases List.mem_cons.mp hx with rfl | hx
    · exact hpay
    · have hle : (s.customers ci).tPayTime ≤ (s.customers x).tPayTime := (List.pairwise_cons.mp hmono).1 x hx
      omega

/-- A customer on the sofa whose request is a second old, and for whom nobody bakes. -/
def Sim.hungry (s : Sim) (x : Nat) : Prop :=
  x ∈ s.sofa ∧ (s.customers x).requested = true ∧ (s.customers x).baking = false ∧ (s.customers x).baked = false ∧
    (s.customers x).tRequest + 1 ≤ s.currentTime

/-- A customer who has finished to pay and waits for a chef to accept the payment. -/
def Sim.paid (s : Sim) (x : Nat) : Prop := x ∈ s.ready ∧ (s.customers x).tPayTime + 1 ≤ s.currentTime

/-- The state in which `schedule_accepts` is called. -/
def Sim.beforeAccepts (arrivals : List Arrival) (s : Sim) : Sim := (s.processArrivals arrivals).finishTasks.moveStanding.makeRequests

theorem Sim.tick_eq (s : Sim) : s.tick arrivals = (s.beforeAccepts arrivals).scheduleAccepts.scheduleBakes := rfl

/-- Before that nobody begins to bake or to accept a payment. -/
theorem Sim.beforeAccepts_history (s : Sim) {act : Act} (h : act = .bakes ∨ act = .accepts) :
    history (s.beforeAccepts arrivals).out act = history s.out act := by
  have h₁ : Prints .enters s (s.processArrivals arrivals) := arrivalsLoop_prints _ s
  have h₂ := finishAccept_prints (s.processArrivals arrivals)
  have h₃ := finishBakes_prints (s.processArrivals arrivals).finishAccept
  have h₄ : Prints .sits _ (s.processArrivals arrivals).finishTasks.moveStanding := moveLoop_prints _ (s.processArrivals arrivals).finishTasks
  have h₅ := makeRequests_prints (s.processArrivals arrivals).finishTasks.moveStanding
  rcases h with rfl | rfl
  all_goals
    exact (h₅.history (by decide)).trans ((h₄.history (by decide)).trans ((h₃.history (by decide)).trans
      ((h₂.history (by decide)).trans (h₁.history (by decide)))))

/-- What a second leaves undone: `s` is the state before it and `t` the one after it. -/
structure NothingIdle (arrivals : List Arrival) (s t : Sim) : Prop where
  /-- With the register and a chef free, nobody waits who has finished to pay. -/
  payments : t.registerBusy = false → (∃ i < numChefs, t.chefFree i = true) → ∀ x, ¬t.paid x
  /-- With an oven and a chef free, nobody waits for a cake whose request is a second old. -/
  bakes : 0 < t.ovensAvailable → (∃ i < numChefs, t.chefFree i = true) → ∀ x, ¬t.hungry x
  /-- When a bake begins, no payment waits for which the register is free. -/
  priority : history t.out .bakes ≠ history s.out .bakes → t.registerBusy = false → ∀ x, ¬t.paid x
  /-- When a bake begins and a payment could have begun instead, a payment has begun. -/
  first : history t.out .bakes ≠ history s.out .bakes → (s.beforeAccepts arrivals).registerBusy = false →
    (∃ x, (s.beforeAccepts arrivals).paid x) → history t.out .accepts ≠ history s.out .accepts

/-- Payments come first, and no chef is idle: at the end of every second, for every input. -/
theorem Point.nothingIdle {input : List Arrival} {s : Sim} (h : Point input .arrive s) :
    NothingIdle (readInput input) s (s.tick (readInput input)) := by
  have hu : Point input .accept (s.beforeAccepts (readInput input)) := .request (.move (.finish (.arrive h)))
  have hbakes : history (s.beforeAccepts (readInput input)).out .bakes = history s.out .bakes := s.beforeAccepts_history (Or.inl rfl)
  have haccepts : history (s.beforeAccepts (readInput input)).out .accepts = history s.out .accepts := s.beforeAccepts_history (Or.inr rfl)
  rw [s.tick_eq]
  generalize hb : s.beforeAccepts (readInput input) = u at hu hbakes haccepts
  obtain ⟨-, st, hinv⟩ := hu.holds
  obtain ⟨-, st', hinv'⟩ := (Point.accept hu).holds
  obtain ⟨hdone, hstart⟩ := scheduleAccepts_done u
  obtain ⟨f1, f2, f3, f4, f5⟩ := bakeLoop_frame u.scheduleAccepts.ovensAvailable.toNat u.scheduleAccepts
  have hbake : history u.scheduleAccepts.out .bakes = history s.out .bakes :=
    ((acceptLoop_prints u.ready.length u).history (by decide)).trans hbakes
  have hbegun : history u.scheduleAccepts.scheduleBakes.out .bakes ≠ history s.out .bakes → u.scheduleAccepts.getFreeChef ≠ 0 := by
    intro hne h0
    rw [scheduleBakes_of_busy h0] at hne
    exact hne hbake
  -- with the register and a chef free after `schedule_accepts`, nobody has finished to pay
  have hnone : u.scheduleAccepts.scheduleBakes.registerBusy = false → u.scheduleAccepts.getFreeChef ≠ 0 →
      ∀ x, ¬u.scheduleAccepts.scheduleBakes.paid x := by
    rintro hfree hchef x ⟨hx, hpay⟩
    change x ∈ (Sim.bakeLoop _ _).ready at hx
    change ((Sim.bakeLoop _ _).customers x).tPayTime + 1 ≤ (Sim.bakeLoop _ _).currentTime at hpay
    rw [f2] at hx
    rw [f3, f4] at hpay
    exact hdone ⟨f1.symm.trans hfree, hchef, hinv'.front_paid hx hpay⟩
  refine ⟨?_, ?_, ?_, ?_⟩
  · rintro hfree ⟨i, hi, hchef⟩
    exact hnone hfree (getFreeChef_ne_zero.mpr ⟨i, hi, f5 i hchef⟩)
  · rintro hoven hchef x ⟨hx, hreq, hbaking, hbaked, htime⟩
    rcases bakeLoop_done (Int.self_le_toNat u.scheduleAccepts.ovensAvailable) with hd | hd | hd
    · exact absurd hoven (Int.not_lt.mpr hd)
    · exact getFreeChef_ne_zero.mpr hchef hd
    · refine absurd ?_ (List.find?_eq_none.mp hd x hx)
      change Sim.eligible u.scheduleAccepts.scheduleBakes x = true
      unfold Sim.eligible tCustomerAction
      rw [hreq, hbaking, hbaked]
      simpa using htime
  · exact fun hne hfree => hnone hfree (hbegun hne)
  · rintro hne hfree ⟨x, hx, hpay⟩
    rw [hb] at hfree hx hpay
    have hchef : u.getFreeChef ≠ 0 := fun h0 => hbegun hne (by rw [scheduleAccepts_of_busy h0, h0])
    have hkeep : history u.scheduleAccepts.scheduleBakes.out .accepts = history u.scheduleAccepts.out .accepts :=
      (bakeLoop_prints _ u.scheduleAccepts).history (by decide)
    rw [hkeep, ← haccepts]
    exact hstart ⟨hfree, hchef, hinv.front_paid hx hpay⟩

/-- Payments come first, and no chef is idle: at the end of every second of the simulation with times of type `long`. And every second
has an end, if the clock fits. -/
theorem payment_priority {input : List Arrival} (hlong : LongInput input) {s : Sim} (h : LongSecond input s) :
    (∀ t, s.tickLong (readInput input) = some t → NothingIdle (readInput input) s t) ∧
      (ClockFits input → ∃ t, s.tickLong (readInput input) = some t) := by
  refine ⟨?_, fun hfits => ⟨_, hfits.tick hlong h.point⟩⟩
  intro t ht
  obtain rfl := tickLong_eq ht
  exact h.point.nothingIdle

/-- In second 6 of four customers a bake and a payment begin, and another customer waits to pay. -/
theorem payment_priority_busy : ∃ s t, s.tickLong (readInput [⟨0, 1⟩, ⟨6, 4⟩, ⟨3, 3⟩, ⟨1, 2⟩]) = some t ∧
    (t.ready = [1] ∧ history s.out .bakes = [0, 1] ∧ history t.out .bakes = [0, 1, 2] ∧ history s.out .accepts = [] ∧
      history t.out .accepts = [0]) ∧ NothingIdle (readInput [⟨0, 1⟩, ⟨6, 4⟩, ⟨3, 3⟩, ⟨1, 2⟩]) s t := by
  have hrun : ((Sim.init (readInput [⟨0, 1⟩, ⟨6, 4⟩, ⟨3, 3⟩, ⟨1, 2⟩])).afterSeconds
      (readInput [⟨0, 1⟩, ⟨6, 4⟩, ⟨3, 3⟩, ⟨1, 2⟩]) 6).any (fun s =>
        let t := s.tick (readInput [⟨0, 1⟩, ⟨6, 4⟩, ⟨3, 3⟩, ⟨1, 2⟩])
        t.ready = [1] ∧ history s.out .bakes = [0, 1] ∧ history t.out .bakes = [0, 1, 2] ∧ history s.out .accepts = [] ∧
          history t.out .accepts = [0]) = true := by
    decide +kernel
  obtain ⟨s, hs, hbusy⟩ := (Option.any_eq_true _ _).mp hrun
  have hpoint : Point [⟨0, 1⟩, ⟨6, 4⟩, ⟨3, 3⟩, ⟨1, 2⟩] .arrive s := Point.afterSeconds (.start (by decide)) hs
  have hlong : LongInput [⟨0, 1⟩, ⟨6, 4⟩, ⟨3, 3⟩, ⟨1, 2⟩] := by decide
  have hfits : ClockFits [⟨0, 1⟩, ⟨6, 4⟩, ⟨3, 3⟩, ⟨1, 2⟩] :=
    @clockFits_of_last [⟨0, 1⟩, ⟨6, 4⟩, ⟨3, 3⟩, ⟨1, 2⟩] 6 (by decide) (by decide)
  obtain ⟨hidle, hend⟩ := payment_priority hlong (.of_point hlong hfits hpoint)
  obtain ⟨t, ht⟩ := hend hfits
  refine ⟨s, t, ht, ?_, hidle t ht⟩
  obtain rfl := tickLong_eq ht
  exact of_decide_eq_true hbusy

/-- For a customer who comes in the last second of a `long`, that second has no end: the sum for the time to sit down overflows. -/
theorem priority_overflow : ¬∀ s, LongSecond [⟨longMax, 1⟩] s → ∃ t, s.tickLong (readInput [⟨longMax, 1⟩]) = some t ∧
    NothingIdle (readInput [⟨longMax, 1⟩]) s t := by
  intro hall
  obtain ⟨t, ht, -⟩ := hall _ (.start (by decide))
  have hnone : (Sim.init (readInput [⟨longMax, 1⟩])).tickLong (readInput [⟨longMax, 1⟩]) = none := by decide +kernel
  rw [hnone] at ht
  cases ht

end Xv6SnifferBakery.Bakery
