import Xv6SnifferBakery.Bakery.Clock

/-!
# When the standing sit down

A customer may take a seat that was free at the end of the last second. `move_standing_to_sofa_if_possible` keeps one time for the whole
sofa: in a second in which a seat is freed nobody sits, even where another seat has been free for long; and as long as no seat has been
freed the time stands for 0, so that nobody sits before second 0.
-/

namespace Xv6SnifferBakery.Bakery

open Lib

/-- The customers who may sit in a second that begins in `s`: from the front of the standing queue those who entered a second ago, as
many as seats were free. -/
def Sim.seatable (arrivals : List Arrival) (s : Sim) : List Nat :=
  let t := s.processArrivals arrivals
  (t.standing.takeWhile (fun x => (t.customers x).arrivalTs + tCustomerAction ≤ t.currentTime)).take (sofaCapacity - s.sofa.length)

/-- In a second, with `t` after it, just those sit down who may, in their order. -/
def SitOnTime (arrivals : List Arrival) (s t : Sim) : Prop := history t.out .sits = history s.out .sits ++ s.seatable arrivals

/-- A customer leaves, and frees a seat, in a second that begins in `s`. -/
def Sim.frees (s : Sim) : Prop := s.registerBusy = true ∧ s.accepting.endTime = s.currentTime

instance (s : Sim) : Decidable s.frees := inferInstanceAs (Decidable (_ ∧ _))

/-- A seat is withheld in a second that begins in `s`: somebody stands and a seat is free, but another one is freed in this second, or
none has ever been freed and the clock is below 0. -/
def Sim.withheld (s : Sim) : Prop :=
  s.standing ≠ [] ∧ s.sofa.length < sofaCapacity ∧
    (s.frees ∨ (s.lastSeatFreed = -1 ∧ s.currentTime < 0))

instance (s : Sim) : Decidable s.withheld := inferInstanceAs (Decidable (_ ∧ _))

/-! ## What a second begins with -/

section Second

variable {input : List Arrival} {s : Sim}

/-- All that has happened is past when a second begins, and so is the time of the last free seat. -/
theorem Point.begins (h : Point input .arrive s) : s.early ∧ (s.lastSeatFreed = -1 ∨ s.lastSeatFreed < s.currentTime) := by
  cases h with
  | start =>
    refine ⟨?_, Or.inl rfl⟩
    intro e he
    cases he
  | @again s hs _ =>
    obtain ⟨-, st, hinv⟩ := hs.holds
    refine ⟨hinv.placed.log.early_advance, hinv.clock.freed.imp id ?_⟩
    rintro ⟨hle, -⟩
    change s.lastSeatFreed < s.currentTime + 1
    omega

/-- Who stands when a second begins entered before it. -/
theorem Point.stands (h : Point input .arrive s) {x : Nat} (hx : x ∈ s.standing) :
    (s.customers x).arrivalTs < s.currentTime := by
  obtain ⟨-, st, hinv⟩ := h.holds
  rw [hinv.queues.standing] at hx
  have hreached : x ∈ reached st 7 Act.enters.rank := mem_reached.mpr ⟨0, Nat.le_refl _, by decide, hx⟩
  rw [← hinv.placed.log.history, mem_history] at hreached
  obtain ⟨e, he, hact, rfl⟩ := hreached
  have htime := hinv.placed.log.time e he
  rw [hact] at htime
  exact (congrArg (· < s.currentTime) htime).mp (h.begins.1 e he)

end Second

/-! ## Sitting down -/

/-- The first second in which anybody may sit, whenever they entered. -/
def Sim.delay (s : Sim) : Int := if s.lastSeatFreed = -1 then 0 else s.lastSeatFreed + 1

theorem allowedSit_le {s : Sim} {ci : Nat} :
    s.allowedSit ci ≤ s.currentTime ↔ (s.customers ci).arrivalTs + tCustomerAction ≤ s.currentTime ∧ s.delay ≤ s.currentTime := by
  unfold Sim.allowedSit Sim.delay
  simp only
  split <;> split <;> omega

/-- Before the delay is over nobody sits. -/
theorem moveStanding_early {s : Sim} (h : s.currentTime < s.delay) : s.moveStanding = s := by
  unfold Sim.moveStanding
  cases hs : s.standing with
  | nil => rfl
  | cons ci rest =>
    rw [List.length_cons, Sim.moveLoop, hs]
    simp only
    have hnot : s.currentTime < s.allowedSit ci := by
      by_contra hge
      have := (allowedSit_le.mp (Int.not_lt.mp hge)).2
      omega
    rw [if_pos hnot, ite_self]

/-- After the delay those sit who entered a second ago, as many as there are seats. -/
theorem moveLoop_sits {n : Nat} {s : Sim} (hn : s.standing.length = n) (hd : s.delay ≤ s.currentTime) :
    history (Sim.moveLoop n s).out .sits = history s.out .sits ++
      (s.standing.takeWhile (fun x => (s.customers x).arrivalTs + tCustomerAction ≤ s.currentTime)).take
        (sofaCapacity - s.sofa.length) := by
  induction n generalizing s with
  | zero =>
    rw [List.length_eq_zero_iff.mp hn]
    simp [Sim.moveLoop]
  | succ n ih =>
    rw [Sim.moveLoop]
    cases hs : s.standing with
    | nil =>
      rw [hs] at hn
      cases hn
    | cons ci rest =>
      simp only
      split
      · rename_i hfull
        rw [Nat.sub_eq_zero_of_le hfull, List.take_zero, List.append_nil]
      rename_i hroom
      split
      · rename_i hlate
        have hnot : ¬((s.customers ci).arrivalTs + tCustomerAction ≤ s.currentTime) := by
          intro hle
          have := allowedSit_le.mpr ⟨hle, hd⟩
          omega
        rw [List.takeWhile_cons_of_neg (by simpa using hnot), List.take_nil, List.append_nil]
      · rename_i hearly
        have hle := (allowedSit_le.mp (Int.not_lt.mp hearly)).1
        rw [hs] at hn
        have hrest := @ih (s.sit ci rest) (Nat.succ.inj hn) hd
        obtain ⟨chef, hout⟩ := (sit_moved : Moved s (s.sit ci rest) ci .sits _).out
        have hlen : (s.sit ci rest).sofa.length = s.sofa.length + 1 := List.length_append
        have hseats : sofaCapacity - s.sofa.length = sofaCapacity - (s.sofa.length + 1) + 1 := by omega
        rw [hrest, hout, history_append, if_pos rfl, hlen, hseats, List.takeWhile_cons_of_pos (by simpa using hle), List.take_succ_cons,
          List.append_assoc, List.singleton_append]
        simp only [sit_arrivalTs]
        rfl

/-! ## A second -/

variable {input : List Arrival} {s : Sim}

/-- What the arrivals of a second change: they go to the end of the standing queue. -/
structure Arrived (s t : Sim) : Prop where
  sofa : t.sofa = s.sofa
  freed : t.lastSeatFreed = s.lastSeatFreed
  busy : t.registerBusy = s.registerBusy
  accepting : t.accepting = s.accepting
  clock : t.currentTime = s.currentTime
  arrival : ∀ x, (t.customers x).arrivalTs = (s.customers x).arrivalTs
  standing : ∃ new, t.standing = s.standing ++ new ∧ ∀ x ∈ new, (s.customers x).arrivalTs = s.currentTime

theorem Arrived.refl (s : Sim) : Arrived s s := ⟨rfl, rfl, rfl, rfl, rfl, fun _ => rfl, [], (List.append_nil _).symm, by simp⟩

theorem arrivalsLoop_arrived {arrivals : List Arrival} {n : Nat} {s : Sim}
    (hinfo : ∀ x a, arrivals[x]? = some a → (s.customers x).arrivalTs = a.ts) : Arrived s (Sim.arrivalsLoop arrivals n s) := by
  induction n generalizing s with
  | zero => exact .refl s
  | succ n ih =>
    rw [Sim.arrivalsLoop]
    cases ha : arrivals[s.arrivalIdx]? with
    | none => exact .refl s
    | some a =>
      simp only
      split
      · exact .refl s
      rename_i hts
      split
      · obtain ⟨h1, h2, h3, h4, h5, h6, h7⟩ := @ih { s with arrivalIdx := s.arrivalIdx + 1 } hinfo
        exact ⟨h1, h2, h3, h4, h5, h6, h7⟩
      · have hsame : ∀ x, (s.enter.customers x).arrivalTs = (s.customers x).arrivalTs := by
          intro x
          by_cases hx : x = s.arrivalIdx
          · rw [hx, (enter_moved (s := s)).self]
          · rw [(enter_moved (s := s)).other hx]
        obtain ⟨h1, h2, h3, h4, h5, h6, new, h7, h8⟩ := @ih s.enter (fun x b hb => (hsame x).trans (hinfo x b hb))
        refine ⟨h1, h2, h3, h4, h5, fun x => (h6 x).trans (hsame x), s.arrivalIdx :: new, ?_, ?_⟩
        · rw [h7]
          change s.standing ++ [s.arrivalIdx] ++ new = _
          rw [List.append_assoc, List.singleton_append]
        · intro x hx
          rcases List.mem_cons.mp hx with rfl | hx
          · rw [hinfo _ a ha]
            simpa using hts
          · exact (hsame x).symm.trans (h8 x hx)

/-- What the cakes that are ready change: nothing of the seats. -/
theorem finishBakesLoop_frame (bs kept : List Task) (s : Sim) :
    (Sim.finishBakesLoop bs s kept).1.standing = s.standing ∧ (Sim.finishBakesLoop bs s kept).1.sofa = s.sofa ∧
      (Sim.finishBakesLoop bs s kept).1.lastSeatFreed = s.lastSeatFreed ∧
      (Sim.finishBakesLoop bs s kept).1.currentTime = s.currentTime ∧
      ∀ x, ((Sim.finishBakesLoop bs s kept).1.customers x).arrivalTs = (s.customers x).arrivalTs := by
  induction bs generalizing kept s with
  | nil => exact ⟨rfl, rfl, rfl, rfl, fun _ => rfl⟩
  | cons b bs ih =>
    rw [Sim.finishBakesLoop]
    split
    · obtain ⟨h1, h2, h3, h4, h5⟩ := ih kept (s.bakeDone b)
      refine ⟨h1, h2, h3, h4, fun x => (h5 x).trans ?_⟩
      have hm : Moved s (s.cakeReady b s.baking) b.cust .pays _ := cakeReady_moved
      change ((s.cakeReady b s.baking).customers x).arrivalTs = _
      by_cases hx : x = b.cust
      · rw [hx, hm.self]
      · rw [hm.other hx]
    · exact ih (kept ++ [b]) s

theorem finishBakes_frame (s : Sim) : s.finishBakes.standing = s.standing ∧ s.finishBakes.sofa = s.sofa ∧
    s.finishBakes.lastSeatFreed = s.lastSeatFreed ∧ s.finishBakes.currentTime = s.currentTime ∧
    ∀ x, (s.finishBakes.customers x).arrivalTs = (s.customers x).arrivalTs := by
  unfold Sim.finishBakes
  split
  · exact finishBakesLoop_frame s.baking [] s
  · exact ⟨rfl, rfl, rfl, rfl, fun _ => rfl⟩

theorem finishAccept_freed {s : Sim} (h : s.frees) :
    s.finishAccept.lastSeatFreed = s.currentTime ∧ s.finishAccept.currentTime = s.currentTime := by
  unfold Sim.frees at h
  unfold Sim.finishAccept
  rw [if_pos h]
  exact ⟨rfl, rfl⟩

theorem finishAccept_same {s : Sim} (h : ¬s.frees) : s.finishAccept = s := by
  unfold Sim.frees at h
  unfold Sim.finishAccept
  rw [if_neg h]

/-- Those who sit in a second do so in `move_standing_to_sofa_if_possible`. -/
theorem tick_history {arrivals : List Arrival} (s : Sim) : history (s.tick arrivals).out .sits =
    history (s.processArrivals arrivals).finishTasks.moveStanding.out .sits ∧
    history (s.processArrivals arrivals).finishTasks.out .sits = history s.out .sits := by
  have h₁ : Prints .enters s (s.processArrivals arrivals) := arrivalsLoop_prints _ s
  have h₂ := finishAccept_prints (s.processArrivals arrivals)
  have h₃ := finishBakes_prints (s.processArrivals arrivals).finishAccept
  have h₅ := makeRequests_prints (s.processArrivals arrivals).finishTasks.moveStanding
  have h₆ : Prints .accepts _ (s.processArrivals arrivals).finishTasks.moveStanding.makeRequests.scheduleAccepts := acceptLoop_prints _ _
  have h₇ : Prints .bakes _ (s.tick arrivals) :=
    bakeLoop_prints _ (s.processArrivals arrivals).finishTasks.moveStanding.makeRequests.scheduleAccepts
  exact ⟨(h₇.history (by decide)).trans ((h₆.history (by decide)).trans (h₅.history (by decide))),
    (h₃.history (by decide)).trans ((h₂.history (by decide)).trans (h₁.history (by decide)))⟩

/-- Somebody may sit exactly when somebody stands and a seat is free. -/
theorem seatable_ne_nil (h : Point input .arrive s) :
    s.seatable (readInput input) ≠ [] ↔ s.standing ≠ [] ∧ s.sofa.length < sofaCapacity := by
  obtain ⟨-, st, hinv⟩ := h.holds
  have harr : Arrived s (s.processArrivals (readInput input)) := arrivalsLoop_arrived (fun x a ha => (hinv.placed.info x a ha).2)
  obtain ⟨new, hnew, hlate⟩ := harr.standing
  unfold Sim.seatable
  simp only [harr.clock, harr.arrival, hnew]
  cases hs : s.standing with
  | nil =>
    have hnone : new.takeWhile (fun x => (s.customers x).arrivalTs + tCustomerAction ≤ s.currentTime) = [] := by
      cases new with
      | nil => rfl
      | cons x new =>
        refine List.takeWhile_cons_of_neg ?_
        rw [hlate x List.mem_cons_self]
        simp [tCustomerAction]
    rw [List.nil_append, hnone]
    simp
  | cons x rest =>
    have hearly : (s.customers x).arrivalTs + tCustomerAction ≤ s.currentTime :=
      h.stands (hs ▸ List.mem_cons_self)
    rw [List.cons_append, List.takeWhile_cons_of_pos (by simpa using hearly)]
    simp only [ne_eq, List.take_eq_nil_iff, reduceCtorEq, or_false, not_false_eq_true, true_and]
    omega

/-- In a second those sit who may, unless the time that is kept for the sofa holds them all back. -/
theorem tick_sits (h : Point input .arrive s) : history (s.tick (readInput input)).out .sits = history s.out .sits ++
    if s.frees ∨ (s.lastSeatFreed = -1 ∧ s.currentTime < 0) then [] else s.seatable (readInput input) := by
  obtain ⟨-, st, hinv⟩ := h.holds
  have harr : Arrived s (s.processArrivals (readInput input)) := arrivalsLoop_arrived (fun x a ha => (hinv.placed.info x a ha).2)
  obtain ⟨htick, hbefore⟩ := @tick_history (readInput input) s
  rw [htick, ← hbefore]
  unfold Sim.seatable Sim.finishTasks
  generalize s.processArrivals (readInput input) = p at harr
  obtain ⟨f1, f2, f3, f4, f5⟩ := finishBakes_frame p.finishAccept
  by_cases hfrees : s.frees
  · rw [if_pos (Or.inl hfrees), List.append_nil]
    have hp : p.frees := by
      unfold Sim.frees
      rw [harr.busy, harr.accepting, harr.clock]
      exact hfrees
    obtain ⟨g1, g2⟩ := finishAccept_freed hp
    rw [moveStanding_early]
    unfold Sim.delay
    rw [f3, f4, g1, g2]
    split <;> omega
  · have hp : ¬p.frees := by
      unfold Sim.frees
      rw [harr.busy, harr.accepting, harr.clock]
      exact hfrees
    rw [finishAccept_same hp] at f1 f2 f3 f4 f5 ⊢
    by_cases hearly : s.lastSeatFreed = -1 ∧ s.currentTime < 0
    · rw [if_pos (Or.inr hearly), List.append_nil, moveStanding_early]
      unfold Sim.delay
      rw [f3, f4, harr.freed, harr.clock, if_pos hearly.1]
      exact hearly.2
    · rw [if_neg (by rintro (hc | hc); exact hfrees hc; exact hearly hc)]
      have hdelay : p.finishBakes.delay ≤ p.finishBakes.currentTime := by
        have hfreed := h.begins.2
        unfold Sim.delay
        rw [f3, f4, harr.freed, harr.clock]
        split <;> omega
      unfold Sim.moveStanding
      rw [moveLoop_sits rfl hdelay]
      simp only [f1, f2, f4, f5, harr.sofa]

/-- In a second customers sit down when they may unless it withholds a seat. -/
theorem Point.sitOnTime_iff (h : Point input .arrive s) : SitOnTime (readInput input) s (s.tick (readInput input)) ↔ ¬s.withheld := by
  unfold SitOnTime Sim.withheld
  rw [tick_sits h, List.append_cancel_left_eq]
  have hmay := seatable_ne_nil h
  by_cases hc : s.frees ∨ (s.lastSeatFreed = -1 ∧ s.currentTime < 0)
  · rw [if_pos hc]
    constructor
    · rintro heq ⟨hstand, hseat, -⟩
      exact hmay.mpr ⟨hstand, hseat⟩ heq.symm
    · intro hno
      by_contra hne
      obtain ⟨hstand, hseat⟩ := hmay.mp (fun he => hne he.symm)
      exact hno ⟨hstand, hseat, hc⟩
  · rw [if_neg hc]
    exact ⟨fun _ hno => hc hno.2.2, fun _ => rfl⟩

/-- The simulation with times of type `long` returns, and in every second of it customers sit down when they may. -/
def SitsOnTime (input : List Arrival) : Prop :=
  (∃ n s, mainLong input n = some s) ∧
    ∀ s t, LongSecond input s → s.tickLong (readInput input) = some t → SitOnTime (readInput input) s t

/-- Customers sit down when they may throughout a simulation just when every second begins in time and none withholds a seat. -/
theorem sit_on_time_iff {input : List Arrival} (hlong : LongInput input) :
    SitsOnTime input ↔ ∀ s, Point input .arrive s → s.currentTime ≤ longMax ∧ ¬s.withheld := by
  constructor
  · rintro ⟨⟨n, t, hn⟩, hall⟩ s h
    have hfits : ClockFits input := ((mainLong_iff hlong).mp hn).2
    exact ⟨hfits s h, h.sitOnTime_iff.mp (hall s _ (.of_point hlong hfits h) (hfits.tick hlong h))⟩
  · intro hall
    have hfits : ClockFits input := fun s h => (hall s h).1
    obtain ⟨n, s, st, hmain, -, -⟩ := main_ends input
    refine ⟨⟨n, s, (mainLong_iff hlong).mpr ⟨hmain, hfits⟩⟩, ?_⟩
    intro s t h ht
    obtain rfl := tickLong_eq ht
    exact h.point.sitOnTime_iff.mpr (hall s h.point).2

/-- Two customers with the sofa to themselves. -/
theorem sit_on_time_two : SitsOnTime [⟨0, 1⟩, ⟨1, 2⟩] := by
  refine (sit_on_time_iff (by decide)).mpr ?_
  intro s hs
  refine @forall_seconds [⟨0, 1⟩, ⟨1, 2⟩] s (fun s => s.currentTime ≤ longMax ∧ ¬s.withheld) _ 11 ?_ ?_ hs
  · decide +kernel
  · decide +kernel

/-- The second customer enters at 7, with three seats free, and may sit at 8. But the first leaves at 8, and the second sits at 9. -/
theorem seat_withheld : ¬SitsOnTime [⟨0, 1⟩, ⟨7, 2⟩] := by
  rintro ⟨⟨n, t, hn⟩, hall⟩
  have hlong : LongInput [⟨0, 1⟩, ⟨7, 2⟩] := by decide
  have hfits : ClockFits [⟨0, 1⟩, ⟨7, 2⟩] := ((mainLong_iff hlong).mp hn).2
  have hrun : ((Sim.init (readInput [⟨0, 1⟩, ⟨7, 2⟩])).afterSeconds (readInput [⟨0, 1⟩, ⟨7, 2⟩]) 8).any (fun s =>
      history (s.tick (readInput [⟨0, 1⟩, ⟨7, 2⟩])).out .sits ≠
        history s.out .sits ++ s.seatable (readInput [⟨0, 1⟩, ⟨7, 2⟩])) = true := by
    decide +kernel
  obtain ⟨s, hs, hne⟩ := (Option.any_eq_true _ _).mp hrun
  have hpoint : Point [⟨0, 1⟩, ⟨7, 2⟩] .arrive s := Point.afterSeconds (.start (by decide)) hs
  exact of_decide_eq_true hne (hall s _ (.of_point hlong hfits hpoint) (hfits.tick hlong hpoint))

end Xv6SnifferBakery.Bakery
