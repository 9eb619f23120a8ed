import Xv6SnifferBakery.Bakery.Run

/-!
# The simulation comes to an end

Every second prints a line, takes an arrival, or leaves the state as it is. A second that changes nothing brings a task, a seat or
an arrival nearer; and the lines and the arrivals are bounded. So the loop of `main` ends, with nobody inside.
-/

namespace Xv6SnifferBakery.Bakery

open Lib

/-! ## Each function changes nothing or prints -/

/-- The lines printed and the arrivals taken. -/
def Sim.size (s : Sim) : Nat := s.out.length + s.arrivalIdx

/-- Nothing has changed, or something has happened. -/
def Grows (s t : Sim) : Prop := t = s ∨ s.size < t.size

namespace Grows

variable {s t u : Sim}

theorem refl (s : Sim) : Grows s s := Or.inl rfl

theorem le (h : Grows s t) : s.size ≤ t.size := by
  rcases h with rfl | h
  · exact Nat.le_refl _
  · exact Nat.le_of_lt h

theorem of_lt (h : s.size < t.size) (h' : Grows t u) : Grows s u :=
  Or.inr (Nat.lt_of_lt_of_le h h'.le)

end Grows

variable {arrivals : List Arrival} {s : Sim}

theorem Moved.size {s' : Sim} {ci : Nat} {act : Act} {f : Customer → Customer} (h : Moved s s' ci act f)
    (hi : s'.arrivalIdx = s.arrivalIdx) : s.size < s'.size := by
  obtain ⟨chef, ho⟩ := h.out
  unfold Sim.size
  rw [ho, hi, List.length_append, List.length_singleton]
  omega

theorem enter_size : s.size < s.enter.size := by
  obtain ⟨chef, ho⟩ := (enter_moved (s := s)).out
  have hi : s.enter.arrivalIdx = s.arrivalIdx + 1 := rfl
  unfold Sim.size
  rw [ho, hi, List.length_append, List.length_singleton]
  omega

theorem arrivalsLoop_grows (n : Nat) (s : Sim) : Grows s (Sim.arrivalsLoop arrivals n s) := by
  induction n generalizing s with
  | zero => exact .refl s
  | succ n ih =>
    rw [Sim.arrivalsLoop]
    cases arrivals[s.arrivalIdx]? with
    | none => exact .refl s
    | some a =>
      simp only
      split
      · exact .refl s
      split
      · refine .of_lt ?_ (ih _)
        change s.out.length + s.arrivalIdx < s.out.length + (s.arrivalIdx + 1)
        omega
      · exact .of_lt enter_size (ih _)

theorem finishAccept_grows (s : Sim) : Grows s s.finishAccept := by
  by_cases hc : s.registerBusy = true ∧ s.accepting.endTime = s.currentTime
  · refine Or.inr ((leave_moved hc.1 hc.2).size ?_)
    unfold Sim.finishAccept
    rw [if_pos hc]
    rfl
  · refine Or.inl ?_
    unfold Sim.finishAccept
    rw [if_neg hc]

theorem bakeDone_size (b : Task) : s.size < (s.bakeDone b).size :=
  (cakeReady_moved : Moved s (s.cakeReady b s.baking) b.cust .pays _).size rfl

theorem finishBakesLoop_grows (bs kept : List Task) (s : Sim) :
    ((Sim.finishBakesLoop bs s kept).1 = s ∧ (Sim.finishBakesLoop bs s kept).2 = kept ++ bs) ∨
      s.size < (Sim.finishBakesLoop bs s kept).1.size := by
  induction bs generalizing kept s with
  | nil => exact Or.inl ⟨rfl, (List.append_nil _).symm⟩
  | cons b bs ih =>
    rw [Sim.finishBakesLoop]
    split
    · refine Or.inr ?_
      rcases ih kept (s.bakeDone b) with ⟨h, -⟩ | h
      · rw [h]
        exact bakeDone_size b
      · exact Nat.lt_trans (bakeDone_size b) h
    · rcases ih (kept ++ [b]) s with ⟨h, h'⟩ | h
      · exact Or.inl ⟨h, by rw [h', List.append_assoc, List.singleton_append]⟩
      · exact Or.inr h

theorem finishBakes_grows (s : Sim) : Grows s s.finishBakes := by
  unfold Sim.finishBakes
  split
  · rcases finishBakesLoop_grows s.baking [] s with ⟨h, h'⟩ | h
    · refine Or.inl ?_
      simp only [h, h', List.nil_append]
    · exact Or.inr h
  · exact .refl s

theorem moveLoop_grows (n : Nat) (s : Sim) : Grows s (Sim.moveLoop n s) := by
  induction n generalizing s with
  | zero => exact .refl s
  | succ n ih =>
    rw [Sim.moveLoop]
    cases s.standing with
    | nil => exact .refl s
    | cons ci rest =>
      simp only
      split
      · exact .refl s
      split
      · exact .refl s
      · exact .of_lt (sit_moved.size rfl) (ih _)

theorem request_grows (s : Sim) (ci : Nat) : Grows s (s.request ci) := by
  unfold Sim.request
  split
  · split
    · exact Or.inr (asked_moved.size rfl)
    · exact .refl s
  · exact .refl s

theorem foldl_request_grows (l : List Nat) (s : Sim) : Grows s (l.foldl Sim.request s) := by
  induction l generalizing s with
  | nil => exact .refl s
  | cons ci l ih =>
    rw [List.foldl_cons]
    rcases request_grows s ci with h | h
    · rw [h]
      exact ih s
    · exact .of_lt h (ih _)

theorem makeRequests_grows (s : Sim) : Grows s s.makeRequests := by
  rw [makeRequests_eq]
  exact foldl_request_grows _ s

theorem acceptLoop_grows (n : Nat) (s : Sim) : Grows s (Sim.acceptLoop n s) := by
  induction n generalizing s with
  | zero => exact .refl s
  | succ n ih =>
    rw [Sim.acceptLoop]
    split
    · exact .refl s
    split
    · exact .refl s
    cases s.ready with
    | nil => exact .refl s
    | cons ci rest =>
      simp only
      split
      · exact .refl s
      · exact .of_lt (startAccept_moved.size rfl) (ih _)

theorem bakeLoop_grows (n : Nat) (s : Sim) : Grows s (Sim.bakeLoop n s) := by
  induction n generalizing s with
  | zero => exact .refl s
  | succ n ih =>
    rw [Sim.bakeLoop]
    split
    · exact .refl s
    split
    · exact .refl s
    cases s.sofa.find? s.eligible with
    | none => exact .refl s
    | some ci => exact .of_lt (startBake_moved.size rfl) (ih _)

/-- A second in which no function changes anything. -/
structure Idle (arrivals : List Arrival) (s : Sim) : Prop where
  arrive : s.processArrivals arrivals = s
  accept : s.finishAccept = s
  bakes : s.finishBakes = s
  move : s.moveStanding = s
  requests : s.makeRequests = s
  accepts : s.scheduleAccepts = s
  starts : s.scheduleBakes = s

/-- A second changes nothing, or something happens in it. -/
theorem tick_grows (arrivals : List Arrival) (s : Sim) : (Idle arrivals s ∧ s.tick arrivals = s) ∨ s.size < (s.tick arrivals).size := by
  have g₁ : Grows s (s.processArrivals arrivals) := arrivalsLoop_grows _ s
  have g₂ := finishAccept_grows (s.processArrivals arrivals)
  have g₃ := finishBakes_grows (s.processArrivals arrivals).finishAccept
  have g₄ : Grows _ (s.processArrivals arrivals).finishTasks.moveStanding := moveLoop_grows _ (s.processArrivals arrivals).finishTasks
  have g₅ := makeRequests_grows (s.processArrivals arrivals).finishTasks.moveStanding
  have g₆ : Grows _ (s.processArrivals arrivals).finishTasks.moveStanding.makeRequests.scheduleAccepts := acceptLoop_grows _ _
  have g₇ : Grows _ (s.tick arrivals) := bakeLoop_grows _ (s.processArrivals arrivals).finishTasks.moveStanding.makeRequests.scheduleAccepts
  by_cases hlt : s.size < (s.tick arrivals).size
  · exact Or.inr hlt
  -- the sizes along the way are all equal, so nothing has changed
  have l₁ := g₁.le
  have l₂ := g₂.le
  have l₃ := g₃.le
  have l₄ := g₄.le
  have l₅ := g₅.le
  have l₆ := g₆.le
  have l₇ := g₇.le
  change (s.processArrivals arrivals).finishAccept.size ≤ (s.processArrivals arrivals).finishTasks.size at l₃
  have e₁ : s.processArrivals arrivals = s := g₁.resolve_right (by omega)
  rw [e₁] at g₂ g₃ g₄ g₅ g₆ g₇ l₂ l₃ l₄ l₅ l₆ l₇
  have e₂ : s.finishAccept = s := g₂.resolve_right (by omega)
  rw [e₂] at g₃
  have e₃ : s.finishBakes = s := by
    refine g₃.resolve_right ?_
    have hsize : s.finishTasks.size = s.finishBakes.size := congrArg (fun t => t.finishBakes.size) e₂
    omega
  have e₃' : s.finishTasks = s := (congrArg Sim.finishBakes e₂).trans e₃
  rw [e₃'] at g₄ g₅ g₆ g₇ l₄ l₅ l₆ l₇
  have e₄ : s.moveStanding = s := g₄.resolve_right (by omega)
  rw [e₄] at g₅ g₆ g₇ l₅ l₆ l₇
  have e₅ : s.makeRequests = s := g₅.resolve_right (by omega)
  rw [e₅] at g₆ g₇ l₆ l₇
  have e₆ : s.scheduleAccepts = s := g₆.resolve_right (by omega)
  rw [e₆] at g₇ l₇
  have e₇ : s.tick arrivals = s := g₇.resolve_right (by omega)
  refine Or.inl ⟨⟨e₁, e₂, e₃, e₄, e₅, e₆, ?_⟩, e₇⟩
  unfold Sim.tick at e₇
  rwa [e₁, e₃', e₄, e₅, e₆] at e₇

/-! ## A second that changes nothing -/

variable {st : Nat → List Nat} {ta tp tb tr : Int}

theorem Grows.absurd {t : Sim} (h : s.size < t.size) (h' : Grows t s) : False :=
  Nat.lt_irrefl _ (Nat.lt_of_lt_of_le h h'.le)

theorem Idle.no_arrival (h : Idle arrivals s) {a : Arrival} (ha : arrivals[s.arrivalIdx]? = some a) : a.ts ≠ s.currentTime := by
  intro hts
  have hlen : arrivals.length = (arrivals.length - 1) + 1 := by
    have := (List.getElem?_eq_some_iff.mp ha).1
    omega
  have hloop := h.arrive
  unfold Sim.processArrivals at hloop
  rw [hlen, Sim.arrivalsLoop, ha] at hloop
  simp only [hts, ne_eq, not_true_eq_false, if_false] at hloop
  split at hloop
  · have hg : Grows _ (Sim.arrivalsLoop arrivals _ { s with arrivalIdx := s.arrivalIdx + 1 }) := arrivalsLoop_grows (arrivals.length - 1) _
    rw [hloop] at hg
    refine Grows.absurd ?_ hg
    change s.out.length + s.arrivalIdx < s.out.length + (s.arrivalIdx + 1)
    omega
  · have hg : Grows _ (Sim.arrivalsLoop arrivals _ s.enter) := arrivalsLoop_grows (arrivals.length - 1) _
    rw [hloop] at hg
    exact Grows.absurd enter_size hg

theorem Idle.payment_later (h : Idle arrivals s) (hb : s.registerBusy = true) : s.accepting.endTime ≠ s.currentTime := by
  intro hend
  have hsize := (leave_moved hb hend).size (by rw [h.accept])
  rw [h.accept] at hsize
  exact Nat.lt_irrefl _ hsize

theorem Idle.cake_later (h : Idle arrivals s) {b : Task} {bs : List Task} (hb : s.baking = b :: bs) : b.endTime ≠ s.currentTime := by
  intro hend
  have hfin := h.bakes
  have hpos : 0 < s.baking.length := by
    rw [hb]
    exact Nat.succ_pos _
  unfold Sim.finishBakes at hfin
  rw [if_pos hpos] at hfin
  have hloop : Sim.finishBakesLoop s.baking s [] = Sim.finishBakesLoop bs (s.bakeDone b) [] := by
    rw [hb, Sim.finishBakesLoop, if_pos hend]
  have hsize : (Sim.finishBakesLoop s.baking s []).1.size = s.size := by
    have := congrArg Sim.size hfin
    exact this
  rw [hloop] at hsize
  rcases finishBakesLoop_grows bs [] (s.bakeDone b) with ⟨h1, -⟩ | h1
  · have := bakeDone_size (s := s) b
    rw [h1] at hsize
    omega
  · have := bakeDone_size (s := s) b
    omega

/-- When no chef works, a customer who has waited a second to pay can pay. -/
theorem Idle.no_payer (h : Idle arrivals s) (hidle : s.registerBusy = false) (hchef : s.getFreeChef ≠ 0) {ci : Nat} {rest : List Nat}
    (hr : s.ready = ci :: rest) : s.currentTime < (s.customers ci).tPayTime + 1 := by
  by_contra hge
  have hloop := h.accepts
  unfold Sim.scheduleAccepts at hloop
  rw [hr, List.length_cons, Sim.acceptLoop, if_neg (by simp [hidle]), if_neg hchef, hr] at hloop
  simp only [tCustomerAction, hge, if_false] at hloop
  have hg := acceptLoop_grows rest.length (s.startAccept s.getFreeChef ci rest)
  rw [hloop] at hg
  exact Grows.absurd (startAccept_moved.size rfl) hg

/-- When an oven and a chef are free, nobody on the sofa is eligible. -/
theorem Idle.no_baker (h : Idle arrivals s) (hovens : 0 < s.ovensAvailable) (hchef : s.getFreeChef ≠ 0) :
    s.sofa.find? s.eligible = none := by
  cases hf : s.sofa.find? s.eligible with
  | none => rfl
  | some ci =>
    exfalso
    obtain ⟨n, hn⟩ : ∃ n, s.ovensAvailable.toNat = n + 1 := ⟨s.ovensAvailable.toNat - 1, by omega⟩
    have hloop := h.starts
    unfold Sim.scheduleBakes at hloop
    rw [hn, Sim.bakeLoop, if_neg (by omega), if_neg hchef, hf] at hloop
    have hg := bakeLoop_grows n (s.startBake s.getFreeChef ci)
    simp only at hloop
    rw [hloop] at hg
    exact Grows.absurd (startBake_moved.size rfl) hg

/-- Nobody in front of the sofa who has sat for a second has still to ask. -/
theorem Idle.no_request (h : Idle arrivals s) {ci : Nat} {rest : List Nat} (hs : s.sofa = ci :: rest) (hseat : (s.customers ci).seated = true)
    (hreq : (s.customers ci).requested = false) : s.currentTime < (s.customers ci).tSat + 1 := by
  by_contra hge
  have hmake := h.requests
  have hask : s.request ci = s.asked ci := by
    unfold Sim.request
    rw [if_pos (by simp [hseat, hreq]), if_pos (by unfold tCustomerAction; omega)]
    rfl
  rw [makeRequests_eq, hs, List.foldl_cons, hask] at hmake
  have hg := foldl_request_grows rest (s.asked ci)
  rw [hmake] at hg
  exact Grows.absurd (asked_moved.size rfl) hg

/-- With a place on the sofa, nobody stands who may sit. -/
theorem Idle.no_sitter (h : Idle arrivals s) (hseat : s.sofa.length < 4) {ci : Nat} {rest : List Nat} (hs : s.standing = ci :: rest) :
    s.currentTime < s.allowedSit ci := by
  by_contra hge
  have hmove := h.move
  unfold Sim.moveStanding at hmove
  rw [hs, List.length_cons, Sim.moveLoop, hs] at hmove
  simp only [hge, if_false] at hmove
  rw [if_neg (by unfold sofaCapacity; omega)] at hmove
  have hg := moveLoop_grows rest.length (s.sit ci rest)
  rw [hmove] at hg
  exact Grows.absurd (sit_moved.size rfl) hg

/-! ## What is waited for -/

/-- The seconds until the next thing must happen: a payment or a cake ends, a seat may be taken, somebody arrives. -/
def Sim.wait (arrivals : List Arrival) (s : Sim) : Int :=
  if s.registerBusy then s.accepting.endTime - s.currentTime
  else
    match s.baking with
    | b :: _ => b.endTime - s.currentTime
    | [] =>
      match s.standing with
      | ci :: _ => s.allowedSit ci - s.currentTime
      | [] => (arrivals[s.arrivalIdx]?.map (fun a => a.ts - s.currentTime)).getD 0

theorem wait_advance (hinv : Inv arrivals s st ta tp tb tr) :
    s.advance.wait arrivals = s.wait arrivals - 1 ∨
      (s.registerBusy = false ∧ s.baking = [] ∧ s.standing = [] ∧ s.arrivalIdx = arrivals.length) := by
  unfold Sim.wait Sim.advance
  simp only
  split
  · left
    omega
  rename_i hbusy
  split
  · left
    omega
  rename_i hbake
  split
  · left
    change s.allowedSit _ - (s.currentTime + 1) = s.allowedSit _ - s.currentTime - 1
    omega
  rename_i hstand
  cases ha : arrivals[s.arrivalIdx]? with
  | none =>
    right
    exact ⟨by simpa using hbusy, hbake, hstand, Nat.le_antisymm hinv.placed.le (List.getElem?_eq_none_iff.mp ha)⟩
  | some a =>
    left
    simp only [Option.map_some, Option.getD_some]
    omega

/-- All that has happened is past. -/
def Sim.early (s : Sim) : Prop := ∀ e ∈ s.out, e.time < s.currentTime

/-- In a second that changes nothing, whatever is waited for is still to come. -/
theorem Idle.wait_pos (h : Idle arrivals s) (hinv : Inv arrivals s st s.currentTime s.currentTime s.currentTime tr) (hearly : s.early)
    (hc : s.stops arrivals = false) : 0 < s.wait arrivals ∧
      ¬(s.registerBusy = false ∧ s.baking = [] ∧ s.standing = [] ∧ s.arrivalIdx = arrivals.length) := by
  have hpast : ∀ {act : Act} {x : Nat}, x ∈ reached st 7 act.rank → (s.customers x).time act < s.currentTime := by
    intro act x hx
    rw [← hinv.placed.log.history act, mem_history] at hx
    obtain ⟨e, he, rfl, rfl⟩ := hx
    rw [← hinv.placed.log.time e he]
    exact hearly e he
  have hat : ∀ (act : Act) {x : Nat}, x ∈ st act.rank → (s.customers x).time act < s.currentTime :=
    fun _ _ hx => hpast (mem_reached.mpr ⟨_, Nat.le_refl _, Act.rank_lt _, hx⟩)
  by_cases hbusy : s.registerBusy = true
  · refine ⟨?_, fun hno => by rw [hno.1] at hbusy; nomatch hbusy⟩
    have hge := (hinv.clock.payment hbusy).2
    have hne := h.payment_later hbusy
    unfold Sim.wait
    rw [if_pos hbusy]
    omega
  have hidle : s.registerBusy = false := by simpa using hbusy
  cases hbake : s.baking with
  | cons b bs =>
    refine ⟨?_, fun hno => by nomatch hno.2.1⟩
    have hge := (hinv.clock.cake b (hbake ▸ List.mem_cons_self)).2
    have hne := h.cake_later hbake
    unfold Sim.wait
    rw [if_neg hbusy, hbake]
    simp only
    omega
  | nil =>
    -- no chef works, so the sofa is empty: everybody on it would have done something
    have hchef : s.getFreeChef ≠ 0 := by
      intro h0
      have hfour := getFreeChef_zero hinv.chefs h0
      unfold Sim.busyChefs at hfour
      rw [hbake, hidle] at hfour
      simp at hfour
    have hovens : 0 < s.ovensAvailable := by
      have := hinv.counts.ovens
      rw [hbake] at this
      simp only [List.length_nil] at this
      omega
    have h5 : st 5 = [] := by rw [hinv.queues.accepting, if_neg hbusy]
    have h3 : st 3 = [] := by rw [← hinv.queues.baking, hbake]; rfl
    have h4 : st 4 = [] := by
      cases hs : st 4 with
      | nil => rfl
      | cons ci rest =>
        have hlt := h.no_payer hidle hchef (hinv.queues.ready.trans hs)
        have : (s.customers ci).tPayTime < s.currentTime := hat .pays (hs ▸ List.mem_cons_self)
        omega
    have h2 : st 2 = [] := by
      cases hs : st 2 with
      | nil => rfl
      | cons ci rest =>
        have hnone := h.no_baker hovens hchef
        have hst := hinv.placed.stage 2 (by omega) ci (hs ▸ List.mem_cons_self)
        have htime : (s.customers ci).tRequest < s.currentTime := hat .requests (hs ▸ List.mem_cons_self)
        have hel : s.eligible ci = true := by
          unfold Sim.eligible tCustomerAction
          rw [hst.requested, hst.baking, hst.baked]
          simp only [Bool.and_eq_true, decide_eq_true_eq]
          exact ⟨by decide, by omega⟩
        have hmem : ci ∈ s.sofa := by
          rw [hinv.queues.sofa, h5, h4, h3, hs]
          simp
        exact absurd hel (List.find?_eq_none.mp hnone ci hmem)
    have hsofa : s.sofa = st 1 := by rw [hinv.queues.sofa, h5, h4, h3, h2]; rfl
    have h1 : st 1 = [] := by
      cases hs : st 1 with
      | nil => rfl
      | cons ci rest =>
        have hst := hinv.placed.stage 1 (by omega) ci (hs ▸ List.mem_cons_self)
        have hlt := h.no_request (hsofa.trans hs) hst.seated hst.requested
        have : (s.customers ci).tSat < s.currentTime := hat .sits (hs ▸ List.mem_cons_self)
        omega
    have hempty : s.sofa = [] := hsofa.trans h1
    have hready : s.ready = [] := hinv.queues.ready.trans h4
    cases hstand : s.standing with
    | cons ci rest =>
      refine ⟨?_, fun hno => by nomatch hno.2.2.1⟩
      have hlt := h.no_sitter (by rw [hempty]; decide) hstand
      unfold Sim.wait
      rw [if_neg hbusy, hbake, hstand]
      simp only
      omega
    | nil =>
      -- nobody is inside, so somebody has still to come
      have hpeople : s.peopleInside = 0 := by rw [hinv.counts.people, hstand, hempty]; rfl
      have hlt : s.arrivalIdx < arrivals.length := by
        by_contra hge
        unfold Sim.stops at hc
        rw [hidle, hbake, hstand, hempty, hready, hpeople] at hc
        simp [hge] at hc
      obtain ⟨a, ha⟩ : ∃ a, arrivals[s.arrivalIdx]? = some a := ⟨_, List.getElem?_eq_getElem hlt⟩
      refine ⟨?_, fun hno => by omega⟩
      have hge := hinv.clock.pending _ a ha (Nat.le_refl _)
      have hne := h.no_arrival ha
      unfold Sim.wait
      rw [if_neg hbusy, hbake, hstand, ha]
      simp only [Option.map_some, Option.getD_some]
      omega

/-! ## The lines and the arrivals are bounded -/

theorem out_length (out : List Event) : out.length = (history out .enters).length + (history out .sits).length +
    (history out .requests).length + (history out .bakes).length + (history out .pays).length + (history out .accepts).length +
    (history out .leaves).length := by
  induction out with
  | nil => rfl
  | cons e out ih =>
    unfold history at ih ⊢
    simp only [List.filterMap_cons, List.length_cons]
    cases he : e.act <;> simp only [reduceCtorEq, if_false, if_true, List.length_cons] <;> omega

theorem Inv.size_le (h : Inv arrivals s st ta tp tb tr) : s.size ≤ 8 * arrivals.length := by
  have hone : (reached st 7 0).length ≤ s.arrivalIdx := by
    have hsub : (reached st 7 0).Subperm (List.range s.arrivalIdx) :=
      List.subperm_of_subset h.placed.nodup (fun x hx => List.mem_range.mpr (h.placed.lt x hx))
    have := hsub.length_le
    rwa [List.length_range] at this
  have hall : ∀ act, (history s.out act).length ≤ s.arrivalIdx := by
    intro act
    rw [h.placed.log.history]
    exact Nat.le_trans (reached_antitone (Nat.zero_le _)).length_le hone
  have hle := h.placed.le
  have := hall .enters
  have := hall .sits
  have := hall .requests
  have := hall .bakes
  have := hall .pays
  have := hall .accepts
  have := hall .leaves
  unfold Sim.size
  rw [out_length s.out]
  omega

/-! ## The loop -/

theorem Point.tick {input : List Arrival} {s : Sim} (h : Point input .arrive s) : Point input .check (s.tick (readInput input)) :=
  .bake (.accept (.request (.move (.finish (.arrive h)))))

/-- When the clock ticks, all that has happened is past. -/
theorem Logged.early_advance {s : Sim} {st : Nat → List Nat} (h : Logged s st) : s.advance.early := by
  intro e he
  exact Int.lt_add_one_of_le (h.past e he)

/-- A second that does not end the simulation changes something, or brings what is waited for nearer. -/
theorem second_passes {input : List Arrival} {s t : Sim} (h : Point input .arrive s) (he : s.early) (ht : s.tick (readInput input) = t)
    (hstop : t.stops (readInput input) = false) :
    s.size < t.advance.size ∨ (t.advance.size = s.size ∧ 0 < s.wait (readInput input) ∧
      t.advance.wait (readInput input) = s.wait (readInput input) - 1) := by
  rcases tick_grows (readInput input) s with ⟨hidle, hsame⟩ | hlt
  · obtain ⟨-, st, hinv⟩ := h.holds
    obtain rfl : t = s := ht.symm.trans hsame
    obtain ⟨hpos, hno⟩ := hidle.wait_pos hinv he hstop
    exact Or.inr ⟨rfl, hpos, (wait_advance hinv).resolve_right hno⟩
  · rw [ht] at hlt
    exact Or.inl hlt

/-- The loop ends, whatever has happened so far, and what every second keeps holds when the last one begins. -/
theorem mainLoop_ends {input : List Arrival} {J : Sim → Prop}
    (hJ : ∀ s t, Point input .arrive s → s.early → s.tick (readInput input) = t → t.stops (readInput input) = false → J s → J t.advance)
    (m : Nat × Nat) (s : Sim) (h : Point input .arrive s) (he : s.early) (hs : J s)
    (hm : (8 * (readInput input).length - s.size, (s.wait (readInput input)).toNat) = m) :
    ∃ n s' t, Sim.mainLoop (readInput input) n s = some t ∧ s'.tick (readInput input) = t ∧ Point input .arrive s' ∧ J s' ∧
      t.stops (readInput input) = true := by
  induction m using (Prod.lex Nat.lt_wfRel Nat.lt_wfRel).wf.induction generalizing s with
  | _ m ih =>
    have hcheck := h.tick
    generalize ht : s.tick (readInput input) = t at hcheck
    cases hstop : t.stops (readInput input) with
    | true => exact ⟨1, s, t, by rw [Sim.mainLoop, ht, if_pos hstop], ht, h, hs, hstop⟩
    | false =>
      obtain ⟨-, st, hinv⟩ := hcheck.holds
      have hless : Prod.Lex (· < ·) (· < ·) (8 * (readInput input).length - t.advance.size, (t.advance.wait (readInput input)).toNat) m := by
        subst hm
        rcases second_passes h he ht hstop with hlt | ⟨heq, hpos, hwait⟩
        · -- something has happened, and there is an end to that
          have hle : t.advance.size ≤ 8 * (readInput input).length := hinv.size_le
          exact Prod.Lex.left _ _ (by omega)
        · -- nothing has happened, but what is waited for is nearer
          rw [heq]
          exact Prod.Lex.right _ (by omega)
      obtain ⟨n, s', u, hn, hu⟩ :=
        ih _ hless t.advance (.again hcheck hstop) hinv.placed.log.early_advance (hJ s t h he ht hstop hs) rfl
      refine ⟨n + 1, s', u, ?_, hu⟩
      rw [Sim.mainLoop, ht, if_neg (by rw [hstop]; simp)]
      exact hn

/-! ## The end -/

section End

variable {arrivals : List Arrival} {s : Sim} {st : Nat → List Nat} {ta tp tb tr : Int}

/-- At the end everybody who has entered has left. -/
theorem Inv.gone (h : Inv arrivals s st ta tp tb tr) (hstop : s.stops arrivals = true) {k : Nat} (hk : k < 7) : reached st 7 k = st 6 := by
  unfold Sim.stops at hstop
  simp only [Bool.and_eq_true, Bool.not_eq_true', Bool.or_eq_false_iff, decide_eq_false_iff_not, List.isEmpty_iff, Bool.not_eq_false'] at hstop
  obtain ⟨⟨hbusy, hbake⟩, ⟨⟨⟨-, hstand⟩, hsofa⟩, -⟩⟩ := hstop
  have hq := h.queues.sofa
  rw [hsofa] at hq
  have hall : ∀ j, j < 6 → st j = [] := by
    intro j hj
    simp only [List.nil_eq, List.append_eq_nil_iff] at hq
    obtain ⟨h5, h4, h3, h2, h1⟩ := hq
    obtain rfl | rfl | rfl | rfl | rfl | rfl : j = 0 ∨ j = 1 ∨ j = 2 ∨ j = 3 ∨ j = 4 ∨ j = 5 := by omega
    · exact h.queues.standing.symm.trans hstand
    all_goals assumption
  obtain ⟨d, hd⟩ : ∃ d, 6 - k = d := ⟨_, rfl⟩
  induction d generalizing k with
  | zero =>
    obtain rfl : k = 6 := by omega
    rw [reached_step hk, reached_end (by omega), List.nil_append]
  | succ d ih =>
    rw [reached_step hk, ih (by omega) (by omega), hall k (by omega), List.append_nil]

end End

/-- The end of the simulation, with everybody gone. -/
theorem main_ends (input : List Arrival) : ∃ n s st, main input n = some s ∧ Placed (readInput input) s st ∧
    ∀ k < 7, reached st 7 k = st 6 := by
  by_cases hnil : readInput input = []
  · obtain ⟨-, st, hinv⟩ := init_holds (readInput_sorted input)
    refine ⟨0, Sim.init (readInput input), st, if_pos hnil, hinv.placed, fun k hk => hinv.gone ?_ hk⟩
    rw [hnil]
    rfl
  · have hearly : (Sim.init (readInput input)).early := by
      intro e he
      cases he
    obtain ⟨n, s', s, hn, rfl, hs, -, hstop⟩ :=
      mainLoop_ends (J := fun _ => True) (fun _ _ _ _ _ _ _ => trivial) _ _ (.start hnil) hearly trivial rfl
    obtain ⟨-, st, hinv⟩ := hs.tick.holds
    exact ⟨n, _, st, (if_neg hnil).trans hn, hinv.placed, fun k hk => hinv.gone hstop hk⟩

end Xv6SnifferBakery.Bakery
