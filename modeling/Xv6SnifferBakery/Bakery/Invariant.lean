import Mathlib.Algebra.Order.Group.Int
import Xv6SnifferBakery.Bakery.Simulation
import Xv6SnifferBakery.Lib.Conveyor

/-!
# The bakery as a conveyor

A customer goes through seven stages, one for each line of output: standing, seated, waiting for a chef, baked for, waiting to pay,
paying, gone. Every stage is a queue and a move takes the front of one to the end of the next, so the bakery is a conveyor. The
invariant says how the variables of the simulation spell it out; the lemmas here say that each move keeps it.
-/

namespace Xv6SnifferBakery.Bakery

open Lib

/-! ## Stages -/

/-- The stage a customer is at after an event. -/
def Act.rank : Act → Nat
  | .enters => 0
  | .sits => 1
  | .requests => 2
  | .bakes => 3
  | .pays => 4
  | .accepts => 5
  | .leaves => 6

theorem Act.rank_lt (act : Act) : act.rank < 7 := by cases act <;> decide

theorem Act.rank_injective {act act' : Act} (h : act.rank = act'.rank) : act = act' := by
  cases act <;> cases act' <;> first | rfl | nomatch h

/-- The time of an event, as the customer's record has it. -/
def Customer.time (c : Customer) : Act → Int
  | .enters => c.arrivalTs
  | .sits => c.tSat
  | .requests => c.tRequest
  | .bakes => c.tBakeStart
  | .pays => c.tPayTime
  | .accepts => c.tAcceptStart
  | .leaves => c.tLeave

/-- The record of a customer at stage `k`: the flags, and what is known of the times. -/
structure AtStage (k : Nat) (c : Customer) : Prop where
  entered : c.entered = true
  seated : c.seated = decide (1 ≤ k)
  requested : c.requested = decide (2 ≤ k)
  baking : c.baking = decide (k = 3)
  baked : c.baked = decide (4 ≤ k)
  sat : 1 ≤ k → c.arrivalTs + 1 ≤ c.tSat
  asked : 2 ≤ k → c.tRequest = c.tSat + 1
  bakes : 3 ≤ k → c.tRequest + 1 ≤ c.tBakeStart
  pays : 4 ≤ k → c.tPayTime = c.tBakeStart + 2
  accepts : 5 ≤ k → c.tPayTime + 1 ≤ c.tAcceptStart
  leaves : 6 ≤ k → c.tLeave = c.tAcceptStart + 2

/-! ## The log -/

/-- The customers of one kind of event, in the order of the output. -/
def history (out : List Event) (act : Act) : List Nat := out.filterMap (fun e => if e.act = act then some e.cust else none)

theorem history_append (out : List Event) (e : Event) (act : Act) :
    history (out ++ [e]) act = if e.act = act then history out act ++ [e.cust] else history out act := by
  unfold history
  rw [List.filterMap_append]
  by_cases h : e.act = act <;> simp [h]

theorem mem_history {out : List Event} {act : Act} {x : Nat} : x ∈ history out act ↔ ∃ e ∈ out, e.act = act ∧ e.cust = x := by
  unfold history
  rw [List.mem_filterMap]
  constructor
  · rintro ⟨e, he, hx⟩
    split at hx
    · rename_i ha
      exact ⟨e, he, ha, Option.some.inj hx⟩
    · nomatch hx
  · rintro ⟨e, he, ha, hx⟩
    exact ⟨e, he, by rw [if_pos ha, hx]⟩

/-- The output says which customers have reached which stage, and when. -/
structure Logged (s : Sim) (st : Nat → List Nat) : Prop where
  history : ∀ act, history s.out act = reached st 7 act.rank
  time : ∀ e ∈ s.out, e.time = (s.customers e.cust).time e.act
  id : ∀ e ∈ s.out, e.id = (s.customers e.cust).id
  past : ∀ e ∈ s.out, e.time ≤ s.currentTime
  sorted : s.out.Pairwise (fun e e' => e.time ≤ e'.time)

/-- A move of customer `ci`: its record changes, and a line is printed. -/
structure Moved (s s' : Sim) (ci : Nat) (act : Act) (f : Customer → Customer) : Prop where
  customers : s'.customers = Function.update s.customers ci (f (s.customers ci))
  out : ∃ chef, s'.out = s.out ++ [⟨s.currentTime, act, ci, (f (s.customers ci)).id, chef⟩]
  currentTime : s'.currentTime = s.currentTime

/-- The other customers stay as they are. -/
theorem Moved.other {s s' : Sim} {ci x : Nat} {act : Act} {f : Customer → Customer} (h : Moved s s' ci act f) (hx : x ≠ ci) :
    s'.customers x = s.customers x := by
  rw [h.customers, Function.update_of_ne hx]

theorem Moved.self {s s' : Sim} {ci : Nat} {act : Act} {f : Customer → Customer} (h : Moved s s' ci act f) :
    s'.customers ci = f (s.customers ci) := by
  rw [h.customers, Function.update_self]

/-- A change of a record that sets the time of one event, to now. -/
structure Stamps (s : Sim) (ci : Nat) (act : Act) (f : Customer → Customer) : Prop where
  now : (f (s.customers ci)).time act = s.currentTime
  others : ∀ act', act' ≠ act → (f (s.customers ci)).time act' = (s.customers ci).time act'
  id : (f (s.customers ci)).id = (s.customers ci).id

section Log

variable {s s' : Sim} {st st' : Nat → List Nat} {ci : Nat} {act : Act} {f : Customer → Customer}

/-- A move adds one customer to those that have reached one stage. -/
theorem Logged.move (hl : Logged s st) (hm : Moved s s' ci act f) (hs : Stamps s ci act f) (hnot : ci ∉ reached st 7 act.rank)
    (hst : ∀ act', reached st' 7 act'.rank = if act = act' then reached st 7 act'.rank ++ [ci] else reached st 7 act'.rank) :
    Logged s' st' := by
  obtain ⟨chef, hout⟩ := hm.out
  have hsame : ∀ e ∈ s.out, (s'.customers e.cust).time e.act = (s.customers e.cust).time e.act := by
    intro e he
    rw [hm.customers]
    by_cases hc : e.cust = ci
    · rw [hc, Function.update_self]
      refine hs.others e.act (fun ha => hnot ?_)
      rw [← hl.history, mem_history]
      exact ⟨e, he, ha, hc⟩
    · rw [Function.update_of_ne hc]
  have hid : ∀ x, (s'.customers x).id = (s.customers x).id := by
    intro x
    rw [hm.customers]
    by_cases hc : x = ci
    · rw [hc, Function.update_self, hs.id]
    · rw [Function.update_of_ne hc]
  refine ⟨?_, ?_, ?_, ?_, ?_⟩
  · intro act'
    rw [hout, history_append, hst act', hl.history]
  · intro e he
    rw [hout, List.mem_append, List.mem_singleton] at he
    rcases he with he | rfl
    · rw [hsame e he, hl.time e he]
    · simp only [hm.customers, Function.update_self, hs.now]
  · intro e he
    rw [hout, List.mem_append, List.mem_singleton] at he
    rw [hid]
    rcases he with he | rfl
    · exact hl.id e he
    · exact hs.id
  · intro e he
    rw [hout, List.mem_append, List.mem_singleton] at he
    rw [hm.currentTime]
    rcases he with he | rfl
    · exact hl.past e he
    · exact le_refl _
  · rw [hout, List.pairwise_append]
    refine ⟨hl.sorted, List.pairwise_singleton _ _, ?_⟩
    intro e he e' he'
    rw [List.mem_singleton.mp he']
    exact hl.past e he

/-- The log does not look at the queues. -/
theorem Logged.congr (hl : Logged s st) (hc : s'.customers = s.customers) (ho : s'.out = s.out) (ht : s.currentTime ≤ s'.currentTime) :
    Logged s' st := by
  refine ⟨?_, ?_, ?_, ?_, ?_⟩
  · rw [ho]
    exact hl.history
  · rw [ho, hc]
    exact hl.time
  · rw [ho, hc]
    exact hl.id
  · rw [ho]
    intro e he
    exact (hl.past e he).trans ht
  · rw [ho]
    exact hl.sorted

/-- A stage is reached in the past. -/
theorem Logged.le_now (hl : Logged s st) {x : Nat} (hx : x ∈ reached st 7 act.rank) : (s.customers x).time act ≤ s.currentTime := by
  rw [← hl.history, mem_history] at hx
  obtain ⟨e, he, rfl, rfl⟩ := hx
  rw [← hl.time e he]
  exact hl.past e he

/-- A stage is reached in order. -/
theorem Logged.monotone (hl : Logged s st) (act : Act) :
    (reached st 7 act.rank).Pairwise (fun x y => (s.customers x).time act ≤ (s.customers y).time act) := by
  rw [← hl.history act, Bakery.history, List.pairwise_filterMap]
  refine hl.sorted.imp_of_mem ?_
  intro e e' he he' hle x hx y hy
  split at hx
  · rename_i ha
    split at hy
    · rename_i ha'
      obtain rfl := Option.some.inj hx
      obtain rfl := Option.some.inj hy
      rw [hl.time e he, hl.time e' he', ha, ha'] at hle
      exact hle
    · nomatch hy
  · nomatch hx

/-- The customers at a stage have reached it in order. -/
theorem Logged.stage_monotone (hl : Logged s st) (act : Act) :
    (st act.rank).Pairwise (fun x y => (s.customers x).time act ≤ (s.customers y).time act) := by
  have h := hl.monotone act
  rw [reached_step act.rank_lt] at h
  exact (List.pairwise_append.mp h).2.1

end Log

/-! ## Customers -/

/-- The customers of the conveyor are those that entered, in the order of the arrivals, with records that say where they are. -/
structure Placed (arrivals : List Arrival) (s : Sim) (st : Nat → List Nat) : Prop where
  sorted : (reached st 7 0).Pairwise (· < ·)
  lt : ∀ x ∈ reached st 7 0, x < s.arrivalIdx
  le : s.arrivalIdx ≤ arrivals.length
  stage : ∀ k < 7, ∀ x ∈ st k, AtStage k (s.customers x)
  fresh : ∀ x a, arrivals[x]? = some a → x ∉ reached st 7 0 → s.customers x = Customer.fresh a
  info : ∀ x a, arrivals[x]? = some a → (s.customers x).id = a.id ∧ (s.customers x).arrivalTs = a.ts
  log : Logged s st

section Placed

variable {arrivals : List Arrival} {s s' : Sim} {st : Nat → List Nat} {ci : Nat} {act : Act} {f : Customer → Customer}

theorem Placed.nodup (hp : Placed arrivals s st) : (reached st 7 0).Nodup := hp.sorted.imp (fun h => Nat.ne_of_lt h)

theorem Placed.stage_nodup (hp : Placed arrivals s st) {k : Nat} (hk : k < 7) : (st k).Nodup := by
  have h := hp.nodup.sublist (reached_antitone (Nat.zero_le k)).sublist
  rw [reached_step hk] at h
  exact (List.nodup_append.mp h).2.1

theorem Placed.congr (hp : Placed arrivals s st) (hc : s'.customers = s.customers) (ho : s'.out = s.out)
    (ht : s.currentTime ≤ s'.currentTime) (hi : s.arrivalIdx ≤ s'.arrivalIdx) (hle : s'.arrivalIdx ≤ arrivals.length) :
    Placed arrivals s' st := by
  refine ⟨hp.sorted, fun x hx => lt_of_lt_of_le (hp.lt x hx) hi, hle, ?_, ?_, ?_, hp.log.congr hc ho ht⟩
  · rw [hc]
    exact hp.stage
  · rw [hc]
    exact hp.fresh
  · rw [hc]
    exact hp.info

/-- The front of a stage moves on. -/
theorem Placed.push {k : Nat} {rest : List Nat} (hp : Placed arrivals s st) (hk : act.rank = k + 1) (hst : st k = ci :: rest)
    (hm : Moved s s' ci act f) (hs : Stamps s ci act f) (hi : s'.arrivalIdx = s.arrivalIdx)
    (hstage : AtStage k (s.customers ci) → AtStage (k + 1) (f (s.customers ci))) : Placed arrivals s' (push st k) := by
  have hk7 : k + 1 < 7 := hk ▸ act.rank_lt
  have hci : ci ∈ st k := by
    rw [hst]
    exact List.mem_cons_self
  have htake : (st k).take 1 = [ci] := by
    rw [hst]
    rfl
  have hpast : ci ∉ reached st 7 (k + 1) :=
    not_mem_reached_next (hp.nodup.sublist (reached_antitone (Nat.zero_le k)).sublist) (by omega) hci
  have hzero : reached (Lib.push st k) 7 0 = reached st 7 0 := reached_push_of_ne hk7 (by omega)
  have hne : ∀ j < 7, j ≠ k → ∀ x ∈ st j, x ≠ ci := by
    rintro j hj hjk x hx rfl
    exact hjk (stage_unique hp.nodup hj (by omega) hx hci)
  refine ⟨hzero ▸ hp.sorted, ?_, hi ▸ hp.le, ?_, ?_, ?_, ?_⟩
  · rw [hzero, hi]
    exact hp.lt
  · intro j hj x hx
    rw [hm.customers]
    by_cases hjk : j = k
    · subst hjk
      rw [push_self, hst, List.tail_cons] at hx
      have hnd := hp.stage_nodup hj
      rw [hst] at hnd
      have hxc : x ≠ ci := fun he => (List.nodup_cons.mp hnd).1 (he ▸ hx)
      rw [Function.update_of_ne hxc]
      exact hp.stage j hj x (hst ▸ List.mem_cons_of_mem _ hx)
    by_cases hjk' : j = k + 1
    · subst hjk'
      rw [push_next, htake, List.mem_append, List.mem_singleton] at hx
      rcases hx with hx | rfl
      · rw [Function.update_of_ne (hne _ hj hjk x hx)]
        exact hp.stage _ hj x hx
      · rw [Function.update_self]
        exact hstage (hp.stage k (by omega) x hci)
    · rw [push_of_ne hjk hjk'] at hx
      rw [Function.update_of_ne (hne j hj hjk x hx)]
      exact hp.stage j hj x hx
  · intro x a ha hx
    rw [hzero] at hx
    have hxc : x ≠ ci := by
      rintro rfl
      exact hx (mem_reached.mpr ⟨k, Nat.zero_le _, by omega, hci⟩)
    rw [hm.customers, Function.update_of_ne hxc]
    exact hp.fresh x a ha hx
  · intro x a ha
    rw [hm.customers]
    by_cases hxc : x = ci
    · subst hxc
      rw [Function.update_self, hs.id]
      have hne' : Act.enters ≠ act := by
        rintro rfl
        nomatch hk
      have harr : (f (s.customers x)).arrivalTs = (s.customers x).arrivalTs := hs.others .enters hne'
      rw [harr]
      exact hp.info x a ha
    · rw [Function.update_of_ne hxc]
      exact hp.info x a ha
  · refine hp.log.move hm hs (hk ▸ hpast) ?_
    intro act'
    by_cases hact : act = act'
    · subst hact
      rw [if_pos rfl, hk, reached_push_next hk7, htake]
    · rw [if_neg hact, reached_push_of_ne hk7 (fun he => hact (Act.rank_injective (hk.trans he.symm)))]

end Placed

end Xv6SnifferBakery.Bakery
