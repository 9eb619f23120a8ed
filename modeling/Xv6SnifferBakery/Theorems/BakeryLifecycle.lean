import Xv6SnifferBakery.Theorems.BakeryTermination

/-!
# Every customer is served, in order

The simulation ends. By then each customer who entered has gone through all seven events once, at the times the rules give, and one
who arrived earlier has gone through each of them first. With times of type `long` it ends just when the clock fits.
-/

namespace Xv6SnifferBakery.Bakery

open Lib

/-! ## Lines of output -/

/-- The lines about one customer and one kind of event. -/
def linesOf (out : List Event) (act : Act) (x : Nat) : List Event := out.filter (fun e => e.act = act ∧ e.cust = x)

theorem linesOf_cust (out : List Event) (act : Act) (x : Nat) :
    (linesOf out act x).map Event.cust = (history out act).filter (fun y => y = x) := by
  unfold linesOf history
  induction out with
  | nil => rfl
  | cons e out ih =>
    rw [List.filter_cons, List.filterMap_cons]
    by_cases ha : e.act = act
    · by_cases hx : e.cust = x
      · simp only [ha, hx, and_self, decide_true, if_true, List.map_cons, List.filter_cons_of_pos, ih]
      · simp only [ha, hx, and_false, decide_false, Bool.false_eq_true, if_false, if_true, not_false_eq_true, List.filter_cons_of_neg, ih]
    · simp only [ha, false_and, decide_false, Bool.false_eq_true, if_false, ih]

section Lines

variable {s : Sim} {st : Nat → List Nat}

/-- A customer who has reached a stage has one line for it, with the time of the record. -/
theorem Logged.line (hl : Logged s st) (hn : (reached st 7 0).Nodup) {act : Act} {x : Nat} (hx : x ∈ reached st 7 act.rank) :
    ∃ e, linesOf s.out act x = [e] ∧ e.time = (s.customers x).time act := by
  have hnd : (reached st 7 act.rank).Nodup := hn.sublist (reached_antitone (Nat.zero_le _)).sublist
  have hone : (linesOf s.out act x).map Event.cust = [x] := by
    rw [linesOf_cust, hl.history, List.filter_eq, List.count_eq_one_of_mem hnd hx]
    rfl
  obtain ⟨e, he, -⟩ := List.map_eq_singleton_iff.mp hone
  have hmem : e ∈ linesOf s.out act x := he ▸ List.mem_singleton_self _
  obtain ⟨hout, hact⟩ := List.mem_filter.mp hmem
  obtain ⟨rfl, rfl⟩ := of_decide_eq_true hact
  exact ⟨e, he, hl.time e hout⟩

/-- No two lines are about the same customer and the same kind of event. -/
theorem Logged.once (hl : Logged s st) (hn : (reached st 7 0).Nodup) : (s.out.map (fun e => (e.act, e.cust))).Nodup := by
  refine List.pairwise_map.mpr (List.pairwise_iff_getElem.mpr ?_)
  intro i j hi hj hij heq
  obtain ⟨hact, hcust⟩ := Prod.mk.inj heq
  have hnd : (reached st 7 s.out[i].act.rank).Nodup := hn.sublist (reached_antitone (Nat.zero_le _)).sublist
  rw [← hl.history, Bakery.history, List.Nodup, List.pairwise_filterMap] at hnd
  refine List.pairwise_iff_getElem.mp hnd i j hi hj hij _ (if_pos rfl) s.out[i].cust ?_ rfl
  rw [if_pos hact.symm, hcust]

end Lines

/-! ## The theorems -/

/-- The whole visit of a customer: one line for each event, at times that the rules allow. -/
def Lifecycle (out : List Event) (x : Nat) : Prop :=
  ∃ t : Act → Int, (∀ act, (linesOf out act x).map Event.time = [t act]) ∧ t .enters + 1 ≤ t .sits ∧ t .requests = t .sits + 1 ∧
    t .requests + 1 ≤ t .bakes ∧ t .pays = t .bakes + 2 ∧ t .pays + 1 ≤ t .accepts ∧ t .leaves = t .accepts + 2

section Final

variable {arrivals : List Arrival} {s : Sim} {st : Nat → List Nat}

/-- At the end, those who entered are those who have left. -/
theorem Placed.entered_iff (h : Placed arrivals s st) (hg : ∀ k < 7, reached st 7 k = st 6) {x : Nat} (hx : x < arrivals.length) :
    (s.customers x).entered = true ↔ x ∈ st 6 := by
  constructor
  · intro he
    by_contra hno
    obtain ⟨a, ha⟩ : ∃ a, arrivals[x]? = some a := ⟨_, List.getElem?_eq_getElem hx⟩
    rw [h.fresh x a ha (by rw [hg 0 (by omega)]; exact hno)] at he
    nomatch he
  · intro hm
    exact (h.stage 6 (by omega) x hm).entered

end Final

/-- Every customer who entered has gone through each event once, at times that the rules allow, no customer who did not enter has a
line, and no line is printed twice. -/
def Complete (input : List Arrival) (s : Sim) : Prop :=
  (s.out.map (fun e => (e.act, e.cust))).Nodup ∧
    ∀ x < input.length, if (s.customers x).entered then Lifecycle s.out x else ∀ e ∈ s.out, e.cust ≠ x

/-- The simulation over integers ends, and by then everybody has been served. -/
theorem main_complete (input : List Arrival) : ∃ n s, main input n = some s ∧ Complete input s := by
  obtain ⟨n, s, st, hmain, hp, hgone⟩ := main_ends input
  refine ⟨n, s, hmain, hp.log.once hp.nodup, ?_⟩
  intro x hx
  have hlen : x < (readInput input).length := by
    unfold readInput
    rwa [List.length_insertionSort]
  split
  · rename_i he
    have hmem := (hp.entered_iff hgone hlen).mp he
    have hat := hp.stage 6 (by omega) x hmem
    refine ⟨(s.customers x).time, ?_, hat.sat (by omega), hat.asked (by omega), hat.bakes (by omega), hat.pays (by omega),
      hat.accepts (by omega), hat.leaves (by omega)⟩
    intro act
    obtain ⟨e, hline, htime⟩ := hp.log.line hp.nodup (show x ∈ reached st 7 act.rank by rw [hgone _ act.rank_lt]; exact hmem)
    rw [hline, List.map_singleton, htime]
  · rename_i he
    rintro e hout rfl
    refine he ((hp.entered_iff hgone hlen).mpr ?_)
    rw [← hgone _ e.act.rank_lt, ← hp.log.history]
    exact mem_history.mpr ⟨e, hout, rfl, rfl⟩

/-- What the simulation over integers ends with holds at the end of the one with times of type `long`, just when that ends. -/
theorem returns_iff {input : List Arrival} (hlong : LongInput input) {P : Sim → Prop} (h : ∃ n s, main input n = some s ∧ P s) :
    (∃ n s, mainLong input n = some s ∧ P s) ↔ ClockFits input := by
  constructor
  · rintro ⟨n, s, hs, -⟩
    exact ((mainLong_iff hlong).mp hs).2
  · intro hfits
    obtain ⟨n, s, hs, hP⟩ := h
    exact ⟨n, s, (mainLong_iff hlong).mpr ⟨hs, hfits⟩, hP⟩

/-- The simulation returns with everybody served just when its clock fits a `long`. -/
theorem bakery_lifecycle {input : List Arrival} (hlong : LongInput input) :
    (∃ n s, mainLong input n = some s ∧ Complete input s) ↔ ClockFits input := returns_iff hlong (main_complete input)

/-- Three customers, two of whom come together. -/
theorem bakery_lifecycle_three : ∃ n s, mainLong [⟨3, 7⟩, ⟨0, 2⟩, ⟨3, 5⟩] n = some s ∧ Complete [⟨3, 7⟩, ⟨0, 2⟩, ⟨3, 5⟩] s :=
  (bakery_lifecycle (by decide)).mpr (@clockFits_of_last [⟨3, 7⟩, ⟨0, 2⟩, ⟨3, 5⟩] 3 (by decide) (by decide))

/-- A customer who comes in the last second of a `long` is not served: there is no second in which to sit down. -/
theorem lifecycle_overflow : ¬∃ n s, mainLong [⟨longMax, 1⟩] n = some s ∧ Complete [⟨longMax, 1⟩] s := by
  rintro ⟨n, s, hs, -⟩
  exact not_clockFits 1 (by decide) (by decide +kernel) ((mainLong_iff (by decide)).mp hs).2

/-- The order of the arrivals: by time, then by number, then, for equal ones, by their place in the sorted list. -/
def Ahead (arrivals : List Arrival) (x y : Nat) : Prop :=
  ∃ a b, arrivals[x]? = some a ∧ arrivals[y]? = some b ∧ (a.ts < b.ts ∨ (a.ts = b.ts ∧ a.id < b.id) ∨ (a = b ∧ x < y))

/-- The order of the arrivals is that of the records. -/
theorem Ahead.lt {input : List Arrival} {x y : Nat} (h : Ahead (readInput input) x y) : x < y := by
  obtain ⟨a, b, ha, hb, hlt⟩ := h
  by_contra hge
  obtain ⟨hx, rfl⟩ := List.getElem?_eq_some_iff.mp ha
  obtain ⟨hy, rfl⟩ := List.getElem?_eq_some_iff.mp hb
  rcases Nat.lt_or_eq_of_le (Nat.not_lt.mp hge) with hyx | rfl
  · have hle := List.pairwise_iff_getElem.mp (readInput_pairwise input) y x hy hx hyx
    simp only [Arrival.le, decide_eq_true_eq] at hle
    rcases hlt with hlt | ⟨heq, hlt⟩ | ⟨heq, hlt⟩ <;> omega
  · rcases hlt with hlt | ⟨-, hlt⟩ | ⟨-, hlt⟩ <;> omega

/-- First in, first served: of two customers who entered, the one ahead goes through every event no later than the other, and its
line is printed first. -/
def FirstServed (input : List Arrival) (s : Sim) : Prop :=
  ∀ x y, (s.customers x).entered = true → (s.customers y).entered = true → Ahead (readInput input) x y →
    ∀ act, ∃ e e', linesOf s.out act x = [e] ∧ linesOf s.out act y = [e'] ∧ Before s.out e e' ∧ e.time ≤ e'.time

theorem main_fifo (input : List Arrival) : ∃ n s, main input n = some s ∧ FirstServed input s := by
  obtain ⟨n, s, st, hmain, hp, hgone⟩ := main_ends input
  refine ⟨n, s, hmain, ?_⟩
  intro x y hx hy hahead act
  have hlt := hahead.lt
  obtain ⟨a, b, ha, hb, -⟩ := hahead
  have hxm := (hp.entered_iff hgone (List.getElem?_eq_some_iff.mp ha).1).mp hx
  have hym := (hp.entered_iff hgone (List.getElem?_eq_some_iff.mp hb).1).mp hy
  rw [← hgone _ act.rank_lt] at hxm hym
  -- the order of the records is the order in which the stage was reached, and so the order of the lines
  have hsorted : (reached st 7 act.rank).Pairwise (· < ·) := by
    rw [hgone _ act.rank_lt, ← hgone 0 (by omega)]
    exact hp.sorted
  have hbefore : Before (history s.out act) x y := by
    rw [hp.log.history]
    exact before_of_rel hsorted hxm hym (by omega) (by omega)
  obtain ⟨e, e', hout, he, he'⟩ := hbefore.of_filterMap
  obtain ⟨e₁, hline₁, -⟩ := hp.log.line hp.nodup hxm
  obtain ⟨e₂, hline₂, -⟩ := hp.log.line hp.nodup hym
  have hmem : ∀ {e : Event} {z : Nat}, e ∈ s.out → (if e.act = act then some e.cust else none) = some z → e ∈ linesOf s.out act z := by
    intro e z he hz
    split at hz
    · rename_i hact
      exact List.mem_filter.mpr ⟨he, decide_eq_true ⟨hact, Option.some.inj hz⟩⟩
    · cases hz
  have h₁ := hmem hout.mem.1 he
  have h₂ := hmem hout.mem.2 he'
  rw [hline₁, List.mem_singleton] at h₁
  rw [hline₂, List.mem_singleton] at h₂
  subst h₁ h₂
  exact ⟨e, e', hline₁, hline₂, hout, hout.rel hp.log.sorted⟩

/-- The simulation returns with everybody served in the order of the arrivals just when its clock fits a `long`. -/
theorem bakery_fifo {input : List Arrival} (hlong : LongInput input) :
    (∃ n s, mainLong input n = some s ∧ FirstServed input s) ↔ ClockFits input := returns_iff hlong (main_fifo input)

/-- Two customers who come together, and one who came before them. -/
theorem bakery_fifo_three : ∃ n s, mainLong [⟨3, 7⟩, ⟨0, 2⟩, ⟨3, 5⟩] n = some s ∧ FirstServed [⟨3, 7⟩, ⟨0, 2⟩, ⟨3, 5⟩] s :=
  (bakery_fifo (by decide)).mpr (@clockFits_of_last [⟨3, 7⟩, ⟨0, 2⟩, ⟨3, 5⟩] 3 (by decide) (by decide))

/-- The first customer has time to leave before the clock overflows, the second does not. -/
theorem fifo_overflow : ¬∃ n s, mainLong [⟨longMax - 10, 1⟩, ⟨longMax - 4, 2⟩] n = some s ∧
    FirstServed [⟨longMax - 10, 1⟩, ⟨longMax - 4, 2⟩] s := by
  rintro ⟨n, s, hs, -⟩
  exact not_clockFits 11 (by decide) (by decide +kernel) ((mainLong_iff (by decide)).mp hs).2

end Xv6SnifferBakery.Bakery
