import Xv6SnifferBakery.Bakery.Memory
import Xv6SnifferBakery.Bakery.Progress
import Xv6SnifferBakery.Lib.Ring

/-!
# The arrays hold the queues

A queue that goes round its array holds a list, and `q_push` and `q_pop` are `append` and `tail`. With at most 1024 arrivals every
function over the arrays gives a result, and the result holds what the function over lists gives.
-/

namespace Xv6SnifferBakery.Bakery

open Lib

/-! ## Arrays -/

section Arrays

variable {α : Type} {n i : Nat} {a : Nat → α}

theorem readAt_of_lt (h : i < n) : readAt n a i = some (a i) := if_pos h

theorem writeAt_of_lt (h : i < n) (v : α) : writeAt n a i v = some (Function.update a i v) := if_pos h

end Arrays

/-! ## Queues -/

namespace Queue

/-- The queue holds a list, its front first. -/
structure Holds (q : Queue) (l : List Nat) : Prop where
  room : l.length ≤ queueCap
  head : q.head < queueCap
  tail : q.tail = (q.head + l.length) % queueCap
  size : q.size = l.length
  data : Ring.Stores q.data queueCap q.head l

variable {q : Queue} {l : List Nat} {x : Nat}

theorem holds_init (q : Queue) : q.init.Holds [] :=
  ⟨Nat.zero_le _, show 0 < 2048 by decide, rfl, rfl, .nil⟩

theorem Holds.empty_iff (h : q.Holds l) : q.empty = l.isEmpty := by
  unfold Queue.empty
  rw [h.size]
  cases l with
  | nil => rfl
  | cons x l => exact decide_eq_false (by simp only [List.length_cons]; omega)

theorem Holds.toNat_size (h : q.Holds l) : q.size.toNat = l.length := by
  rw [h.size, Int.toNat_natCast]

/-- `q_push` appends. -/
theorem Holds.push (h : q.Holds l) (hroom : l.length < queueCap) (x : Nat) : ∃ q', q.push x = some q' ∧ q'.Holds (l ++ [x]) := by
  have htail : q.tail < queueCap := by
    rw [h.tail]
    exact Nat.mod_lt _ (by decide)
  have hpush : q.push x = some { q with
      data := Function.update q.data q.tail x, tail := if queueCap ≤ q.tail + 1 then 0 else q.tail + 1, size := q.size + 1 } := by
    rw [Queue.push, writeAt_of_lt htail]
    rfl
  refine ⟨_, hpush, ?_, h.head, ?_, ?_, ?_⟩
  · rw [List.length_append, List.length_singleton]
    exact hroom
  · have ht := h.tail
    have hh := h.head
    rw [List.length_append, List.length_singleton]
    unfold queueCap at *
    simp only
    split <;> omega
  · have hs := h.size
    rw [List.length_append, List.length_singleton]
    change q.size + 1 = _
    omega
  · simp only [h.tail]
    exact h.data.push hroom x

/-- `q_front` is the first. -/
theorem Holds.front (h : q.Holds (x :: l)) : q.front = some x := by
  have hx := h.data.front
  rw [Nat.mod_eq_of_lt h.head] at hx
  rw [Queue.front, readAt_of_lt h.head, hx]

/-- `q_pop` removes the first. -/
theorem Holds.pop (h : q.Holds (x :: l)) : ∃ q', q.pop = some (x, q') ∧ q'.Holds l := by
  have hx := h.data.front
  rw [Nat.mod_eq_of_lt h.head] at hx
  have hwrap : (if queueCap ≤ q.head + 1 then 0 else q.head + 1) = (q.head + 1) % queueCap := by
    have hh := h.head
    unfold queueCap at *
    split <;> omega
  have hpop : q.pop = some (x, { q with head := (q.head + 1) % queueCap, size := q.size - 1 }) := by
    rw [Queue.pop, readAt_of_lt h.head, hx, ← hwrap]
    rfl
  refine ⟨_, hpop, Nat.le_of_succ_le h.room, Nat.mod_lt _ (by decide), ?_, ?_, h.data.pop.wrap (Nat.dvd_refl _)⟩
  · have ht := h.tail
    rw [List.length_cons] at ht
    unfold queueCap at *
    simp only
    omega
  · have hs := h.size
    rw [List.length_cons] at hs
    change q.size - 1 = _
    omega

end Queue

/-! ## The global variables -/

/-- The arrays and queues hold what the lists say, for the first arrivals and customers. -/
structure Refines (arrivals : List Arrival) (m : Memory) (s : Sim) : Prop where
  entries : ∀ i a, arrivals[i]? = some a → m.arrivals i = a
  numArrivals : m.numArrivals = arrivals.length
  customers : ∀ i < arrivals.length, m.customers i = s.customers i
  standing : m.standing.Holds s.standing
  sofa : m.sofa.Holds s.sofa
  ready : m.ready.Holds s.ready
  baking : m.baking = s.baking
  accepting : m.accepting = s.accepting
  registerBusy : m.registerBusy = s.registerBusy
  chefFree : m.chefFree = s.chefFree
  ovensAvailable : m.ovensAvailable = s.ovensAvailable
  peopleInside : m.peopleInside = s.peopleInside
  currentTime : m.currentTime = s.currentTime
  lastSeatFreed : m.lastSeatFreed = s.lastSeatFreed
  arrivalIdx : m.arrivalIdx = s.arrivalIdx
  out : m.out = s.out

section Moves

variable {arrivals : List Arrival} {m : Memory} {s : Sim} {ci : Nat}

theorem Refines.read (h : Refines arrivals m s) (hmax : arrivals.length ≤ maxArrivals) (hci : ci < arrivals.length) :
    readAt maxArrivals m.customers ci = some (s.customers ci) := by
  rw [readAt_of_lt (Nat.lt_of_lt_of_le hci hmax), h.customers ci hci]

theorem Refines.setCustomer (h : Refines arrivals m s) (hmax : arrivals.length ≤ maxArrivals) (hci : ci < arrivals.length)
    (f : Customer → Customer) : ∃ m', m.setCustomer ci f = some m' ∧ Refines arrivals m' (s.setCustomer ci f) := by
  have hset : m.setCustomer ci f = some { m with customers := Function.update m.customers ci (f (s.customers ci)) } := by
    simp only [Memory.setCustomer, h.read hmax hci, writeAt_of_lt (Nat.lt_of_lt_of_le hci hmax), Option.bind_eq_bind, Option.bind_some]
  refine ⟨_, hset, { h with customers := ?_ }⟩
  intro i hi
  by_cases hic : i = ci
  · subst hic
    simp [Sim.setCustomer]
  · simp [Sim.setCustomer, hic, h.customers i hi]

theorem Refines.print (h : Refines arrivals m s) (hmax : arrivals.length ≤ maxArrivals) (hci : ci < arrivals.length) (act : Act)
    (chef : Option Nat) : ∃ m', m.print act ci chef = some m' ∧
      Refines arrivals m' { s with out := s.out ++ [⟨s.currentTime, act, ci, (s.customers ci).id, chef⟩] } := by
  have hprint : m.print act ci chef = some { m with out := s.out ++ [⟨s.currentTime, act, ci, (s.customers ci).id, chef⟩] } := by
    rw [Memory.print, h.read hmax hci, ← h.out, ← h.currentTime]
    rfl
  exact ⟨_, hprint, { h with out := rfl }⟩

theorem Refines.setChef (h : Refines arrivals m s) (chef : Nat) (free : Bool) :
    Refines arrivals (m.setChef chef free) (s.setChef chef free) :=
  { h with chefFree := by rw [Memory.setChef, Sim.setChef, h.chefFree] }

theorem Refines.getFreeChef (h : Refines arrivals m s) : m.getFreeChef = s.getFreeChef := by
  have h_find : (List.range numChefs).find? (fun i => m.chefFree i) = (List.range numChefs).find? (fun i => s.chefFree i) := by
    rw [h.chefFree]
  unfold Memory.getFreeChef Sim.getFreeChef
  cases h_s : (List.range numChefs).find? (fun i => s.chefFree i) with
  | none => simp only [h_find, h_s]
  | some i => simp only [h_find, h_s]

theorem Refines.setAccepting (h : Refines arrivals m s) (task : Task) :
    Refines arrivals { m with accepting := task } { s with accepting := task } :=
  { h with accepting := rfl }

theorem Refines.setBusy (h : Refines arrivals m s) : Refines arrivals { m with registerBusy := true } { s with registerBusy := true } :=
  { h with registerBusy := rfl }

theorem Refines.addTask (h : Refines arrivals m s) (task : Task) :
    Refines arrivals { m with baking := m.baking ++ [task], ovensAvailable := m.ovensAvailable - 1 }
      { s with baking := s.baking ++ [task], ovensAvailable := s.ovensAvailable - 1 } :=
  { h with baking := congrArg (· ++ [task]) h.baking, ovensAvailable := congrArg (· - 1) h.ovensAvailable }

/-! ## Arrivals -/

theorem Refines.enter (h : Refines arrivals m s) (hmax : arrivals.length ≤ maxArrivals) (hidx : s.arrivalIdx < arrivals.length)
    (hroom : s.standing.length < queueCap) : ∃ m', m.enter = some m' ∧ Refines arrivals m' s.enter := by
  obtain ⟨m₁, h₁, hr₁⟩ := h.setCustomer hmax hidx (fun c => { c with entered := true })
  have hr₂ : Refines arrivals { m₁ with peopleInside := m₁.peopleInside + 1 }
      { s.setCustomer s.arrivalIdx (fun c => { c with entered := true }) with peopleInside := s.peopleInside + 1 } :=
    { hr₁ with peopleInside := congrArg (· + 1) hr₁.peopleInside }
  obtain ⟨m₃, h₃, hr₃⟩ := hr₂.print hmax hidx .enters none
  obtain ⟨q, hq, hholds⟩ := hr₃.standing.push hroom s.arrivalIdx
  refine ⟨{ m₃ with standing := q, arrivalIdx := m₃.arrivalIdx + 1 }, ?_,
    { hr₃ with standing := hholds, arrivalIdx := congrArg (· + 1) hr₃.arrivalIdx }⟩
  simp only [Memory.enter, h.arrivalIdx, h₁, h₃, hq, Option.bind_eq_bind, Option.bind_some]

theorem Refines.arrivalsLoop {n : Nat} (h : Refines arrivals m s) (hmax : arrivals.length ≤ maxArrivals)
    (hlen : s.standing.length ≤ s.arrivalIdx) :
    ∃ m', m.arrivalsLoop n = some m' ∧ Refines arrivals m' (Sim.arrivalsLoop arrivals n s) := by
  induction n generalizing m s with
  | zero => exact ⟨m, rfl, h⟩
  | succ n ih =>
    have htime := h.currentTime
    have hpeople := h.peopleInside
    rw [Memory.arrivalsLoop, Sim.arrivalsLoop]
    cases ha : arrivals[s.arrivalIdx]? with
    | none =>
      have hge := List.getElem?_eq_none_iff.mp ha
      rw [if_neg (by rw [h.arrivalIdx, h.numArrivals]; omega)]
      exact ⟨m, rfl, h⟩
    | some a =>
      have hlt : s.arrivalIdx < arrivals.length := (List.getElem?_eq_some_iff.mp ha).1
      have hread : readAt maxArrivals m.arrivals m.arrivalIdx = some a := by
        rw [h.arrivalIdx, readAt_of_lt (Nat.lt_of_lt_of_le hlt hmax), h.entries _ a ha]
      rw [if_pos (by rw [h.arrivalIdx, h.numArrivals]; exact hlt), hread]
      simp only [Option.bind_eq_bind, Option.bind_some]
      by_cases hts : a.ts ≠ s.currentTime
      · rw [if_pos hts, if_pos (by rwa [htime])]
        exact ⟨m, rfl, h⟩
      rw [if_neg hts, if_neg (by rwa [htime])]
      by_cases hfull : maxCapacity ≤ s.peopleInside
      · rw [if_pos hfull, if_pos (by rwa [hpeople])]
        exact ih { h with arrivalIdx := congrArg (· + 1) h.arrivalIdx } (Nat.le_succ_of_le hlen)
      · rw [if_neg hfull, if_neg (by rwa [hpeople])]
        have hroom : s.standing.length < queueCap := by
          unfold maxArrivals at hmax
          unfold queueCap
          omega
        obtain ⟨m', hm, hr⟩ := h.enter hmax hlt hroom
        rw [hm, Option.bind_some]
        refine ih hr ?_
        change (s.standing ++ [s.arrivalIdx]).length ≤ s.arrivalIdx + 1
        rw [List.length_append, List.length_singleton]
        omega

/-! ## Tasks that end -/

/-- The rebuilt queue holds the others, in their order. -/
theorem rebuildLoop_holds (ci : Nat) {n : Nat} {old new : Queue} {l l' : List Nat} (hn : l.length ≤ n) (ho : old.Holds l) (hnew : new.Holds l')
    (hroom : l'.length + l.length ≤ queueCap) :
    ∃ q, Memory.rebuildLoop ci n old new = some q ∧ q.Holds (l' ++ l.filter (fun x => x ≠ ci)) := by
  induction n generalizing old new l l' with
  | zero =>
    obtain rfl := List.length_eq_zero_iff.mp (Nat.le_zero.mp hn)
    exact ⟨new, rfl, by simpa using hnew⟩
  | succ n ih =>
    rw [Memory.rebuildLoop, ho.empty_iff]
    cases l with
    | nil => exact ⟨new, rfl, by simpa using hnew⟩
    | cons x l =>
      rw [List.length_cons] at hn hroom
      obtain ⟨old', hpop, hold⟩ := ho.pop
      simp only [List.isEmpty_cons, Bool.false_eq_true, if_false, hpop, Option.bind_eq_bind, Option.bind_some]
      by_cases hx : x = ci
      · rw [if_neg (by simpa using hx), List.filter_cons_of_neg (by simpa using hx)]
        exact ih (by omega) hold hnew (by omega)
      · obtain ⟨new', hpush, hholds⟩ := hnew.push (x := x) (by omega)
        rw [if_pos hx, hpush, Option.bind_some, List.filter_cons_of_pos (by simpa using hx)]
        have := ih (by omega) hold hholds (by rw [List.length_append, List.length_singleton]; omega)
        rwa [List.append_assoc, List.singleton_append] at this

theorem Refines.finishAccept (h : Refines arrivals m s) (hmax : arrivals.length ≤ maxArrivals)
    (hcust : s.registerBusy = true → s.accepting.cust < arrivals.length) (junk : Queue) :
    ∃ m', m.finishAccept junk = some m' ∧ Refines arrivals m' s.finishAccept := by
  unfold Memory.finishAccept Sim.finishAccept
  rw [h.registerBusy, h.accepting, h.currentTime]
  split
  · rename_i hc
    have hci := hcust hc.1
    obtain ⟨m₁, h₁, hr₁⟩ := h.setCustomer hmax hci (fun c =>
      { c with
        tAcceptEnd := s.currentTime, acceptStarted := false, paid := true, tLeave := s.currentTime, done := true })
    obtain ⟨m₂, h₂, hr₂⟩ := hr₁.print hmax hci .leaves none
    have hr₃ := hr₂.setChef s.accepting.chef true
    obtain ⟨q, hq, hholds⟩ := rebuildLoop_holds s.accepting.cust (Nat.le_refl _) hr₃.sofa junk.holds_init (by
      rw [List.length_nil, Nat.zero_add]
      exact hr₃.sofa.room)
    rw [← hr₃.sofa.toNat_size] at hq
    refine ⟨{ m₂.setChef s.accepting.chef true with
      registerBusy := false, peopleInside := m₂.peopleInside - 1, lastSeatFreed := m₂.currentTime, sofa := q }, ?_,
      { hr₃ with
        registerBusy := rfl, peopleInside := congrArg (· - 1) hr₂.peopleInside, lastSeatFreed := hr₂.currentTime, sofa := hholds }⟩
    have hacc : m₂.accepting = s.accepting := hr₂.accepting
    simp only [h₁, h₂, Option.bind_eq_bind, Option.bind_some, hacc, hq]
    rfl
  · exact ⟨m, rfl, h⟩

theorem Refines.bakeDone {b : Task} (h : Refines arrivals m s) (hmax : arrivals.length ≤ maxArrivals) (hci : b.cust < arrivals.length)
    (hroom : s.ready.length < queueCap) : ∃ m', m.bakeDone b = some m' ∧ Refines arrivals m' (s.bakeDone b) := by
  obtain ⟨m₁, h₁, hr₁⟩ := h.setCustomer hmax hci (fun c =>
    { c with baked := true, baking := false, tBakeEnd := s.currentTime, tPayTime := s.currentTime })
  obtain ⟨m₂, h₂, hr₂⟩ := hr₁.print hmax hci .pays none
  obtain ⟨q, hq, hholds⟩ := hr₂.ready.push hroom b.cust
  refine ⟨{ ({ m₂ with ready := q } : Memory).setChef b.chef true with ovensAvailable := m₂.ovensAvailable + 1 }, ?_,
    { hr₂ with
      ready := hholds, ovensAvailable := congrArg (· + 1) hr₂.ovensAvailable
      chefFree := (hr₂.setChef b.chef true).chefFree }⟩
  simp only [Memory.bakeDone, h.currentTime, h₁, h₂, hq, Option.bind_eq_bind, Option.bind_some]
  rfl

theorem Refines.finishBakesLoop (kept : List Task) {bs : List Task} (h : Refines arrivals m s) (hmax : arrivals.length ≤ maxArrivals)
    (hci : ∀ b ∈ bs, b.cust < arrivals.length) (hroom : s.ready.length + bs.length ≤ queueCap) :
    ∃ m' kept', Memory.finishBakesLoop bs m kept = some (m', kept') ∧ Refines arrivals m' (Sim.finishBakesLoop bs s kept).1 ∧
      (Sim.finishBakesLoop bs s kept).2 = kept' := by
  induction bs generalizing m s kept with
  | nil => exact ⟨m, kept, rfl, h, rfl⟩
  | cons b bs ih =>
    rw [List.length_cons] at hroom
    rw [Memory.finishBakesLoop, Sim.finishBakesLoop, h.currentTime]
    split
    · obtain ⟨m', hm, hr⟩ := h.bakeDone hmax (hci b List.mem_cons_self) (by omega)
      simp only [hm, Option.bind_eq_bind, Option.bind_some]
      refine ih _ hr (fun b' hb' => hci b' (List.mem_cons_of_mem _ hb')) ?_
      change (s.ready ++ [b.cust]).length + bs.length ≤ queueCap
      rw [List.length_append, List.length_singleton]
      omega
    · exact ih _ h (fun b' hb' => hci b' (List.mem_cons_of_mem _ hb')) (by omega)

theorem Refines.finishBakes (h : Refines arrivals m s) (hmax : arrivals.length ≤ maxArrivals)
    (hci : ∀ b ∈ s.baking, b.cust < arrivals.length) (hroom : s.ready.length + s.baking.length ≤ queueCap) :
    ∃ m', m.finishBakes = some m' ∧ Refines arrivals m' s.finishBakes := by
  unfold Memory.finishBakes Sim.finishBakes
  rw [h.baking]
  split
  · obtain ⟨m', kept', hm, hr, hkept⟩ := h.finishBakesLoop [] hmax hci hroom
    refine ⟨{ m' with baking := kept' }, ?_, { hr with baking := hkept.symm }⟩
    simp only [hm, Option.bind_eq_bind, Option.bind_some]
  · exact ⟨m, rfl, h⟩

/-! ## The sofa -/

theorem Refines.moveLoop {n : Nat} (h : Refines arrivals m s) (hmax : arrivals.length ≤ maxArrivals)
    (hknown : ∀ x ∈ s.standing, x < arrivals.length) : ∃ m', m.moveLoop n = some m' ∧ Refines arrivals m' (Sim.moveLoop n s) := by
  induction n generalizing m s with
  | zero => exact ⟨m, rfl, h⟩
  | succ n ih =>
    have htime := h.currentTime
    have hfreed := h.lastSeatFreed
    have hempty := h.standing.empty_iff
    have hsize := h.sofa.size
    have hstand := h.standing
    rw [Memory.moveLoop, Sim.moveLoop]
    cases hs : s.standing with
    | nil =>
      rw [hs] at hempty
      rw [if_neg (by rw [hempty]; simp)]
      exact ⟨m, rfl, h⟩
    | cons ci rest =>
      rw [hs] at hempty hstand
      simp only
      by_cases hfull : sofaCapacity ≤ s.sofa.length
      · rw [if_pos hfull, if_neg (by rw [hsize]; omega)]
        exact ⟨m, rfl, h⟩
      have hci : ci < arrivals.length := hknown ci (hs ▸ List.mem_cons_self)
      rw [if_neg hfull, if_pos ⟨by rw [hsize]; omega, by rw [hempty]; rfl⟩, hstand.front]
      simp only [Option.bind_eq_bind, Option.bind_some, h.read hmax hci]
      by_cases hlate : s.currentTime < s.allowedSit ci
      · rw [if_pos hlate, if_pos (by rw [htime, hfreed]; exact hlate)]
        exact ⟨m, rfl, h⟩
      · rw [if_neg hlate, if_neg (by rw [htime, hfreed]; exact hlate)]
        obtain ⟨q, hpop, hq⟩ := hstand.pop
        obtain ⟨q', hpush, hq'⟩ := h.sofa.push (x := ci) (by unfold sofaCapacity at hfull; unfold queueCap; omega)
        have hr₁ : Refines arrivals { m with standing := q, sofa := q' } { s with standing := rest, sofa := s.sofa ++ [ci] } :=
          { h with standing := hq, sofa := hq' }
        obtain ⟨m₂, h₂, hr₂⟩ := hr₁.setCustomer hmax hci (fun c => { c with seated := true, tSat := m.currentTime })
        obtain ⟨m₃, h₃, hr₃⟩ := hr₂.print hmax hci .sits none
        rw [htime] at hr₃
        simp only [hpop, hpush, Option.bind_some, h₂, h₃]
        exact ih hr₃ (fun x hx => hknown x (hs ▸ List.mem_cons_of_mem _ hx))

theorem Refines.request (h : Refines arrivals m s) (hmax : arrivals.length ≤ maxArrivals) (hci : ci < arrivals.length) :
    ∃ m', m.request ci = some m' ∧ Refines arrivals m' (s.request ci) := by
  have htime := h.currentTime
  unfold Memory.request Sim.request
  simp only [h.read hmax hci, Option.bind_eq_bind, Option.bind_some, htime]
  split
  · split
    · obtain ⟨m₁, h₁, hr₁⟩ := h.setCustomer hmax hci (fun c => { c with requested := true, tRequest := s.currentTime })
      obtain ⟨m₂, h₂, hr₂⟩ := hr₁.print hmax hci .requests none
      exact ⟨m₂, by simp only [h₁, Option.bind_some, h₂], hr₂⟩
    · exact ⟨m, rfl, h⟩
  · exact ⟨m, rfl, h⟩

theorem Refines.requestLoop {n : Nat} (h : Refines arrivals m s) (hmax : arrivals.length ≤ maxArrivals)
    (hknown : ∀ x ∈ s.sofa, x < arrivals.length) (hn : n = 0 ∨ s.sofa ≠ []) (hroom : s.sofa.length ≤ queueCap) :
    ∃ m', m.requestLoop n = some m' ∧ Refines arrivals m' (Sim.requestLoop n s) := by
  induction n generalizing m s with
  | zero => exact ⟨m, rfl, h⟩
  | succ n ih =>
    have hsofa := h.sofa
    rw [Memory.requestLoop, Sim.requestLoop]
    cases hs : s.sofa with
    | nil => exact absurd hs (hn.resolve_left (Nat.succ_ne_zero n))
    | cons ci rest =>
      rw [hs] at hsofa hroom
      rw [List.length_cons] at hroom
      obtain ⟨q, hpop, hq⟩ := hsofa.pop
      have hr₁ : Refines arrivals { m with sofa := q } { s with sofa := rest } := { h with sofa := hq }
      obtain ⟨m₂, h₂, hr₂⟩ := hr₁.request hmax (hknown ci (hs ▸ List.mem_cons_self))
      have hsame : (Sim.request { s with sofa := rest } ci).sofa = rest := (request_keeps _ ci).1
      obtain ⟨q', hpush, hq'⟩ := hr₂.sofa.push (x := ci) (by rw [hsame]; omega)
      simp only [hpop, Option.bind_eq_bind, Option.bind_some, h₂, hpush]
      have hr₃ : Refines arrivals { m₂ with sofa := q' }
          { Sim.request { s with sofa := rest } ci with sofa := (Sim.request { s with sofa := rest } ci).sofa ++ [ci] } :=
        { hr₂ with sofa := hq' }
      refine ih hr₃ ?_ (Or.inr (by simp)) ?_
      · intro x hx
        refine hknown x (hs ▸ ?_)
        simp only [hsame, List.mem_append, List.mem_singleton] at hx
        exact hx.elim (List.mem_cons_of_mem _) (fun hx => hx ▸ List.mem_cons_self)
      · simp only [hsame, List.length_append, List.length_singleton]
        omega

/-! ## Tasks that begin -/

theorem Refines.acceptLoop {n : Nat} (h : Refines arrivals m s) (hmax : arrivals.length ≤ maxArrivals)
    (hknown : ∀ x ∈ s.ready, x < arrivals.length) : ∃ m', m.acceptLoop n = some m' ∧ Refines arrivals m' (Sim.acceptLoop n s) := by
  induction n generalizing m s with
  | zero => exact ⟨m, rfl, h⟩
  | succ n ih =>
    have htime := h.currentTime
    have hchef := h.getFreeChef
    have hempty := h.ready.empty_iff
    have hready := h.ready
    rw [Memory.acceptLoop, Sim.acceptLoop]
    by_cases hbusy : s.registerBusy = true
    · rw [if_pos hbusy, if_pos (by rwa [h.registerBusy])]
      exact ⟨m, rfl, h⟩
    rw [if_neg hbusy, if_neg (by rwa [h.registerBusy])]
    by_cases h0 : s.getFreeChef = 0
    · rw [if_pos h0, if_pos (by rwa [hchef])]
      exact ⟨m, rfl, h⟩
    rw [if_neg h0, if_neg (by rwa [hchef])]
    cases hs : s.ready with
    | nil =>
      rw [hs] at hempty
      rw [if_pos (by rw [hempty]; rfl)]
      exact ⟨m, rfl, h⟩
    | cons ci rest =>
      rw [hs] at hempty hready
      have hci : ci < arrivals.length := hknown ci (hs ▸ List.mem_cons_self)
      rw [if_neg (by rw [hempty]; simp), hready.front]
      simp only [Option.bind_eq_bind, Option.bind_some, h.read hmax hci]
      by_cases hpay : s.currentTime < (s.customers ci).tPayTime + tCustomerAction
      · rw [if_pos hpay, if_pos (by rwa [htime])]
        exact ⟨m, rfl, h⟩
      · rw [if_neg hpay, if_neg (by rwa [htime])]
        obtain ⟨q, hpop, hq⟩ := hready.pop
        have hr₁ : Refines arrivals { m with ready := q } { s with ready := rest } := { h with ready := hq }
        obtain ⟨m₂, h₂, hr₂⟩ := hr₁.setCustomer hmax hci (fun c =>
          { c with acceptStarted := true, tAcceptStart := m.currentTime, tAcceptEnd := m.currentTime + tChefAction })
        rw [htime] at hr₂
        have hread := hr₂.read hmax hci
        have hr₃ := (hr₂.setBusy.setChef s.getFreeChef false).setAccepting
          ⟨ci, s.getFreeChef, ((Sim.setCustomer { s with ready := rest } ci (fun c =>
            { c with acceptStarted := true, tAcceptStart := s.currentTime, tAcceptEnd := s.currentTime + tChefAction })).customers
              ci).tAcceptEnd⟩
        obtain ⟨m₄, h₄, hr₄⟩ := hr₃.print hmax hci .accepts (some s.getFreeChef)
        simp only [hpop, Option.bind_some, h₂, hchef, Memory.setChef, hread]
        simp only [Memory.setChef] at h₄
        rw [h₄, Option.bind_some]
        exact ih hr₄ (fun x hx => hknown x (hs ▸ List.mem_cons_of_mem _ hx))

/-- Turning the sofa copies it, and leaves it as it was. -/
theorem rotateLoop_holds (l r temp : List Nat) {q : Queue} (h : q.Holds (l ++ r)) :
    ∃ q', Memory.rotateLoop l.length q temp = some (temp ++ l, q') ∧ q'.Holds (r ++ l) := by
  induction l generalizing q r temp with
  | nil =>
    rw [List.append_nil, List.append_nil]
    exact ⟨q, rfl, h⟩
  | cons ci l ih =>
    rw [List.cons_append] at h
    obtain ⟨q₁, hpop, h₁⟩ := h.pop
    have hroom := h.room
    rw [List.length_cons] at hroom
    obtain ⟨q₂, hpush, h₂⟩ := h₁.push (x := ci) (by omega)
    rw [List.append_assoc] at h₂
    obtain ⟨q₃, hrot, h₃⟩ := ih (r ++ [ci]) (temp ++ [ci]) h₂
    rw [List.append_assoc, List.singleton_append] at hrot h₃
    refine ⟨q₃, ?_, h₃⟩
    simp only [List.length_cons, Memory.rotateLoop, hpop, hpush, Option.bind_eq_bind, Option.bind_some, hrot]

theorem Refines.findTarget (h : Refines arrivals m s) (hmax : arrivals.length ≤ maxArrivals) {temp : List Nat}
    (hknown : ∀ x ∈ temp, x < arrivals.length) : m.findTarget temp = some (temp.find? s.eligible) := by
  induction temp with
  | nil => rfl
  | cons ci temp ih =>
    have hel : ((s.customers ci).requested && !(s.customers ci).baking && !(s.customers ci).baked &&
        decide ((s.customers ci).tRequest + tCustomerAction ≤ m.currentTime)) = s.eligible ci := by
      rw [h.currentTime]
      rfl
    simp only [Memory.findTarget, h.read hmax (hknown ci List.mem_cons_self), Option.bind_eq_bind, Option.bind_some, hel]
    cases he : s.eligible ci with
    | true => rw [if_pos rfl, List.find?_cons_of_pos he]
    | false =>
      rw [if_neg (by simp), List.find?_cons_of_neg (by simp [he])]
      exact ih (fun x hx => hknown x (List.mem_cons_of_mem _ hx))

theorem Refines.bakeLoop {n : Nat} (h : Refines arrivals m s) (hmax : arrivals.length ≤ maxArrivals)
    (hknown : ∀ x ∈ s.sofa, x < arrivals.length) : ∃ m', m.bakeLoop n = some m' ∧ Refines arrivals m' (Sim.bakeLoop n s) := by
  induction n generalizing m s with
  | zero => exact ⟨m, rfl, h⟩
  | succ n ih =>
    have htime := h.currentTime
    have hchef := h.getFreeChef
    rw [Memory.bakeLoop, Sim.bakeLoop]
    by_cases hoven : s.ovensAvailable ≤ 0
    · rw [if_pos hoven, if_pos (by rwa [h.ovensAvailable])]
      exact ⟨m, rfl, h⟩
    rw [if_neg hoven, if_neg (by rwa [h.ovensAvailable])]
    by_cases h0 : s.getFreeChef = 0
    · rw [if_pos h0, if_pos (by rwa [hchef])]
      exact ⟨m, rfl, h⟩
    rw [if_neg h0, if_neg (by rwa [hchef])]
    by_cases hnone : s.sofa = []
    · rw [hnone, if_pos (by rw [h.sofa.size, hnone]; rfl)]
      exact ⟨m, rfl, h⟩
    have hsize : m.sofa.size ≠ 0 := by
      rw [h.sofa.size]
      exact fun he => hnone (List.length_eq_zero_iff.mp (Int.natCast_eq_zero.mp he))
    obtain ⟨q, hrot, hq⟩ := rotateLoop_holds s.sofa [] [] (by rw [List.append_nil]; exact h.sofa)
    rw [List.nil_append] at hrot hq
    have hr₁ : Refines arrivals { m with sofa := q } s := { h with sofa := hq }
    rw [if_neg hsize, h.sofa.toNat_size, hrot]
    simp only [Option.bind_eq_bind, Option.bind_some, hr₁.findTarget hmax hknown]
    cases hf : s.sofa.find? s.eligible with
    | none => exact ⟨_, rfl, hr₁⟩
    | some ci =>
      have hci : ci < arrivals.length := hknown ci (List.mem_of_find?_eq_some hf)
      obtain ⟨m₂, h₂, hr₂⟩ := hr₁.setCustomer hmax hci (fun c =>
        { c with baking := true, tBakeStart := m.currentTime, tBakeEnd := m.currentTime + tChefAction })
      rw [htime] at hr₂
      have hread := hr₂.read hmax hci
      have hr₃ := (hr₂.addTask ⟨ci, s.getFreeChef, ((s.setCustomer ci (fun c =>
        { c with baking := true, tBakeStart := s.currentTime, tBakeEnd := s.currentTime + tChefAction })).customers
          ci).tBakeEnd⟩).setChef s.getFreeChef false
      obtain ⟨m₄, h₄, hr₄⟩ := hr₃.print hmax hci .bakes (some s.getFreeChef)
      simp only [h₂, hr₁.getFreeChef, Option.bind_some, hread, h₄]
      exact ih hr₄ hknown

/-! ## A second -/

theorem Refines.stops (h : Refines arrivals m s) : m.stops = s.stops arrivals := by
  unfold Memory.stops Sim.stops
  rw [h.registerBusy, h.baking, h.peopleInside, h.arrivalIdx, h.numArrivals, h.standing.empty_iff, h.sofa.empty_iff, h.ready.empty_iff]

variable {st : Nat → List Nat} {ta tp tb tr : Int}

/-- Whoever is at a stage is one of the arrivals. -/
theorem Inv.known (h : Inv arrivals s st ta tp tb tr) {k x : Nat} (hk : k < 7) (hx : x ∈ st k) : x < arrivals.length :=
  Nat.lt_of_lt_of_le (h.placed.lt x (mem_reached.mpr ⟨k, Nat.zero_le _, hk, hx⟩)) h.placed.le

theorem Inv.known_sofa (h : Inv arrivals s st ta tp tb tr) : ∀ x ∈ s.sofa, x < arrivals.length := by
  intro x hx
  rw [h.queues.sofa] at hx
  simp only [List.mem_append] at hx
  rcases hx with hx | hx | hx | hx | hx
  · exact h.known (by omega) hx
  · exact h.known (by omega) hx
  · exact h.known (by omega) hx
  · exact h.known (by omega) hx
  · exact h.known (by omega) hx

/-- At most four customers wait to pay or for a cake in an oven: they are on the sofa. -/
theorem Inv.served_le (h : Inv arrivals s st ta tp tb tr) : s.ready.length + s.baking.length ≤ 4 := by
  have hseats := h.counts.seats
  have hbaking : s.baking.length = (st 3).length := by rw [← h.queues.baking, List.length_map]
  rw [h.queues.sofa] at hseats
  simp only [List.length_append] at hseats
  rw [h.queues.ready, hbaking]
  omega

theorem Inv.standing_le (h : Inv arrivals s st ta tp tb tr) : s.standing.length ≤ s.arrivalIdx := by
  have hsub : (st 0).Subperm (List.range s.arrivalIdx) :=
    List.subperm_of_subset (h.placed.stage_nodup (by omega))
      (fun x hx => List.mem_range.mpr (h.placed.lt x (mem_reached.mpr ⟨0, Nat.le_refl _, by omega, hx⟩)))
  have hle := hsub.length_le
  rw [List.length_range] at hle
  rw [h.queues.standing]
  exact hle

theorem Refines.processArrivals (h : Refines arrivals m s) (hmax : arrivals.length ≤ maxArrivals) (hi : Inv arrivals s st ta tp tb tr) :
    ∃ m', m.processArrivals = some m' ∧ Refines arrivals m' (s.processArrivals arrivals) := by
  unfold Memory.processArrivals
  rw [h.numArrivals]
  exact h.arrivalsLoop hmax hi.standing_le

theorem Refines.finishTasks {st' : Nat → List Nat} {ta' tp' tb' tr' : Int} (h : Refines arrivals m s)
    (hmax : arrivals.length ≤ maxArrivals) (hi : Inv arrivals s st ta tp tb tr) (hi' : Inv arrivals s.finishAccept st' ta' tp' tb' tr')
    (junk : Queue) : ∃ m', m.finishTasks junk = some m' ∧ Refines arrivals m' s.finishTasks := by
  obtain ⟨m₁, h₁, r₁⟩ := h.finishAccept hmax
    (fun hb => hi.known (by omega : 5 < 7) (hi.payer_mem hb ▸ List.mem_singleton_self _)) junk
  have hfew := hi'.served_le
  obtain ⟨m₂, h₂, r₂⟩ := r₁.finishBakes hmax (fun b hb => hi'.known (by omega : 3 < 7) (hi'.task_mem hb)) (by unfold queueCap; omega)
  refine ⟨m₂, ?_, r₂⟩
  simp only [Memory.finishTasks, h₁, h₂, Option.bind_eq_bind, Option.bind_some]

theorem Refines.moveStanding (h : Refines arrivals m s) (hmax : arrivals.length ≤ maxArrivals) (hi : Inv arrivals s st ta tp tb tr) :
    ∃ m', m.moveStanding = some m' ∧ Refines arrivals m' s.moveStanding := by
  unfold Memory.moveStanding
  rw [h.standing.toNat_size]
  exact h.moveLoop hmax (fun x hx => hi.known (by omega : 0 < 7) (hi.queues.standing ▸ hx))

theorem Refines.makeRequests (h : Refines arrivals m s) (hmax : arrivals.length ≤ maxArrivals) (hi : Inv arrivals s st ta tp tb tr) :
    ∃ m', m.makeRequests = some m' ∧ Refines arrivals m' s.makeRequests := by
  unfold Memory.makeRequests
  rw [h.sofa.toNat_size]
  refine h.requestLoop hmax hi.known_sofa ?_ h.sofa.room
  cases s.sofa with
  | nil => exact Or.inl rfl
  | cons x l => exact Or.inr (by simp)

theorem Refines.scheduleAccepts (h : Refines arrivals m s) (hmax : arrivals.length ≤ maxArrivals) (hi : Inv arrivals s st ta tp tb tr) :
    ∃ m', m.scheduleAccepts = some m' ∧ Refines arrivals m' s.scheduleAccepts := by
  unfold Memory.scheduleAccepts
  rw [h.ready.toNat_size]
  exact h.acceptLoop hmax (fun x hx => hi.known (by omega : 4 < 7) (hi.queues.ready ▸ hx))

theorem Refines.scheduleBakes (h : Refines arrivals m s) (hmax : arrivals.length ≤ maxArrivals) (hi : Inv arrivals s st ta tp tb tr) :
    ∃ m', m.scheduleBakes = some m' ∧ Refines arrivals m' s.scheduleBakes := by
  unfold Memory.scheduleBakes
  rw [h.ovensAvailable]
  exact h.bakeLoop hmax hi.known_sofa

/-- A second over the arrays is one over the lists. -/
theorem Refines.tick {input : List Arrival} (hp : Point input .arrive s) (h : Refines (Bakery.readInput input) m s)
    (hmax : (Bakery.readInput input).length ≤ maxArrivals) (junk : Queue) :
    ∃ m', m.tick junk = some m' ∧ Refines (Bakery.readInput input) m' (s.tick (Bakery.readInput input)) := by
  obtain ⟨-, st₀, i₀⟩ := hp.holds
  obtain ⟨m₁, h₁, r₁⟩ := h.processArrivals hmax i₀
  have p₁ : Point input .finish _ := .arrive hp
  obtain ⟨-, st₁, i₁⟩ := p₁.holds
  obtain ⟨-, st₁', i₁'⟩ := finishAccept_holds p₁.holds
  obtain ⟨m₂, h₂, r₂⟩ := r₁.finishTasks hmax i₁ i₁' junk
  obtain ⟨-, st₂, i₂⟩ := (Point.finish p₁).holds
  obtain ⟨m₃, h₃, r₃⟩ := r₂.moveStanding hmax i₂
  obtain ⟨-, st₃, i₃⟩ := (Point.move (.finish p₁)).holds
  obtain ⟨m₄, h₄, r₄⟩ := r₃.makeRequests hmax i₃
  obtain ⟨-, st₄, i₄⟩ := (Point.request (.move (.finish p₁))).holds
  obtain ⟨m₅, h₅, r₅⟩ := r₄.scheduleAccepts hmax i₄
  obtain ⟨-, st₅, i₅⟩ := (Point.accept (.request (.move (.finish p₁)))).holds
  obtain ⟨m₆, h₆, r₆⟩ := r₅.scheduleBakes hmax i₅
  refine ⟨m₆, ?_, r₆⟩
  simp only [Memory.tick, h₁, h₂, h₃, h₄, h₅, h₆, Option.bind_eq_bind, Option.bind_some]

/-- The loop over the arrays ends when the one over the lists does. -/
theorem Refines.mainLoop {input : List Arrival} {n : Nat} (hp : Point input .arrive s) (h : Refines (Bakery.readInput input) m s)
    (hmax : (Bakery.readInput input).length ≤ maxArrivals) (junk : Queue) :
    ∃ m' ended, Memory.mainLoop junk n m = some (m', ended) ∧
      match Sim.mainLoop (Bakery.readInput input) n s with
      | some t => ended = true ∧ Refines (Bakery.readInput input) m' t
      | none => ended = false := by
  induction n generalizing m s with
  | zero => exact ⟨m, false, rfl, rfl⟩
  | succ n ih =>
    obtain ⟨m', hm, hr⟩ := h.tick hp hmax junk
    have hcheck := hp.tick
    rw [Memory.mainLoop, Sim.mainLoop, hm]
    generalize s.tick (Bakery.readInput input) = t at hr hcheck
    simp only [Option.bind_eq_bind, Option.bind_some, hr.stops]
    cases hstop : t.stops (Bakery.readInput input) with
    | true =>
      rw [if_pos rfl, if_pos rfl]
      exact ⟨m', true, rfl, rfl, hr⟩
    | false =>
      have hnext : Refines (Bakery.readInput input) m'.advance t.advance := { hr with currentTime := congrArg (· + 1) hr.currentTime }
      simp only [Bool.false_eq_true, if_false]
      exact ih (.again hcheck hstop) hnext

end Moves

end Xv6SnifferBakery.Bakery
