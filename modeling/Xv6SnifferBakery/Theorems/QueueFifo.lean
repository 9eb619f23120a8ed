import Xv6SnifferBakery.Bakery.Refinement

/-!
# The circular queue

`queue_t` goes round an array of 2048 entries, and an empty queue has the same head and tail as a full one. However often it has gone
round, it is a list: `q_push` appends and `q_pop` removes the first. The loops that turn the sofa or rebuild it keep the order.
-/

namespace Xv6SnifferBakery.Bakery

/-! ## Calls -/

/-- The calls over a list, as long as no push finds it full and no pop finds it empty. -/
def listRun : List QueueOp → List Nat → Option (List Nat × List Nat)
  | [], l => some ([], l)
  | .push v :: ops, l => if l.length < queueCap then listRun ops (l ++ [v]) else none
  | .pop :: _, [] => none
  | .pop :: ops, x :: l => (listRun ops l).map (fun r => (x :: r.1, r.2))

namespace Queue

variable {q : Queue} {l : List Nat}

/-- Any number of calls, from any position in the array. -/
theorem Holds.run {ops : List QueueOp} {popped l' : List Nat} (h : q.Holds l) (hl : listRun ops l = some (popped, l')) :
    ∃ q', q.run ops = some (popped, q') ∧ q'.Holds l' := by
  induction ops generalizing q l popped with
  | nil =>
    obtain ⟨rfl, rfl⟩ := Prod.mk.inj (Option.some.inj hl)
    exact ⟨q, rfl, h⟩
  | cons op ops ih =>
    cases op with
    | push v =>
      rw [listRun] at hl
      by_cases hroom : l.length < queueCap
      · rw [if_pos hroom] at hl
        obtain ⟨q₁, hpush, h₁⟩ := h.push hroom v
        obtain ⟨q', hrun, h'⟩ := ih h₁ hl
        refine ⟨q', ?_, h'⟩
        rw [Queue.run, hpush]
        exact hrun
      · rw [if_neg hroom] at hl
        cases hl
    | pop =>
      cases l with
      | nil => cases hl
      | cons x l =>
        rw [listRun] at hl
        obtain ⟨⟨popped₁, l₁⟩, hrest, heq⟩ := Option.map_eq_some_iff.mp hl
        obtain ⟨rfl, rfl⟩ := Prod.mk.inj heq
        obtain ⟨q₁, hpop, h₁⟩ := h.pop
        obtain ⟨q', hrun, h'⟩ := ih h₁ hrest
        refine ⟨q', ?_, h'⟩
        simp only [Queue.run, hpop, hrun, Option.bind_eq_bind, Option.bind_some]

/-- Turning the queue once. -/
theorem Holds.turn (h : q.Holds l) : ∃ q', Memory.rotateLoop q.size.toNat q [] = some (l, q') ∧ q'.Holds l := by
  rw [h.toNat_size]
  exact rotateLoop_holds l [] [] (by rwa [List.append_nil])

/-- Rebuilding the queue without an entry. -/
theorem Holds.rebuild (h : q.Holds l) (ci : Nat) (junk : Queue) :
    ∃ q', Memory.rebuildLoop ci q.size.toNat q junk.init = some q' ∧ q'.Holds (l.filter (fun x => x ≠ ci)) := by
  rw [h.toNat_size]
  exact rebuildLoop_holds ci (Nat.le_refl _) h junk.holds_init (by rw [List.length_nil, Nat.zero_add]; exact h.room)

end Queue

/-! ## The loops over the sofa -/

namespace Memory

variable {m : Memory} {l r : List Nat} {ci : Nat}

theorem setCustomer_sofa (hci : ci < maxArrivals) (f : Customer → Customer) :
    ∃ m', m.setCustomer ci f = some m' ∧ m'.sofa = m.sofa := by
  simp only [Memory.setCustomer, readAt_of_lt hci, writeAt_of_lt hci, Option.bind_eq_bind, Option.bind_some]
  exact ⟨_, rfl, rfl⟩

theorem print_sofa (hci : ci < maxArrivals) (act : Act) (chef : Option Nat) :
    ∃ m', m.print act ci chef = some m' ∧ m'.sofa = m.sofa := by
  simp only [Memory.print, readAt_of_lt hci, Option.bind_eq_bind, Option.bind_some]
  exact ⟨_, rfl, rfl⟩

theorem request_sofa (hci : ci < maxArrivals) : ∃ m', m.request ci = some m' ∧ m'.sofa = m.sofa := by
  simp only [Memory.request, readAt_of_lt hci, Option.bind_eq_bind, Option.bind_some]
  split
  · split
    · obtain ⟨m₁, h₁, hs₁⟩ := m.setCustomer_sofa hci (fun c => { c with requested := true, tRequest := m.currentTime })
      obtain ⟨m₂, h₂, hs₂⟩ := m₁.print_sofa hci .requests none
      rw [h₁, Option.bind_some]
      exact ⟨m₂, h₂, hs₂.trans hs₁⟩
    · exact ⟨m, rfl, rfl⟩
  · exact ⟨m, rfl, rfl⟩

/-- In the middle of the loop: those who have been asked, `r`, have gone behind those who have not. -/
theorem requestLoop_sofa (h : m.sofa.Holds (l ++ r)) (hci : ∀ ci ∈ l, ci < maxArrivals) :
    ∃ m', m.requestLoop l.length = some m' ∧ m'.sofa.Holds (r ++ l) := by
  induction l generalizing m r with
  | nil => exact ⟨m, rfl, by rwa [List.append_nil]⟩
  | cons ci l ih =>
    rw [List.cons_append] at h
    have hroom := h.room
    rw [List.length_cons] at hroom
    obtain ⟨q₁, hpop, h₁⟩ := h.pop
    obtain ⟨m₁, hreq, hsofa⟩ := request_sofa (m := { m with sofa := q₁ }) (hci ci List.mem_cons_self)
    obtain ⟨q₂, hpush, h₂⟩ := h₁.push (x := ci) (by omega)
    rw [List.append_assoc] at h₂
    obtain ⟨m', hrest, h'⟩ := ih (m := { m₁ with sofa := q₂ }) (r := r ++ [ci]) h₂ (fun x hx => hci x (List.mem_cons_of_mem _ hx))
    rw [List.append_assoc, List.singleton_append] at h'
    refine ⟨m', ?_, h'⟩
    simp only [List.length_cons, Memory.requestLoop, hpop, hreq, hsofa, hpush, Option.bind_eq_bind, Option.bind_some, hrest]

theorem makeRequests_sofa (h : m.sofa.Holds l) (hci : ∀ ci ∈ l, ci < maxArrivals) :
    ∃ m', m.makeRequests = some m' ∧ m'.sofa.Holds l := by
  unfold Memory.makeRequests
  rw [h.toNat_size]
  exact requestLoop_sofa (r := []) (by rwa [List.append_nil]) hci

theorem findTarget_mem {temp : List Nat} (hci : ∀ ci ∈ temp, ci < maxArrivals) :
    ∃ o, m.findTarget temp = some o ∧ ∀ ci ∈ o, ci ∈ temp := by
  induction temp with
  | nil => exact ⟨none, rfl, fun ci hmem => by cases hmem⟩
  | cons ci temp ih =>
    simp only [Memory.findTarget, readAt_of_lt (hci ci List.mem_cons_self), Option.bind_eq_bind, Option.bind_some]
    split
    · refine ⟨some ci, rfl, fun x hx => ?_⟩
      obtain rfl := Option.some.inj hx
      exact List.mem_cons_self
    · obtain ⟨o, ho, hmem⟩ := ih (fun x hx => hci x (List.mem_cons_of_mem _ hx))
      exact ⟨o, ho, fun x hx => List.mem_cons_of_mem _ (hmem x hx)⟩

theorem bakeLoop_sofa {n : Nat} (h : m.sofa.Holds l) (hci : ∀ ci ∈ l, ci < maxArrivals) :
    ∃ m', m.bakeLoop n = some m' ∧ m'.sofa.Holds l := by
  induction n generalizing m with
  | zero => exact ⟨m, rfl, h⟩
  | succ n ih =>
    rw [Memory.bakeLoop]
    split
    · exact ⟨m, rfl, h⟩
    split
    · exact ⟨m, rfl, h⟩
    split
    · exact ⟨m, rfl, h⟩
    obtain ⟨q₁, hturn, h₁⟩ := h.turn
    obtain ⟨target, htarget, hmem⟩ := findTarget_mem (m := { m with sofa := q₁ }) hci
    simp only [hturn, htarget, Option.bind_eq_bind, Option.bind_some]
    generalize hm₁ : ({ m with sofa := q₁ } : Memory) = m₁
    have hs₁ : m₁.sofa = q₁ := by rw [← hm₁]
    cases target with
    | none => exact ⟨m₁, rfl, hs₁ ▸ h₁⟩
    | some ci =>
      have hlt := hci ci (hmem ci rfl)
      obtain ⟨m₂, h₂, hs₂⟩ := m₁.setCustomer_sofa hlt (fun c =>
        { c with baking := true, tBakeStart := m.currentTime, tBakeEnd := m.currentTime + tChefAction })
      obtain ⟨m₃, h₃, hs₃⟩ := print_sofa (m := ({ m₂ with
        baking := m₂.baking ++ [Task.mk ci m₁.getFreeChef (m₂.customers ci).tBakeEnd],
        ovensAvailable := m₂.ovensAvailable - 1 } : Memory).setChef m₁.getFreeChef false) hlt .bakes (some m₁.getFreeChef)
      obtain ⟨m', hrest, h'⟩ := ih (m := m₃) ((hs₃.trans (hs₂.trans hs₁)) ▸ h₁)
      refine ⟨m', ?_, h'⟩
      simp only [h₂, readAt_of_lt hlt, Option.bind_some]
      rw [h₃, Option.bind_some, hrest]

theorem finishAccept_sofa (h : m.sofa.Holds l) (hci : m.accepting.cust < maxArrivals) (junk : Queue) :
    ∃ m', m.finishAccept junk = some m' ∧ m'.sofa.Holds
      (if m.registerBusy ∧ m.accepting.endTime = m.currentTime then l.filter (fun x => x ≠ m.accepting.cust) else l) := by
  unfold Memory.finishAccept
  split
  · obtain ⟨m₁, h₁, hs₁⟩ := m.setCustomer_sofa hci (fun c =>
      { c with
        tAcceptEnd := m.currentTime, acceptStarted := false, paid := true, tLeave := m.currentTime, done := true })
    obtain ⟨m₂, h₂, hs₂⟩ := m₁.print_sofa hci .leaves none
    obtain ⟨q, hrebuild, h'⟩ := h.rebuild m.accepting.cust junk
    rw [← hs₁, ← hs₂] at hrebuild
    simp only [h₁, h₂, Option.bind_eq_bind, Option.bind_some]
    change ∃ m', (Memory.rebuildLoop _ m₂.sofa.size.toNat m₂.sofa _).bind _ = some m' ∧ _
    rw [hrebuild]
    exact ⟨_, rfl, h'⟩
  · exact ⟨m, rfl, h⟩

end Memory

/-- For every queue that calls from `q_init` on lead to, with never more than 2048 entries and no pop of an empty queue: the pops have
returned what those of a list do, and the queue holds that list, in order, from its head on. Turning it once, as `make_requests_from_sofa`
and `schedule_bakes` do, leaves the list as it is, and the rebuilding of `finish_tasks_at_time` leaves the others in their order. The
copy that `schedule_bakes` makes has room for the four of a sofa. -/
theorem queue_is_fifo (q : Queue) (ops : List QueueOp) (popped l : List Nat) (hl : listRun ops [] = some (popped, l)) :
    ∃ q', q.init.run ops = some (popped, q') ∧ q'.Holds l ∧ q'.empty = l.isEmpty ∧
      (∃ turned, Memory.rotateLoop q'.size.toNat q' [] = some (l, turned) ∧ turned.Holds l) ∧
      (∀ (ci : Nat) (junk : Queue), ∃ rebuilt, Memory.rebuildLoop ci q'.size.toNat q' junk.init = some rebuilt ∧
        rebuilt.Holds (l.filter (fun x => x ≠ ci))) ∧
      ∀ m : Memory, m.sofa = q' → (∀ ci ∈ l, ci < maxArrivals) →
        (∃ m', m.makeRequests = some m' ∧ m'.sofa.Holds l) ∧
        (l.length ≤ sofaCapacity → ∃ m', m.scheduleBakes = some m' ∧ m'.sofa.Holds l) ∧
        ∀ junk : Queue, m.accepting.cust < maxArrivals → ∃ m', m.finishAccept junk = some m' ∧ m'.sofa.Holds
          (if m.registerBusy ∧ m.accepting.endTime = m.currentTime then l.filter (fun x => x ≠ m.accepting.cust) else l) := by
  obtain ⟨q', hrun, h⟩ := q.holds_init.run hl
  refine ⟨q', hrun, h, h.empty_iff, h.turn, h.rebuild, ?_⟩
  rintro m rfl hci
  exact ⟨Memory.makeRequests_sofa h hci, fun _ => Memory.bakeLoop_sofa h hci, fun junk hcust => Memory.finishAccept_sofa h hcust junk⟩

/-- A queue with something else in it before `q_init`. -/
theorem queue_is_fifo_three :
    ∃ q', (⟨fun _ => 7, 2047, 3, 4⟩ : Queue).init.run [.push 5, .push 6, .pop, .push 8] = some ([5], q') ∧ q'.Holds [6, 8] := by
  obtain ⟨q', hrun, h, -⟩ := queue_is_fifo ⟨fun _ => 7, 2047, 3, 4⟩ [.push 5, .push 6, .pop, .push 8] [5] [6, 8] (by decide)
  exact ⟨q', hrun, h⟩

end Xv6SnifferBakery.Bakery
