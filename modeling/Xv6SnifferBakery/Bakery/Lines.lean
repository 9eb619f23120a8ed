import Xv6SnifferBakery.Bakery.Run

/-!
# Who prints what

Each function of the loop prints lines of one kind only. So what a second adds to the lines of a kind is what one of its functions
adds.
-/

namespace Xv6SnifferBakery.Bakery

/-- Lines have been printed, all of one kind. -/
def Prints (act : Act) (s t : Sim) : Prop := ∃ l, t.out = s.out ++ l ∧ ∀ e ∈ l, e.act = act

section Prints

variable {act act' : Act} {s t u : Sim}

theorem Prints.of_out (h : t.out = s.out) : Prints act s t := ⟨[], by rw [h, List.append_nil], by simp⟩

theorem Prints.trans (h : Prints act s t) (h' : Prints act t u) : Prints act s u := by
  obtain ⟨l, hl, ha⟩ := h
  obtain ⟨l', hl', ha'⟩ := h'
  refine ⟨l ++ l', by rw [hl', hl, List.append_assoc], ?_⟩
  intro e he
  exact (List.mem_append.mp he).elim (ha e) (ha' e)

theorem Moved.prints {ci : Nat} {f : Customer → Customer} (h : Moved s t ci act f) : Prints act s t := by
  obtain ⟨chef, ho⟩ := h.out
  exact ⟨_, ho, by simp⟩

/-- The lines of the other kinds are the same. -/
theorem Prints.history (h : Prints act s t) (hne : act ≠ act') : history t.out act' = history s.out act' := by
  obtain ⟨l, hl, ha⟩ := h
  have hnone : Bakery.history l act' = [] := by
    refine List.filterMap_eq_nil_iff.mpr (fun e he => if_neg ?_)
    rw [ha e he]
    exact hne
  rw [hl, Bakery.history, List.filterMap_append]
  exact (congrArg _ hnone).trans (List.append_nil _)

end Prints

/-! ## The functions of the loop -/

variable {arrivals : List Arrival}

theorem arrivalsLoop_prints (n : Nat) (s : Sim) : Prints .enters s (Sim.arrivalsLoop arrivals n s) := by
  induction n generalizing s with
  | zero => exact .of_out rfl
  | succ n ih =>
    rw [Sim.arrivalsLoop]
    cases arrivals[s.arrivalIdx]? with
    | none => exact .of_out rfl
    | some a =>
      simp only
      split
      · exact .of_out rfl
      split
      · exact Prints.trans (.of_out rfl) (ih { s with arrivalIdx := s.arrivalIdx + 1 })
      · exact enter_moved.prints.trans (ih s.enter)

theorem finishAccept_prints (s : Sim) : Prints .leaves s s.finishAccept := by
  by_cases hc : s.registerBusy = true ∧ s.accepting.endTime = s.currentTime
  · exact (leave_moved hc.1 hc.2).prints
  · unfold Sim.finishAccept
    rw [if_neg hc]
    exact .of_out rfl

theorem finishBakesLoop_prints (bs kept : List Task) (s : Sim) : Prints .pays s (Sim.finishBakesLoop bs s kept).1 := by
  induction bs generalizing kept s with
  | nil => exact .of_out rfl
  | cons b bs ih =>
    rw [Sim.finishBakesLoop]
    split
    · have hone : Prints .pays s (s.cakeReady b s.baking) := cakeReady_moved.prints
      exact hone.trans (ih kept (s.bakeDone b))
    · exact ih (kept ++ [b]) s

theorem finishBakes_prints (s : Sim) : Prints .pays s s.finishBakes := by
  unfold Sim.finishBakes
  split
  · exact finishBakesLoop_prints s.baking [] s
  · exact .of_out rfl

theorem moveLoop_prints (n : Nat) (s : Sim) : Prints .sits s (Sim.moveLoop n s) := by
  induction n generalizing s with
  | zero => exact .of_out rfl
  | succ n ih =>
    rw [Sim.moveLoop]
    cases s.standing with
    | nil => exact .of_out rfl
    | cons ci rest =>
      simp only
      split
      · exact .of_out rfl
      split
      · exact .of_out rfl
      · exact sit_moved.prints.trans (ih _)

theorem request_prints (s : Sim) (ci : Nat) : Prints .requests s (s.request ci) := by
  unfold Sim.request
  split
  · split
    · exact asked_moved.prints
    · exact .of_out rfl
  · exact .of_out rfl

theorem makeRequests_prints (s : Sim) : Prints .requests s s.makeRequests := by
  rw [makeRequests_eq]
  generalize s.sofa = l
  induction l generalizing s with
  | nil => exact .of_out rfl
  | cons ci l ih => exact (request_prints s ci).trans (ih _)

theorem acceptLoop_prints (n : Nat) (s : Sim) : Prints .accepts s (Sim.acceptLoop n s) := by
  induction n generalizing s with
  | zero => exact .of_out rfl
  | succ n ih =>
    rw [Sim.acceptLoop]
    split
    · exact .of_out rfl
    split
    · exact .of_out rfl
    cases s.ready with
    | nil => exact .of_out rfl
    | cons ci rest =>
      simp only
      split
      · exact .of_out rfl
      · exact startAccept_moved.prints.trans (ih _)

theorem bakeLoop_prints (n : Nat) (s : Sim) : Prints .bakes s (Sim.bakeLoop n s) := by
  induction n generalizing s with
  | zero => exact .of_out rfl
  | succ n ih =>
    rw [Sim.bakeLoop]
    split
    · exact .of_out rfl
    split
    · exact .of_out rfl
    cases s.sofa.find? s.eligible with
    | none => exact .of_out rfl
    | some ci => exact startBake_moved.prints.trans (ih _)

end Xv6SnifferBakery.Bakery
