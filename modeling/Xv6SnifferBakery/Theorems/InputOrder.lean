import Xv6SnifferBakery.Theorems.InputBounds

/-!
# The order of the input

`qsort` is not stable, and a customer is known by an index into the sorted array. Arrivals that `cmp_arrival` does not tell apart are
equal, so there is one way to sort: inputs with the same arrivals make the same run, whatever `qsort` does.
-/

namespace Xv6SnifferBakery.Bakery

/-! ## Sorting -/

/-- What `qsort` promises: the same entries, sorted by the comparison. -/
def Sorts {α : Type} (cmp : α → α → Int) (sort : List α → List α) : Prop :=
  ∀ l, (sort l).Perm l ∧ (sort l).Pairwise (fun x y => cmp x y ≤ 0)

theorem cmpArrival_le_zero {x y : Arrival} : cmpArrival x y ≤ 0 ↔ x.le y = true := by
  unfold cmpArrival Arrival.le
  rw [decide_eq_true_eq]
  split
  · split <;> omega
  · split
    · split <;> omega
    · omega

/-- Arrivals that are not told apart are equal. -/
theorem Arrival.eq_of_le {x y : Arrival} (hxy : x.le y = true) (hyx : y.le x = true) : x = y := by
  simp only [Arrival.le, decide_eq_true_eq] at hxy hyx
  cases x
  cases y
  simp only [Arrival.mk.injEq] at hxy hyx ⊢
  omega

theorem readInput_perm (input : List Arrival) : (readInput input).Perm input := List.perm_insertionSort _ input

theorem sorts_readInput : Sorts cmpArrival readInput := by
  intro l
  exact ⟨readInput_perm l, (readInput_pairwise l).imp cmpArrival_le_zero.mpr⟩

/-- Lists with the same entries that are both sorted are one list. -/
theorem eq_of_sorted {l l' : List Arrival} (hperm : l.Perm l') (h : l.Pairwise (fun x y => cmpArrival x y ≤ 0))
    (h' : l'.Pairwise (fun x y => cmpArrival x y ≤ 0)) : l = l' := by
  refine List.Perm.eq_of_pairwise ?_ h h' hperm
  intro x y _ _ hxy hyx
  exact Arrival.eq_of_le (cmpArrival_le_zero.mp hxy) (cmpArrival_le_zero.mp hyx)

theorem Sorts.eq_readInput {qsort : List Arrival → List Arrival} (h : Sorts cmpArrival qsort) : qsort = readInput := by
  funext l
  obtain ⟨hperm, hsorted⟩ := h l
  obtain ⟨hperm', hsorted'⟩ := sorts_readInput l
  exact eq_of_sorted (hperm.trans hperm'.symm) hsorted hsorted'

theorem readInput_eq_of_perm {l l' : List Arrival} (hperm : l.Perm l') : readInput l = readInput l' := by
  have h : (readInput l).Perm (readInput l') := ((readInput_perm l).trans hperm).trans (readInput_perm l').symm
  exact eq_of_sorted h (sorts_readInput l).2 (sorts_readInput l').2

/-! ## Two runs -/

theorem runMemoryBy_eq {qsort : List Arrival → List Arrival} (h : Sorts cmpArrival qsort) (junk : Queue) (stdin : List Char) (n : Nat) :
    runMemoryBy qsort junk stdin n = runMemory junk stdin n := by
  rw [h.eq_readInput]
  rfl

/-- Two runs over arrays that hold the same lists print the same, whatever their local queues hold. -/
theorem Refines.mainLoop_out {input : List Arrival} {m m' : Memory} {s : Sim} {n : Nat} (hp : Point input .arrive s)
    (h : Refines (readInput input) m s) (h' : Refines (readInput input) m' s) (hmax : (readInput input).length ≤ maxArrivals)
    (junk junk' : Queue) : ∃ t t' ended, m.mainLoop junk n = some (t, ended) ∧ m'.mainLoop junk' n = some (t', ended) ∧ t.out = t'.out := by
  induction n generalizing m m' s with
  | zero => exact ⟨m, m', false, rfl, rfl, h.out.trans h'.out.symm⟩
  | succ n ih =>
    obtain ⟨u, hu, hr⟩ := h.tick hp hmax junk
    obtain ⟨u', hu', hr'⟩ := h'.tick hp hmax junk'
    have hcheck := hp.tick
    rw [Memory.mainLoop, Memory.mainLoop, hu, hu']
    generalize s.tick (readInput input) = t at hr hr' hcheck
    simp only [Option.bind_eq_bind, Option.bind_some, hr.stops, hr'.stops]
    cases hstop : t.stops (readInput input) with
    | true =>
      rw [if_pos rfl, if_pos rfl]
      exact ⟨u, u', true, rfl, rfl, hr.out.trans hr'.out.symm⟩
    | false =>
      have hnext : Refines (readInput input) u.advance t.advance := { hr with currentTime := congrArg (· + 1) hr.currentTime }
      have hnext' : Refines (readInput input) u'.advance t.advance := { hr' with currentTime := congrArg (· + 1) hr'.currentTime }
      simp only [Bool.false_eq_true, if_false]
      exact ih (.again hcheck hstop) hnext hnext'

/-- For every two inputs of at most 1024 arrivals, the same ones in another order, with whatever other lines between them: after any
number of seconds both runs have ended or neither has, and both have printed the same events. Each run may sort in its own way. -/
theorem input_order_irrelevant {qsort qsort' : List Arrival → List Arrival} (hsort : Sorts cmpArrival qsort)
    (hsort' : Sorts cmpArrival qsort') (junk junk' : Queue) {stdin stdin' : List Char} (hperm : (accepted stdin).Perm (accepted stdin'))
    (hfit : (accepted stdin).length ≤ maxArrivals) (seconds : Nat) :
    ∃ m m' ended, runMemoryBy qsort junk stdin seconds = some (m, ended) ∧ runMemoryBy qsort' junk' stdin' seconds = some (m', ended) ∧
      m.out = m'.out := by
  obtain ⟨m, hstart, hrun⟩ := run_starts hfit
  obtain ⟨m', hstart', hrun'⟩ := run_starts (hperm.length_eq ▸ hfit)
  rw [← readInput_eq_of_perm hperm] at hstart' hrun'
  rw [runMemoryBy_eq hsort, runMemoryBy_eq hsort', hrun, hrun']
  by_cases hnone : readInput (accepted stdin) = []
  · rw [if_pos hnone, if_pos hnone]
    exact ⟨m, m', true, rfl, rfl, hstart.out.trans hstart'.out.symm⟩
  · rw [if_neg hnone, if_neg hnone]
    exact hstart.mainLoop_out (.start hnone) hstart' ((readInput_length _).symm ▸ hfit) junk junk'

/-- Two customers who arrive at once, and one before them. -/
theorem input_order_irrelevant_three : ∃ m m' ended,
    runMemoryBy readInput ⟨fun _ => 0, 0, 0, 0⟩ "5 Customer 2\n3 Customer 9\n5 Customer 1\n".toList 20 = some (m, ended) ∧
      runMemoryBy readInput ⟨fun _ => 1, 7, 7, 0⟩ "5 Customer 1\n5 Customer 2\n3 Customer 9\n".toList 20 = some (m', ended) ∧
      m.out = m'.out :=
  input_order_irrelevant sorts_readInput sorts_readInput ⟨fun _ => 0, 0, 0, 0⟩ ⟨fun _ => 1, 7, 7, 0⟩ (by decide +kernel) (by decide +kernel) 20

end Xv6SnifferBakery.Bakery
