import Xv6SnifferBakery.Bakery.Refinement

/-!
# The input and the arrays

`read_input` writes an entry of `arrivals` for each line it accepts, and does not look at how many there are. Up to 1024 arrivals every
index of a run is in its array, and the run over the arrays is the one over lists; the next arrival is written behind the array.
-/

namespace Xv6SnifferBakery.Bakery

open Lib

/-! ## `read_input` -/

/-- The arrivals of what is left of the input. -/
def acceptedAux (n : Nat) (stdin : List Char) : List Arrival :=
  ((linesAux n stdin).takeWhile (fun buf => !hasSubstr buf "<EOF>".toList)).filterMap scanArrival

/-- The arrivals are in the array one after the other. -/
def Stored (a : Nat → Arrival) (l : List Arrival) : Prop := ∀ i x, l[i]? = some x → a i = x

theorem Stored.snoc {a : Nat → Arrival} {l : List Arrival} (h : Stored a l) (x : Arrival) :
    Stored (Function.update a l.length x) (l ++ [x]) := by
  intro i y hy
  by_cases hi : i = l.length
  · subst hi
    rw [List.getElem?_concat_length] at hy
    rw [Function.update_self]
    exact Option.some.inj hy
  · have hlt : i < l.length := by
      have := (List.getElem?_eq_some_iff.mp hy).1
      rw [List.length_append, List.length_singleton] at this
      omega
    rw [List.getElem?_append_left hlt] at hy
    rw [Function.update_of_ne hi]
    exact h i y hy

section Reading

variable {n : Nat} {stdin : List Char} {m : Memory} {l : List Arrival}

theorem acceptedAux_nil : acceptedAux n [] = [] := by
  cases n with
  | zero => rfl
  | succ n =>
    unfold acceptedAux
    rw [linesAux, if_pos rfl]
    rfl

theorem acceptedAux_end (hne : stdin ≠ []) (hstr : hasSubstr (cString (fgets 255 stdin).1) "<EOF>".toList = true) :
    acceptedAux (n + 1) stdin = [] := by
  unfold acceptedAux
  rw [linesAux, if_neg hne, List.takeWhile_cons_of_neg (by rw [hstr]; simp), List.filterMap_nil]

theorem acceptedAux_line (hne : stdin ≠ []) (hstr : hasSubstr (cString (fgets 255 stdin).1) "<EOF>".toList = false) :
    acceptedAux (n + 1) stdin = (scanArrival (cString (fgets 255 stdin).1)).toList ++ acceptedAux n (fgets 255 stdin).2 := by
  unfold acceptedAux
  rw [linesAux, if_neg hne, List.takeWhile_cons_of_pos (by rw [hstr]; rfl), List.filterMap_cons]
  cases scanArrival (cString (fgets 255 stdin).1) with
  | none => rfl
  | some a => rfl

/-- One line of the loop. -/
theorem readLoop_line (hne : stdin ≠ []) (hstr : hasSubstr (cString (fgets 255 stdin).1) "<EOF>".toList = false) :
    Memory.readLoop (n + 1) stdin m =
      match scanArrival (cString (fgets 255 stdin).1) with
      | none => Memory.readLoop n (fgets 255 stdin).2 m
      | some a => (writeAt maxArrivals m.arrivals m.numArrivals a).bind fun arrivals =>
          Memory.readLoop n (fgets 255 stdin).2 { m with arrivals := arrivals, numArrivals := m.numArrivals + 1 } := by
  rw [Memory.readLoop, if_neg hne]
  simp only [hstr, Bool.false_eq_true, if_false]
  rfl

/-- The loop stores the arrivals behind those it has. -/
theorem readLoop_stores (hl : m.numArrivals = l.length) (hs : Stored m.arrivals l)
    (hfit : (l ++ acceptedAux n stdin).length ≤ maxArrivals) :
    ∃ a, Memory.readLoop n stdin m = some { m with arrivals := a, numArrivals := (l ++ acceptedAux n stdin).length } ∧
      Stored a (l ++ acceptedAux n stdin) := by
  have hself : ∀ {m : Memory} {l : List Arrival}, m.numArrivals = l.length → ({ m with numArrivals := (l ++ []).length } : Memory) = m := by
    intro m l hl
    rw [List.append_nil, ← hl]
  induction n generalizing stdin m l with
  | zero => exact ⟨m.arrivals, congrArg some (hself hl).symm, by rwa [show acceptedAux 0 stdin = [] from rfl, List.append_nil]⟩
  | succ n ih =>
    by_cases hne : stdin = []
    · subst hne
      rw [Memory.readLoop, if_pos rfl, acceptedAux_nil]
      exact ⟨m.arrivals, congrArg some (hself hl).symm, by rwa [List.append_nil]⟩
    cases hstr : hasSubstr (cString (fgets 255 stdin).1) "<EOF>".toList with
    | true =>
      rw [Memory.readLoop, if_neg hne, acceptedAux_end hne hstr]
      simp only [hstr, if_true]
      exact ⟨m.arrivals, congrArg some (hself hl).symm, by rwa [List.append_nil]⟩
    | false =>
      rw [acceptedAux_line hne hstr] at hfit ⊢
      rw [readLoop_line hne hstr]
      cases hscan : scanArrival (cString (fgets 255 stdin).1) with
      | none =>
        rw [hscan] at hfit
        exact ih hl hs hfit
      | some a =>
        rw [hscan] at hfit
        simp only [Option.toList_some, List.singleton_append] at hfit ⊢
        have hroom : l.length < maxArrivals := by
          rw [List.length_append, List.length_cons] at hfit
          omega
        have happ : l ++ a :: acceptedAux n (fgets 255 stdin).2 = l ++ [a] ++ acceptedAux n (fgets 255 stdin).2 := by
          rw [List.append_assoc, List.singleton_append]
        rw [hl, writeAt_of_lt hroom, Option.bind_some, happ]
        rw [happ] at hfit
        exact @ih (fgets 255 stdin).2 { m with arrivals := Function.update m.arrivals l.length a, numArrivals := l.length + 1 }
          (l ++ [a]) (by simp) (hs.snoc a) hfit

/-- The loop goes on behind the array when there are too many. -/
theorem readLoop_overflows (hle : m.numArrivals ≤ maxArrivals) (hmany : maxArrivals < m.numArrivals + (acceptedAux n stdin).length) :
    Memory.readLoop n stdin m = none := by
  have hno : ∀ {l : List Arrival}, l = [] → ¬maxArrivals < m.numArrivals + l.length := by
    rintro l rfl
    rw [List.length_nil]
    omega
  induction n generalizing stdin m with
  | zero => exact absurd hmany (hno rfl)
  | succ n ih =>
    by_cases hne : stdin = []
    · subst hne
      exact absurd hmany (hno acceptedAux_nil)
    cases hstr : hasSubstr (cString (fgets 255 stdin).1) "<EOF>".toList with
    | true => exact absurd hmany (hno (acceptedAux_end hne hstr))
    | false =>
      rw [acceptedAux_line hne hstr] at hmany
      rw [readLoop_line hne hstr]
      cases hscan : scanArrival (cString (fgets 255 stdin).1) with
      | none =>
        rw [hscan] at hmany
        exact ih hle hmany hno
      | some a =>
        simp only [hscan, Option.toList_some, List.singleton_append, List.length_cons] at hmany
        by_cases hroom : m.numArrivals < maxArrivals
        · simp only [writeAt_of_lt hroom, Option.bind_some]
          refine ih hroom (by simp only; omega) ?_
          rintro l rfl
          simp only [List.length_nil]
          omega
        · simp only [writeAt, hroom, if_false, Option.bind_none]

theorem Stored.map_range {a : Nat → Arrival} (h : Stored a l) : (List.range l.length).map a = l := by
  refine List.ext_getElem (by simp) ?_
  intro i h₁ h₂
  rw [List.getElem_map, List.getElem_range]
  exact h i _ (List.getElem?_eq_getElem h₂)

theorem Stored.sort (h : Stored m.arrivals l) (hl : m.numArrivals = l.length) : Stored m.sortArrivals.arrivals (readInput l) := by
  intro i x hx
  unfold Memory.sortArrivals Memory.sortArrivalsBy
  rw [hl, h.map_range]
  simp only [hx, Option.getD_some]

/-- `customers` mirrors `arrivals`. -/
theorem customersLoop_fresh {i : Nat} (hle : i + n ≤ maxArrivals) :
    ∃ c, Memory.customersLoop n i m = some { m with customers := c } ∧ (∀ j < i, c j = m.customers j) ∧
      ∀ j, i ≤ j → j < i + n → c j = Customer.fresh (m.arrivals j) := by
  induction n generalizing i m with
  | zero => exact ⟨m.customers, rfl, fun _ _ => rfl, fun j hge hlt => absurd hlt (by omega)⟩
  | succ n ih =>
    rw [Memory.customersLoop, readAt_of_lt (by omega), Option.bind_eq_bind, Option.bind_some, writeAt_of_lt (by omega)]
    obtain ⟨c, hc, hbefore, hfresh⟩ :=
      @ih { m with customers := Function.update m.customers i (Customer.fresh (m.arrivals i)) } (i + 1) (by omega)
    refine ⟨c, hc, fun j hj => ?_, fun j hge hlt => ?_⟩
    · rw [hbefore j (by omega)]
      exact Function.update_of_ne (by omega) _ _
    · by_cases hj : j = i
      · subst hj
        rw [hbefore j (by omega)]
        exact Function.update_self _ _ _
      · exact hfresh j (by omega) (by omega)

end Reading

/-! ## A run -/

section Running

variable {stdin : List Char} {n : Nat}

theorem readInput_length (input : List Arrival) : (readInput input).length = input.length := List.length_insertionSort _ input

/-- What `read_input` leaves: the arrivals, sorted, and a customer for each. -/
theorem memory_readInput (hfit : (accepted stdin).length ≤ maxArrivals) :
    ∃ a c, Memory.zero.readInput stdin =
        some { Memory.zero with arrivals := a, numArrivals := (accepted stdin).length, customers := c } ∧
      Stored a (readInput (accepted stdin)) ∧ ∀ i < (accepted stdin).length, c i = Customer.fresh (a i) := by
  obtain ⟨a, hread, hstored⟩ := @readLoop_stores stdin.length stdin Memory.zero [] rfl (fun i x h => by nomatch h) hfit
  change Memory.readLoop _ _ _ = some { Memory.zero with arrivals := a, numArrivals := (accepted stdin).length } at hread
  change Stored a (accepted stdin) at hstored
  obtain ⟨c, hloop, -, hfresh⟩ := @customersLoop_fresh (accepted stdin).length
    ({ Memory.zero with arrivals := a, numArrivals := (accepted stdin).length } : Memory).sortArrivals 0 (by omega)
  refine ⟨_, c, ?_, hstored.sort rfl, fun i hi => hfresh i (Nat.zero_le i) (by omega)⟩
  simp only [Memory.readInput, Memory.readInputBy, hread, Option.bind_eq_bind, Option.bind_some]
  exact hloop

/-- What `main` starts its loop with holds the arrivals, sorted. -/
theorem run_starts (hfit : (accepted stdin).length ≤ maxArrivals) :
    ∃ m, Refines (readInput (accepted stdin)) m (Sim.init (readInput (accepted stdin))) ∧
      ∀ junk n, runMemory junk stdin n = if readInput (accepted stdin) = [] then some (m, true) else m.mainLoop junk n := by
  obtain ⟨a, c, hread, hstored, hfresh⟩ := memory_readInput hfit
  have hlen := readInput_length (accepted stdin)
  have hcustomers : ∀ i < (readInput (accepted stdin)).length, c i = (Sim.init (readInput (accepted stdin))).customers i := by
    intro i hi
    rw [hfresh i (hlen ▸ hi), hstored i _ (List.getElem?_eq_getElem hi)]
    change _ = Customer.fresh ((readInput (accepted stdin)).getD i ⟨0, 0⟩)
    rw [List.getD_eq_getElem?_getD, List.getElem?_eq_getElem hi]
    rfl
  have hzero : ∀ now, now = (Sim.init (readInput (accepted stdin))).currentTime → Refines (readInput (accepted stdin))
      { Memory.zero with
        arrivals := a, numArrivals := (accepted stdin).length, customers := c, standing := Memory.zero.standing.init
        sofa := Memory.zero.sofa.init, ready := Memory.zero.ready.init, chefFree := fun _ => true, ovensAvailable := numOvens
        registerBusy := false, accepting := ⟨0, 0, -1⟩, currentTime := now }
      (Sim.init (readInput (accepted stdin))) := by
    intro now hnow
    exact ⟨hstored, hlen.symm, hcustomers, Queue.holds_init _, Queue.holds_init _, Queue.holds_init _, rfl, rfl, rfl, rfl, rfl, rfl,
      hnow, rfl, rfl, rfl⟩
  unfold Memory.readInput at hread
  unfold runMemory runMemoryBy
  simp only [hread, Option.bind_eq_bind, Option.bind_some]
  cases hsorted : readInput (accepted stdin) with
  | nil =>
    rw [hsorted, List.length_nil] at hlen
    rw [hsorted] at hzero
    refine ⟨_, hzero 0 rfl, fun junk n => ?_⟩
    rw [if_pos hlen.symm, if_pos rfl]
    rfl
  | cons first rest =>
    have hne : (accepted stdin).length ≠ 0 := by
      rw [← hlen, hsorted, List.length_cons]
      omega
    have hfirst : a 0 = first := hstored 0 first (by rw [hsorted]; rfl)
    rw [hsorted] at hzero
    refine ⟨_, hzero first.ts rfl, fun junk n => ?_⟩
    rw [if_neg hne, readAt_of_lt (by decide), Option.bind_some, hfirst, if_neg (by simp)]

/-- With at most 1024 arrivals the run over the arrays is the run over the lists. -/
theorem run_refines (junk : Queue) (hfit : (accepted stdin).length ≤ maxArrivals) :
    ∃ m ended, runMemory junk stdin n = some (m, ended) ∧
      match main (accepted stdin) n with
      | some s => ended = true ∧ Refines (readInput (accepted stdin)) m s
      | none => ended = false := by
  obtain ⟨m, hstart, hrun⟩ := run_starts hfit
  rw [hrun]
  unfold main
  by_cases hnone : readInput (accepted stdin) = []
  · rw [if_pos hnone, if_pos hnone]
    exact ⟨m, true, rfl, rfl, hstart⟩
  · rw [if_neg hnone, if_neg hnone]
    exact hstart.mainLoop (.start hnone) ((readInput_length _).symm ▸ hfit) junk

/-- With more than 1024 arrivals `read_input` writes behind `arrivals`. -/
theorem run_overflows (junk : Queue) (hmany : maxArrivals < (accepted stdin).length) : runMemory junk stdin n = none := by
  have hread : Memory.readLoop stdin.length stdin Memory.zero = none := by
    refine readLoop_overflows (Nat.zero_le _) ?_
    change maxArrivals < 0 + (accepted stdin).length
    omega
  simp only [runMemory, runMemoryBy, Memory.readInputBy, hread, Option.bind_eq_bind, Option.bind_none]

end Running

/-- A run stays within `arrivals`, `customers` and the queues, however long it goes on, exactly when the input has at most 1024 arrivals. -/
theorem input_in_bounds_iff (junk : Queue) (stdin : List Char) :
    (∀ seconds, (runMemory junk stdin seconds).isSome) ↔ (accepted stdin).length ≤ maxArrivals := by
  constructor
  · intro hall
    by_contra hmany
    have := hall 0
    rw [run_overflows junk (Nat.not_le.mp hmany)] at this
    nomatch this
  · intro hfit n
    obtain ⟨m, ended, hrun, -⟩ := @run_refines stdin n junk hfit
    rw [hrun]
    rfl

/-- An input of `k` equal lines. -/
def sameLines (k : Nat) : List Char := (List.replicate k "0 Customer 0\n".toList).flatten

theorem acceptedAux_sameLines {n k : Nat} (hn : k ≤ n) : acceptedAux n (sameLines k) = List.replicate k ⟨0, 0⟩ := by
  induction k generalizing n with
  | zero => exact acceptedAux_nil
  | succ k ih =>
    obtain ⟨n, rfl⟩ := Nat.exists_eq_succ_of_ne_zero (show n ≠ 0 by omega)
    have hsplit : sameLines (k + 1) = "0 Customer 0\n".toList ++ sameLines k := rfl
    have hgets : fgets 255 (sameLines (k + 1)) = ("0 Customer 0\n".toList, sameLines k) := rfl
    have hne : sameLines (k + 1) ≠ [] := by simp [hsplit]
    have hstr : hasSubstr (cString "0 Customer 0\n".toList) "<EOF>".toList = false := by decide
    rw [acceptedAux_line hne (by rw [hgets]; exact hstr), hgets, ih (by omega), List.replicate_succ]
    rfl

theorem sameLines_length (k : Nat) : (sameLines k).length = 13 * k := by
  induction k with
  | zero => rfl
  | succ k ih =>
    have hsplit : sameLines (k + 1) = "0 Customer 0\n".toList ++ sameLines k := rfl
    rw [hsplit, List.length_append, ih]
    change 13 + 13 * k = _
    omega

/-- 1025 customers, all at time 0. -/
theorem input_out_of_bounds : ¬∀ seconds, (runMemory ⟨fun _ => 0, 0, 0, 0⟩ (sameLines 1025) seconds).isSome := by
  intro hall
  have hlen : (accepted (sameLines 1025)).length = 1025 := by
    refine (congrArg List.length (acceptedAux_sameLines ?_)).trans List.length_replicate
    rw [sameLines_length]
    decide
  have hnone := @run_overflows (sameLines 1025) 0 ⟨fun _ => 0, 0, 0, 0⟩ (by rw [hlen]; decide)
  have hsome := hall 0
  rw [hnone] at hsome
  nomatch hsome

end Xv6SnifferBakery.Bakery
