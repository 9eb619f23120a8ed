import Xv6SnifferBakery.Bakery.Input

/-!
# The simulation with times of type `long`

The times of `C/main.c` are of type `long`, and a sum that does not fit one is undefined in C. Here the functions that add to a time
stand as the source has them, each sum checked when it is made: the simulation has no next state when one does not fit. The functions
that add nothing are those of the simulation over integers.
-/

namespace Xv6SnifferBakery.Bakery

/-- The values of type `long`. -/
def IsLong (x : Int) : Prop := longMin ≤ x ∧ x ≤ longMax

instance (x : Int) : Decidable (IsLong x) := inferInstanceAs (Decidable (_ ∧ _))

/-- A sum of type `long`, where it is defined. -/
def long (x : Int) : Option Int := if IsLong x then some x else none

/-- The arrivals are those `read_input` can read: their timestamps are of type `long`. -/
def LongInput (input : List Arrival) : Prop := ∀ a ∈ input, IsLong a.ts

instance (input : List Arrival) : Decidable (LongInput input) := inferInstanceAs (Decidable (∀ a ∈ input, IsLong a.ts))

namespace Sim

/-- `earliest_sit`, `delay_after_free` and `allowed_sit_time`. -/
def allowedSitLong (s : Sim) (ci : Nat) : Option Int := do
  let earliest ← long ((s.customers ci).arrivalTs + tCustomerAction)
  let delay ← if s.lastSeatFreed = -1 then some 0 else long (s.lastSeatFreed + 1)
  some (if delay < earliest then earliest else delay)

/-- The loop of `move_standing_to_sofa_if_possible`. -/
def moveLoopLong : Nat → Sim → Option Sim
  | 0, s => some s
  | n + 1, s =>
    match s.standing with
    | [] => some s
    | ci :: rest =>
      if sofaCapacity ≤ s.sofa.length then some s
      else do
        let allowed ← s.allowedSitLong ci
        if s.currentTime < allowed then some s else moveLoopLong n (s.sit ci rest)

/-- `move_standing_to_sofa_if_possible`. -/
def moveStandingLong (s : Sim) : Option Sim := moveLoopLong s.standing.length s

/-- A customer asks for a cake one second after sitting down. -/
def requestLong (s : Sim) (ci : Nat) : Option Sim :=
  if (s.customers ci).seated ∧ ¬(s.customers ci).requested then do
    let next ← long ((s.customers ci).tSat + tCustomerAction)
    if next ≤ s.currentTime then
      some ((s.setCustomer ci (fun c => { c with requested := true, tRequest := s.currentTime })).printCustomer ci .requests)
    else some s
  else some s

/-- The loop of `make_requests_from_sofa`. -/
def requestLoopLong : Nat → Sim → Option Sim
  | 0, s => some s
  | n + 1, s =>
    match s.sofa with
    | [] => some s
    | ci :: rest => do
      let s ← requestLong { s with sofa := rest } ci
      requestLoopLong n { s with sofa := s.sofa ++ [ci] }

/-- `make_requests_from_sofa`. -/
def makeRequestsLong (s : Sim) : Option Sim := requestLoopLong s.sofa.length s

/-- The loop of `schedule_accepts`. -/
def acceptLoopLong : Nat → Sim → Option Sim
  | 0, s => some s
  | n + 1, s =>
    if s.registerBusy then some s
    else if s.getFreeChef = 0 then some s
    else
      match s.ready with
      | [] => some s
      | ci :: rest => do
        let next ← long ((s.customers ci).tPayTime + tCustomerAction)
        if s.currentTime < next then some s
        else do
          let _ ← long (s.currentTime + tChefAction)
          acceptLoopLong n (s.startAccept s.getFreeChef ci rest)

/-- `schedule_accepts`. -/
def scheduleAcceptsLong (s : Sim) : Option Sim := acceptLoopLong s.ready.length s

/-- The scan of `temp` for a customer to bake for; the sum is made only for one who has asked and has no cake. -/
def findEligibleLong (s : Sim) : List Nat → Option (Option Nat)
  | [] => some none
  | ci :: rest =>
    if (s.customers ci).requested && !(s.customers ci).baking && !(s.customers ci).baked then do
      let next ← long ((s.customers ci).tRequest + tCustomerAction)
      if next ≤ s.currentTime then some (some ci) else findEligibleLong s rest
    else findEligibleLong s rest

/-- The loop of `schedule_bakes`. -/
def bakeLoopLong : Nat → Sim → Option Sim
  | 0, s => some s
  | n + 1, s =>
    if s.ovensAvailable ≤ 0 then some s
    else if s.getFreeChef = 0 then some s
    else do
      let target ← s.findEligibleLong s.sofa
      match target with
      | none => some s
      | some ci => do
        let _ ← long (s.currentTime + tChefAction)
        bakeLoopLong n (s.startBake s.getFreeChef ci)

/-- `schedule_bakes`. -/
def scheduleBakesLong (s : Sim) : Option Sim := bakeLoopLong s.ovensAvailable.toNat s

/-- One second. -/
def tickLong (arrivals : List Arrival) (s : Sim) : Option Sim := do
  let s ← (s.processArrivals arrivals).finishTasks.moveStandingLong
  let s ← s.makeRequestsLong
  let s ← s.scheduleAcceptsLong
  s.scheduleBakesLong

/-- `current_time++`. -/
def advanceLong (s : Sim) : Option Sim := do
  let now ← long (s.currentTime + 1)
  some { s with currentTime := now }

/-- The loop of `main`, for at most a number of seconds. -/
def mainLoopLong (arrivals : List Arrival) : Nat → Sim → Option Sim
  | 0, _ => none
  | n + 1, s => do
    let s ← s.tickLong arrivals
    if s.stops arrivals then some s
    else do
      let s ← s.advanceLong
      mainLoopLong arrivals n s

end Sim

/-- `main`: the state when it returns, if that takes at most a number of seconds and every sum fits. -/
def mainLong (input : List Arrival) (seconds : Nat) : Option Sim :=
  let arrivals := readInput input
  if arrivals = [] then some (Sim.init arrivals) else Sim.mainLoopLong arrivals seconds (Sim.init arrivals)

/-- The states in which a second of the loop begins. -/
inductive LongSecond (input : List Arrival) : Sim → Prop where
  | start (h : readInput input ≠ []) : LongSecond input (Sim.init (readInput input))
  | again {s t u : Sim} (h : LongSecond input s) (ht : s.tickLong (readInput input) = some t) (hgo : t.stops (readInput input) = false)
      (hu : t.advanceLong = some u) : LongSecond input u

/-- A customer who comes in the last second of a `long` is never seated: the sum for the earliest second does not fit. -/
example : (Sim.init [⟨longMax, 1⟩]).tickLong [⟨longMax, 1⟩] = none := by decide +kernel

example : ((mainLong [⟨longMax - 9, 1⟩] 20).map Sim.currentTime) = some (longMax - 1) := by decide +kernel

end Xv6SnifferBakery.Bakery
