import Mathlib.Data.List.Sort
import Mathlib.Logic.Function.Basic
import Mathlib.Tactic.Common

/-!
# The bakery simulation

`C/main.c`: customers enter a bakery, sit, ask for a cake, wait until it is baked, pay and leave; chefs bake and accept payments.
The simulation goes second by second, and in each second through the same six functions. A queue is the list of what it holds, its
front first; `baking` holds the first `baking_cnt` tasks of the source's array. A time is an integer: one past the end of a `long`
is undefined in the source.
-/

namespace Xv6SnifferBakery.Bakery

def maxCapacity : Int := 25
def numOvens : Nat := 4
def numChefs : Nat := 4
def sofaCapacity : Nat := 4
def tCustomerAction : Int := 1
def tChefAction : Int := 2

/-- `arrival_t`. -/
structure Arrival where
  ts : Int
  id : Int
  deriving DecidableEq, Repr

/-- `customer_t`. -/
structure Customer where
  id : Int
  arrivalTs : Int
  entered : Bool
  seated : Bool
  requested : Bool
  baking : Bool
  baked : Bool
  paid : Bool
  acceptStarted : Bool
  done : Bool
  tSat : Int
  tRequest : Int
  tBakeStart : Int
  tBakeEnd : Int
  tPayTime : Int
  tAcceptStart : Int
  tAcceptEnd : Int
  tLeave : Int
  deriving DecidableEq, Repr

/-- `inprog_t`. -/
structure Task where
  cust : Nat
  chef : Nat
  endTime : Int
  deriving DecidableEq, Repr

/-- What can happen to a customer, each with a line of output. -/
inductive Act where
  | enters | sits | requests | bakes | pays | accepts | leaves
  deriving DecidableEq, Repr

/-- A line of output: `cust` is the index of the customer in `customers`, `id` the number that is printed. -/
structure Event where
  time : Int
  act : Act
  cust : Nat
  id : Int
  chef : Option Nat
  deriving DecidableEq, Repr

/-- The global variables, with the lines printed so far. -/
structure Sim where
  customers : Nat → Customer
  standing : List Nat
  sofa : List Nat
  ready : List Nat
  baking : List Task
  accepting : Task
  registerBusy : Bool
  chefFree : Nat → Bool
  ovensAvailable : Int
  peopleInside : Int
  currentTime : Int
  lastSeatFreed : Int
  arrivalIdx : Nat
  out : List Event

/-! ## Reading the input -/

/-- `cmp_arrival`, as the order it sorts by. -/
def Arrival.le (x y : Arrival) : Bool := x.ts < y.ts ∨ (x.ts = y.ts ∧ x.id ≤ y.id)

/-- `cmp_arrival`. -/
def cmpArrival (x y : Arrival) : Int :=
  if x.ts ≠ y.ts then if x.ts < y.ts then -1 else 1
  else if x.id ≠ y.id then if x.id < y.id then -1 else 1
  else 0

/-- The arrivals that were read, sorted: arrivals that `cmp_arrival` does not tell apart are equal, so there is one way to sort. -/
def readInput (input : List Arrival) : List Arrival := input.insertionSort (fun x y => x.le y)

/-- A customer as `read_input` initialises it. -/
def Customer.fresh (a : Arrival) : Customer :=
  { id := a.id, arrivalTs := a.ts, entered := false, seated := false, requested := false, baking := false, baked := false,
    paid := false, acceptStarted := false, done := false, tSat := -1, tRequest := -1, tBakeStart := -1, tBakeEnd := -1,
    tPayTime := -1, tAcceptStart := -1, tAcceptEnd := -1, tLeave := -1 }

/-- The state when the loop of `main` begins. -/
def Sim.init (arrivals : List Arrival) : Sim :=
  { customers := fun i => Customer.fresh (arrivals.getD i ⟨0, 0⟩)
    standing := [], sofa := [], ready := [], baking := [], accepting := ⟨0, 0, -1⟩, registerBusy := false
    chefFree := fun _ => true, ovensAvailable := numOvens, peopleInside := 0
    currentTime := (arrivals.head?.map Arrival.ts).getD 0, lastSeatFreed := -1, arrivalIdx := 0, out := [] }

namespace Sim

/-! ## Printing -/

/-- `print_customer`. -/
def printCustomer (s : Sim) (ci : Nat) (act : Act) : Sim :=
  { s with out := s.out ++ [⟨s.currentTime, act, ci, (s.customers ci).id, none⟩] }

/-- `print_chef`. -/
def printChef (s : Sim) (chef : Nat) (act : Act) (ci : Nat) : Sim :=
  { s with out := s.out ++ [⟨s.currentTime, act, ci, (s.customers ci).id, some chef⟩] }

/-- Write to an entry of `customers`. -/
def setCustomer (s : Sim) (ci : Nat) (f : Customer → Customer) : Sim :=
  { s with customers := Function.update s.customers ci (f (s.customers ci)) }

/-- Write to `chef_free[chef - 1]`. -/
def setChef (s : Sim) (chef : Nat) (free : Bool) : Sim := { s with chefFree := Function.update s.chefFree (chef - 1) free }

/-- `get_free_chef`: 0 when none is free. -/
def getFreeChef (s : Sim) : Nat :=
  match (List.range numChefs).find? (fun i => s.chefFree i) with
  | none => 0
  | some i => i + 1

/-! ## Arrivals -/

/-- A customer enters. -/
def enter (s : Sim) : Sim :=
  let ci := s.arrivalIdx
  let s := s.setCustomer ci (fun c => { c with entered := true })
  let s := { s with peopleInside := s.peopleInside + 1 }.printCustomer ci .enters
  { s with standing := s.standing ++ [ci], arrivalIdx := s.arrivalIdx + 1 }

/-- The loop of `process_arrivals_at_time`; a customer who finds the bakery full goes away. -/
def arrivalsLoop (arrivals : List Arrival) : Nat → Sim → Sim
  | 0, s => s
  | n + 1, s =>
    match arrivals[s.arrivalIdx]? with
    | none => s
    | some a =>
      if a.ts ≠ s.currentTime then s
      else if maxCapacity ≤ s.peopleInside then arrivalsLoop arrivals n { s with arrivalIdx := s.arrivalIdx + 1 }
      else arrivalsLoop arrivals n s.enter

/-- `process_arrivals_at_time`. -/
def processArrivals (arrivals : List Arrival) (s : Sim) : Sim := arrivalsLoop arrivals arrivals.length s

/-! ## Tasks that end -/

/-- The first part of `finish_tasks_at_time`: the payment that is accepted now, and its customer leaves. -/
def finishAccept (s : Sim) : Sim :=
  if s.registerBusy ∧ s.accepting.endTime = s.currentTime then
    let ci := s.accepting.cust
    let s := s.setCustomer ci (fun c =>
      { c with
        tAcceptEnd := s.currentTime, acceptStarted := false, paid := true, tLeave := s.currentTime, done := true })
    let s := (s.printCustomer ci .leaves).setChef s.accepting.chef true
    { s with
      registerBusy := false, peopleInside := s.peopleInside - 1, lastSeatFreed := s.currentTime
      sofa := s.sofa.filter (fun x => x ≠ ci) }
  else s

/-- A cake is ready: its customer pays, and the chef and the oven are free. -/
def bakeDone (s : Sim) (b : Task) : Sim :=
  let s := s.setCustomer b.cust (fun c =>
    { c with baked := true, baking := false, tBakeEnd := s.currentTime, tPayTime := s.currentTime })
  let s := s.printCustomer b.cust .pays
  let s := { s with ready := s.ready ++ [b.cust] }.setChef b.chef true
  { s with ovensAvailable := s.ovensAvailable + 1 }

/-- The loop over the bakings: those that end now are finished, the others are kept (`new_baking`). -/
def finishBakesLoop : List Task → Sim → List Task → Sim × List Task
  | [], s, kept => (s, kept)
  | b :: bs, s, kept =>
    if b.endTime = s.currentTime then finishBakesLoop bs (s.bakeDone b) kept else finishBakesLoop bs s (kept ++ [b])

/-- The second part of `finish_tasks_at_time`. -/
def finishBakes (s : Sim) : Sim :=
  if 0 < s.baking.length then
    let (s, kept) := finishBakesLoop s.baking s []
    { s with baking := kept }
  else s

/-- `finish_tasks_at_time`. -/
def finishTasks (s : Sim) : Sim := s.finishAccept.finishBakes

/-! ## The sofa -/

/-- The first second in which the customer at the front of the standing queue may sit. -/
def allowedSit (s : Sim) (ci : Nat) : Int :=
  let earliest := (s.customers ci).arrivalTs + tCustomerAction
  let delay := if s.lastSeatFreed = -1 then 0 else s.lastSeatFreed + 1
  if delay < earliest then earliest else delay

/-- The customer at the front of the standing queue sits. -/
def sit (s : Sim) (ci : Nat) (rest : List Nat) : Sim :=
  let s := { s with standing := rest, sofa := s.sofa ++ [ci] }
  (s.setCustomer ci (fun c => { c with seated := true, tSat := s.currentTime })).printCustomer ci .sits

/-- The loop of `move_standing_to_sofa_if_possible`: every pass takes a customer off the standing queue. -/
def moveLoop : Nat → Sim → Sim
  | 0, s => s
  | n + 1, s =>
    match s.standing with
    | [] => s
    | ci :: rest =>
      if sofaCapacity ≤ s.sofa.length then s
      else if s.currentTime < s.allowedSit ci then s
      else moveLoop n (s.sit ci rest)

/-- `move_standing_to_sofa_if_possible`. -/
def moveStanding (s : Sim) : Sim := moveLoop s.standing.length s

/-- A customer asks for a cake one second after sitting down. -/
def request (s : Sim) (ci : Nat) : Sim :=
  if (s.customers ci).seated ∧ ¬(s.customers ci).requested then
    if (s.customers ci).tSat + tCustomerAction ≤ s.currentTime then
      (s.setCustomer ci (fun c => { c with requested := true, tRequest := s.currentTime })).printCustomer ci .requests
    else s
  else s

/-- The loop of `make_requests_from_sofa`, which turns the sofa once. -/
def requestLoop : Nat → Sim → Sim
  | 0, s => s
  | n + 1, s =>
    match s.sofa with
    | [] => s
    | ci :: rest =>
      let s := request { s with sofa := rest } ci
      requestLoop n { s with sofa := s.sofa ++ [ci] }

/-- `make_requests_from_sofa`. -/
def makeRequests (s : Sim) : Sim := requestLoop s.sofa.length s

/-! ## Tasks that begin -/

/-- A chef accepts the payment of the customer at the front of `accept_ready_q`. -/
def startAccept (s : Sim) (chef ci : Nat) (rest : List Nat) : Sim :=
  let s := { s with ready := rest }.setCustomer ci (fun c =>
    { c with acceptStarted := true, tAcceptStart := s.currentTime, tAcceptEnd := s.currentTime + tChefAction })
  let s := { s with registerBusy := true }.setChef chef false
  { s with accepting := ⟨ci, chef, (s.customers ci).tAcceptEnd⟩ }.printChef chef .accepts ci

/-- The loop of `schedule_accepts`: every pass takes a customer off `accept_ready_q`. -/
def acceptLoop : Nat → Sim → Sim
  | 0, s => s
  | n + 1, s =>
    if s.registerBusy then s
    else if s.getFreeChef = 0 then s
    else
      match s.ready with
      | [] => s
      | ci :: rest =>
        if s.currentTime < (s.customers ci).tPayTime + tCustomerAction then s
        else acceptLoop n (s.startAccept s.getFreeChef ci rest)

/-- `schedule_accepts`. -/
def scheduleAccepts (s : Sim) : Sim := acceptLoop s.ready.length s

/-- Whether a chef may start to bake for a customer. -/
def eligible (s : Sim) (ci : Nat) : Bool :=
  (s.customers ci).requested && !(s.customers ci).baking && !(s.customers ci).baked &&
    decide ((s.customers ci).tRequest + tCustomerAction ≤ s.currentTime)

/-- A chef starts to bake for a customer, who stays on the sofa. -/
def startBake (s : Sim) (chef ci : Nat) : Sim :=
  let s := s.setCustomer ci (fun c =>
    { c with baking := true, tBakeStart := s.currentTime, tBakeEnd := s.currentTime + tChefAction })
  let s := { s with baking := s.baking ++ [Task.mk ci chef (s.customers ci).tBakeEnd], ovensAvailable := s.ovensAvailable - 1 }
  (s.setChef chef false).printChef chef .bakes ci

/-- The loop of `schedule_bakes`: every pass takes an oven. The copy of the sofa in `temp` is the sofa, which is turned once
and so stays as it was. -/
def bakeLoop : Nat → Sim → Sim
  | 0, s => s
  | n + 1, s =>
    if s.ovensAvailable ≤ 0 then s
    else if s.getFreeChef = 0 then s
    else
      match s.sofa.find? s.eligible with
      | none => s
      | some ci => bakeLoop n (s.startBake s.getFreeChef ci)

/-- `schedule_bakes`. -/
def scheduleBakes (s : Sim) : Sim := bakeLoop s.ovensAvailable.toNat s

/-! ## The loop of `main` -/

/-- The termination condition: nothing in progress, and nobody inside or to come. -/
def stops (arrivals : List Arrival) (s : Sim) : Bool :=
  !(s.registerBusy || decide (0 < s.baking.length)) &&
    !(decide (0 < s.peopleInside) || decide (s.arrivalIdx < arrivals.length) || !s.standing.isEmpty || !s.sofa.isEmpty ||
      !s.ready.isEmpty)

/-- One second. -/
def tick (arrivals : List Arrival) (s : Sim) : Sim :=
  (s.processArrivals arrivals).finishTasks.moveStanding.makeRequests.scheduleAccepts.scheduleBakes

/-- `current_time++`. -/
def advance (s : Sim) : Sim := { s with currentTime := s.currentTime + 1 }

/-- The loop, for at most a number of seconds. -/
def mainLoop (arrivals : List Arrival) : Nat → Sim → Option Sim
  | 0, _ => none
  | n + 1, s => if (s.tick arrivals).stops arrivals then some (s.tick arrivals) else mainLoop arrivals n (s.tick arrivals).advance

end Sim

/-- `main`: the state when it returns, if that takes at most a number of seconds. -/
def main (input : List Arrival) (seconds : Nat) : Option Sim :=
  let arrivals := readInput input
  if arrivals = [] then some (Sim.init arrivals) else Sim.mainLoop arrivals seconds (Sim.init arrivals)

/-- The functions of the loop, in order; `check` is the test for the end. -/
inductive Phase where
  | arrive | finish | move | request | accept | bake | check
  deriving DecidableEq, Repr

/-- The states between the functions of the loop: at phase `ph` the function of that name is about to be called. -/
inductive Point (input : List Arrival) : Phase → Sim → Prop where
  | start (h : readInput input ≠ []) : Point input .arrive (Sim.init (readInput input))
  | arrive {s : Sim} (h : Point input .arrive s) : Point input .finish (s.processArrivals (readInput input))
  | finish {s : Sim} (h : Point input .finish s) : Point input .move s.finishTasks
  | move {s : Sim} (h : Point input .move s) : Point input .request s.moveStanding
  | request {s : Sim} (h : Point input .request s) : Point input .accept s.makeRequests
  | accept {s : Sim} (h : Point input .accept s) : Point input .bake s.scheduleAccepts
  | bake {s : Sim} (h : Point input .bake s) : Point input .check s.scheduleBakes
  | again {s : Sim} (h : Point input .check s) (hs : s.stops (readInput input) = false) : Point input .arrive s.advance

end Xv6SnifferBakery.Bakery
