import Xv6SnifferBakery.Bakery.Input

/-!
# The bakery in its arrays

The same program with the arrays as the source declares them: `arrivals` and `customers` of 1024 entries, and queues that go round an
array of 2048. An index outside its array is `none`, so a run that gives something has stayed within all three. `junk` is what a local
queue holds before it is written.
-/

namespace Xv6SnifferBakery.Bakery

def maxArrivals : Nat := 1024
def queueCap : Nat := 2048

/-! ## Arrays and queues -/

/-- Read an array of `n` entries. -/
def readAt {α : Type} (n : Nat) (a : Nat → α) (i : Nat) : Option α := if i < n then some (a i) else none

/-- Write an array of `n` entries. -/
def writeAt {α : Type} (n : Nat) (a : Nat → α) (i : Nat) (v : α) : Option (Nat → α) :=
  if i < n then some (Function.update a i v) else none

/-- `queue_t`. -/
structure Queue where
  data : Nat → Nat
  head : Nat
  tail : Nat
  size : Int

namespace Queue

/-- `q_init`. -/
def init (q : Queue) : Queue := { q with head := 0, tail := 0, size := 0 }

/-- `q_empty`. -/
def empty (q : Queue) : Bool := decide (q.size = 0)

/-- `q_push`. -/
def push (q : Queue) (v : Nat) : Option Queue := do
  let data ← writeAt queueCap q.data q.tail v
  let tail := q.tail + 1
  some { q with data := data, tail := if queueCap ≤ tail then 0 else tail, size := q.size + 1 }

/-- `q_front`. -/
def front (q : Queue) : Option Nat := readAt queueCap q.data q.head

/-- `q_pop`. -/
def pop (q : Queue) : Option (Nat × Queue) := do
  let v ← readAt queueCap q.data q.head
  let head := q.head + 1
  some (v, { q with head := if queueCap ≤ head then 0 else head, size := q.size - 1 })

end Queue

/-- A call of `q_push` or of `q_pop`. -/
inductive QueueOp where
  | push (v : Nat)
  | pop
  deriving DecidableEq, Repr

/-- Calls one after the other, with what the pops return. -/
def Queue.run : List QueueOp → Queue → Option (List Nat × Queue)
  | [], q => some ([], q)
  | .push v :: ops, q => do
    let q ← q.push v
    Queue.run ops q
  | .pop :: ops, q => do
    let (v, q) ← q.pop
    let (vs, q) ← Queue.run ops q
    some (v :: vs, q)

/-- The global variables. -/
structure Memory where
  arrivals : Nat → Arrival
  numArrivals : Nat
  customers : Nat → Customer
  standing : Queue
  sofa : Queue
  ready : Queue
  baking : List Task
  accepting : Task
  registerBusy : Bool
  chefFree : Nat → Bool
  ovensAvailable : Int
  peopleInside : Int
  currentTime : Int
  lastSeatFreed : Int
  arrivalIdx : Nat
  out : List Event

namespace Memory

/-- Write to an entry of `customers`. -/
def setCustomer (m : Memory) (ci : Nat) (f : Customer → Customer) : Option Memory := do
  let c ← readAt maxArrivals m.customers ci
  let customers ← writeAt maxArrivals m.customers ci (f c)
  some { m with customers := customers }

/-- `print_customer` and `print_chef`, with `customers[ci].id`. -/
def print (m : Memory) (act : Act) (ci : Nat) (chef : Option Nat) : Option Memory := do
  let c ← readAt maxArrivals m.customers ci
  some { m with out := m.out ++ [⟨m.currentTime, act, ci, c.id, chef⟩] }

/-- Write to `chef_free[chef - 1]`. -/
def setChef (m : Memory) (chef : Nat) (free : Bool) : Memory := { m with chefFree := Function.update m.chefFree (chef - 1) free }

/-- `get_free_chef`. -/
def getFreeChef (m : Memory) : Nat :=
  match (List.range numChefs).find? (fun i => m.chefFree i) with
  | none => 0
  | some i => i + 1

/-! ## `read_input` -/

/-- The loop over the lines. -/
def readLoop : Nat → List Char → Memory → Option Memory
  | 0, _, m => some m
  | n + 1, stdin, m =>
    if stdin = [] then some m
    else
      let buf := cString (fgets 255 stdin).1
      if hasSubstr buf "<EOF>".toList then some m
      else
        match scanArrival buf with
        | none => readLoop n (fgets 255 stdin).2 m
        | some a => do
          let arrivals ← writeAt maxArrivals m.arrivals m.numArrivals a
          readLoop n (fgets 255 stdin).2 { m with arrivals := arrivals, numArrivals := m.numArrivals + 1 }

/-- `qsort` of the first `num_arrivals` entries, with the C library's way to sort. -/
def sortArrivalsBy (qsort : List Arrival → List Arrival) (m : Memory) : Memory :=
  { m with
    arrivals := fun i => (qsort ((List.range m.numArrivals).map m.arrivals))[i]?.getD (m.arrivals i) }

/-- `qsort` of the first `num_arrivals` entries. -/
def sortArrivals (m : Memory) : Memory := m.sortArrivalsBy Bakery.readInput

/-- The loop that initialises `customers[i]` and those behind it. -/
def customersLoop : Nat → Nat → Memory → Option Memory
  | 0, _, m => some m
  | n + 1, i, m => do
    let a ← readAt maxArrivals m.arrivals i
    let customers ← writeAt maxArrivals m.customers i (Customer.fresh a)
    customersLoop n (i + 1) { m with customers := customers }

/-- `read_input` with that way to sort. -/
def readInputBy (qsort : List Arrival → List Arrival) (stdin : List Char) (m : Memory) : Option Memory := do
  let m ← readLoop stdin.length stdin m
  let m := m.sortArrivalsBy qsort
  customersLoop m.numArrivals 0 m

/-- `read_input`. -/
def readInput (stdin : List Char) (m : Memory) : Option Memory := m.readInputBy Bakery.readInput stdin

/-! ## `process_arrivals_at_time` -/

/-- A customer enters. -/
def enter (m : Memory) : Option Memory := do
  let ci := m.arrivalIdx
  let m ← m.setCustomer ci (fun c => { c with entered := true })
  let m ← { m with peopleInside := m.peopleInside + 1 }.print .enters ci none
  let standing ← m.standing.push ci
  some { m with standing := standing, arrivalIdx := m.arrivalIdx + 1 }

def arrivalsLoop : Nat → Memory → Option Memory
  | 0, m => some m
  | n + 1, m =>
    if m.arrivalIdx < m.numArrivals then do
      let a ← readAt maxArrivals m.arrivals m.arrivalIdx
      if a.ts ≠ m.currentTime then some m
      else if maxCapacity ≤ m.peopleInside then arrivalsLoop n { m with arrivalIdx := m.arrivalIdx + 1 }
      else do
        let m ← m.enter
        arrivalsLoop n m
    else some m

def processArrivals (m : Memory) : Option Memory := m.arrivalsLoop m.numArrivals

/-! ## `finish_tasks_at_time` -/

/-- The loop that rebuilds the sofa without `ci`. -/
def rebuildLoop (ci : Nat) : Nat → Queue → Queue → Option Queue
  | 0, _, new => some new
  | n + 1, old, new =>
    if old.empty then some new
    else do
      let (x, old) ← old.pop
      if x ≠ ci then do
        let new ← new.push x
        rebuildLoop ci n old new
      else rebuildLoop ci n old new

/-- The payment that is accepted now, and its customer leaves. -/
def finishAccept (junk : Queue) (m : Memory) : Option Memory :=
  if m.registerBusy ∧ m.accepting.endTime = m.currentTime then do
    let ci := m.accepting.cust
    let m ← m.setCustomer ci (fun c =>
      { c with
        tAcceptEnd := m.currentTime, acceptStarted := false, paid := true, tLeave := m.currentTime, done := true })
    let m ← m.print .leaves ci none
    let m := m.setChef m.accepting.chef true
    let sofa ← rebuildLoop ci m.sofa.size.toNat m.sofa junk.init
    some { m with
      registerBusy := false, peopleInside := m.peopleInside - 1, lastSeatFreed := m.currentTime, sofa := sofa }
  else some m

/-- A cake is ready. -/
def bakeDone (m : Memory) (b : Task) : Option Memory := do
  let m ← m.setCustomer b.cust (fun c =>
    { c with baked := true, baking := false, tBakeEnd := m.currentTime, tPayTime := m.currentTime })
  let m ← m.print .pays b.cust none
  let ready ← m.ready.push b.cust
  let m := { m with ready := ready }.setChef b.chef true
  some { m with ovensAvailable := m.ovensAvailable + 1 }

def finishBakesLoop : List Task → Memory → List Task → Option (Memory × List Task)
  | [], m, kept => some (m, kept)
  | b :: bs, m, kept =>
    if b.endTime = m.currentTime then do
      let m ← m.bakeDone b
      finishBakesLoop bs m kept
    else finishBakesLoop bs m (kept ++ [b])

def finishBakes (m : Memory) : Option Memory :=
  if 0 < m.baking.length then do
    let (m, kept) ← finishBakesLoop m.baking m []
    some { m with baking := kept }
  else some m

def finishTasks (junk : Queue) (m : Memory) : Option Memory := do
  let m ← m.finishAccept junk
  m.finishBakes

/-! ## The sofa -/

def moveLoop : Nat → Memory → Option Memory
  | 0, m => some m
  | n + 1, m =>
    if m.sofa.size < sofaCapacity ∧ !m.standing.empty then do
      let ci ← m.standing.front
      let c ← readAt maxArrivals m.customers ci
      let earliest := c.arrivalTs + tCustomerAction
      let delay := if m.lastSeatFreed = -1 then 0 else m.lastSeatFreed + 1
      if m.currentTime < (if delay < earliest then earliest else delay) then some m
      else do
        let (_, standing) ← m.standing.pop
        let sofa ← m.sofa.push ci
        let m ← { m with standing := standing, sofa := sofa }.setCustomer ci (fun c =>
          { c with seated := true, tSat := m.currentTime })
        let m ← m.print .sits ci none
        moveLoop n m
    else some m

/-- `move_standing_to_sofa_if_possible`. -/
def moveStanding (m : Memory) : Option Memory := m.moveLoop m.standing.size.toNat

def request (m : Memory) (ci : Nat) : Option Memory := do
  let c ← readAt maxArrivals m.customers ci
  if c.seated ∧ ¬c.requested then
    if c.tSat + tCustomerAction ≤ m.currentTime then do
      let m ← m.setCustomer ci (fun c => { c with requested := true, tRequest := m.currentTime })
      m.print .requests ci none
    else some m
  else some m

def requestLoop : Nat → Memory → Option Memory
  | 0, m => some m
  | n + 1, m => do
    let (ci, sofa) ← m.sofa.pop
    let m ← { m with sofa := sofa }.request ci
    let sofa ← m.sofa.push ci
    requestLoop n { m with sofa := sofa }

/-- `make_requests_from_sofa`. -/
def makeRequests (m : Memory) : Option Memory := m.requestLoop m.sofa.size.toNat

/-! ## Tasks that begin -/

def acceptLoop : Nat → Memory → Option Memory
  | 0, m => some m
  | n + 1, m =>
    if m.registerBusy then some m
    else if m.getFreeChef = 0 then some m
    else if m.ready.empty then some m
    else do
      let ci ← m.ready.front
      let c ← readAt maxArrivals m.customers ci
      if m.currentTime < c.tPayTime + tCustomerAction then some m
      else do
        let (_, ready) ← m.ready.pop
        let chef := m.getFreeChef
        let m ← { m with ready := ready }.setCustomer ci (fun c =>
          { c with acceptStarted := true, tAcceptStart := m.currentTime, tAcceptEnd := m.currentTime + tChefAction })
        let m := { m with registerBusy := true }.setChef chef false
        let c ← readAt maxArrivals m.customers ci
        let m ← { m with accepting := ⟨ci, chef, c.tAcceptEnd⟩ }.print .accepts ci (some chef)
        acceptLoop n m

/-- `schedule_accepts`. -/
def scheduleAccepts (m : Memory) : Option Memory := m.acceptLoop m.ready.size.toNat

/-- The loop that copies the sofa to `temp` and turns it once. -/
def rotateLoop : Nat → Queue → List Nat → Option (List Nat × Queue)
  | 0, q, temp => some (temp, q)
  | n + 1, q, temp => do
    let (ci, q) ← q.pop
    let q ← q.push ci
    rotateLoop n q (temp ++ [ci])

/-- The loop for the first customer in `temp` for whom a chef may bake. -/
def findTarget (m : Memory) : List Nat → Option (Option Nat)
  | [] => some none
  | ci :: temp => do
    let c ← readAt maxArrivals m.customers ci
    if c.requested && !c.baking && !c.baked && decide (c.tRequest + tCustomerAction ≤ m.currentTime) then some (some ci)
    else findTarget m temp

def bakeLoop : Nat → Memory → Option Memory
  | 0, m => some m
  | n + 1, m =>
    if m.ovensAvailable ≤ 0 then some m
    else if m.getFreeChef = 0 then some m
    else if m.sofa.size = 0 then some m
    else do
      let (temp, sofa) ← rotateLoop m.sofa.size.toNat m.sofa []
      let m := { m with sofa := sofa }
      match ← m.findTarget temp with
      | none => some m
      | some ci => do
        let chef := m.getFreeChef
        let m ← m.setCustomer ci (fun c =>
          { c with baking := true, tBakeStart := m.currentTime, tBakeEnd := m.currentTime + tChefAction })
        let c ← readAt maxArrivals m.customers ci
        let m := { m with baking := m.baking ++ [Task.mk ci chef c.tBakeEnd], ovensAvailable := m.ovensAvailable - 1 }
        let m ← (m.setChef chef false).print .bakes ci (some chef)
        bakeLoop n m

/-- `schedule_bakes`. -/
def scheduleBakes (m : Memory) : Option Memory := m.bakeLoop m.ovensAvailable.toNat

/-! ## `main` -/

def stops (m : Memory) : Bool :=
  !(m.registerBusy || decide (0 < m.baking.length)) &&
    !(decide (0 < m.peopleInside) || decide (m.arrivalIdx < m.numArrivals) || !m.standing.empty || !m.sofa.empty || !m.ready.empty)

def tick (junk : Queue) (m : Memory) : Option Memory := do
  let m ← m.processArrivals
  let m ← m.finishTasks junk
  let m ← m.moveStanding
  let m ← m.makeRequests
  let m ← m.scheduleAccepts
  m.scheduleBakes

def advance (m : Memory) : Memory := { m with currentTime := m.currentTime + 1 }

/-- The loop for at most a number of seconds, and whether it has ended by then. -/
def mainLoop (junk : Queue) : Nat → Memory → Option (Memory × Bool)
  | 0, m => some (m, false)
  | n + 1, m => do
    let m ← m.tick junk
    if m.stops then some (m, true) else mainLoop junk n m.advance

/-- The global variables when the program starts. -/
def zero : Memory :=
  let queue : Queue := ⟨fun _ => 0, 0, 0, 0⟩
  let customer : Customer := { Customer.fresh ⟨0, 0⟩ with
    tSat := 0, tRequest := 0, tBakeStart := 0, tBakeEnd := 0, tPayTime := 0, tAcceptStart := 0, tAcceptEnd := 0, tLeave := 0 }
  { arrivals := fun _ => ⟨0, 0⟩, numArrivals := 0, customers := fun _ => customer, standing := queue, sofa := queue, ready := queue
    baking := [], accepting := ⟨0, 0, 0⟩, registerBusy := false, chefFree := fun _ => false, ovensAvailable := numOvens
    peopleInside := 0, currentTime := 0, lastSeatFreed := -1, arrivalIdx := 0, out := [] }

end Memory

/-- `main` on an input, for at most a number of seconds, with a way to sort that is not known: `none` when an index has been outside its
array. -/
def runMemoryBy (qsort : List Arrival → List Arrival) (junk : Queue) (stdin : List Char) (seconds : Nat) : Option (Memory × Bool) := do
  let m ← Memory.zero.readInputBy qsort stdin
  let m := { m with
    standing := m.standing.init, sofa := m.sofa.init, ready := m.ready.init, chefFree := fun _ => true, ovensAvailable := numOvens
    registerBusy := false, accepting := ⟨0, 0, -1⟩ }
  if m.numArrivals = 0 then some (m, true)
  else do
    let first ← readAt maxArrivals m.arrivals 0
    Memory.mainLoop junk seconds { m with currentTime := first.ts }

/-- `main` with the one way to sort that there is. -/
def runMemory (junk : Queue) (stdin : List Char) (seconds : Nat) : Option (Memory × Bool) := runMemoryBy readInput junk stdin seconds

end Xv6SnifferBakery.Bakery
