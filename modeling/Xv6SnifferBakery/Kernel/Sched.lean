import Xv6SnifferBakery.Kernel.Proc
import Xv6SnifferBakery.Lib.Transition

/-!
# Scheduling, sleep and wakeup

`scheduler`, `sched`, `yield`, `sleep`, `wakeup` and `kkill` of `kernel/proc.c`, `kernel/sleeplock.c` and the spinlocks under them, on any
number of CPUs. A step of a CPU takes or gives up at most one spinlock, with the assignments that go with it; between two steps of one CPU
the others may take any number of theirs. The kernel thread of a process is in one of these functions or outside of them (`run`), where it
may call any of them. A timer interrupt comes when interrupts are on.
-/

namespace Xv6SnifferBakery.Sched

open Kernel (ProcState nProc)

/-! ## Processes, sleep locks and CPUs -/

/-- A spinlock: `lk` of a sleep lock, or `lock` of a process. -/
inductive LockId where
  | lk (l : Nat)
  | proc (i : Nat)
  deriving DecidableEq, Repr

/-- What `p->lock` guards, and the `pid`. The channels are the sleep locks; `none` is the channel `0`. -/
structure Proc where
  state : ProcState
  chan : Option Nat
  killed : Bool
  pid : Int
  deriving DecidableEq, Repr

/-- `struct sleeplock` without its spinlock. -/
structure Sleeplock where
  locked : Bool
  pid : Int
  deriving DecidableEq, Repr

/-- The tables under the spinlocks. `owns` is not in the source: the sleep locks that a process has got and not given back. -/
structure Data where
  proc : Nat → Proc
  slk : Nat → Sleeplock
  owns : Nat → Nat → Bool

/-- Where the kernel thread of a process is: each position is before the access to a spinlock, or before the code that reads the data. -/
inductive Pc where
  | run
  | forkret
  | acquiresleep (l : Nat)
  /-- `while (lk->locked)` -/
  | test (l : Nat)
  | sleep (l : Nat)
  /-- `release(lk)` of `sleep` -/
  | sleepRelease (l : Nat)
  | sleepSched (l : Nat)
  /-- behind `swtch`, with the `intena` of `sched` -/
  | sleepBack (l : Nat) (intena : Bool)
  | sleepLeave (l : Nat)
  /-- `acquire(lk)` of `sleep` -/
  | sleepAcquire (l : Nat)
  | releasesleep (l : Nat)
  | clear (l : Nat)
  | wakeup (l i : Nat)
  | wakeupTest (l i : Nat)
  | holdingsleep (l : Nat)
  | holdingRead (l : Nat)
  /-- the caller of `holdingsleep` with the result -/
  | held (l : Nat) (r : Bool)
  | kkill (pid : Int) (i : Nat)
  | kkillTest (pid : Int) (i : Nat)
  deriving DecidableEq, Repr

/-- Where a thread is that a timer interrupt has sent into `yield`. -/
inductive Trap where
  | yield
  | sched
  /-- behind `swtch`, with the `intena` of `sched` -/
  | back (intena : Bool)
  | leave
  | sret
  deriving DecidableEq, Repr

/-- A kernel thread. `intr` is not in the source: whether interrupts were on at the last call from `run`. -/
structure Thread where
  pc : Pc
  trap : Option Trap
  intr : Bool
  deriving DecidableEq, Repr

/-- Where the scheduler of a CPU is. In `away` it has switched to the process, in `home` the process has switched back. -/
inductive Ctl where
  | loop
  | scan (i : Nat)
  | look (i : Nat)
  | away (i : Nat)
  | home (i : Nat)
  deriving DecidableEq, Repr

/-- `struct cpu`, with the interrupt flag and where its scheduler is. -/
structure Cpu where
  proc : Option Nat
  noff : Nat
  intena : Bool
  intr : Bool
  ctl : Ctl
  deriving DecidableEq, Repr

/-- The CPUs, who holds which spinlock, the threads, and the data. -/
structure State where
  cpus : Nat → Cpu
  lock : LockId → Option Nat
  thread : Nat → Thread
  data : Data

def State.setCpu (s : State) (c : Nat) (u : Cpu) : State := { s with cpus := Function.update s.cpus c u }

def State.setThread (s : State) (i : Nat) (th : Thread) : State := { s with thread := Function.update s.thread i th }

def State.setCtl (s : State) (c : Nat) (ctl : Ctl) : State := s.setCpu c { s.cpus c with ctl := ctl }

def Data.setProc (d : Data) (i : Nat) (p : Proc) : Data := { d with proc := Function.update d.proc i p }

def Data.setSlk (d : Data) (l : Nat) (k : Sleeplock) : Data := { d with slk := Function.update d.slk l k }

def Data.setOwns (d : Data) (i l : Nat) (b : Bool) : Data := { d with owns := Function.update d.owns i (Function.update (d.owns i) l b) }

/-! ## Spinlocks -/

/-- A step ends in a state or in a panic; a CPU that spins, or that the action does not concern, takes none. -/
inductive Result where
  | spin
  | panic (msg : String)
  | next (s : State)

def Result.bind : Result → (State → Result) → Result
  | .spin, _ => .spin
  | .panic msg, _ => .panic msg
  | .next s, f => f s

def pushOff (u : Cpu) : Cpu :=
  { u with intr := false, intena := if u.noff = 0 then u.intr else u.intena, noff := u.noff + 1 }

def popOff (u : Cpu) : Except String Cpu :=
  if u.intr then .error "pop_off - interruptible"
  else if u.noff < 1 then .error "pop_off"
  else .ok { u with noff := u.noff - 1, intr := u.noff - 1 = 0 && u.intena }

def acquire (s : State) (c : Nat) (k : LockId) : Result :=
  if s.lock k = some c then .panic "acquire"
  else if s.lock k = none then .next { s.setCpu c (pushOff (s.cpus c)) with lock := Function.update s.lock k (some c) }
  else .spin

def release (s : State) (c : Nat) (k : LockId) : Result :=
  if s.lock k ≠ some c then .panic "release"
  else match popOff (s.cpus c) with
    | .error msg => .panic msg
    | .ok u => .next { s.setCpu c u with lock := Function.update s.lock k none }

/-! ## Processes -/

/-- What a thread does next. -/
inductive Op where
  | acquire (k : LockId) (th : Thread)
  | release (d : Data) (k : LockId) (th : Thread)
  | goto (d : Data) (th : Thread)
  | sched (d : Data) (th : Bool → Thread)
  | restore (intena : Bool) (th : Thread)
  | intr (b : Bool) (th : Thread)
  | panic (msg : String)

/-- What the environment asks of a CPU: to go on, a call from `run`, or a timer interrupt. `unlock` is the way of `brelse` and `iunlock`
to `releasesleep`, through `holdingsleep`. -/
inductive Act where
  | go
  | acquiresleep (l : Nat)
  | unlock (l : Nat)
  | kkill (pid : Int)
  | intrOn
  | intrOff
  | timer
  deriving DecidableEq, Repr

/-- `if(p->state == SLEEPING) p->state = RUNNABLE`. -/
def Proc.awake (p : Proc) : Proc := if p.state = .sleeping then { p with state := .runnable } else p

/-- The code of process `me`, outside of a trap; `on` is what `intr_get` says. -/
def Thread.code (d : Data) (me : Nat) (on : Bool) (a : Act) (th : Thread) : Option Op :=
  match th.pc with
  | .run =>
    match a with
    | .acquiresleep l => some (.goto d { th with pc := .acquiresleep l, intr := on })
    | .unlock l => some (.goto d { th with pc := .holdingsleep l, intr := on })
    | .kkill pid => some (.goto d { th with pc := .kkill pid 0, intr := on })
    | .intrOn => some (.intr true th)
    | .intrOff => some (.intr false th)
    | .go | .timer => none
  | .forkret => some (.release d (.proc me) { th with pc := .run })
  | .acquiresleep l => some (.acquire (.lk l) { th with pc := .test l })
  | .test l =>
    if (d.slk l).locked then some (.goto d { th with pc := .sleep l })
    else some (.release ((d.setSlk l ⟨true, (d.proc me).pid⟩).setOwns me l true) (.lk l) { th with pc := .run })
  | .sleep l => some (.acquire (.proc me) { th with pc := .sleepRelease l })
  | .sleepRelease l => some (.release d (.lk l) { th with pc := .sleepSched l })
  | .sleepSched l =>
    some (.sched (d.setProc me { d.proc me with chan := some l, state := .sleeping }) fun b => { th with pc := .sleepBack l b })
  | .sleepBack l b => some (.restore b { th with pc := .sleepLeave l })
  | .sleepLeave l => some (.release (d.setProc me { d.proc me with chan := none }) (.proc me) { th with pc := .sleepAcquire l })
  | .sleepAcquire l => some (.acquire (.lk l) { th with pc := .test l })
  | .releasesleep l => some (.acquire (.lk l) { th with pc := .clear l })
  | .clear l => some (.goto ((d.setSlk l ⟨false, 0⟩).setOwns me l false) { th with pc := .wakeup l 0 })
  | .wakeup l i =>
    if i < nProc then
      if i = me then some (.goto d { th with pc := .wakeup l (i + 1) })
      else some (.acquire (.proc i) { th with pc := .wakeupTest l i })
    else some (.release d (.lk l) { th with pc := .run })
  | .wakeupTest l i =>
    some (.release (if (d.proc i).chan = some l then d.setProc i (d.proc i).awake else d) (.proc i) { th with pc := .wakeup l (i + 1) })
  | .holdingsleep l => some (.acquire (.lk l) { th with pc := .holdingRead l })
  | .holdingRead l =>
    some (.release d (.lk l) { th with pc := .held l ((d.slk l).locked && (d.slk l).pid = (d.proc me).pid) })
  | .held l r => if r then some (.goto d { th with pc := .releasesleep l }) else some (.panic "brelse")
  | .kkill pid i =>
    if i < nProc then some (.acquire (.proc i) { th with pc := .kkillTest pid i }) else some (.goto d { th with pc := .run })
  | .kkillTest pid i =>
    if (d.proc i).pid = pid then
      some (.release (d.setProc i { (d.proc i).awake with killed := true }) (.proc i) { th with pc := .run })
    else some (.release d (.proc i) { th with pc := .kkill pid (i + 1) })

/-- `yield`, and the return from the interrupt that called it. -/
def Thread.yield (d : Data) (me : Nat) (th : Thread) : Trap → Op
  | .yield => .acquire (.proc me) { th with trap := some .sched }
  | .sched => .sched (d.setProc me { d.proc me with state := .runnable }) fun b => { th with trap := some (.back b) }
  | .back b => .restore b { th with trap := some .leave }
  | .leave => .release d (.proc me) { th with trap := some .sret }
  | .sret => .intr true { th with trap := none }

def Thread.op (d : Data) (me : Nat) (on : Bool) (a : Act) (th : Thread) : Option Op :=
  match th.trap with
  | some t => some (th.yield d me t)
  | none => th.code d me on a

/-- `sched`: its checks, and the switch to the scheduler. -/
def sched (s : State) (c i : Nat) (d : Data) (th : Bool → Thread) : Result :=
  if s.lock (.proc i) ≠ some c then .panic "sched p->lock"
  else if (s.cpus c).noff ≠ 1 then .panic "sched locks"
  else if (d.proc i).state = .running then .panic "sched RUNNING"
  else if (s.cpus c).intr then .panic "sched interruptible"
  else .next ({ s with data := d }.setThread i (th (s.cpus c).intena) |>.setCtl c (.home i))

/-- A CPU does what the thread of process `i` does next. -/
def exec (s : State) (c i : Nat) : Op → Result
  | .acquire k th => (acquire s c k).bind fun s => .next (s.setThread i th)
  | .release d k th => (release { s with data := d } c k).bind fun s => .next (s.setThread i th)
  | .goto d th => .next ({ s with data := d }.setThread i th)
  | .sched d th => sched s c i d th
  | .restore b th => .next ((s.setCpu c { s.cpus c with intena := b }).setThread i th)
  | .intr b th => .next ((s.setCpu c { s.cpus c with intr := b }).setThread i th)
  | .panic msg => .panic msg

/-! ## The scheduler -/

/-- A timer interrupt on a CPU that runs a process. -/
def timer (s : State) (c i : Nat) : Result :=
  if (s.cpus c).intr then
    .next ((s.setCpu c { s.cpus c with intr := false }).setThread i { s.thread i with trap := some .yield })
  else .spin

def step (s : State) (c : Nat) (a : Act) : Result :=
  match (s.cpus c).ctl with
  | .loop => .next (s.setCpu c { s.cpus c with intr := false, ctl := .scan 0 })
  | .scan i =>
    if i < nProc then (acquire s c (.proc i)).bind fun s => .next (s.setCtl c (.look i))
    else .next (s.setCtl c .loop)
  | .look i =>
    if (s.data.proc i).state = .runnable then
      .next ({ s with data := s.data.setProc i { s.data.proc i with state := .running } }.setCpu c
        { s.cpus c with proc := some i, ctl := .away i })
    else (release s c (.proc i)).bind fun s => .next (s.setCtl c (.scan (i + 1)))
  | .away i =>
    if a = .timer then timer s c i
    else match (s.thread i).op s.data i (s.cpus c).intr a with
      | none => .spin
      | some op => exec s c i op
  | .home i =>
    (release (s.setCpu c { s.cpus c with proc := none }) c (.proc i)).bind fun s => .next (s.setCtl c (.scan (i + 1)))

/-- A step of CPU `c`. -/
def Step (s : State) (a : Nat × Act) (s' : State) : Prop := step s a.1 a.2 = .next s'

/-- Behind `main` and the first processes: the CPUs enter the scheduler, no lock is held, and a process is runnable and will start in
`forkret`, or its slot is unused. The processes have different identifiers. -/
structure Init (s : State) : Prop where
  cpus : ∀ c, (s.cpus c).ctl = .loop ∧ (s.cpus c).proc = none ∧ (s.cpus c).noff = 0
  lock : ∀ k, s.lock k = none
  thread : ∀ i, (s.thread i).pc = .forkret ∧ (s.thread i).trap = none
  state : ∀ i, (s.data.proc i).state = .unused ∨ i < nProc ∧ (s.data.proc i).state = .runnable
  pid : ∀ i j, (s.data.proc i).state ≠ .unused → (s.data.proc j).state ≠ .unused → (s.data.proc i).pid = (s.data.proc j).pid → i = j
  slk : ∀ l, (s.data.slk l).locked = false
  owns : ∀ i l, s.data.owns i l = false

end Xv6SnifferBakery.Sched
