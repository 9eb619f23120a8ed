import Xv6SnifferBakery.Kernel.Params
import Xv6SnifferBakery.Lib.Ring
import Xv6SnifferBakery.Lib.Transition

/-!
# The disk driver

`kernel/virtio_disk.c` with the device behind it. Calls of `virtio_disk_rw` and the interrupt handler run between `acquire`, `sleep` and
`release` of `vdisk_lock`; the device takes requests off one ring, carries them out in any order and at any time, and puts what it has
done on the other. An address in a descriptor is what it points to. The device is one that succeeds: it writes the status 0.
-/

namespace Xv6SnifferBakery.Kernel

open Lib

/-- `NUM`. -/
def numDesc : Nat := 8

def vringDescFNext : Nat := 1
def vringDescFWrite : Nat := 2

def virtioBlkTIn : Nat := 0
def virtioBlkTOut : Nat := 1

/-- What the address of a descriptor points to: nothing, `disk.ops[i]`, `b->data`, or `disk.info[i].status`. -/
inductive VringPtr where
  | null
  | op (i : Nat)
  | data (b : Nat)
  | status (i : Nat)
  deriving DecidableEq, Repr

/-- `struct virtq_desc`. -/
structure VirtqDesc where
  addr : VringPtr
  len : Nat
  flags : Nat
  next : Nat
  deriving DecidableEq, Repr

/-- `struct virtio_blk_req`. -/
structure VirtioBlkReq where
  type : Nat
  reserved : Nat
  sector : UInt64
  deriving DecidableEq, Repr

/-- An entry of `disk.info`. -/
structure VdiskInfo where
  b : Option Nat
  status : Nat
  deriving DecidableEq, Repr

/-- `struct disk`, with the two rings that the device shares. -/
structure Vdisk where
  desc : Nat → VirtqDesc
  availIdx : UInt16
  availRing : Nat → Nat
  usedRing : Nat → Nat
  usedRingIdx : UInt16
  free : Nat → Bool
  usedIdx : UInt16
  info : Nat → VdiskInfo
  ops : Nat → VirtioBlkReq

/-- What the driver uses of a `struct buf`, and who holds its sleep lock. -/
structure DiskBuf (α : Type) where
  lock : Option Nat
  disk : Bool
  blockno : UInt32
  data : α

/-- `b->blockno * (BSIZE / 512)`, a product of 32 bits. -/
def DiskBuf.sector {α : Type} (b : DiskBuf α) : UInt64 := (b.blockno * 2).toUInt64

/-- The device: the blocks by their first sector, how far it has looked into `avail`, and the requests it has taken and carried out. -/
structure BlkDevice (α : Type) where
  sectors : UInt64 → α
  lastAvail : UInt16
  taken : List Nat
  performed : List Nat

/-- Where a call stands: before it has descriptors, before `avail->idx` is advanced, and at the loop that waits. -/
inductive VdiskPoint where
  | alloc
  | publish (i j k : Nat)
  | wait (i j k : Nat)
  deriving DecidableEq, Repr

inductive VdiskMode where
  | acquiring | running | asleep
  deriving DecidableEq, Repr

/-- A call of `virtio_disk_rw`. -/
structure VdiskCall where
  b : Nat
  write : Bool
  point : VdiskPoint
  mode : VdiskMode
  deriving DecidableEq, Repr

/-- The channels of `sleep`: `&disk.free[0]` and the buffer. -/
inductive VdiskChan where
  | free
  | buf (b : Nat)
  deriving DecidableEq, Repr

def VdiskCall.chan (c : VdiskCall) : VdiskChan := if c.point = .alloc then .free else .buf c.b

def VdiskCall.woken (chan : VdiskChan) (c : VdiskCall) : VdiskCall :=
  if c.mode = .asleep ∧ c.chan = chan then { c with mode := .acquiring } else c

/-- Who has `vdisk_lock`. -/
inductive VdiskHolder where
  | call (u : Nat)
  | intr
  deriving DecidableEq, Repr

/-- The panics of the driver; `freeChain` is a chain that does not end. -/
inductive VdiskPanic where
  | freeDesc1 | freeDesc2 | intrStatus | freeChain
  deriving DecidableEq, Repr

structure VdiskSys (α : Type) where
  disk : Vdisk
  bufs : Nat → DiskBuf α
  device : BlkDevice α
  lock : Option VdiskHolder
  call : Nat → Option VdiskCall

inductive VdiskAction (α : Type) where
  /-- `acquiresleep(&b->lock)`. -/
  | hold (u b : Nat)
  /-- `releasesleep(&b->lock)`. -/
  | unhold (u b : Nat)
  /-- The holder of a buffer changes its block number and its data. -/
  | edit (u b : Nat) (blockno : UInt32) (d : α)
  /-- A call of `virtio_disk_rw` begins. -/
  | rw (u b : Nat) (write : Bool)
  /-- A call gets `vdisk_lock`. -/
  | acquire (u : Nat)
  /-- `alloc3_desc`, and the request in the descriptors; or `sleep`. -/
  | alloc (u : Nat)
  /-- `disk.avail->idx += 1`. -/
  | publish (u : Nat)
  /-- `sleep` while `b->disk == 1`. -/
  | sleep (u : Nat)
  /-- `kkill` of a process that sleeps in a call: its `sleep` ends. -/
  | kkill (u : Nat)
  /-- The end of a call. -/
  | ret (u : Nat)
  /-- The interrupt handler gets `vdisk_lock`. -/
  | intr
  /-- One turn of the loop of the handler. -/
  | handle
  /-- The handler ends. -/
  | intrEnd
  /-- The device takes the next request off `avail`. -/
  | take
  /-- The device carries a request out. -/
  | perform (h : Nat)
  /-- The device puts a request on `used`. -/
  | complete (h : Nat)

namespace VdiskSys

variable {α : Type}

/-- `virtio_disk_init`: the pages of the queue are zero, all descriptors are free. -/
def boot (sectors : UInt64 → α) (bufs : Nat → DiskBuf α) : VdiskSys α where
  disk :=
    { desc := fun _ => ⟨.null, 0, 0, 0⟩, availIdx := 0, availRing := fun _ => 0, usedRing := fun _ => 0, usedRingIdx := 0,
      free := fun _ => true, usedIdx := 0, info := fun _ => ⟨none, 0⟩, ops := fun _ => ⟨0, 0, 0⟩ }
  bufs b := { bufs b with lock := none, disk := false }
  device := ⟨sectors, 0, [], []⟩
  lock := none
  call := fun _ => none

def setCall (s : VdiskSys α) (u : Nat) (o : Option VdiskCall) : VdiskSys α := { s with call := Function.update s.call u o }

def setBuf (s : VdiskSys α) (b : Nat) (x : DiskBuf α) : VdiskSys α := { s with bufs := Function.update s.bufs b x }

def setLock (s : VdiskSys α) (o : Option VdiskHolder) : VdiskSys α := { s with lock := o }

def setDisk (s : VdiskSys α) (d : Vdisk) : VdiskSys α := { s with disk := d }

def setDevice (s : VdiskSys α) (d : BlkDevice α) : VdiskSys α := { s with device := d }

/-- `wakeup`. -/
def wakeup (s : VdiskSys α) (chan : VdiskChan) : VdiskSys α := { s with call := fun u => (s.call u).map (VdiskCall.woken chan) }

/-! ## Descriptors -/

def allocDesc (s : VdiskSys α) : Option (Nat × VdiskSys α) :=
  ((List.range numDesc).find? s.disk.free).map (fun i => (i, s.setDisk { s.disk with free := Function.update s.disk.free i false }))

def freeDesc (s : VdiskSys α) (i : Nat) : Except VdiskPanic (VdiskSys α) :=
  if numDesc ≤ i then .error .freeDesc1
  else if s.disk.free i then .error .freeDesc2
  else
    .ok ((s.setDisk { s.disk with desc := Function.update s.disk.desc i ⟨.null, 0, 0, 0⟩, free := Function.update s.disk.free i true }).wakeup
      .free)

/-- `free_chain`, for a number of turns. -/
def freeChain : Nat → VdiskSys α → Nat → Except VdiskPanic (VdiskSys α)
  | 0, _, _ => .error .freeChain
  | n + 1, s, i => do
    let d := s.disk.desc i
    let s ← s.freeDesc i
    if d.flags &&& vringDescFNext ≠ 0 then freeChain n s d.next else .ok s

/-- `alloc3_desc`: the three descriptors, or none when there are not three; the ones it has taken it gives back. -/
def alloc3Desc (s : VdiskSys α) : Except VdiskPanic (Option (Nat × Nat × Nat) × VdiskSys α) :=
  match s.allocDesc with
  | none => .ok (none, s)
  | some (i, s) =>
    match s.allocDesc with
    | none => do
      let s ← s.freeDesc i
      .ok (none, s)
    | some (j, s) =>
      match s.allocDesc with
      | none => do
        let s ← s.freeDesc i
        let s ← s.freeDesc j
        .ok (none, s)
      | some (k, s) => .ok (some (i, j, k), s)

/-- The request in the three descriptors, in `disk.info`, in the buffer and in the next slot of `avail`. -/
def format (s : VdiskSys α) (b : Nat) (write : Bool) (i j k : Nat) : VdiskSys α :=
  let d := s.disk
  let desc := Function.update d.desc i ⟨.op i, 16, vringDescFNext, j⟩
  let desc := Function.update desc j ⟨.data b, 1024, (if write then 0 else vringDescFWrite) ||| vringDescFNext, k⟩
  let desc := Function.update desc k ⟨.status i, 1, vringDescFWrite, 0⟩
  (s.setDisk
    { d with
      desc
      ops := Function.update d.ops i ⟨if write then virtioBlkTOut else virtioBlkTIn, 0, (s.bufs b).sector⟩
      info := Function.update d.info i ⟨some b, 0xff⟩
      availRing := Function.update d.availRing (d.availIdx.toNat % numDesc) i }).setBuf b { s.bufs b with disk := true }

/-! ## The device -/

/-- What a request asks for: a write or a read, the block, the buffer, and the byte for the status. Nothing, where it is malformed. -/
def request (d : Vdisk) (h : Nat) : Option (Bool × UInt64 × Nat × Nat) :=
  let d0 := d.desc h
  let d1 := d.desc d0.next
  let d2 := d.desc d1.next
  match d0.addr, d1.addr, d2.addr with
  | .op i, .data b, .status st =>
    let out := (d.ops i).type = virtioBlkTOut
    if d0.len = 16 ∧ d0.flags = vringDescFNext ∧ d1.len = 1024 ∧
        d1.flags = (if out then 0 else vringDescFWrite) ||| vringDescFNext ∧ d2.len = 1 ∧ d2.flags = vringDescFWrite then
      some (out, (d.ops i).sector, b, st)
    else none
  | _, _, _ => none

/-- A request is carried out. -/
def transfer (s : VdiskSys α) (write : Bool) (sector : UInt64) (b st : Nat) : VdiskSys α :=
  let s := s.setDisk { s.disk with info := Function.update s.disk.info st { s.disk.info st with status := 0 } }
  if write then s.setDevice { s.device with sectors := Function.update s.device.sectors sector (s.bufs b).data }
  else s.setBuf b { s.bufs b with data := s.device.sectors sector }

/-! ## Steps -/

/-- A call that has the lock and stands where the action takes it on. -/
def running (s : VdiskSys α) (u : Nat) : Option VdiskCall := (s.call u).filter (fun c => c.mode = .running)

/-- One step, where it can happen: a state, or a panic. -/
def step (s : VdiskSys α) : VdiskAction α → Option (Except VdiskPanic (VdiskSys α))
  | .hold u b => if (s.bufs b).lock = none then some (.ok (s.setBuf b { s.bufs b with lock := some u })) else none
  | .unhold u b =>
    if (s.bufs b).lock = some u ∧ s.call u = none then some (.ok (s.setBuf b { s.bufs b with lock := none })) else none
  | .edit u b blockno d =>
    if (s.bufs b).lock = some u ∧ s.call u = none then
      some (.ok (s.setBuf b { s.bufs b with blockno := blockno, data := d }))
    else none
  | .rw u b write =>
    if (s.bufs b).lock = some u ∧ s.call u = none then some (.ok (s.setCall u (some ⟨b, write, .alloc, .acquiring⟩))) else none
  | .acquire u =>
    match s.call u with
    | some c =>
      if c.mode = .acquiring ∧ s.lock = none then
        some (.ok ((s.setCall u (some { c with mode := .running })).setLock (some (.call u))))
      else none
    | none => none
  | .alloc u =>
    match s.running u with
    | some ⟨b, write, .alloc, _⟩ =>
      some (do
        let (r, s) ← s.alloc3Desc
        match r with
        | some (i, j, k) => .ok ((s.format b write i j k).setCall u (some ⟨b, write, .publish i j k, .running⟩))
        | none => .ok ((s.setCall u (some ⟨b, write, .alloc, .asleep⟩)).setLock none))
    | _ => none
  | .publish u =>
    match s.running u with
    | some ⟨b, write, .publish i j k, _⟩ =>
      some (.ok ((s.setDisk { s.disk with availIdx := s.disk.availIdx + 1 }).setCall u (some ⟨b, write, .wait i j k, .running⟩)))
    | _ => none
  | .sleep u =>
    match s.running u with
    | some ⟨b, write, .wait i j k, _⟩ =>
      if (s.bufs b).disk then some (.ok ((s.setCall u (some ⟨b, write, .wait i j k, .asleep⟩)).setLock none)) else none
    | _ => none
  | .kkill u =>
    match s.call u with
    | some c => if c.mode = .asleep then some (.ok (s.setCall u (some { c with mode := .acquiring }))) else none
    | none => none
  | .ret u =>
    match s.running u with
    | some ⟨b, _, .wait i _ _, _⟩ =>
      if (s.bufs b).disk then none
      else
        some (do
          let s ← freeChain numDesc (s.setDisk { s.disk with info := Function.update s.disk.info i { s.disk.info i with b := none } }) i
          .ok ((s.setCall u none).setLock none))
    | _ => none
  | .intr => if s.lock = none then some (.ok (s.setLock (some .intr))) else none
  | .handle =>
    if s.lock = some .intr ∧ s.disk.usedIdx ≠ s.disk.usedRingIdx then
      let id := s.disk.usedRing (s.disk.usedIdx.toNat % numDesc)
      if (s.disk.info id).status ≠ 0 then some (.error .intrStatus)
      else
        let s := s.setDisk { s.disk with usedIdx := s.disk.usedIdx + 1 }
        match (s.disk.info id).b with
        | some b => some (.ok ((s.setBuf b { s.bufs b with disk := false }).wakeup (.buf b)))
        | none => none
    else none
  | .intrEnd =>
    if s.lock = some .intr ∧ s.disk.usedIdx = s.disk.usedRingIdx then some (.ok (s.setLock none)) else none
  | .take =>
    if s.device.lastAvail = s.disk.availIdx then none
    else
      let h := s.disk.availRing (s.device.lastAvail.toNat % numDesc)
      some (.ok (s.setDevice { s.device with lastAvail := s.device.lastAvail + 1, taken := s.device.taken ++ [h] }))
  | .perform h =>
    if h ∈ s.device.taken then
      match request s.disk h with
      | some (write, sector, b, st) =>
        let s := s.setDevice { s.device with taken := s.device.taken.erase h, performed := s.device.performed ++ [h] }
        some (.ok (s.transfer write sector b st))
      | none => none
    else none
  | .complete h =>
    if h ∈ s.device.performed then
      let d := s.disk
      let ring := Function.update d.usedRing (d.usedRingIdx.toNat % numDesc) h
      some (.ok ((s.setDisk { d with usedRing := ring, usedRingIdx := d.usedRingIdx + 1 }).setDevice
        { s.device with performed := s.device.performed.erase h }))
    else none

end VdiskSys

/-! ## Atomic transfers -/

/-- A call on a disk that transfers a block at once. -/
structure BlockCall where
  b : Nat
  write : Bool
  done : Bool

/-- What the driver is for: every call transfers its block once, at one moment before it returns. -/
@[ext] structure BlockIo (α : Type) where
  sectors : UInt64 → α
  lock : Nat → Option Nat
  sector : Nat → UInt64
  data : Nat → α
  call : Nat → Option BlockCall

inductive BlockAction (α : Type) where
  | hold (u b : Nat)
  | unhold (u b : Nat)
  | edit (u b : Nat) (blockno : UInt32) (d : α)
  | rw (u b : Nat) (write : Bool)
  | transfer (u : Nat)
  | ret (u : Nat)

namespace BlockIo

variable {α : Type}

inductive Step : BlockIo α → BlockAction α → BlockIo α → Prop where
  | hold {s : BlockIo α} {u b : Nat} : s.lock b = none → Step s (.hold u b) { s with lock := Function.update s.lock b (some u) }
  | unhold {s : BlockIo α} {u b : Nat} : s.lock b = some u → s.call u = none →
      Step s (.unhold u b) { s with lock := Function.update s.lock b none }
  | edit {s : BlockIo α} {u b : Nat} {blockno : UInt32} {d : α} : s.lock b = some u → s.call u = none →
      Step s (.edit u b blockno d)
        { s with sector := Function.update s.sector b (blockno * 2).toUInt64, data := Function.update s.data b d }
  | rw {s : BlockIo α} {u b : Nat} {write : Bool} : s.lock b = some u → s.call u = none →
      Step s (.rw u b write) { s with call := Function.update s.call u (some ⟨b, write, false⟩) }
  | read {s : BlockIo α} {u b : Nat} : s.call u = some ⟨b, false, false⟩ →
      Step s (.transfer u)
        { s with data := Function.update s.data b (s.sectors (s.sector b)), call := Function.update s.call u (some ⟨b, false, true⟩) }
  | write {s : BlockIo α} {u b : Nat} : s.call u = some ⟨b, true, false⟩ →
      Step s (.transfer u)
        { s with sectors := Function.update s.sectors (s.sector b) (s.data b), call := Function.update s.call u (some ⟨b, true, true⟩) }
  | ret {s : BlockIo α} {u b : Nat} {write : Bool} : s.call u = some ⟨b, write, true⟩ →
      Step s (.ret u) { s with call := Function.update s.call u none }

end BlockIo

/-- The steps of the driver that its callers see. -/
def VdiskAction.seen {α : Type} : VdiskAction α → Option (BlockAction α)
  | .hold u b => some (.hold u b)
  | .unhold u b => some (.unhold u b)
  | .edit u b blockno d => some (.edit u b blockno d)
  | .rw u b write => some (.rw u b write)
  | .ret u => some (.ret u)
  | _ => none

def BlockAction.seen {α : Type} : BlockAction α → Option (BlockAction α)
  | .transfer _ => none
  | a => some a

end Xv6SnifferBakery.Kernel
