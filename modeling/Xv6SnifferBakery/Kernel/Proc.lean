import Xv6SnifferBakery.Kernel.Vm

/-!
# Processes: tracked pages, swap and page faults

`struct proc` and the paging half of `proc.c`: the page table of tracked pages, the swap slots and the swap file, FIFO eviction,
and `handle_page_fault`. The source repeats two passages three times each, getting a page (`kallocEvict`) and mapping it
(`faultMap`); they are one definition here.
-/

namespace Xv6SnifferBakery.Kernel

inductive ProcState where
  | unused | used | sleeping | runnable | running | zombie
  deriving DecidableEq, Repr

/-- `page_info.state`. -/
inductive PageState where
  | unmapped | resident | swapped
  deriving DecidableEq, Repr

/-- `struct page_info`. -/
structure PageInfo where
  va : Nat
  state : PageState
  isDirty : Bool
  seq : Int
  swapSlot : Int
  deriving DecidableEq, Repr

/-- `struct segment_info`. -/
structure SegmentInfo where
  vaStart : Nat
  vaEnd : Nat
  fileOff : Nat
  filesz : Nat
  flags : Nat
  deriving DecidableEq, Repr

/-- The saved user registers the kernel looks at. -/
structure Trapframe where
  epc : Nat
  sp : Nat
  a0 : Nat
  a1 : Nat
  deriving DecidableEq, Repr

/-- `struct proc`. `pages` and `segments` are the first `num_pages` and `num_segments` entries of the source's arrays,
`trapframe` is the page and `tf` the registers in it, `ofile` and `swapFile` are indices of `ftable`, `cwd` and `execInode`
inode numbers. -/
structure Proc where
  state : ProcState
  killed : Bool
  xstate : Int
  pid : Int
  parent : Option Nat
  sz : Nat
  pagetable : PageTable
  trapframe : Option Pa
  tf : Trapframe
  ofile : Nat → Option Nat
  cwd : Option Nat
  name : List Char
  textStart : Nat
  textEnd : Nat
  dataStart : Nat
  dataEnd : Nat
  heapStart : Nat
  stackTop : Nat
  nextFifoSeq : Int
  swapFile : Option Nat
  swapSlotsUsed : Int
  swapBitmap : Nat → Bool
  pages : List PageInfo
  execInode : Option Nat
  segments : List SegmentInfo

/-- `setkilled`. -/
def Proc.kill (p : Proc) : Proc := { p with killed := true }

/-! ## Tracked pages -/

/-- `find_page_info`: the index of the entry of a page. -/
def findPageInfo (p : Proc) (va : Nat) : Option Nat := p.pages.findIdx? (fun e => e.va = pgRoundDown va)

/-- `add_page_info`: the index of the entry of a page, made when there is none and the table has room. -/
def addPageInfo (p : Proc) (va : Nat) : Option (Proc × Nat) :=
  if maxPages ≤ p.pages.length then none
  else
    match findPageInfo p va with
    | some i => some (p, i)
    | none => some ({ p with pages := p.pages ++ [⟨pgRoundDown va, .unmapped, false, 0, -1⟩] }, p.pages.length)

/-- Write through a pointer to entry `i`. -/
def Proc.modPage (p : Proc) (i : Nat) (f : PageInfo → PageInfo) : Proc := { p with pages := p.pages.modify i f }

/-! ## Swap slots -/

/-- The first clear bit of the bitmap at or after slot `i`, among `n` of them. -/
def firstClear (bitmap : Nat → Bool) : Nat → Nat → Option Nat
  | _, 0 => none
  | i, n + 1 => if bitmap i then firstClear bitmap (i + 1) n else some i

/-- `alloc_swap_slot`. -/
def allocSwapSlot (p : Proc) : Option (Proc × Nat) :=
  match firstClear p.swapBitmap 0 maxSwapSlots with
  | none => none
  | some i =>
    some ({ p with swapBitmap := Function.update p.swapBitmap i true, swapSlotsUsed := p.swapSlotsUsed + 1 }, i)

/-- `free_swap_slot`. -/
def freeSwapSlot (p : Proc) (slot : Int) : Proc :=
  if slot < 0 ∨ (maxSwapSlots : Int) ≤ slot then p
  else if p.swapBitmap slot.toNat then
    { p with swapBitmap := Function.update p.swapBitmap slot.toNat false, swapSlotsUsed := p.swapSlotsUsed - 1 }
  else p

/-! ## The swap file -/

/-- The last five decimal digits of a pid, with the rounding of C's `/` and `%`. -/
def pidDigits (pid : Int) : List Char :=
  [10000, 1000, 100, 10, 1].map (fun d => Char.ofNat (48 + (pid.tdiv d).tmod 10).toNat)

/-- The path of a process's swap file. -/
def swapname (pid : Int) : List Char := "/pgswp".toList ++ pidDigits pid

/-- The part of `create_swap_file` that works on the file system: the file is made (or the one of that name opened) and gets an
entry of `ftable`. -/
def makeSwapFile (fs : Fs) (cwd : Nat) (pid : Int) : Kern (Fs × Option Nat) := do
  match ← create fs cwd (swapname pid) .file 0 0 with
  | (fs, none) => .ok (fs, none)
  | (fs, some ip) =>
    match filealloc fs with
    | (fs, none) => .ok (iput fs ip, none)
    | (fs, some f) =>
      let file : File := { type := .inode, ref := 1, readable := true, writable := true, ip := ip, off := 0 }
      .ok ({ fs with ftable := Function.update fs.ftable f file }, some f)

/-- `create_swap_file`. -/
def createSwapFile (m : Machine) (p : Proc) : Kern (Machine × Proc × Bool) :=
  if p.swapFile.isSome then .ok (m, p, true)
  else do
    match ← makeSwapFile m.fs (p.cwd.getD 0) p.pid with
    | (fs, none) => .ok ((m.reach [.beginOp]).withFs fs, p, false)
    | (fs, some f) => .ok ((m.reach [.beginOp]).withFs fs, { p with swapFile := some f }, true)

/-- The offset of a slot, as the `uint` it is passed as. -/
def slotOff (slot : Int) : Nat := (slot * 4096 % 2 ^ 32).toNat

/-- `swap_out_page`: write the page of `va` to a slot of the swap file. -/
def swapOutPage (m : Machine) (p : Proc) (va : Nat) (slot : Nat) : Kern (Machine × Proc × Bool) := do
  match ← createSwapFile m p with
  | (m, p, false) => .ok (m, p, false)
  | (m, p, true) =>
    match ← lookup p.pagetable va with
    | none => .ok (m, p, false)
    | some pte =>
      let m := m.reach [.beginOp, .ilock, .diskWrite]
      let ip := (m.fs.ftable (p.swapFile.getD 0)).ip
      let fs ← ilock m.fs ip
      let (fs, tot) ← writei fs ip (m.mem pte.pa) (slotOff slot) pgSize
      .ok (m.withFs fs, p, tot = some pgSize)

/-! ## Eviction -/

/-- The scan of `evict_page_fifo` for the lowest sequence number below `minSeq` among the resident pages from index `i` on. -/
def victimLoop : List PageInfo → Nat → Option Nat → Int → Option Nat
  | [], _, best, _ => best
  | e :: es, i, best, minSeq =>
    if e.state = .resident ∧ e.seq < minSeq then victimLoop es (i + 1) (some i) e.seq
    else victimLoop es (i + 1) best minSeq

/-- The index of the page `evict_page_fifo` picks. -/
def victimIdx (pages : List PageInfo) : Option Nat := victimLoop pages 0 none intMax

/-- The end of `evict_page_fifo`: unmap and free the victim's page. -/
def evictUnmap (m : Machine) (p : Proc) (va : Nat) : Kern (Machine × Proc × Bool) := do
  let (m, pt) ← uvmunmap m p.pagetable va 1 true
  .ok (m, { p with pagetable := pt }, true)

/-- `evict_page_fifo` of a dirty page: write it to a slot of its own. -/
def evictDirty (m : Machine) (p : Proc) (i va : Nat) : Kern (Machine × Proc × Bool) :=
  match allocSwapSlot p with
  | none => .ok (m, p, false)
  | some (p, slot) => do
    match ← createSwapFile m p with
    | (m, p, false) => .ok (m, freeSwapSlot p slot, false)
    | (m, p, true) =>
      match ← swapOutPage m p va slot with
      | (m, p, false) => .ok (m, freeSwapSlot p slot, false)
      | (m, p, true) => evictUnmap m (p.modPage i (fun e => { e with state := .swapped, swapSlot := slot })) va

/-- `evict_page_fifo`: take the page that has been resident longest out of memory, to the swap file if it is dirty. -/
def evictPageFifo (m : Machine) (p : Proc) : Kern (Machine × Proc × Bool) :=
  match victimIdx p.pages with
  | none => .ok (m, p, false)
  | some i =>
    match p.pages[i]? with
    | none => .ok (m, p, false)
    | some victim => do
      match ← lookup p.pagetable victim.va with
      | none => .ok (m, p, false)
      | some _ =>
        if victim.isDirty then evictDirty m p i victim.va
        else evictUnmap m (p.modPage i (fun e => { e with state := .unmapped })) victim.va

/-! ## Page faults -/

/-- The access types of `handle_page_fault`: 0, 1 and 2. -/
inductive Access where
  | read | write | exec
  deriving DecidableEq, Repr

/-- Whether a page is the guard page under the stack. -/
def inGuard (p : Proc) (va : Nat) : Prop := guardBase p.stackTop ≤ va ∧ va < stackBase p.stackTop

/-- The merged range of the text segments. -/
def inText (p : Proc) (va : Nat) : Prop := p.textStart ≤ va ∧ va < p.textEnd

/-- The merged range of the data segments. -/
def inData (p : Proc) (va : Nat) : Prop := p.dataStart ≤ va ∧ va < p.dataEnd

def inHeap (p : Proc) (va : Nat) : Prop := p.heapStart ≤ va ∧ va < p.sz

/-- The stack, from one page below the user's stack pointer. -/
def inStack (p : Proc) (va : Nat) : Prop := sub64 p.tf.sp pgSize ≤ va ∧ va < p.stackTop

/-- The range whose pages are loaded from the executable. -/
def inExec (p : Proc) (va : Nat) : Prop := p.textStart ≤ va ∧ va < p.dataEnd

instance (p : Proc) (va : Nat) : Decidable (inGuard p va) := inferInstanceAs (Decidable (_ ∧ _))
instance (p : Proc) (va : Nat) : Decidable (inText p va) := inferInstanceAs (Decidable (_ ∧ _))
instance (p : Proc) (va : Nat) : Decidable (inData p va) := inferInstanceAs (Decidable (_ ∧ _))
instance (p : Proc) (va : Nat) : Decidable (inHeap p va) := inferInstanceAs (Decidable (_ ∧ _))
instance (p : Proc) (va : Nat) : Decidable (inStack p va) := inferInstanceAs (Decidable (_ ∧ _))
instance (p : Proc) (va : Nat) : Decidable (inExec p va) := inferInstanceAs (Decidable (_ ∧ _))

/-- The entry of a page. -/
def entryOf (p : Proc) (va : Nat) : Option PageInfo := (findPageInfo p va).bind (fun i => p.pages[i]?)

/-- Whether the entry of a page says it is in the swap file. -/
def isSwapped (p : Proc) (va : Nat) : Prop := (entryOf p va).any (fun e => e.state = .swapped)

instance (p : Proc) (va : Nat) : Decidable (isSwapped p va) := inferInstanceAs (Decidable (_ = true))

/-- The validity test of `handle_page_fault` (`valid`). -/
def faultValid (p : Proc) (va : Nat) : Prop :=
  (¬inGuard p va ∧ (inText p va ∨ inData p va ∨ inHeap p va ∨ inStack p va)) ∨ isSwapped p va

/-- The text test of `handle_page_fault` (`is_text`). -/
def faultText (p : Proc) (va : Nat) : Prop := ¬inGuard p va ∧ inText p va

instance (p : Proc) (va : Nat) : Decidable (faultValid p va) := inferInstanceAs (Decidable (_ ∨ _))
instance (p : Proc) (va : Nat) : Decidable (faultText p va) := inferInstanceAs (Decidable (_ ∧ _))

/-- The segment a page is loaded from: the first one recorded that contains it. -/
def findSegment (p : Proc) (va : Nat) : Option SegmentInfo :=
  p.segments.find? (fun s => s.vaStart ≤ va ∧ va < s.vaEnd)

/-- The bytes of a page that come from the file (`read_size`). -/
def readSize (s : SegmentInfo) (va : Nat) : Nat :=
  if s.filesz ≤ va - s.vaStart then 0
  else if s.filesz < va - s.vaStart + pgSize then s.filesz - (va - s.vaStart)
  else pgSize

/-- The offset of a page in the file (`file_offset`), as the `uint` it is passed as. -/
def fileOffset (s : SegmentInfo) (va : Nat) : Nat := add64 s.fileOff (va - s.vaStart) % 2 ^ 32

/-- Whether loading a page from the executable reads the file. -/
def readsExec (p : Proc) (va : Nat) : Bool :=
  p.execInode.isSome && (findSegment p va).any (fun s => 0 < readSize s va)

/-- The contents of a page loaded from the executable. -/
def execPage (fs : Fs) (p : Proc) (va : Nat) : Page :=
  match p.execInode, findSegment p va with
  | some ip, some s => fun k =>
    if k < readi (fs.inode ip) (fileOffset s va) (readSize s va) then (fs.inode ip).data (fileOffset s va + k) else 0
  | _, _ => fun _ => 0

/-- The permissions of a page loaded from the executable. -/
def execPerm (p : Proc) (va : Nat) : Perm :=
  match findSegment p va with
  | some s => { r := true, w := s.flags / 2 % 2 = 1, x := s.flags % 2 = 1, u := true }
  | none => { r := true, w := false, x := false, u := true }

/-- The permissions of a heap, stack or swapped-in page: not writable, to see the first write. -/
def trackPerm : Perm := { r := true, w := false, x := false, u := true }

/-- A page for a fault: from the free list, or after an eviction. The process is killed when there is none. -/
def kallocEvict (m : Machine) (p : Proc) : Kern (Machine × Proc × Option Pa) :=
  match kalloc m with
  | some (m, mem) => .ok (m, p, some mem)
  | none => do
    match ← evictPageFifo m p with
    | (m, p, false) => .ok (m, p.kill, none)
    | (m, p, true) =>
      match kalloc m with
      | some (m, mem) => .ok (m, p, some mem)
      | none => .ok (m, p.kill, none)

/-- Map the page of a fault and mark entry `i` resident. -/
def faultMap (m : Machine) (p : Proc) (i va : Nat) (mem : Pa) (perm : Perm) : Kern (Machine × Proc × Bool) := do
  match ← mappages m p.pagetable va pgSize mem perm with
  | (m, pt, false) =>
    let m ← kfree m mem
    .ok (m, { p with pagetable := pt }.kill, false)
  | (m, pt, true) =>
    let p := { p with pagetable := pt }.modPage i (fun e =>
      { e with state := .resident, seq := p.nextFifoSeq, isDirty := false })
    .ok (m, { p with nextFifoSeq := wrap32 (p.nextFifoSeq + 1) }, true)

/-- `handle_page_fault` of a page in the swap file. -/
def faultSwap (m : Machine) (p : Proc) (i va : Nat) : Kern (Machine × Proc × Bool) := do
  match ← kallocEvict m p with
  | (m, p, none) => .ok (m, p, false)
  | (m, p, some mem) =>
    match p.swapFile, p.pages[i]? with
    | some f, some e =>
      let m := m.reach [.beginOp, .ilock, .diskRead]
      let ip := (m.fs.ftable f).ip
      let fs ← ilock m.fs ip
      if readi (fs.inode ip) (slotOff e.swapSlot) pgSize ≠ pgSize then
        let m ← kfree (m.withFs fs) mem
        .ok (m, p.kill, false)
      else
        let m := (m.withFs fs).fill mem (fun k => (fs.inode ip).data (slotOff e.swapSlot + k))
        let p := (freeSwapSlot p e.swapSlot).modPage i (fun e => { e with swapSlot := -1 })
        faultMap m p i va mem trackPerm
    | _, _ => .error .kerneltrap

/-- `handle_page_fault` of a page of the executable. -/
def faultExec (m : Machine) (p : Proc) (i va : Nat) : Kern (Machine × Proc × Bool) := do
  match ← kallocEvict m p with
  | (m, p, none) => .ok (m, p, false)
  | (m, p, some mem) =>
    let m ←
      if readsExec p va then do
        let m := m.reach [.beginOp, .ilock, .diskRead]
        let fs ← ilock m.fs (p.execInode.getD 0)
        .ok (m.withFs fs)
      else .ok m
    faultMap (m.fill mem (execPage m.fs p va)) p i va mem (execPerm p va)

/-- `handle_page_fault` of a heap or stack page. -/
def faultZero (m : Machine) (p : Proc) (i va : Nat) : Kern (Machine × Proc × Bool) := do
  match ← kallocEvict m p with
  | (m, p, none) => .ok (m, p, false)
  | (m, p, some mem) => faultMap (m.fill mem (fun _ => 0)) p i va mem trackPerm

/-- `handle_page_fault` once the access is known to be valid and the page has entry `i`. -/
def faultLoad (m : Machine) (p : Proc) (i va : Nat) : Kern (Machine × Proc × Bool) :=
  match p.pages[i]? with
  | none => .error .kerneltrap
  | some e =>
    if e.state = .swapped then faultSwap m p i va
    else if inExec p va then faultExec m p i va
    else faultZero m p i va

/-- A refused fault kills the process only when it comes from user mode. -/
def refuse (p : Proc) (fromUser : Bool) : Proc := if fromUser then p.kill else p

/-- `handle_page_fault` after the special cases of a mapped page: is the address valid, is the page tracked, load it. -/
def faultUnmapped (m : Machine) (p : Proc) (va : Nat) (access : Access) (fromUser : Bool) : Kern (Machine × Proc × Bool) :=
  if ¬faultValid p va then .ok (m, refuse p fromUser, false)
  else if faultText p va ∧ access = .write then .ok (m, refuse p fromUser, false)
  else
    match findPageInfo p va with
    | some i => faultLoad m p i va
    | none =>
      match addPageInfo p va with
      | none => .ok (m, p.kill, false)
      | some (p, i) => faultLoad m p i va

/-- The first write to a page: grant `PTE_W` and mark entry `i` dirty. -/
def firstWrite (p : Proc) (i va : Nat) : Proc :=
  { p with
    pagetable := p.pagetable.modLeaf (va / 4096) (fun pte => { pte with perm := { pte.perm with w := true } }) }.modPage i
    (fun e => { e with isDirty := true })

/-- The write case of `handle_page_fault` for a mapped user page. -/
def faultWrite (m : Machine) (p : Proc) (va : Nat) (fromUser : Bool) : Kern (Machine × Proc × Bool) :=
  if inText p va then .ok (m, refuse p fromUser, false)
  else
    match findPageInfo p va with
    | none => faultUnmapped m p va .write fromUser
    | some i =>
      match p.pages[i]? with
      | none => .error .kerneltrap
      | some e =>
        if e.state = .resident ∧ ¬e.isDirty then .ok (m, firstWrite p i va, true)
        else faultUnmapped m p va .write fromUser

/-- `handle_page_fault`: `true` is the source's 0, `false` its -1. -/
def handlePageFault (m : Machine) (p : Proc) (addr : Nat) (access : Access) (fromUser : Bool) :
    Kern (Machine × Proc × Bool) :=
  let va := pgRoundDown addr
  if maxVa ≤ va then .ok (m, refuse p fromUser, false)
  else do
    match ← lookup p.pagetable va with
    | none => faultUnmapped m p va access fromUser
    | some pte =>
      if ¬pte.perm.u then .ok (m, refuse p fromUser, false)
      else if access = .write then faultWrite m p va fromUser
      else faultUnmapped m p va access fromUser

end Xv6SnifferBakery.Kernel
