import Xv6SnifferBakery.Lemmas.Answer

/-!
# Which addresses a fault maps

The stack test of `handle_page_fault` takes the user's stack pointer for the bottom of the stack, the tests of the image take the merged
range of its segments, and an entry in the swap file is loaded whatever the size is by now. So a fault can map a page that is none of the
image, the heap and the stack; and a fault that fails may have taken pages of memory.
-/

namespace Xv6SnifferBakery.Kernel

open Lib

/-- The pages a fault may map, for an image with these segments: those that overlap a segment, those of the heap but for the guard
page, and those of the stack. -/
def Legit (segs : List SegmentInfo) (p : Proc) (va : Nat) : Prop :=
  (∃ s ∈ segs, s.vaStart < va + pgSize ∧ va < s.vaEnd) ∨ (p.heapStart ≤ va ∧ va < pgRoundUp p.sz ∧ ¬inGuard p va) ∨
    (stackBase p.stackTop ≤ va ∧ va < p.stackTop)

instance (segs : List SegmentInfo) (p : Proc) (va : Nat) : Decidable (Legit segs p va) := inferInstanceAs (Decidable (_ ∨ _))

/-- `handle_page_fault` returns 0. -/
def ReturnsZero (m : Machine) (p : Proc) (addr : Nat) (access : Access) (fromUser : Bool) : Prop :=
  ∃ m' p', handlePageFault m p addr access fromUser = .ok (m', p', true)

/-- `handle_page_fault` returns -1 and changes neither the page table nor the free list. -/
def FailsUnchanged (m : Machine) (p : Proc) (addr : Nat) (access : Access) (fromUser : Bool) : Prop :=
  ∃ m' p', handlePageFault m p addr access fromUser = .ok (m', p', false) ∧ p'.pagetable = p.pagetable ∧ m'.freelist = m.freelist

variable {m : Machine} {p : Proc} {segs : List SegmentInfo} {va : Nat} {access : Access}

/-! ## Pages outside -/

/-- Why the validity test lets a fault have a page that is none of the image, the heap and the stack: the page lies between the user's
stack pointer (less a page) and the stack, or in the merged range of the text or the data segments but in none of them, or the size is so
large that it wraps when it is rounded up to a page; or the page has an entry that says it is in the swap file. -/
inductive Loophole (p : Proc) (va : Nat) : Prop where
  | window (guard : ¬inGuard p va) (above : sub64 p.tf.sp pgSize ≤ va) (below : va < stackBase p.stackTop) (lt : va < p.stackTop) :
      Loophole p va
  | hole (guard : ¬inGuard p va) (merged : inText p va ∨ inData p va) : Loophole p va
  | wrapped (guard : ¬inGuard p va) (heap : inHeap p va) (wraps : pgRoundUp p.sz ≤ va) : Loophole p va
  | swapped (h : isSwapped p va) : Loophole p va

/-- A page that is not legitimate is valid exactly through a loophole. -/
theorem loophole_iff (hout : ¬Legit segs p va) : faultValid p va ↔ Loophole p va := by
  constructor
  · rintro (⟨hguard, htext | hdata | hheap | hstack⟩ | hswap)
    · exact .hole hguard (Or.inl htext)
    · exact .hole hguard (Or.inr hdata)
    · refine .wrapped hguard hheap (Nat.not_lt.mp (fun hlt => ?_))
      exact hout (Or.inr (Or.inl ⟨hheap.1, hlt, hguard⟩))
    · refine .window hguard hstack.1 (Nat.not_le.mp (fun hle => ?_)) hstack.2
      exact hout (Or.inr (Or.inr ⟨hle, hstack.2⟩))
    · exact .swapped hswap
  · intro h
    cases h with
    | window hguard habove _ hlt => exact Or.inl ⟨hguard, Or.inr (Or.inr (Or.inr ⟨habove, hlt⟩))⟩
    | hole hguard hmerged => exact Or.inl ⟨hguard, hmerged.imp_right Or.inl⟩
    | wrapped hguard hheap => exact Or.inl ⟨hguard, Or.inr (Or.inr (Or.inl hheap))⟩
    | swapped hswap => exact Or.inr hswap

/-- The tests of `handle_page_fault` but for the validity of the address. -/
structure Unbarred (p : Proc) (va : Nat) (access : Access) : Prop where
  lt : va < maxVa
  user : ∀ pte, p.pagetable.leaf (va / 4096) = some pte → pte.perm.u = true
  text : access = .write → ¬faultText p va
  write : access = .write → (p.pagetable.leaf (va / 4096)).isSome →
    ¬inText p va ∧ ∀ e, entryOf p va = some e → ¬(e.state = .resident ∧ e.isDirty = false)

theorem loads_iff : Loads p va access ↔ Unbarred p va access ∧ faultValid p va :=
  ⟨fun h => ⟨⟨h.lt, h.user, h.text, h.write⟩, h.valid⟩, fun ⟨h, hv⟩ => ⟨h.lt, h.user, hv, h.text, h.write⟩⟩

/-- A fault at page `va` goes astray: the page is none of the image, the heap and the stack, and it is in memory and gets its first
write, or there is a loophole for it and it can be loaded. -/
inductive Stray (segs : List SegmentInfo) (m : Machine) (p : Proc) (va : Nat) (access : Access) : Prop where
  | granted {i : Nat} (outside : ¬Legit segs p va) (h : GrantsWrite p va access i) : Stray segs m p va access
  | loaded (outside : ¬Legit segs p va) (unbarred : Unbarred p va access) (loophole : Loophole p va) (enters : Enters p va)
      (can : CanLoad m p va) : Stray segs m p va access

theorem stray_iff : Stray segs m p va access ↔ Served m p va access ∧ ¬Legit segs p va := by
  constructor
  · intro h
    cases h with
    | granted hout hg => exact ⟨.grant hg, hout⟩
    | loaded hout hun hloop henters hcan => exact ⟨.load (loads_iff.mpr ⟨hun, (loophole_iff hout).mpr hloop⟩) henters hcan, hout⟩
  · rintro ⟨h, hout⟩
    cases h with
    | grant hg => exact .granted hout hg
    | load hload henters hcan =>
      obtain ⟨hun, hvalid⟩ := loads_iff.mp hload
      exact .loaded hout hun ((loophole_iff hout).mp hvalid) henters hcan

/-! ## Every fault -/

/-- In every state that a run from boot reaches, a fault returns 0 only for a page that it may map, and else -1 without a change, exactly
when it does not go astray, and is served or leaves no trace. And a fault for a page it may not map returns -1 without a change exactly
when it is one that leaves no trace. -/
theorem fault_legit_iff {t : Sys} {i : Nat} (h : Reach ColdBoot Step t) (hi : i < nProc) (hl : (t.proc i).live)
    (segs : List SegmentInfo) (addr : Nat) (access : Access) (fromUser : Bool) :
    (((ReturnsZero t.m (t.proc i) addr access fromUser → Legit segs (t.proc i) (pgRoundDown addr)) ∧
        (¬ReturnsZero t.m (t.proc i) addr access fromUser → FailsUnchanged t.m (t.proc i) addr access fromUser)) ↔
      ¬Stray segs t.m (t.proc i) (pgRoundDown addr) access ∧
        (Served t.m (t.proc i) (pgRoundDown addr) access ∨ Declines t.m (t.proc i) (pgRoundDown addr) access)) ∧
    ((¬Legit segs (t.proc i) (pgRoundDown addr) → FailsUnchanged t.m (t.proc i) addr access fromUser) ↔
      Legit segs (t.proc i) (pgRoundDown addr) ∨ Declines t.m (t.proc i) (pgRoundDown addr) access) := by
  have hset := reach_settled h hi hl
  have hzero : ReturnsZero t.m (t.proc i) addr access fromUser ↔ _ := fault_served_iff hset
  have hfail : FailsUnchanged t.m (t.proc i) addr access fromUser ↔ _ := fault_declines_iff hset
  have hwhere : (ReturnsZero t.m (t.proc i) addr access fromUser → Legit segs (t.proc i) (pgRoundDown addr)) ↔
      ¬Stray segs t.m (t.proc i) (pgRoundDown addr) access := by
    rw [stray_iff, ← hzero, not_and_not_right]
  have hrest : (¬ReturnsZero t.m (t.proc i) addr access fromUser → FailsUnchanged t.m (t.proc i) addr access fromUser) ↔
      Served t.m (t.proc i) (pgRoundDown addr) access ∨ Declines t.m (t.proc i) (pgRoundDown addr) access := by
    rw [← hzero, ← hfail, or_iff_not_imp_left]
  refine ⟨and_congr hwhere hrest, ?_⟩
  rw [← hfail, or_iff_not_imp_left]

/-- A program whose one segment starts at the second page. -/
def holeInit : Inode := elfFile [⟨1, 5, 120, 4096, 16, 16⟩] ((List.range 16).map (fun k => UInt8.ofNat (k + 1)))

/-- The root directory has only that file. -/
def holeFiles : List (Name × Inode) := [("init".toList, holeInit)]

theorem holeBoot_cold : ColdBoot (smallBoot holeFiles 32) := smallBoot_coldBoot (by decide) (by decide +kernel)

/-- The first instruction of a program whose stack pointer is at the second page. -/
theorem fault_legit_iff_text : ∃ t, Run Step (smallBoot smallFiles 32) [.setSp 0 8192] t ∧
    ((ReturnsZero t.m (t.proc 0) 5 .exec true → Legit (scanFile smallInit).1.segs (t.proc 0) (pgRoundDown 5)) ∧
      (¬ReturnsZero t.m (t.proc 0) 5 .exec true → FailsUnchanged t.m (t.proc 0) 5 .exec true) ↔
        ¬Stray (scanFile smallInit).1.segs t.m (t.proc 0) (pgRoundDown 5) .exec ∧
          (Served t.m (t.proc 0) (pgRoundDown 5) .exec ∨ Declines t.m (t.proc 0) (pgRoundDown 5) .exec)) := by
  have hex : (replay (smallBoot smallFiles 32) [.setSp 0 8192]).any (fun t => decide (t.proc 0).live) = true := by decide +kernel
  obtain ⟨t, ht, hlive⟩ := (Option.any_eq_true _ _).mp hex
  have hreach : Reach ColdBoot Step t := ⟨_, _, smallBoot_cold, replay_run ht⟩
  exact ⟨t, replay_run ht, (fault_legit_iff hreach (by decide) (of_decide_eq_true hlive) (scanFile smallInit).1.segs 5 .exec true).1⟩

/-- A program that sets its stack pointer to 4096 has page 0 mapped when it reads from address 0. -/
theorem fault_maps_zero : (¬∀ t, Reach ColdBoot Step t → ∀ i < nProc, (t.proc i).live → ∀ addr access fromUser,
      ReturnsZero t.m (t.proc i) addr access fromUser → Legit (t.proc i).segments (t.proc i) (pgRoundDown addr)) ∧
    ∃ t, Run Step (smallBoot holeFiles 32) [.setSp 0 4096] t ∧ enabled t (.fault 0 0 .read) ∧
      (t.proc 0).segments = (scanFile holeInit).1.segs ∧ ReturnsZero t.m (t.proc 0) 0 .read true ∧
      ¬Legit (scanFile holeInit).1.segs (t.proc 0) (pgRoundDown 0) := by
  have hex : (replay (smallBoot holeFiles 32) [.setSp 0 4096]).any (fun t => (t.proc 0).live ∧ enabled t (.fault 0 0 .read) ∧
      (t.proc 0).segments = (scanFile holeInit).1.segs ∧ (match handlePageFault t.m (t.proc 0) 0 .read true with
        | .ok (_, _, r) => r
        | .error _ => false) = true ∧ ¬Legit (scanFile holeInit).1.segs (t.proc 0) (pgRoundDown 0)) = true := by
    decide +kernel
  obtain ⟨t, ht, hex⟩ := (Option.any_eq_true _ _).mp hex
  obtain ⟨hlive, henabled, hsegs, hok, hlegit⟩ := of_decide_eq_true hex
  have hzero : ReturnsZero t.m (t.proc 0) 0 .read true := by
    unfold ReturnsZero
    cases hf : handlePageFault t.m (t.proc 0) 0 .read true with
    | error e =>
      rw [hf] at hok
      cases hok
    | ok x =>
      obtain ⟨m', p', r⟩ := x
      rw [hf] at hok
      obtain rfl : r = true := hok
      exact ⟨m', p', rfl⟩
  refine ⟨?_, t, replay_run ht, henabled, hsegs, hzero, hlegit⟩
  intro hall
  have hmust := hall t ⟨_, _, holeBoot_cold, replay_run ht⟩ 0 (by decide) hlive 0 .read true hzero
  rw [hsegs] at hmust
  exact hlegit hmust

end Xv6SnifferBakery.Kernel
