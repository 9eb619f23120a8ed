import Xv6SnifferBakery.Lemmas.Replay
import Xv6SnifferBakery.Lemmas.Supply
import Xv6SnifferBakery.Theorems.SlotOwnership

/-!
# Which slots can be written

A process has 1024 swap slots, and its swap file is a file like any other: it ends at 268 blocks, after 67 pages. `alloc_swap_slot` gives
slot 67 out like the others, and `writei` refuses it.
-/

namespace Xv6SnifferBakery.Kernel

open Lib

variable {p : Proc} {t : Sys} {i : Nat}

/-! ## Slots -/

/-- With fewer slots in use than there are, one is clear. -/
theorem SlotsHeld.clear (h : SlotsHeld p) (hused : p.swapSlotsUsed < (maxSwapSlots : Int)) :
    ∃ slot, firstClear p.swapBitmap 0 maxSwapSlots = some slot ∧ slot < maxSwapSlots := by
  cases hf : firstClear p.swapBitmap 0 maxSwapSlots with
  | none =>
    have hcount := h.counted
    rw [slotCount_full hf] at hcount
    omega
  | some slot => exact ⟨slot, rfl, by have := (firstClear_some hf).2.2; omega⟩

/-- A dirty page can be written to a slot: it is mapped, its frame can be freed, and the swap file takes a page at the slot, which starts
within the file and ends within the largest file, with the disk blocks there are. Where the swap file has to be made first, its name must
lead to a file or there must be a free inode and room for the name. -/
structure SlotFits (m : Machine) (p : Proc) (va slot : Nat) : Prop where
  frame : ∃ pte, p.pagetable.leaf (va / 4096) = some pte ∧ Freeable m.kend pte.pa
  space : SlotSpace m p slot

/-- An eviction of a dirty page succeeds exactly when its slot fits, for every reachable state with fewer than `MAX_SWAP_SLOTS` slots in
use. -/
theorem every_slot_used_iff {k : Nat} {e : PageInfo} (h : Reach Boot Step t) (hl : (t.proc i).live)
    (hidx : victimIdx (t.proc i).pages = some k) (he : (t.proc i).pages[k]? = some e) (hd : e.isDirty = true)
    (hused : (t.proc i).swapSlotsUsed < (maxSwapSlots : Int)) :
    ∃ slot, firstClear (t.proc i).swapBitmap 0 maxSwapSlots = some slot ∧
      ((∃ m' p', evictPageFifo t.m (t.proc i) = .ok (m', p', true)) ↔ SlotFits t.m (t.proc i) e.va slot) := by
  have hheld := slotsHeld_kept.reach (fun _ hb => hb.slotsHeld) h i hl
  obtain ⟨slot, hclear, -⟩ := hheld.clear hused
  refine ⟨slot, hclear, ?_⟩
  rw [evictPageFifo_iff (reach_aligned h i hl)]
  constructor
  · rintro ⟨e', hev⟩
    cases hev with
    | clean hv _ hc =>
      obtain rfl := Option.some.inj (hidx.symm.trans hv.idx)
      obtain rfl := Option.some.inj (he.symm.trans hv.entry)
      rw [hd] at hc
      cases hc
    | dirty hv hframe _ hslot hspace =>
      obtain rfl := Option.some.inj (hidx.symm.trans hv.idx)
      obtain rfl := Option.some.inj (he.symm.trans hv.entry)
      obtain rfl := Option.some.inj (hclear.symm.trans hslot)
      exact ⟨⟨_, hv.leaf, hframe⟩, hspace⟩
  · rintro ⟨⟨pte, hleaf, hframe⟩, hspace⟩
    exact ⟨e, .dirty ⟨hidx, he, hleaf⟩ hframe hd hclear hspace⟩

/-- A program that writes to the pages of its heap one after the other, and has each swapped out before the next one. The last page is
still in memory, and dirty. -/
def fillSlots (n : Nat) : List Action :=
  let write (k : Nat) : List Action := [.fault 0 (16384 + 4096 * k) .read, .fault 0 (16384 + 4096 * k) .write]
  [.sbrk 0 (4096 * (n + 1)) false, .evict 0] ++ (List.range n).flatMap (fun k => write k ++ [.evict 0]) ++ write n

/-- What the counterexample and the witness check of the state after `fillSlots`. -/
def dirtyVictim (t : Sys) : Bool :=
  decide ((t.proc 0).live ∧ (t.proc 0).swapSlotsUsed < (maxSwapSlots : Int) ∧ (t.proc 0).swapFile.isSome ∧ 5 ≤ t.m.fs.nfree ∧
    (firstFree t.m.fs 1 (t.m.fs.ninodes - 1)).isSome) &&
  (victimIdx (t.proc 0).pages).any (fun k => ((t.proc 0).pages[k]?).any (fun e => e.isDirty))

/-- The second page that is swapped out. -/
theorem every_slot_used_iff_second : ∃ t k e slot, Run Step (smallBoot smallFiles 32) (fillSlots 1) t ∧
    victimIdx (t.proc 0).pages = some k ∧ (t.proc 0).pages[k]? = some e ∧ e.isDirty = true ∧
    firstClear (t.proc 0).swapBitmap 0 maxSwapSlots = some slot ∧
      ((∃ m' p', evictPageFifo t.m (t.proc 0) = .ok (m', p', true)) ↔ SlotFits t.m (t.proc 0) e.va slot) := by
  have hex : (replay (smallBoot smallFiles 32) (fillSlots 1)).any dirtyVictim = true := by decide +kernel
  obtain ⟨t, ht, hex⟩ := (Option.any_eq_true _ _).mp hex
  obtain ⟨hstate, hvictim⟩ := (Bool.and_eq_true _ _).mp hex
  obtain ⟨hlive, hused, -⟩ := of_decide_eq_true hstate
  obtain ⟨k, hk, hvictim⟩ := (Option.any_eq_true _ _).mp hvictim
  obtain ⟨e, he, hd⟩ := (Option.any_eq_true _ _).mp hvictim
  obtain ⟨slot, hclear, hiff⟩ := every_slot_used_iff ⟨_, _, smallBoot_init, replay_run ht⟩ hlive hk he hd hused
  exact ⟨t, k, e, slot, replay_run ht, hk, he, hd, hclear, hiff⟩

set_option maxRecDepth 100000 in
/-- With 67 slots in use, no dirty page can be evicted any more. -/
theorem slot_range_exceeded : ¬∀ t, Reach Boot Step t → ∀ i, (t.proc i).live → ∀ k e, victimIdx (t.proc i).pages = some k →
    (t.proc i).pages[k]? = some e → e.isDirty = true → (t.proc i).swapSlotsUsed < (maxSwapSlots : Int) →
    (t.proc i).swapFile.isSome → 5 ≤ t.m.fs.nfree → (firstFree t.m.fs 1 (t.m.fs.ninodes - 1)).isSome →
    ∃ m' p', evictPageFifo t.m (t.proc i) = .ok (m', p', true) := by
  intro hall
  have hex : (replay (smallBoot smallFiles 32) (fillSlots 67)).any (fun t => dirtyVictim t &&
      (evictPageFifo t.m (t.proc 0)).toOption.any (fun x => !x.2.2)) = true := by decide +kernel
  obtain ⟨t, ht, hex⟩ := (Option.any_eq_true _ _).mp hex
  obtain ⟨hex, hfail⟩ := (Bool.and_eq_true _ _).mp hex
  obtain ⟨hstate, hvictim⟩ := (Bool.and_eq_true _ _).mp hex
  obtain ⟨hlive, hused, hfile, hfree, hinode⟩ := of_decide_eq_true hstate
  obtain ⟨k, hk, hvictim⟩ := (Option.any_eq_true _ _).mp hvictim
  obtain ⟨e, he, hd⟩ := (Option.any_eq_true _ _).mp hvictim
  obtain ⟨m', p', hok⟩ := hall t ⟨_, _, smallBoot_init, replay_run ht⟩ 0 hlive k e hk he hd hused hfile hfree hinode
  obtain ⟨x, hx, hno⟩ := ok_of_any hfail
  rw [hok] at hx
  rw [← Except.ok.inj hx] at hno
  nomatch hno

end Xv6SnifferBakery.Kernel
