import Xv6SnifferBakery.Kernel.Copy
import Xv6SnifferBakery.Lemmas.Tables

/-!
# What an eviction can do

Inversion of `evict_page_fifo`: each successful run is one of a few cases, with every guard that was passed and the state it ends
in. The invariants of processes are proved from these cases, and never from the code again.
-/

namespace Xv6SnifferBakery.Kernel

open Lib

variable {m m' : Machine} {p p' : Proc}

/-! ## Victims -/

/-- What the scan returns is the best so far, or a resident entry of the rest with the lowest sequence number. -/
theorem victimLoop_some {es : List PageInfo} {i : Nat} {best : Option Nat} {minSeq : Int} {j : Nat}
    (h : victimLoop es i best minSeq = some j) :
    (best = some j ∧ ∀ x ∈ es, x.state = .resident → minSeq ≤ x.seq) ∨
    ∃ k e, j = i + k ∧ es[k]? = some e ∧ e.state = .resident ∧ e.seq < minSeq ∧ ∀ x ∈ es, x.state = .resident → e.seq ≤ x.seq := by
  induction es generalizing i best minSeq with
  | nil => exact Or.inl ⟨h, by simp⟩
  | cons e es ih =>
    rw [victimLoop] at h
    split at h
    · rename_i hc
      rcases ih h with ⟨hb, hle⟩ | ⟨k, x, hj, hx, hr, hs, hle⟩
      · refine Or.inr ⟨0, e, by simpa using (Option.some.inj hb).symm, rfl, hc.1, hc.2, ?_⟩
        intro y hy hry
        rcases List.mem_cons.mp hy with rfl | hy
        · exact le_refl _
        · exact hle y hy hry
      · refine Or.inr ⟨k + 1, x, by omega, hx, hr, hs.trans hc.2, ?_⟩
        intro y hy hry
        rcases List.mem_cons.mp hy with rfl | hy
        · exact le_of_lt hs
        · exact hle y hy hry
    · rename_i hc
      have hhead : e.state = .resident → minSeq ≤ e.seq := fun hr => Int.not_lt.mp (fun hlt => hc ⟨hr, hlt⟩)
      rcases ih h with ⟨hb, hle⟩ | ⟨k, x, hj, hx, hr, hs, hle⟩
      · refine Or.inl ⟨hb, ?_⟩
        intro y hy hry
        rcases List.mem_cons.mp hy with rfl | hy
        · exact hhead hry
        · exact hle y hy hry
      · refine Or.inr ⟨k + 1, x, by omega, hx, hr, hs, ?_⟩
        intro y hy hry
        rcases List.mem_cons.mp hy with rfl | hy
        · exact (le_of_lt hs).trans (hhead hry)
        · exact hle y hy hry

/-- The scan returns nothing only when there is no candidate and no best so far. -/
theorem victimLoop_none {es : List PageInfo} {i : Nat} {best : Option Nat} {minSeq : Int} (h : victimLoop es i best minSeq = none) :
    best = none ∧ ∀ e ∈ es, e.state = .resident → minSeq ≤ e.seq := by
  induction es generalizing i best minSeq with
  | nil => exact ⟨h, by simp⟩
  | cons e es ih =>
    rw [victimLoop] at h
    split at h
    · exact absurd (ih h).1 (by simp)
    · rename_i hc
      refine ⟨(ih h).1, fun x hx hr => ?_⟩
      rcases List.mem_cons.mp hx with rfl | hx
      · exact Int.not_lt.mp (fun hlt => hc ⟨hr, hlt⟩)
      · exact (ih h).2 x hx hr

theorem victimIdx_some {pages : List PageInfo} {i : Nat} (h : victimIdx pages = some i) :
    ∃ e, pages[i]? = some e ∧ e.state = .resident := by
  rcases victimLoop_some h with ⟨hb, -⟩ | ⟨k, e, rfl, he, hr, -⟩
  · nomatch hb
  · exact ⟨e, by rwa [Nat.zero_add], hr⟩

/-- No resident page has a lower sequence number than the victim. -/
theorem victimIdx_least {pages : List PageInfo} {i : Nat} {e : PageInfo} (h : victimIdx pages = some i) (he : pages[i]? = some e)
    {x : PageInfo} (hx : x ∈ pages) (hr : x.state = .resident) : e.seq ≤ x.seq := by
  rcases victimLoop_some h with ⟨hb, -⟩ | ⟨k, y, rfl, hy, -, -, hle⟩
  · nomatch hb
  · rw [Nat.zero_add, hy] at he
    obtain rfl := Option.some.inj he
    exact hle x hx hr

/-- There is no victim only when no page is resident (with a sequence number below the largest `int`). -/
theorem victimIdx_none {pages : List PageInfo} (h : victimIdx pages = none) {e : PageInfo} (he : e ∈ pages)
    (hr : e.state = .resident) : intMax ≤ e.seq :=
  (victimLoop_none h).2 e he hr

/-- The page an eviction takes: entry `i` is the victim, its page is mapped. -/
structure Victim (p : Proc) (i : Nat) (e : PageInfo) (pte : Pte) : Prop where
  idx : victimIdx p.pages = some i
  entry : p.pages[i]? = some e
  leaf : p.pagetable.leaf (e.va / 4096) = some pte

theorem Victim.resident {i : Nat} {e : PageInfo} {pte : Pte} (h : Victim p i e pte) : e.state = .resident := by
  obtain ⟨e', he, hr⟩ := victimIdx_some h.idx
  rw [h.entry] at he
  rwa [Option.some.inj he]

/-- The process after its entry `i` was changed and the page of the entry unmapped. -/
def Proc.unmapEntry (p : Proc) (i va : Nat) (f : PageInfo → PageInfo) : Proc :=
  { p.modPage i f with pagetable := p.pagetable.clearLeaf (va / 4096) }

/-! ## Eviction -/

/-- A clean victim is discarded. -/
structure EvictClean (m : Machine) (p : Proc) (i : Nat) (e : PageInfo) (pte : Pte) (m' : Machine) (p' : Proc) : Prop where
  victim : Victim p i e pte
  clean : e.isDirty = false
  freed : kfree m pte.pa = .ok m'
  proc : p' = p.unmapEntry i e.va (fun e => { e with state := .unmapped })

/-- The swap file is open, and was opened only if it was not. -/
def OpenSwap (m : Machine) (p : Proc) (m' : Machine) (f : Nat) : Prop :=
  (p.swapFile = some f ∧ m' = m) ∨
  (p.swapFile = none ∧ ∃ fs, makeSwapFile m.fs (p.cwd.getD 0) p.pid = .ok (fs, some f) ∧ m' = (m.reach [.beginOp]).withFs fs)

/-- A page was written to a slot of the swap file; `done` says whether it was written completely. -/
def SwapWrite (m : Machine) (f : Nat) (pa : Pa) (slot : Nat) (m' : Machine) (done : Bool) : Prop :=
  ∃ fs₁ fs₂ tot, ilock m.fs (m.fs.ftable f).ip = .ok fs₁ ∧
    writei fs₁ (m.fs.ftable f).ip (m.mem pa) (slotOff slot) pgSize = .ok (fs₂, tot) ∧
    m' = (m.reach [.beginOp, .ilock, .diskWrite]).withFs fs₂ ∧ done = decide (tot = some pgSize)

/-- A dirty victim is written to a free slot and unmapped. -/
structure EvictDirty (m : Machine) (p : Proc) (i : Nat) (e : PageInfo) (pte : Pte) (slot f : Nat) (m₁ m₂ m' : Machine)
    (p' : Proc) : Prop where
  victim : Victim p i e pte
  dirty : e.isDirty = true
  clear : firstClear p.swapBitmap 0 maxSwapSlots = some slot
  opened : OpenSwap m p m₁ f
  written : SwapWrite m₁ f pte.pa slot m₂ true
  freed : kfree m₂ pte.pa = .ok m'
  proc : p' = { p.unmapEntry i e.va (fun e => { e with state := .swapped, swapSlot := slot }) with
    swapFile := some f
    swapBitmap := Function.update p.swapBitmap slot true
    swapSlotsUsed := p.swapSlotsUsed + 1 }

/-- An eviction that fails: there is no victim that could be evicted, or the swap file could not be made, or not be written.
Apart from the file system and the open swap file nothing has changed. -/
inductive EvictFail (m : Machine) (p : Proc) : Machine → Proc → Prop where
  | victim (h : ∀ i e pte, Victim p i e pte → e.isDirty = true ∧ firstClear p.swapBitmap 0 maxSwapSlots = none) :
      EvictFail m p m p
  | create {i : Nat} {e : PageInfo} {pte : Pte} {fs : Fs} (victim : Victim p i e pte) (dirty : e.isDirty = true)
      (closed : p.swapFile = none) (h : makeSwapFile m.fs (p.cwd.getD 0) p.pid = .ok (fs, none)) :
      EvictFail m p ((m.reach [.beginOp]).withFs fs) p
  | write {i : Nat} {e : PageInfo} {pte : Pte} {slot f : Nat} {m₁ m₂ : Machine} (victim : Victim p i e pte)
      (dirty : e.isDirty = true) (hslot : firstClear p.swapBitmap 0 maxSwapSlots = some slot) (opened : OpenSwap m p m₁ f)
      (h : SwapWrite m₁ f pte.pa slot m₂ false) : EvictFail m p m₂ { p with swapFile := some f }

/-- A slot that `firstClear` finds is clear, and among those looked at. -/
theorem firstClear_some {bitmap : Nat → Bool} {i n j : Nat} (h : firstClear bitmap i n = some j) :
    bitmap j = false ∧ i ≤ j ∧ j < i + n := by
  induction n generalizing i with
  | zero => nomatch h
  | succ n ih =>
    rw [firstClear] at h
    split at h
    · obtain ⟨h1, h2, h3⟩ := ih h
      exact ⟨h1, by omega, by omega⟩
    · rename_i hb
      obtain rfl := Option.some.inj h
      exact ⟨by simpa using hb, le_refl _, by omega⟩

/-- Freeing the slot just allocated undoes the allocation. -/
theorem freeSwapSlot_alloc {slot : Nat} (h : firstClear p.swapBitmap 0 maxSwapSlots = some slot) (sf : Option Nat) :
    freeSwapSlot { p with
      swapBitmap := Function.update p.swapBitmap slot true, swapSlotsUsed := p.swapSlotsUsed + 1, swapFile := sf } slot =
    { p with swapFile := sf } := by
  obtain ⟨hclear, -, hlt⟩ := firstClear_some h
  have hrange : ¬((slot : Int) < 0 ∨ (maxSwapSlots : Int) ≤ slot) := by omega
  have hback : Function.update (Function.update p.swapBitmap slot true) slot false = p.swapBitmap := by
    rw [Function.update_idem, ← hclear, Function.update_eq_self]
  rw [freeSwapSlot, if_neg hrange]
  simp only [Int.toNat_natCast, Function.update_self, if_true, hback, Int.add_sub_cancel]

/-- `create_swap_file`. -/
theorem createSwapFile_cases {r : Bool} (h : createSwapFile m p = .ok (m', p', r)) :
    (∃ f, r = true ∧ OpenSwap m p m' f ∧ p' = { p with swapFile := some f }) ∨
    (r = false ∧ p' = p ∧ p.swapFile = none ∧
      ∃ fs, makeSwapFile m.fs (p.cwd.getD 0) p.pid = .ok (fs, none) ∧ m' = (m.reach [.beginOp]).withFs fs) := by
  unfold createSwapFile at h
  split at h
  · rename_i hs
    obtain ⟨f, hf⟩ := Option.isSome_iff_exists.mp hs
    simp only [Except.ok.injEq, Prod.mk.injEq] at h
    obtain ⟨rfl, rfl, rfl⟩ := h
    exact Or.inl ⟨f, rfl, Or.inl ⟨hf, rfl⟩, by rw [← hf]⟩
  · rename_i hs
    rw [Bool.not_eq_true, Option.isSome_eq_false_iff, Option.isNone_iff_eq_none] at hs
    obtain ⟨⟨fs, o⟩, hmk, h⟩ := bind_ok h
    cases o with
    | none =>
      simp only [Except.ok.injEq, Prod.mk.injEq] at h
      obtain ⟨rfl, rfl, rfl⟩ := h
      exact Or.inr ⟨rfl, rfl, hs, fs, hmk, rfl⟩
    | some f =>
      simp only [Except.ok.injEq, Prod.mk.injEq] at h
      obtain ⟨rfl, rfl, rfl⟩ := h
      exact Or.inl ⟨f, rfl, Or.inr ⟨hs, fs, hmk, rfl⟩, rfl⟩

/-- `swap_out_page` of a mapped page, once the swap file is open. -/
theorem swapOutPage_cases {f va slot : Nat} {r : Bool} {pte : Pte} (h : swapOutPage m p va slot = .ok (m', p', r))
    (hf : p.swapFile = some f) (hleaf : p.pagetable.leaf (va / 4096) = some pte) :
    p' = p ∧ SwapWrite m f pte.pa slot m' r := by
  have hopen : createSwapFile m p = .ok (m, p, true) := by simp [createSwapFile, hf]
  obtain ⟨x, hx, h⟩ := bind_ok h
  rw [hopen] at hx
  obtain rfl := Except.ok.inj hx
  obtain ⟨o, hl, h⟩ := bind_ok h
  unfold lookup at hl
  split at hl
  · nomatch hl
  obtain rfl := Except.ok.inj hl
  simp only [hleaf, hf, Option.getD_some] at h
  obtain ⟨fs₁, hi, h⟩ := bind_ok h
  obtain ⟨⟨fs₂, tot⟩, hw, h⟩ := bind_ok h
  simp only [Except.ok.injEq, Prod.mk.injEq] at h
  obtain ⟨rfl, rfl, rfl⟩ := h
  exact ⟨rfl, fs₁, fs₂, tot, hi, hw, rfl, rfl⟩

/-- The end of an eviction. -/
theorem evictUnmap_cases {i va : Nat} {f : PageInfo → PageInfo} {pte : Pte} {r : Bool}
    (h : evictUnmap m (p.modPage i f) va = .ok (m', p', r)) (hleaf : p.pagetable.leaf (va / 4096) = some pte) :
    r = true ∧ kfree m pte.pa = .ok m' ∧ p' = p.unmapEntry i va f := by
  obtain ⟨⟨m₁, pt⟩, hu, h⟩ := bind_ok h
  simp only [Except.ok.injEq, Prod.mk.injEq] at h
  obtain ⟨rfl, rfl, rfl⟩ := h
  have hs : UnmapSpec m p.pagetable va m₁ pt := uvmunmap_one hu
  refine ⟨rfl, ?_, by rw [Proc.unmapEntry, ← hs.clear]⟩
  rcases hs.freed with ⟨hnone, -⟩ | ⟨pte', hsome, hk⟩
  · rw [hleaf] at hnone
    nomatch hnone
  · rw [hleaf] at hsome
    rwa [Option.some.inj hsome]

/-- `evict_page_fifo` of a dirty victim. -/
theorem evictDirty_cases {i : Nat} {e : PageInfo} {pte : Pte} {r : Bool} (hv : Victim p i e pte) (hd : e.isDirty = true)
    (h : evictDirty m p i e.va = .ok (m', p', r)) :
    (r = true ∧ ∃ slot f m₁ m₂, EvictDirty m p i e pte slot f m₁ m₂ m' p') ∨ (r = false ∧ EvictFail m p m' p') := by
  unfold evictDirty allocSwapSlot at h
  cases hslot : firstClear p.swapBitmap 0 maxSwapSlots with
  | none =>
    simp only [hslot, Except.ok.injEq, Prod.mk.injEq] at h
    obtain ⟨rfl, rfl, rfl⟩ := h
    refine Or.inr ⟨rfl, .victim (fun j x q hx => ⟨?_, hslot⟩)⟩
    obtain rfl := Option.some.inj (hv.idx.symm.trans hx.idx)
    obtain rfl := Option.some.inj (hv.entry.symm.trans hx.entry)
    exact hd
  | some slot =>
    simp only [hslot] at h
    obtain ⟨⟨m₁, p₁, b⟩, hc, h⟩ := bind_ok h
    rcases createSwapFile_cases hc with ⟨f, rfl, hopen, rfl⟩ | ⟨rfl, rfl, hclosed, fs, hmk, rfl⟩
    · obtain ⟨⟨m₂, p₂, b₂⟩, hw, h⟩ := bind_ok h
      obtain ⟨rfl, hwrite⟩ := swapOutPage_cases hw rfl hv.leaf
      cases b₂ with
      | false =>
        simp only [Except.ok.injEq, Prod.mk.injEq] at h
        obtain ⟨rfl, rfl, rfl⟩ := h
        rw [freeSwapSlot_alloc hslot]
        exact Or.inr ⟨rfl, .write hv hd hslot hopen hwrite⟩
      | true =>
        obtain ⟨rfl, hk, rfl⟩ := evictUnmap_cases h hv.leaf
        exact Or.inl ⟨rfl, slot, f, m₁, m₂, hv, hd, hslot, hopen, hwrite, hk, rfl⟩
    · simp only [Except.ok.injEq, Prod.mk.injEq] at h
      obtain ⟨rfl, rfl, rfl⟩ := h
      rw [freeSwapSlot_alloc hslot]
      exact Or.inr ⟨rfl, .create hv hd hclosed hmk⟩

/-- `evict_page_fifo`. -/
theorem evictPageFifo_cases {r : Bool} (h : evictPageFifo m p = .ok (m', p', r)) :
    (r = true ∧ ∃ i e pte, EvictClean m p i e pte m' p') ∨
    (r = true ∧ ∃ i e pte slot f m₁ m₂, EvictDirty m p i e pte slot f m₁ m₂ m' p') ∨
    (r = false ∧ EvictFail m p m' p') := by
  unfold evictPageFifo at h
  cases hidx : victimIdx p.pages with
  | none =>
    simp only [hidx, Except.ok.injEq, Prod.mk.injEq] at h
    obtain ⟨rfl, rfl, rfl⟩ := h
    exact Or.inr (Or.inr ⟨rfl, .victim (fun i e pte hv => absurd hv.idx (by rw [hidx]; simp))⟩)
  | some i =>
    obtain ⟨e, he, hr⟩ := victimIdx_some hidx
    simp only [hidx, he] at h
    obtain ⟨o, hl, h⟩ := bind_ok h
    unfold lookup at hl
    split at hl
    · nomatch hl
    obtain rfl := Except.ok.inj hl
    cases hleaf : p.pagetable.leaf (e.va / 4096) with
    | none =>
      simp only [hleaf, Except.ok.injEq, Prod.mk.injEq] at h
      obtain ⟨rfl, rfl, rfl⟩ := h
      refine Or.inr (Or.inr ⟨rfl, .victim (fun j x pte hv => ?_)⟩)
      obtain rfl := Option.some.inj (hidx.symm.trans hv.idx)
      obtain rfl := Option.some.inj (he.symm.trans hv.entry)
      exact absurd hv.leaf (by rw [hleaf]; simp)
    | some pte =>
      have hv : Victim p i e pte := ⟨hidx, he, hleaf⟩
      simp only [hleaf] at h
      split at h
      · rename_i hd
        rcases evictDirty_cases hv hd h with ⟨rfl, hx⟩ | ⟨rfl, hx⟩
        · obtain ⟨slot, f, m₁, m₂, hx⟩ := hx
          exact Or.inr (Or.inl ⟨rfl, i, e, pte, slot, f, m₁, m₂, hx⟩)
        · exact Or.inr (Or.inr ⟨rfl, hx⟩)
      · rename_i hd
        obtain ⟨rfl, hk, rfl⟩ := evictUnmap_cases h hleaf
        exact Or.inl ⟨rfl, i, e, pte, hv, by simpa using hd, hk, rfl⟩

end Xv6SnifferBakery.Kernel
