import Xv6SnifferBakery.Lemmas.Service
import Xv6SnifferBakery.Lemmas.Executables

/-!
# What a fault finds

The conditions under which `evict_page_fifo` takes a page out of memory and `handle_page_fault` loads one, on the state before: the
victim and its frame, a clear slot, room for it in the swap file, and pages of memory for the page and its tables.
-/

namespace Xv6SnifferBakery.Kernel

open Lib

variable {m m' : Machine} {p p' : Proc} {e : PageInfo} {pte : Pte} {i slot va : Nat} {access : Access}

/-! ## Slots -/

/-- The inode of the swap file and the free blocks there are for it: the file is open, or `create_swap_file` opens it. -/
inductive SwapInode (m : Machine) (p : Proc) : Inode → Nat → Prop where
  | opened {f : Nat} (file : p.swapFile = some f) (lock : m.fs.Lockable (m.fs.ftable f).ip) : SwapInode m p (m.fs.openInode f) m.fs.nfree
  | new {ip : Inode} {nfree : Nat} (closed : p.swapFile = none) (new : NewSwap m.fs (p.cwd.getD 0) p.pid ip nfree) : SwapInode m p ip nfree

/-- The swap file has room for a page at slot `slot`. -/
def SlotSpace (m : Machine) (p : Proc) (slot : Nat) : Prop := ∃ ip nfree, SwapInode m p ip nfree ∧ ip.Takes slot nfree

/-- Writing a page to a slot of an open file, whose inode can be locked. -/
theorem swapWrite_of {f : Nat} {pa : Pa} (hslot : slot < maxSwapSlots) (hlock : m.fs.Lockable (m.fs.ftable f).ip) :
    ∃ m₂ done, SwapWrite m f pa slot m₂ done ∧ (done = true ↔ (m.fs.openInode f).Takes slot m.fs.nfree) := by
  obtain ⟨fs₁, hl⟩ := ilock_iff.mpr hlock
  obtain ⟨hfree, hino⟩ := ilock_room hl
  obtain ⟨fs₂, o, hw, hiff⟩ := @writei_slot fs₁ (m.fs.ftable f).ip slot (m.mem pa) hslot
  rw [hino, hfree] at hiff
  exact ⟨_, _, ⟨fs₁, fs₂, o, hl, hw, rfl, rfl⟩, by rw [decide_eq_true_eq]; exact hiff⟩

theorem SwapWrite.takes {f : Nat} {pa : Pa} {done : Bool} {m₂ : Machine} (h : SwapWrite m f pa slot m₂ done) (hslot : slot < maxSwapSlots) :
    m.fs.Lockable (m.fs.ftable f).ip ∧ (done = true ↔ (m.fs.openInode f).Takes slot m.fs.nfree) := by
  obtain ⟨fs₁, fs₂, tot, hl, hwrite, -, rfl⟩ := h
  obtain ⟨hfree, hino⟩ := ilock_room hl
  obtain ⟨fs₃, o, hw, hiff⟩ := @writei_slot fs₁ (m.fs.ftable f).ip slot (m.mem pa) hslot
  obtain ⟨-, rfl⟩ := Prod.mk.inj (Except.ok.inj (hwrite.symm.trans hw))
  rw [hino, hfree] at hiff
  exact ⟨ilock_iff.mp ⟨fs₁, hl⟩, by rw [decide_eq_true_eq]; exact hiff⟩

/-- The swap file once it is open. -/
theorem OpenSwap.swapInode {m₁ : Machine} {f : Nat} (h : OpenSwap m p m₁ f) (hlock : m₁.fs.Lockable (m₁.fs.ftable f).ip) :
    SwapInode m p (m₁.fs.openInode f) m₁.fs.nfree := by
  rcases h with ⟨hfile, rfl⟩ | ⟨hnone, fs, hmk, rfl⟩
  · exact .opened hfile hlock
  · exact .new hnone (makeSwapFile_new hmk).1

theorem SwapInode.openSwap {ip : Inode} {nfree : Nat} (h : SwapInode m p ip nfree) :
    ∃ m₁ f, OpenSwap m p m₁ f ∧ m₁.fs.Lockable (m₁.fs.ftable f).ip ∧ m₁.fs.openInode f = ip ∧ m₁.fs.nfree = nfree := by
  cases h with
  | opened hfile hlock => exact ⟨m, _, Or.inl ⟨hfile, rfl⟩, hlock, rfl, rfl⟩
  | new hnone hnew =>
    obtain ⟨fs, f, hmk, hlock, rfl, rfl⟩ := hnew.eq
    exact ⟨(m.reach [.beginOp]).withFs fs, f, Or.inr ⟨hnone, fs, hmk, rfl⟩, hlock, rfl, rfl⟩

/-- A page can be written to a slot exactly when the swap file has room for it. -/
theorem slotSpace_iff {pa : Pa} (hslot : slot < maxSwapSlots) :
    (∃ m₁ f m₂, OpenSwap m p m₁ f ∧ SwapWrite m₁ f pa slot m₂ true) ↔ SlotSpace m p slot := by
  constructor
  · rintro ⟨m₁, f, m₂, hopen, hwrite⟩
    obtain ⟨hlock, htakes⟩ := hwrite.takes hslot
    exact ⟨_, _, hopen.swapInode hlock, htakes.mp rfl⟩
  · rintro ⟨ip, nfree, hswap, htakes⟩
    obtain ⟨m₁, f, hopen, hlock, rfl, rfl⟩ := hswap.openSwap
    obtain ⟨m₂, done, hwrite, hiff⟩ := @swapWrite_of m₁ slot f pa hslot hlock
    obtain rfl := hiff.mpr htakes
    exact ⟨m₁, f, m₂, hopen, hwrite⟩

/-! ## Evictions -/

/-- `evict_page_fifo` can take the page of entry `e` out of memory: it is the victim, its frame can be freed, and if it is dirty a slot is
clear and the swap file has room for it. -/
inductive CanEvict (m : Machine) (p : Proc) (e : PageInfo) : Prop where
  | clean {i : Nat} {pte : Pte} (victim : Victim p i e pte) (frame : Freeable m.kend pte.pa) (clean : e.isDirty = false) : CanEvict m p e
  | dirty {i slot : Nat} {pte : Pte} (victim : Victim p i e pte) (frame : Freeable m.kend pte.pa) (dirty : e.isDirty = true)
      (clear : firstClear p.swapBitmap 0 maxSwapSlots = some slot) (space : SlotSpace m p slot) : CanEvict m p e

/-- The page of entry `e` is taken out of memory. -/
def Evicted (m : Machine) (p : Proc) (e : PageInfo) (m' : Machine) (p' : Proc) : Prop :=
  ∃ i pte, EvictClean m p i e pte m' p' ∨ ∃ slot f m₁ m₂, EvictDirty m p i e pte slot f m₁ m₂ m' p'

theorem Evicted.canEvict (h : Evicted m p e m' p') : CanEvict m p e := by
  obtain ⟨i, pte, hx | ⟨slot, f, m₁, m₂, hx⟩⟩ := h
  · exact .clean hx.victim (kfree_freeable hx.freed) hx.clean
  · have hkend : m₂.kend = m.kend := (hx.opened.sameMem.trans hx.written.sameMem).kend
    have hlt : slot < maxSwapSlots := by have := (firstClear_some hx.clear).2.2; omega
    exact .dirty hx.victim (hkend ▸ kfree_freeable hx.freed) hx.dirty hx.clear ((slotSpace_iff hlt).mp ⟨m₁, f, m₂, hx.opened, hx.written⟩)

theorem CanEvict.evicted (h : CanEvict m p e) : ∃ m' p', Evicted m p e m' p' := by
  cases h with
  | clean hv hframe hc => exact ⟨_, _, _, _, Or.inl ⟨hv, hc, hframe.kfree, rfl⟩⟩
  | dirty hv hframe hd hclear hspace =>
    rename_i i slot pte
    have hlt : slot < maxSwapSlots := by have := (firstClear_some hclear).2.2; omega
    obtain ⟨m₁, f, m₂, hopen, hwrite⟩ := (@slotSpace_iff m p slot pte.pa hlt).mpr hspace
    have hkend : m₂.kend = m.kend := (hopen.sameMem.trans hwrite.sameMem).kend
    obtain ⟨m', hfreed⟩ := kfree_ok_of (m := m₂) (hkend.symm ▸ hframe)
    exact ⟨m', _, i, pte, Or.inr ⟨slot, f, m₁, m₂, hv, hd, hclear, hopen, hwrite, hfreed, rfl⟩⟩

theorem CanEvict.victim (h : CanEvict m p e) : ∃ i pte, Victim p i e pte := by
  cases h with
  | clean hv => exact ⟨_, _, hv⟩
  | dirty hv => exact ⟨_, _, hv⟩

/-- The page of at most one entry can be evicted. -/
theorem CanEvict.unique {e' : PageInfo} (h : CanEvict m p e) (h' : CanEvict m p e') : e = e' := by
  obtain ⟨i, pte, hv⟩ := h.victim
  obtain ⟨i', pte', hv'⟩ := h'.victim
  obtain rfl := Option.some.inj (hv.idx.symm.trans hv'.idx)
  exact Option.some.inj (hv.entry.symm.trans hv'.entry)

theorem evictPageFifo_evicted : evictPageFifo m p = .ok (m', p', true) → ∃ e, Evicted m p e m' p' := by
  intro h
  rcases evictPageFifo_cases h with ⟨-, i, e, pte, hx⟩ | ⟨-, i, e, pte, slot, f, m₁, m₂, hx⟩ | ⟨hf, -⟩
  · exact ⟨e, i, pte, Or.inl hx⟩
  · exact ⟨e, i, pte, Or.inr ⟨slot, f, m₁, m₂, hx⟩⟩
  · cases hf

theorem Evicted.eq (hal : p.Aligned) (h : Evicted m p e m' p') : evictPageFifo m p = .ok (m', p', true) := by
  obtain ⟨i, pte, hx | ⟨slot, f, m₁, m₂, hx⟩⟩ := h
  · exact hx.eq hal
  · exact hx.eq hal

/-- `evict_page_fifo` succeeds exactly when it can evict a page. -/
theorem evictPageFifo_iff (hal : p.Aligned) : (∃ m' p', evictPageFifo m p = .ok (m', p', true)) ↔ ∃ e, CanEvict m p e := by
  constructor
  · rintro ⟨m', p', h⟩
    obtain ⟨e, he⟩ := evictPageFifo_evicted h
    exact ⟨e, he.canEvict⟩
  · rintro ⟨e, h⟩
    obtain ⟨m', p', he⟩ := h.evicted
    exact ⟨m', p', he.eq hal⟩

/-- `evict_page_fifo` gives up: there is no victim, or its page is not mapped; or it is dirty and no slot is clear, the swap file is not
open and cannot be made, or it has no room for the page. -/
inductive GivesUp (m : Machine) (p : Proc) : Prop where
  | none (h : victimIdx p.pages = none) : GivesUp m p
  | unmapped {i : Nat} {e : PageInfo} (idx : victimIdx p.pages = some i) (entry : p.pages[i]? = some e) (lt : e.va < maxVa)
      (leaf : p.pagetable.leaf (e.va / 4096) = Option.none) : GivesUp m p
  | slots {i : Nat} {e : PageInfo} {pte : Pte} (victim : Victim p i e pte) (dirty : e.isDirty = true)
      (full : firstClear p.swapBitmap 0 maxSwapSlots = Option.none) : GivesUp m p
  | create {i slot : Nat} {e : PageInfo} {pte : Pte} (victim : Victim p i e pte) (dirty : e.isDirty = true)
      (clear : firstClear p.swapBitmap 0 maxSwapSlots = some slot) (closed : p.swapFile = Option.none)
      (calm : ¬SwapPanics m.fs (p.cwd.getD 0) p.pid) (never : ∀ ip nfree, ¬NewSwap m.fs (p.cwd.getD 0) p.pid ip nfree) : GivesUp m p
  | room {i slot nfree : Nat} {e : PageInfo} {pte : Pte} {ip : Inode} (victim : Victim p i e pte) (dirty : e.isDirty = true)
      (clear : firstClear p.swapBitmap 0 maxSwapSlots = some slot) (file : SwapInode m p ip nfree) (full : ¬ip.Takes slot nfree) :
      GivesUp m p

theorem stuck_iff : Stuck m p ↔ GivesUp m p := by
  have hlt : ∀ {slot}, firstClear p.swapBitmap 0 maxSwapSlots = some slot → slot < maxSwapSlots := by
    intro slot h
    have := (firstClear_some h).2.2
    omega
  constructor
  · intro h
    cases h with
    | none hidx => exact .none hidx
    | unmapped hidx he hva hleaf => exact .unmapped hidx he hva hleaf
    | slots hv hd hfull => exact .slots hv hd hfull
    | create hv hd hclear hclosed hmk =>
      refine .create hv hd hclear hclosed (fun hp => ?_) (fun ip n hn => ?_)
      · obtain ⟨e, he⟩ := hp.eq
        rw [hmk] at he
        cases he
      · obtain ⟨fs', f, hm, -⟩ := hn.eq
        rw [hmk] at hm
        cases hm
    | write hv hd hclear hopen hw =>
      obtain ⟨hlock, htakes⟩ := hw.takes (hlt hclear)
      exact .room hv hd hclear (hopen.swapInode hlock) (fun h => by cases htakes.mpr h)
  · intro h
    cases h with
    | none hidx => exact .none hidx
    | unmapped hidx he hva hleaf => exact .unmapped hidx he hva hleaf
    | slots hv hd hfull => exact .slots hv hd hfull
    | create hv hd hclear hclosed hcalm hnever =>
      rcases makeSwapFile_total m.fs (p.cwd.getD 0) p.pid with hp | ⟨ip, n, hn⟩ | ⟨fs', hmk⟩
      · exact absurd hp hcalm
      · exact absurd hn (hnever ip n)
      · exact .create hv hd hclear hclosed hmk
    | room hv hd hclear hfile hfull =>
      rename_i i slot nfree e pte ip
      obtain ⟨m₁, f, hopen, hlock, rfl, rfl⟩ := hfile.openSwap
      obtain ⟨m₂, done, hwrite, hiff⟩ := @swapWrite_of m₁ slot f pte.pa (hlt hclear) hlock
      have hdone : done = false := by
        cases done with
        | false => rfl
        | true => exact absurd (hiff.mp rfl) hfull
      exact .write hv hd hclear hopen (hdone ▸ hwrite)

end Xv6SnifferBakery.Kernel
