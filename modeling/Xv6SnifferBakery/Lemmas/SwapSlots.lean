import Xv6SnifferBakery.Lemmas.Residence
import Xv6SnifferBakery.Lemmas.SwapFiles

/-!
# Slots of the swap file

A slot in use lies within the swap file, and holds the page that was written to it. `writei` refuses an offset beyond the end of the
file, so this rests on first fit: every slot below the one that is allocated is in use, hence the file reaches up to it.
-/

namespace Xv6SnifferBakery.Kernel

open Lib

variable {m m' : Machine} {p p' : Proc} {fs fs' : Fs} {i ip f slot : Nat}

/-! ## Writing a slot -/

theorem bmapData_bytes {bn : Nat} {got : Bool} (h : bmapData fs i bn = (fs', got)) : (fs.inode i).SameBytes (fs'.inode i) := by
  unfold bmapData at h
  split at h
  · obtain ⟨rfl, -⟩ := Prod.mk.inj h
    exact .refl _
  unfold balloc at h
  split at h
  · rename_i hb
    split at hb
    · obtain ⟨rfl, -⟩ := Prod.mk.inj h
      obtain ⟨rfl, -⟩ := Prod.mk.inj hb
      exact .refl _
    · nomatch hb
  · rename_i hb
    split at hb
    · nomatch hb
    · obtain ⟨rfl, -⟩ := Prod.mk.inj h
      obtain ⟨rfl, -⟩ := Prod.mk.inj hb
      rw [Fs.modInode_inode, if_pos rfl]
      exact ⟨rfl, rfl⟩

/-- Allocating a block changes no byte of the file. -/
theorem bmap_bytes {bn : Nat} {got : Bool} (h : bmap fs i bn = .ok (fs', got)) : (fs.inode i).SameBytes (fs'.inode i) := by
  unfold bmap at h
  split at h
  · exact bmapData_bytes (Except.ok.inj h)
  split at h
  · split at h
    · exact bmapData_bytes (Except.ok.inj h)
    unfold balloc at h
    split at h
    · rename_i hb
      split at hb
      · obtain ⟨rfl, -⟩ := Prod.mk.inj (Except.ok.inj h)
        obtain ⟨rfl, -⟩ := Prod.mk.inj hb
        exact .refl _
      · nomatch hb
    · rename_i hb
      split at hb
      · nomatch hb
      · obtain ⟨rfl, -⟩ := Prod.mk.inj hb
        refine Inode.SameBytes.trans ?_ (bmapData_bytes (Except.ok.inj h))
        rw [Fs.modInode_inode, if_pos rfl]
        exact ⟨rfl, rfl⟩
  · nomatch h

/-- The loop of `writei` maps blocks, and stops after at most the bytes asked for. -/
theorem writeiLoop_bytes {off n fuel tot tot' : Nat} (h : writeiLoop i off n fuel tot fs = .ok (fs', tot')) (htot : tot ≤ n) :
    (fs.inode i).SameBytes (fs'.inode i) ∧ tot' ≤ n := by
  induction fuel generalizing fs tot with
  | zero =>
    obtain ⟨rfl, rfl⟩ := Prod.mk.inj (Except.ok.inj h)
    exact ⟨.refl _, htot⟩
  | succ fuel ih =>
    rw [writeiLoop] at h
    split at h
    · obtain ⟨⟨fs₁, got⟩, hb, h⟩ := bind_ok h
      cases got with
      | false =>
        obtain ⟨rfl, rfl⟩ := Prod.mk.inj (Except.ok.inj h)
        exact ⟨bmap_bytes hb, htot⟩
      | true =>
        obtain ⟨hs, hle⟩ := ih h (by omega)
        exact ⟨(bmap_bytes hb).trans hs, hle⟩
    · obtain ⟨rfl, rfl⟩ := Prod.mk.inj (Except.ok.inj h)
      exact ⟨.refl _, htot⟩

/-- `writei`: refused, or the bytes of the range up to where it stopped are those of the source, and the file reaches there. -/
theorem writei_bytes {src : Nat → Byte} {off n : Nat} {tot : Option Nat} (h : writei fs i src off n = .ok (fs', tot)) :
    (tot = none ∧ fs' = fs) ∨ ∃ w ≤ n, tot = some w ∧ (fs'.inode i).size = max (fs.inode i).size (off + w) ∧
      ∀ k, (fs'.inode i).data k = if off ≤ k ∧ k < off + w then src (k - off) else (fs.inode i).data k := by
  unfold writei at h
  split at h
  · obtain ⟨rfl, rfl⟩ := Prod.mk.inj (Except.ok.inj h)
    exact Or.inl ⟨rfl, rfl⟩
  split at h
  · obtain ⟨rfl, rfl⟩ := Prod.mk.inj (Except.ok.inj h)
    exact Or.inl ⟨rfl, rfl⟩
  · obtain ⟨⟨fs₁, w⟩, hl, h⟩ := bind_ok h
    obtain ⟨rfl, rfl⟩ := Prod.mk.inj (Except.ok.inj h)
    obtain ⟨⟨hdata, hsize⟩, hle⟩ := writeiLoop_bytes hl (Nat.zero_le n)
    refine Or.inr ⟨w, hle, rfl, ?_, ?_⟩
    · rw [Fs.modInode_inode, if_pos rfl]
      change max (fs₁.inode i).size (off + w) = _
      rw [hsize]
    · intro k
      rw [Fs.modInode_inode, if_pos rfl]
      change (if off ≤ k ∧ k < off + w then src (k - off) else (fs₁.inode i).data k) = _
      rw [hdata]

/-- The inode of an open file. -/
def Fs.openInode (fs : Fs) (f : Nat) : Inode := fs.inode (fs.ftable f).ip

theorem slotOff_natCast (hlt : slot < maxSwapSlots) : slotOff slot = slot * 4096 := by
  have h1024 : slot < 1024 := hlt
  unfold slotOff
  omega

/-- Between `fs` and `fs'` the file only grows, and of its bytes only those of one slot change. -/
structure SlotWrite (fs : Fs) (f slot : Nat) (fs' : Fs) : Prop where
  ftable : fs'.ftable = fs.ftable
  grows : (fs.openInode f).size ≤ (fs'.openInode f).size
  others : ∀ k, k < slot * 4096 ∨ slot * 4096 + 4096 ≤ k → (fs'.openInode f).data k = (fs.openInode f).data k

/-- A swap-out writes its slot only; when it is complete, the slot holds the page and lies within the file. -/
theorem SwapWrite.writes {pa : Pa} {done : Bool} (h : SwapWrite m f pa slot m' done) (hlt : slot < maxSwapSlots) :
    SlotWrite m.fs f slot m'.fs ∧ (done = true → slot * 4096 + 4096 ≤ (m'.fs.openInode f).size ∧
      ∀ k < 4096, (m'.fs.openInode f).data (slot * 4096 + k) = m.mem pa k) := by
  obtain ⟨fs₁, fs₂, tot, hl, hw, rfl, rfl⟩ := h
  obtain ⟨-, hino, hft, -⟩ := ilock_ok hl
  have hft₂ : fs₂.ftable = m.fs.ftable := (writei_edits hw).ftable.trans hft
  have hopen : fs₂.openInode f = fs₂.inode (m.fs.ftable f).ip := by rw [Fs.openInode, hft₂]
  rw [slotOff_natCast hlt] at hw
  rcases writei_bytes hw with ⟨rfl, rfl⟩ | ⟨w, hle, rfl, hsize, hdata⟩
  · refine ⟨⟨hft₂, ?_, ?_⟩, fun hd => ?_⟩
    · change _ ≤ (fs₂.openInode f).size
      rw [hopen, hino]
      exact Nat.le_refl _
    · intro k _
      change (fs₂.openInode f).data k = _
      rw [hopen, hino]
      rfl
    · simp at hd
  · rw [hino] at hsize hdata
    refine ⟨⟨hft₂, ?_, ?_⟩, fun hd => ?_⟩
    · change _ ≤ (fs₂.openInode f).size
      rw [hopen, hsize]
      exact Nat.le_max_left _ _
    · intro k hk
      change (fs₂.openInode f).data k = _
      rw [hopen, hdata, if_neg (by have : w ≤ 4096 := hle; omega)]
      rfl
    · have hfull : w = 4096 := by simpa using hd
      subst hfull
      refine ⟨?_, ?_⟩
      · change _ ≤ (fs₂.openInode f).size
        rw [hopen, hsize]
        exact Nat.le_max_right _ _
      · intro k hk
        change (fs₂.openInode f).data _ = _
        rw [hopen, hdata, if_pos (by omega), Nat.add_sub_cancel_left]

/-! ## The invariant -/

/-- Slots are taken first fit: those below the first clear one are in use. -/
theorem firstClear_least {bitmap : Nat → Bool} {a n j : Nat} (h : firstClear bitmap a n = some j) {k : Nat} (ha : a ≤ k) (hk : k < j) :
    bitmap k = true := by
  induction n generalizing a with
  | zero => nomatch h
  | succ n ih =>
    rw [firstClear] at h
    split at h
    · rename_i hb
      rcases Nat.eq_or_lt_of_le ha with rfl | hlt
      · exact hb
      · exact ih h hlt
    · obtain rfl := Option.some.inj h
      omega

/-- The entry's page is in a slot of its own, which holds what was saved of it. -/
def InSlot (saved : Nat → Option Page) (m : Machine) (p : Proc) (e : PageInfo) (slot : Nat) : Prop :=
  e.swapSlot = slot ∧ p.swapBitmap slot = true ∧
    ∃ f page, p.swapFile = some f ∧ saved e.va = some page ∧ ∀ k < 4096, (m.fs.openInode f).data (slot * 4096 + k) = page k

/-- The swap slots of a process are in order: those in use lie within the swap file, and every page that is swapped out is in a slot
of its own. Only when its process is killed, because a page could be read but not mapped, has an entry given its slot up. -/
structure SwapKept (saved : Nat → Option Page) (m : Machine) (p : Proc) : Prop where
  used : ∀ s, p.swapBitmap s = true → s < maxSwapSlots ∧ ∃ f, p.swapFile = some f ∧ s * 4096 + 4096 ≤ (m.fs.openInode f).size
  addrs : (p.pages.map PageInfo.va).Nodup
  swapped : ∀ e ∈ p.pages, e.state = .swapped → (e.swapSlot = -1 ∧ p.killed = true) ∨ ∃ s, InSlot saved m p e s
  distinct : ∀ (j l : Nat) (e x : PageInfo) (s : Nat), p.pages[j]? = some e → p.pages[l]? = some x → e.state = .swapped →
    x.state = .swapped → e.swapSlot = s → x.swapSlot = s → j = l

variable {saved : Nat → Option Page}

/-- A process without swapped pages and without slots. -/
theorem SwapKept.empty (hbits : ∀ s, p.swapBitmap s = false) (haddrs : (p.pages.map PageInfo.va).Nodup)
    (hno : ∀ e ∈ p.pages, e.state ≠ .swapped) : SwapKept saved m p := by
  refine ⟨?_, haddrs, ?_, ?_⟩
  · intro s hs
    rw [hbits s] at hs
    nomatch hs
  · intro e he hst
    exact absurd hst (hno e he)
  · intro j l e x s he _ hst
    exact absurd hst (hno e (List.mem_of_getElem? he))

/-- What becomes of the swap file of a process that is not about its slots: the file stays, its slots in use keep their bytes. -/
def KeepsSlots (m : Machine) (p : Proc) (m' : Machine) (p' : Proc) : Prop :=
  ∀ f, p.swapFile = some f → p'.swapFile = some f ∧ (m.fs.openInode f).size ≤ (m'.fs.openInode f).size ∧
    ∀ s k, p.swapBitmap s = true → k < 4096 → (m'.fs.openInode f).data (s * 4096 + k) = (m.fs.openInode f).data (s * 4096 + k)

/-- What keeps the slots, and swaps no page out, keeps them in order. -/
theorem SwapKept.frame (h : SwapKept saved m p) (hkeep : KeepsSlots m p m' p') (hbits : p'.swapBitmap = p.swapBitmap)
    (hkill : p.killed = true → p'.killed = true) (haddrs : (p'.pages.map PageInfo.va).Nodup)
    (hpages : ∀ (j : Nat) (x : PageInfo), p'.pages[j]? = some x → x.state = .swapped →
      ∃ e, p.pages[j]? = some e ∧ e.state = .swapped ∧ e.va = x.va ∧ e.swapSlot = x.swapSlot) : SwapKept saved m' p' := by
  refine ⟨?_, haddrs, ?_, ?_⟩
  · intro s hs
    rw [hbits] at hs
    obtain ⟨hlt, f, hf, hle⟩ := h.used s hs
    obtain ⟨hf', hgrow, -⟩ := hkeep f hf
    exact ⟨hlt, f, hf', Nat.le_trans hle hgrow⟩
  · intro x hx hst
    obtain ⟨j, hj⟩ := List.mem_iff_getElem?.mp hx
    obtain ⟨e, he, hse, hva, hslot⟩ := hpages j x hj hst
    rcases h.swapped e (List.mem_of_getElem? he) hse with ⟨hneg, hkilled⟩ | ⟨s, hs, hb, f, page, hf, hsaved, hdata⟩
    · exact Or.inl ⟨hslot ▸ hneg, hkill hkilled⟩
    · obtain ⟨hf', -, hsame⟩ := hkeep f hf
      refine Or.inr ⟨s, hslot ▸ hs, by rw [hbits]; exact hb, f, page, hf', hva ▸ hsaved, ?_⟩
      intro k hk
      rw [hsame s k hb hk, hdata k hk]
  · intro j l x y s hx hy hsx hsy hxs hys
    obtain ⟨e, he, hse, -, hslot⟩ := hpages j x hx hsx
    obtain ⟨e', he', hse', -, hslot'⟩ := hpages l y hy hsy
    exact h.distinct j l e e' s he he' hse hse' (hslot.trans hxs) (hslot'.trans hys)

/-- The swap file is the one there was, if any. -/
theorem KeepsSlots.of_inodes (hfile : p'.swapFile = p.swapFile) (hino : m'.fs.inode = m.fs.inode) (hft : m'.fs.ftable = m.fs.ftable) :
    KeepsSlots m p m' p' := by
  intro f hf
  have hopen : m'.fs.openInode f = m.fs.openInode f := by rw [Fs.openInode, hino, hft, Fs.openInode]
  rw [hopen]
  exact ⟨hfile.trans hf, Nat.le_refl _, fun _ _ _ _ => rfl⟩

/-- Entries that are changed in place and do not become swapped. -/
theorem modify_swapped {es : List PageInfo} {f : PageInfo → PageInfo} (hva : ∀ e, (f e).va = e.va)
    (hst : ∀ e, (f e).state = .swapped → e.state = .swapped ∧ (f e).swapSlot = e.swapSlot) :
    ∀ (j : Nat) (x : PageInfo), (es.modify i f)[j]? = some x → x.state = .swapped →
      ∃ e, es[j]? = some e ∧ e.state = .swapped ∧ e.va = x.va ∧ e.swapSlot = x.swapSlot := by
  intro j x hx hs
  rw [List.getElem?_modify] at hx
  obtain ⟨e, he, hfe⟩ := Option.map_eq_some_iff.mp hx
  by_cases hij : i = j
  · rw [if_pos hij] at hfe
    subst hfe
    exact ⟨e, he, (hst e hs).1, (hva e).symm, (hst e hs).2.symm⟩
  · rw [if_neg hij] at hfe
    subst hfe
    exact ⟨e, he, hs, rfl, rfl⟩

/-- The first slot that is clear begins within the swap file. -/
theorem SwapKept.first (h : SwapKept saved m p) (hclear : firstClear p.swapBitmap 0 maxSwapSlots = some slot) (hf : p.swapFile = some f) :
    slot * 4096 ≤ (m.fs.openInode f).size := by
  cases slot with
  | zero => omega
  | succ s =>
    obtain ⟨-, g, hg, hle⟩ := h.used s (firstClear_least hclear (Nat.zero_le s) (Nat.lt_succ_self s))
    obtain rfl := Option.some.inj (hf.symm.trans hg)
    omega

/-- A process whose swap file is still to be made has no slot in use. -/
theorem SwapKept.unused (h : SwapKept saved m p) (hnone : p.swapFile = none) (s : Nat) : p.swapBitmap s = false := by
  cases hb : p.swapBitmap s with
  | false => rfl
  | true =>
    obtain ⟨-, f, hf, -⟩ := h.used s hb
    rw [hnone] at hf
    nomatch hf

/-- Opening the swap file, and writing to a slot that is clear, keeps the slots in use. -/
theorem SwapKept.write {m₁ : Machine} {pa : Pa} {done : Bool} (h : SwapKept saved m p)
    (hclear : firstClear p.swapBitmap 0 maxSwapSlots = some slot) (hopen : OpenSwap m p m₁ f) (hw : SwapWrite m₁ f pa slot m' done) :
    SwapKept saved m' { p with swapFile := some f } := by
  obtain ⟨hfree, -, hlt⟩ := firstClear_some hclear
  obtain ⟨hslot, -⟩ := hw.writes (by omega)
  refine h.frame ?_ rfl id h.addrs (fun j x hx hs => ⟨x, hx, hs, rfl, rfl⟩)
  intro g hg
  rcases hopen with ⟨hf, rfl⟩ | ⟨hnone, -⟩
  · obtain rfl := Option.some.inj (hf.symm.trans hg)
    refine ⟨rfl, hslot.grows, ?_⟩
    intro s k hs hk
    refine hslot.others _ ?_
    have hne : s ≠ slot := by
      rintro rfl
      rw [hfree] at hs
      nomatch hs
    rcases Nat.lt_or_gt_of_ne hne with hlt | hgt <;> omega
  · rw [hnone] at hg
    nomatch hg

/-- The page of entry `i` is in slot `slot` now. -/
theorem SwapKept.add {e : PageInfo} {page : Page} (h : SwapKept saved m p) (he : p.pages[i]? = some e)
    (hf : p.swapFile = some f) (hfree : p.swapBitmap slot = false) (hlt : slot < maxSwapSlots)
    (hsize : slot * 4096 + 4096 ≤ (m.fs.openInode f).size) (hdata : ∀ k < 4096, (m.fs.openInode f).data (slot * 4096 + k) = page k)
    (pt : PageTable) :
    SwapKept (Function.update saved e.va (some page)) m
      { p.modPage i (fun e => { e with state := .swapped, swapSlot := slot }) with
        pagetable := pt, swapBitmap := Function.update p.swapBitmap slot true, swapSlotsUsed := p.swapSlotsUsed + 1 } := by
  have haddr : ∀ (l : Nat) (x : PageInfo), p.pages[l]? = some x → x.va = e.va → l = i := by
    intro l x hx hva
    have hi : (p.pages.map PageInfo.va)[i]? = some e.va := by rw [List.getElem?_map, he]; rfl
    have hl : (p.pages.map PageInfo.va)[l]? = some e.va := by rw [List.getElem?_map, hx, ← hva]; rfl
    obtain ⟨hilt, hie⟩ := List.getElem?_eq_some_iff.mp hi
    obtain ⟨hllt, hle⟩ := List.getElem?_eq_some_iff.mp hl
    exact h.addrs.getElem_inj_iff.mp (hle.trans hie.symm)
  -- an old entry that is swapped is in another slot
  have hother : ∀ (l : Nat) (x : PageInfo), p.pages[l]? = some x → x.state = .swapped → x.swapSlot ≠ slot := by
    intro l x hx hst heq
    rcases h.swapped x (List.mem_of_getElem? hx) hst with ⟨hneg, -⟩ | ⟨s, hs, hb, -⟩
    · omega
    · obtain rfl : s = slot := by omega
      rw [hfree] at hb
      nomatch hb
  refine ⟨?_, ?_, ?_, ?_⟩
  · intro s hs
    change Function.update p.swapBitmap slot true s = true at hs
    by_cases hss : s = slot
    · exact ⟨hss ▸ hlt, f, hf, hss ▸ hsize⟩
    · rw [Function.update_of_ne hss] at hs
      exact h.used s hs
  · change ((p.pages.modify i _).map PageInfo.va).Nodup
    rw [map_va_modify]
    · exact h.addrs
    · exact fun _ => rfl
  · intro x hx hst
    rcases mem_modify hx with ⟨y, hy, rfl⟩ | ⟨l, hli, hl⟩
    · obtain rfl := Option.some.inj (he.symm.trans hy)
      refine Or.inr ⟨slot, rfl, ?_, f, page, hf, ?_, hdata⟩
      · exact Function.update_self ..
      · exact Function.update_self ..
    · rcases h.swapped x (List.mem_of_getElem? hl) hst with hneg | ⟨s, hs, hb, g, pg, hg, hsaved, hd⟩
      · exact Or.inl hneg
      · have hss : s ≠ slot := fun heq => hother l x hl hst (by rw [hs, heq])
        refine Or.inr ⟨s, hs, ?_, g, pg, hg, ?_, hd⟩
        · change Function.update p.swapBitmap slot true s = true
          rw [Function.update_of_ne hss]
          exact hb
        · rw [Function.update_of_ne (fun hva => hli (haddr l x hl hva))]
          exact hsaved
  · intro j l x y s hx hy hsx hsy hxs hys
    change (p.pages.modify i _)[j]? = some x at hx
    change (p.pages.modify i _)[l]? = some y at hy
    rw [List.getElem?_modify] at hx hy
    obtain ⟨x', hx', hfx⟩ := Option.map_eq_some_iff.mp hx
    obtain ⟨y', hy', hfy⟩ := Option.map_eq_some_iff.mp hy
    by_cases hij : i = j <;> by_cases hil : i = l
    · exact hij.symm.trans hil
    · rw [if_pos hij] at hfx
      rw [if_neg hil] at hfy
      subst hfx hfy
      exact absurd (hys.trans hxs.symm) (hother l y' hy' hsy)
    · rw [if_neg hij] at hfx
      rw [if_pos hil] at hfy
      subst hfx hfy
      exact absurd (hxs.trans hys.symm) (hother j x' hx' hsx)
    · rw [if_neg hij] at hfx
      rw [if_neg hil] at hfy
      subst hfx hfy
      exact h.distinct j l x' y' s hx' hy' hsx hsy hxs hys

/-! ## Page events -/

/-- What is saved of each page, after an event: a page that is swapped out is saved as it is in memory. -/
def PageEvent.saves (ev : PageEvent) (m : Machine) (p : Proc) (saved : Nat → Option Page) : Nat → Option Page :=
  match ev with
  | .evictDirty _ va => Function.update saved va ((p.pagetable.leaf (va / 4096)).map (fun pte => m.mem pte.pa))
  | _ => saved

/-- A swap-out saves the page of the victim. -/
theorem EvictDirty.swapKept {e : PageInfo} {pte : Pte} {m₁ m₂ : Machine} (hx : EvictDirty m p i e pte slot f m₁ m₂ m' p')
    (h : SwapKept saved m p) : SwapKept (Function.update saved e.va (some (m.mem pte.pa))) m' p' := by
  obtain ⟨hfree, -, hlt⟩ := firstClear_some hx.clear
  obtain ⟨-, hdone⟩ := hx.written.writes (by omega)
  obtain ⟨hsize, hdata⟩ := hdone rfl
  have hmem : m₁.mem = m.mem := hx.opened.sameMem.mem
  have hfs : m'.fs = m₂.fs := (kfree_env hx.freed).fs
  rw [hmem] at hdata
  rw [← hfs] at hsize hdata
  have hkept : SwapKept saved m' { p with swapFile := some f } := by
    refine (h.write hx.clear hx.opened hx.written).frame (.of_inodes rfl ?_ ?_) rfl id h.addrs (fun j x hj hs => ⟨x, hj, hs, rfl, rfl⟩)
    · rw [hfs]
    · rw [hfs]
  rw [hx.proc]
  exact hkept.add hx.victim.entry rfl hfree (by omega) hsize hdata (p.pagetable.clearLeaf (e.va / 4096))

/-- A failed eviction keeps the slots. -/
theorem EvictFail.swapKept (hx : EvictFail m p m' p') (h : SwapKept saved m p) : SwapKept saved m' p' := by
  cases hx with
  | victim => exact h
  | create _ _ hnone =>
    refine h.frame ?_ rfl id h.addrs (fun j x hj hs => ⟨x, hj, hs, rfl, rfl⟩)
    intro f hf
    rw [hnone] at hf
    nomatch hf
  | write _ _ hclear hopen hw => exact h.write hclear hopen hw

/-- Freeing a slot clears its bit, and no other. -/
theorem freeSwapSlot_bit {slot : Int} {s : Nat} :
    (freeSwapSlot p slot).swapBitmap s = true ↔ p.swapBitmap s = true ∧ ((s : Int) = slot → maxSwapSlots ≤ s) := by
  unfold freeSwapSlot
  split
  · constructor
    · exact fun hs => ⟨hs, fun he => by omega⟩
    · exact fun hs => hs.1
  split
  · rename_i hrange hset
    change Function.update p.swapBitmap slot.toNat false s = true ↔ _
    by_cases hs : s = slot.toNat
    · rw [hs, Function.update_self]
      constructor
      · exact fun hc => nomatch hc
      · intro hc
        have := hc.2 (by omega)
        omega
    · rw [Function.update_of_ne hs]
      constructor
      · exact fun hb => ⟨hb, fun he => by omega⟩
      · exact fun hb => hb.1
  · rename_i hrange hclear
    constructor
    · intro hb
      refine ⟨hb, fun he => absurd ?_ hclear⟩
      rwa [← he, Int.toNat_natCast]
    · exact fun hb => hb.1

/-- A slot is freed, and the page that was in it is swapped no longer, or its process is killed. -/
theorem SwapKept.free {e : PageInfo} (h : SwapKept saved m p) (he : p.pages[i]? = some e) (hst : e.state = .swapped)
    (hfs : m'.fs.inode = m.fs.inode) (hft : m'.fs.ftable = m.fs.ftable) (hfile : p'.swapFile = p.swapFile)
    (hbits : p'.swapBitmap = (freeSwapSlot p e.swapSlot).swapBitmap) (hkill : p.killed = true → p'.killed = true)
    (haddrs : p'.pages.map PageInfo.va = p.pages.map PageInfo.va)
    (hpages : ∀ (j : Nat) (x : PageInfo), p'.pages[j]? = some x → x.state = .swapped →
      (j ≠ i ∧ p.pages[j]? = some x) ∨ (x.swapSlot = -1 ∧ p'.killed = true)) : SwapKept saved m' p' := by
  have hopen : ∀ f, m'.fs.openInode f = m.fs.openInode f := by
    intro f
    rw [Fs.openInode, hfs, hft, Fs.openInode]
  refine ⟨?_, haddrs ▸ h.addrs, ?_, ?_⟩
  · intro s hs
    rw [hbits, freeSwapSlot_bit] at hs
    obtain ⟨hlt, f, hf, hle⟩ := h.used s hs.1
    exact ⟨hlt, f, hfile.trans hf, by rw [hopen]; exact hle⟩
  · intro x hx hxst
    obtain ⟨j, hj⟩ := List.mem_iff_getElem?.mp hx
    rcases hpages j x hj hxst with ⟨hji, hold⟩ | hneg
    · rcases h.swapped x (List.mem_of_getElem? hold) hxst with ⟨hneg, hk⟩ | ⟨s, hs, hb, f, page, hf, hsaved, hdata⟩
      · exact Or.inl ⟨hneg, hkill hk⟩
      · refine Or.inr ⟨s, hs, ?_, f, page, hfile.trans hf, hsaved, by rw [hopen]; exact hdata⟩
        rw [hbits, freeSwapSlot_bit]
        exact ⟨hb, fun heq => absurd (h.distinct j i x e s hold he hxst hst hs heq.symm) hji⟩
    · exact Or.inl hneg
  · intro j l x y s hx hy hsx hsy hxs hys
    rcases hpages j x hx hsx with ⟨-, hoj⟩ | ⟨hneg, -⟩
    · rcases hpages l y hy hsy with ⟨-, hol⟩ | ⟨hneg, -⟩
      · exact h.distinct j l x y s hoj hol hsx hsy hxs hys
      · omega
    · omega

/-- An entry that is mapped is swapped no longer; the others stay. -/
theorem loaded_swapped {pt : PageTable} {j : Nat} {x : PageInfo} (hx : (p.loaded i pt).pages[j]? = some x) (hs : x.state = .swapped) :
    j ≠ i ∧ p.pages[j]? = some x := by
  change (p.pages.modify i _)[j]? = some x at hx
  rw [List.getElem?_modify] at hx
  obtain ⟨e, he, hfe⟩ := Option.map_eq_some_iff.mp hx
  by_cases hij : i = j
  · rw [if_pos hij] at hfe
    subst hfe
    nomatch hs
  · rw [if_neg hij] at hfe
    subst hfe
    exact ⟨Ne.symm hij, he⟩

/-- Fetching a page from the swap file frees its slot. -/
theorem modPage_swapped {e : PageInfo} {j : Nat} {x : PageInfo}
    (hx : ((freeSwapSlot p e.swapSlot).modPage i (fun e => { e with swapSlot := -1 })).pages[j]? = some x) :
    (j = i ∧ x.swapSlot = -1) ∨ (j ≠ i ∧ p.pages[j]? = some x) := by
  change (List.modify (freeSwapSlot p e.swapSlot).pages i _)[j]? = some x at hx
  rw [freeSwapSlot_pages, List.getElem?_modify] at hx
  obtain ⟨y, hy, hfy⟩ := Option.map_eq_some_iff.mp hx
  by_cases hij : i = j
  · rw [if_pos hij] at hfy
    exact Or.inl ⟨hij.symm, by rw [← hfy]⟩
  · rw [if_neg hij] at hfy
    exact Or.inr ⟨Ne.symm hij, hfy ▸ hy⟩

theorem freeSwapSlot_killed (slot : Int) : (freeSwapSlot p slot).killed = p.killed := by
  unfold freeSwapSlot
  split
  · rfl
  · split <;> rfl

/-- Loading a page changes no inode, and no open file. -/
theorem Fetched.files {src : Source} {va : Nat} {page : Page} (h : Fetched m p i va src m' p' page) :
    m'.fs.inode = m.fs.inode ∧ m'.fs.ftable = m.fs.ftable := by
  cases h with
  | zero => exact ⟨rfl, rfl⟩
  | exec => exact ⟨rfl, rfl⟩
  | execRead _ hl => exact ⟨(ilock_ok hl).2.1, (ilock_ok hl).2.2.1⟩
  | swap _ _ hl => exact ⟨(ilock_ok hl).2.1, (ilock_ok hl).2.2.1⟩

/-- Only a page from the swap file changes the process before it is mapped. -/
theorem Fetched.proc {src : Source} {va : Nat} {page : Page} (h : Fetched m p i va src m' p' page) :
    (src ≠ .swap ∧ p' = p) ∨ ∃ e, src = .swap ∧ p.pages[i]? = some e ∧
      p' = (freeSwapSlot p e.swapSlot).modPage i (fun e => { e with swapSlot := -1 }) := by
  cases h with
  | zero => exact Or.inl ⟨nofun, rfl⟩
  | exec => exact Or.inl ⟨nofun, rfl⟩
  | execRead => exact Or.inl ⟨nofun, rfl⟩
  | swap _ he => exact Or.inr ⟨_, rfl, he, rfl⟩

/-- A page that is mapped after it was fetched is swapped no longer. -/
theorem Fetched.swapKept {src : Source} {va : Nat} {page : Page} {m₁ : Machine} {p₁ : Proc} {e : PageInfo}
    (hf : Fetched m₁ p i va src m p₁ page) (h : SwapKept saved m₁ p) (he : p.pages[i]? = some e) (hsrc : src = .swap → e.state = .swapped)
    (hfs : m'.fs = m.fs) (hfile : p'.swapFile = p₁.swapFile) (hbits : p'.swapBitmap = p₁.swapBitmap) (hkill : p₁.killed = true → p'.killed = true)
    (haddrs : p'.pages.map PageInfo.va = p₁.pages.map PageInfo.va)
    (hpages : ∀ (j : Nat) (x : PageInfo), p'.pages[j]? = some x → x.state = .swapped → p₁.pages[j]? = some x ∧ (j = i → p'.killed = true)) :
    SwapKept saved m' p' := by
  obtain ⟨hino, hft⟩ := hf.files
  have hold : p'.pages.map PageInfo.va = p.pages.map PageInfo.va := haddrs.trans hf.same.2.2.2
  rcases hf.proc with ⟨-, rfl⟩ | ⟨e', rfl, he', rfl⟩
  · refine h.frame (.of_inodes hfile ?_ ?_) hbits hkill (hold ▸ h.addrs) ?_
    · rw [hfs, hino]
    · rw [hfs, hft]
    · intro j x hx hst
      exact ⟨x, (hpages j x hx hst).1, hst, rfl, rfl⟩
  · obtain rfl := Option.some.inj (he.symm.trans he')
    refine h.free he (hsrc rfl) ?_ ?_ (hfile.trans (freeSwapSlot_swapFile p _)) hbits (fun hk => hkill ?_) hold ?_
    · rw [hfs, hino]
    · rw [hfs, hft]
    · exact (freeSwapSlot_killed e.swapSlot).trans hk
    · intro j x hx hst
      obtain ⟨hold, hk⟩ := hpages j x hx hst
      rcases modPage_swapped hold with ⟨hji, hneg⟩ | hne
      · exact Or.inr ⟨hneg, hk hji⟩
      · exact Or.inl hne

/-- A page event keeps the slots in order. -/
theorem PageStep.swapKept {ev : PageEvent} (hs : PageStep (m, p) ev (m', p')) (h : SwapKept saved m p) :
    SwapKept (ev.saves m p saved) m' p' := by
  have hsame : KeepsSlots m p m p := .of_inodes rfl rfl rfl
  have hswapped : ∀ (j : Nat) (x : PageInfo), p.pages[j]? = some x → x.state = .swapped →
      ∃ e, p.pages[j]? = some e ∧ e.state = .swapped ∧ e.va = x.va ∧ e.swapSlot = x.swapSlot :=
    fun j x hx hst => ⟨x, hx, hst, rfl, rfl⟩
  cases hs with
  | kill => exact h.frame hsame rfl (fun _ => rfl) h.addrs hswapped
  | track _ _ _ hfresh _ =>
    refine h.frame hsame rfl id (track_addrs h.addrs hfresh) ?_
    intro j x hx hst
    change (p.pages ++ [_])[j]? = some x at hx
    rw [List.getElem?_append] at hx
    split at hx
    · exact hswapped j x hx hst
    · rw [List.mem_singleton.mp (List.mem_of_getElem? hx)] at hst
      nomatch hst
  | evictClean hx =>
    rw [hx.proc]
    refine h.frame (.of_inodes rfl ?_ ?_) rfl id ?_ (modify_swapped (fun _ => rfl) (fun _ hc => nomatch hc))
    · rw [(kfree_env hx.freed).fs]
    · rw [(kfree_env hx.freed).fs]
    · change ((p.pages.modify _ _).map PageInfo.va).Nodup
      rw [map_va_modify]
      · exact h.addrs
      · exact fun _ => rfl
  | evictDirty hx =>
    rename_i e pte
    change SwapKept (Function.update saved e.va ((p.pagetable.leaf (e.va / 4096)).map _)) m' p'
    rw [hx.victim.leaf]
    exact hx.swapKept h
  | evictFail hx => exact hx.swapKept h
  | load he haddr _ hsrc _ hx =>
    have h₁ : SwapKept saved _ p :=
      h.frame (.of_inodes rfl (congrArg Fs.inode (kalloc_env hx.alloc).fs) (congrArg Fs.ftable (kalloc_env hx.alloc).fs)) rfl id h.addrs
        hswapped
    refine hx.fetched.swapKept h₁ he hsrc (mappages_env hx.mapped).fs ?_ ?_ ?_ ?_ ?_
    · rw [hx.proc]
      rfl
    · rw [hx.proc]
      rfl
    · rw [hx.proc]
      exact id
    · rw [hx.proc]
      exact map_va_modify (fun _ => rfl)
    · intro j x hj hst
      rw [hx.proc] at hj
      obtain ⟨hji, hold⟩ := loaded_swapped hj hst
      exact ⟨hold, fun heq => absurd heq hji⟩
  | loadFail he haddr hsrc hx =>
    cases hx with
    | read halloc _ _ _ hl _ hfree =>
      have hfs : m'.fs = _ := (kfree_env hfree).fs
      refine h.frame (.of_inodes rfl ?_ ?_) rfl (fun _ => rfl) h.addrs hswapped
      · rw [hfs]
        exact (ilock_ok hl).2.1.trans (congrArg Fs.inode (kalloc_env halloc).fs)
      · rw [hfs]
        exact (ilock_ok hl).2.2.1.trans (congrArg Fs.ftable (kalloc_env halloc).fs)
    | map halloc hf hm hfree =>
      have h₁ : SwapKept saved _ p :=
        h.frame (.of_inodes rfl (congrArg Fs.inode (kalloc_env halloc).fs) (congrArg Fs.ftable (kalloc_env halloc).fs)) rfl id h.addrs hswapped
      exact hf.swapKept h₁ he hsrc ((kfree_env hfree).fs.trans (mappages_env hm).fs) rfl rfl (fun _ => rfl) rfl
        (fun j x hj _ => ⟨hj, fun _ => rfl⟩)
  | firstWrite hx =>
    refine h.frame hsame rfl id ?_ (modify_swapped (fun _ => rfl) (fun _ hc => ⟨hc, rfl⟩))
    change ((p.pages.modify _ _).map PageInfo.va).Nodup
    rw [map_va_modify]
    · exact h.addrs
    · exact fun _ => rfl
  | store => exact h.frame (.of_inodes rfl rfl rfl) rfl id h.addrs hswapped
  | copy => exact h.frame (.of_inodes rfl rfl rfl) rfl id h.addrs hswapped

end Xv6SnifferBakery.Kernel
