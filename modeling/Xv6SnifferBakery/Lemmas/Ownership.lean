import Xv6SnifferBakery.Lemmas.Events

/-!
# What a process owns

A process owns its trapframe page, the pages of its table and its frames. A page event moves pages only between the process and
the free list, and keeps the process well formed: its table has the two top pages, and no tracked page lies above the user's.
-/

namespace Xv6SnifferBakery.Kernel

open Lib

/-! ## Frame conditions -/

/-- Memory is the same: only the file system and the trace may differ. -/
structure SameMem (m m' : Machine) : Prop where
  freelist : m'.freelist = m.freelist
  mem : m'.mem = m.mem
  kend : m'.kend = m.kend
  trampoline : m'.trampoline = m.trampoline
  noff : m'.noff = m.noff

theorem SameMem.refl (m : Machine) : SameMem m m := ⟨rfl, rfl, rfl, rfl, rfl⟩

theorem SameMem.trans {m₁ m₂ m₃ : Machine} (h : SameMem m₁ m₂) (h' : SameMem m₂ m₃) : SameMem m₁ m₃ :=
  ⟨h'.freelist.trans h.freelist, h'.mem.trans h.mem, h'.kend.trans h.kend, h'.trampoline.trans h.trampoline,
    h'.noff.trans h.noff⟩

theorem SameMem.io (m : Machine) (ops : List SleepOp) (fs : Fs) : SameMem m ((m.reach ops).withFs fs) :=
  ⟨rfl, rfl, rfl, rfl, rfl⟩

theorem SameMem.withFs (m : Machine) (fs : Fs) : SameMem m (m.withFs fs) := ⟨rfl, rfl, rfl, rfl, rfl⟩

/-- `p` with the fields that page events change taken from `q`. -/
def Proc.withPaging (p q : Proc) : Proc :=
  { p with
    pagetable := q.pagetable, pages := q.pages, nextFifoSeq := q.nextFifoSeq, swapFile := q.swapFile,
    swapBitmap := q.swapBitmap, swapSlotsUsed := q.swapSlotsUsed, killed := q.killed }

/-- Two states of a process between which it has the same image: only fields of paging differ. -/
def SameImage (p p' : Proc) : Prop := p' = p.withPaging p'

theorem SameImage.refl (p : Proc) : SameImage p p := rfl

theorem SameImage.trans {p₁ p₂ p₃ : Proc} (h : SameImage p₁ p₂) (h' : SameImage p₂ p₃) : SameImage p₁ p₃ := by
  unfold SameImage at h h'
  rw [h, Proc.withPaging] at h'
  exact h'

theorem SameImage.symm {p p' : Proc} (h : SameImage p p') : SameImage p' p := by
  unfold SameImage at h ⊢
  rw [h]
  rfl

section Steps

variable {m m' : Machine} {p p' : Proc} {i va : Nat}

theorem SameImage.eq (h : SameImage p p') : p' = p.withPaging p' := h
theorem SameImage.stackTop (h : SameImage p p') : p'.stackTop = p.stackTop := by rw [h.eq]; rfl
theorem SameImage.trapframe (h : SameImage p p') : p'.trapframe = p.trapframe := by rw [h.eq]; rfl
theorem SameImage.state (h : SameImage p p') : p'.state = p.state := by rw [h.eq]; rfl
theorem SameImage.sz (h : SameImage p p') : p'.sz = p.sz := by rw [h.eq]; rfl
theorem SameImage.parent (h : SameImage p p') : p'.parent = p.parent := by rw [h.eq]; rfl

theorem OpenSwap.sameMem {f : Nat} (h : OpenSwap m p m' f) : SameMem m m' := by
  rcases h with ⟨-, rfl⟩ | ⟨-, fs, -, rfl⟩
  · exact SameMem.refl m'
  · exact SameMem.io m _ fs

theorem SwapWrite.sameMem {f slot : Nat} {pa : Pa} {done : Bool} (h : SwapWrite m f pa slot m' done) : SameMem m m' := by
  obtain ⟨fs₁, fs₂, tot, -, -, rfl, -⟩ := h
  exact SameMem.io m _ fs₂

theorem EvictFail.sameMem (h : EvictFail m p m' p') : SameMem m m' := by
  cases h with
  | victim => exact SameMem.refl m
  | create => exact SameMem.io m _ _
  | write _ _ _ hopen hw => exact hopen.sameMem.trans hw.sameMem

/-- A failed eviction changes the process at most in its open swap file. -/
theorem EvictFail.proc (h : EvictFail m p m' p') : p' = { p with swapFile := p'.swapFile } := by
  cases h <;> rfl

theorem freeSwapSlot_image (slot : Int) : SameImage p (freeSwapSlot p slot) := by
  unfold freeSwapSlot
  split
  · rfl
  · split <;> rfl

theorem freeSwapSlot_pages (slot : Int) : (freeSwapSlot p slot).pages = p.pages := by
  unfold freeSwapSlot
  split
  · rfl
  · split <;> rfl

theorem freeSwapSlot_pagetable (slot : Int) : (freeSwapSlot p slot).pagetable = p.pagetable := by
  unfold freeSwapSlot
  split
  · rfl
  · split <;> rfl

/-- Fetching the contents of a page leaves memory and the table as they are. -/
theorem Fetched.same {src : Source} {page : Page} (h : Fetched m p i va src m' p' page) :
    SameMem m m' ∧ SameImage p p' ∧ p'.pagetable = p.pagetable ∧ p'.pages.map PageInfo.va = p.pages.map PageInfo.va := by
  cases h with
  | zero => exact ⟨SameMem.refl m, SameImage.refl p, rfl, rfl⟩
  | exec => exact ⟨SameMem.refl m, SameImage.refl p, rfl, rfl⟩
  | execRead => exact ⟨SameMem.io m _ _, SameImage.refl p, rfl, rfl⟩
  | swap _ he =>
    refine ⟨SameMem.io m _ _, (freeSwapSlot_image _).trans rfl, freeSwapSlot_pagetable _, ?_⟩
    change (List.modify (freeSwapSlot p _).pages i _).map PageInfo.va = _
    rw [freeSwapSlot_pages]
    exact List.ext_getElem? (fun k => by
      rw [List.getElem?_map, List.getElem?_map, List.getElem?_modify]
      cases p.pages[k]? with
      | none => rfl
      | some e => by_cases hk : i = k <;> simp [hk])

/-- Changing one entry in place leaves the addresses. -/
theorem map_va_modify {es : List PageInfo} {j : Nat} {f : PageInfo → PageInfo} (hf : ∀ e, (f e).va = e.va) :
    (es.modify j f).map PageInfo.va = es.map PageInfo.va :=
  List.ext_getElem? (fun k => by
    rw [List.getElem?_map, List.getElem?_map, List.getElem?_modify]
    cases es[k]? with
    | none => rfl
    | some e => by_cases hk : j = k <;> simp [hk, hf])

/-- A page event leaves the image of the process. -/
theorem PageStep.image {ev : PageEvent} (h : PageStep (m, p) ev (m', p')) : SameImage p p' := by
  cases h with
  | kill => rfl
  | track => rfl
  | evictClean h =>
    rw [h.proc]
    rfl
  | evictDirty h =>
    rw [h.proc]
    rfl
  | evictFail h =>
    rw [h.proc]
    rfl
  | load _ _ _ _ _ h =>
    rw [h.proc]
    exact h.fetched.same.2.1.trans rfl
  | loadFail _ _ _ h =>
    cases h with
    | read => rfl
    | map _ hf => exact hf.same.2.1.trans rfl
  | firstWrite => rfl
  | store => rfl
  | copy => rfl

theorem PageRun.image {G : PageEvent → Prop} (h : PageRun G m p m' p') : SameImage p p' := by
  obtain ⟨evs, hr⟩ := h
  exact hr.invariant (fun x => SameImage p x.2) (fun _ _ _ hx hs => hx.trans hs.2.image) (SameImage.refl p)

end Steps

/-! ## Well-formed processes -/

/-- The table of a process has the trampoline and the process's own trapframe page at the top, neither for the user. -/
structure Proc.HasTable (p : Proc) : Prop where
  root : p.pagetable.root.isSome
  trampoline : ∃ pte, p.pagetable.leaf (userPages + 1) = some pte ∧ pte.perm.u = false
  trapframe : ∃ pte, p.pagetable.leaf userPages = some pte ∧ pte.perm.u = false ∧ p.trapframe = some pte.pa

/-- A process with an address space: its stack ends where one can, and the tracked pages are pages of the user. -/
structure Proc.Wf (p : Proc) : Prop extends p.HasTable where
  stack : StackTop p.stackTop
  tracked : ∀ va ∈ p.pages.map PageInfo.va, va / 4096 < userPages ∧ va % 4096 = 0

theorem Proc.HasTable.topped {p : Proc} (h : p.HasTable) : p.pagetable.Topped := by
  obtain ⟨pte, h1, -⟩ := h.trapframe
  obtain ⟨pte', h2, -⟩ := h.trampoline
  exact ⟨by rw [h1]; rfl, by rw [h2]; rfl⟩

/-- A tracked page is a page of the user. -/
theorem Proc.Wf.entry {p : Proc} {i : Nat} {e : PageInfo} (h : p.Wf) (he : p.pages[i]? = some e) :
    e.va / 4096 < userPages ∧ e.va % 4096 = 0 :=
  h.tracked e.va (List.mem_map_of_mem (List.mem_of_getElem? he))

/-- A process stays well formed when the top of its table stays, and its tracked pages are those it had. -/
theorem Proc.Wf.of_same {p p' : Proc} (h : p.Wf) (himg : SameImage p p') (hroot : p'.pagetable.root = p.pagetable.root)
    (htop : ∀ v, userPages ≤ v → p'.pagetable.leaf v = p.pagetable.leaf v)
    (hpages : p'.pages.map PageInfo.va = p.pages.map PageInfo.va) : p'.Wf := by
  refine ⟨⟨hroot ▸ h.root, ?_, ?_⟩, himg.stackTop ▸ h.stack, hpages ▸ h.tracked⟩
  · rw [htop _ (by omega)]
    exact h.trampoline
  · rw [htop _ (le_refl _), himg.trapframe]
    exact h.trapframe

/-- The fields that say whether a process is well formed. -/
theorem Proc.Wf.of_fields {p p' : Proc} (h : p.Wf) (hpt : p'.pagetable = p.pagetable) (htf : p'.trapframe = p.trapframe)
    (hst : p'.stackTop = p.stackTop) (hpages : p'.pages = p.pages) : p'.Wf := by
  refine ⟨⟨?_, ?_, ?_⟩, ?_, ?_⟩
  · rw [hpt]
    exact h.root
  · rw [hpt]
    exact h.trampoline
  · rw [hpt, htf]
    exact h.trapframe
  · rw [hst]
    exact h.stack
  · rw [hpages]
    exact h.tracked

/-- The entries are for pages. -/
def Proc.Aligned (p : Proc) : Prop := ∀ va ∈ p.pages.map PageInfo.va, va % 4096 = 0

theorem Proc.Aligned.of_map {p p' : Proc} (h : p.Aligned) (hva : p'.pages.map PageInfo.va = p.pages.map PageInfo.va) : p'.Aligned := by
  unfold Proc.Aligned
  rw [hva]
  exact h

theorem Proc.Aligned.entry {p : Proc} {i : Nat} {e : PageInfo} (h : p.Aligned) (he : p.pages[i]? = some e) : e.va % 4096 = 0 :=
  h e.va (List.mem_map_of_mem (List.mem_of_getElem? he))

/-- What a process owns. -/
def Proc.owned (p : Proc) : Multiset Pa := slot p.trapframe + p.pagetable.pages

/-- A page that is the user's lies below the two top pages. -/
theorem Proc.HasTable.user_lt {p : Proc} {v : Nat} {pte : Pte} (h : p.HasTable) (hl : p.pagetable.leaf v = some pte)
    (hu : pte.perm.u = true) : v < userPages := by
  by_contra hge
  have hlt := p.pagetable.lt_of_leaf (by rw [hl]; rfl)
  have hcase : v = userPages ∨ v = userPages + 1 := by
    have := userPages_eq
    omega
  rcases hcase with rfl | rfl
  · obtain ⟨q, hq, hf, -⟩ := h.trapframe
    rw [Option.some.inj (hl.symm.trans hq), hf] at hu
    cases hu
  · obtain ⟨q, hq, hf⟩ := h.trampoline
    rw [Option.some.inj (hl.symm.trans hq), hf] at hu
    cases hu

/-- The frames of the user's pages are the process's. -/
theorem Proc.owns {p : Proc} {v : Nat} {pte : Pte} (hv : v < userPages) (hl : p.pagetable.leaf v = some pte) : pte.pa ∈ p.owned :=
  Multiset.mem_add.mpr (Or.inr (PageTable.mem_pages_of_leaf hv hl))

theorem translate_some {pt : PageTable} {a : Nat} {need : Perm → Bool} {pa : Pa} (h : translate pt a need = some pa) :
    ∃ pte, pt.leaf (a / 4096) = some pte ∧ pte.perm.u = true ∧ need pte.perm = true ∧ pte.pa = pa := by
  unfold translate at h
  split at h
  · cases h
  split at h
  · cases h
  · rename_i pte hl
    split at h
    · rename_i hc
      rw [Bool.and_eq_true] at hc
      exact ⟨pte, hl, hc.1, hc.2, Option.some.inj h⟩
    · cases h

/-- Pages move only between the free list and what `a` and `b` count, and every other frame keeps its contents. -/
structure Flows (m : Machine) (a : Multiset Pa) (m' : Machine) (b : Multiset Pa) : Prop where
  pages : free m' + b = free m + a
  mem : ∀ q, q ∉ free m + a → m'.mem q = m.mem q
  kend : m'.kend = m.kend
  trampoline : m'.trampoline = m.trampoline
  noff : m'.noff = m.noff

namespace Flows

variable {m m₁ m₂ m₃ : Machine} {a b c : Multiset Pa}

theorem refl (m : Machine) (a : Multiset Pa) : Flows m a m a := ⟨rfl, fun _ _ => rfl, rfl, rfl, rfl⟩

theorem trans (h : Flows m₁ a m₂ b) (h' : Flows m₂ b m₃ c) : Flows m₁ a m₃ c :=
  ⟨h'.pages.trans h.pages, fun q hq => (h'.mem q (h.pages ▸ hq)).trans (h.mem q hq), h'.kend.trans h.kend,
    h'.trampoline.trans h.trampoline, h'.noff.trans h.noff⟩

theorem frame (h : Flows m₁ a m₂ b) (c : Multiset Pa) : Flows m₁ (a + c) m₂ (b + c) := by
  refine ⟨by rw [← add_assoc, h.pages, add_assoc], ?_, h.kend, h.trampoline, h.noff⟩
  intro q hq
  refine h.mem q (fun hin => hq ?_)
  rw [← add_assoc]
  exact Multiset.mem_add.mpr (Or.inl hin)

theorem congr {a' b' : Multiset Pa} (h : Flows m₁ a m₂ b) (ha : a = a') (hb : b = b') : Flows m₁ a' m₂ b' := ha ▸ hb ▸ h

end Flows

theorem Moves.flows {m m' : Machine} {a b : Multiset Pa} (h : Moves m a m' b) : Flows m a m' b :=
  ⟨h.pages, h.mem, h.kend, h.trampoline, h.noff⟩

theorem SameMem.flows {m m' : Machine} (h : SameMem m m') (a : Multiset Pa) : Flows m a m' a :=
  ⟨by rw [free, h.freelist, free], fun q _ => congrFun h.mem q, h.kend, h.trampoline, h.noff⟩

/-! ## Page events -/

section Steps

variable {m m' : Machine} {p p' : Proc} {i va : Nat}

/-- An eviction moves the frame of the victim to the free list. -/
theorem unmapEntry_flows {f : PageInfo → PageInfo} {e : PageInfo} {pte : Pte} (hwf : p.Wf) (he : p.pages[i]? = some e)
    (hleaf : p.pagetable.leaf (e.va / 4096) = some pte) (hk : kfree m pte.pa = .ok m') :
    Flows m p.owned m' (p.unmapEntry i e.va f).owned := by
  have hpages := PageTable.pages_clearLeaf (hwf.entry he).1 hleaf
  refine ((kfree_moves hk).flows.frame (p.unmapEntry i e.va f).owned).congr ?_ (zero_add _)
  change {pte.pa} + (slot p.trapframe + (p.pagetable.clearLeaf (e.va / 4096)).pages) = slot p.trapframe + p.pagetable.pages
  rw [← hpages]
  abel

/-- A process stays well formed when a user page is unmapped. -/
theorem unmapEntry_wf {f : PageInfo → PageInfo} {e : PageInfo} (hwf : p.Wf) (he : p.pages[i]? = some e) (hf : ∀ e, (f e).va = e.va) :
    (p.unmapEntry i e.va f).Wf :=
  hwf.of_same rfl rfl (fun v hv => Function.update_of_ne (by have := (hwf.entry he).1; omega) _ _) (map_va_modify hf)

/-- A page taken, and its contents fetched. -/
theorem Fetched.flows {src : Source} {m₁ m₂ : Machine} {mem : Pa} {p₂ : Proc} {page : Page} (hk : kalloc m = some (m₁, mem))
    (hf : Fetched m₁ p i va src m₂ p₂ page) : Flows m 0 (m₂.fill mem page) {mem} :=
  (kalloc_moves hk).flows.trans ((hf.same.1.flows {mem}).trans (Moves.fill page (Multiset.mem_singleton_self mem)).flows)

/-- Taking a page, fetching its contents and mapping it moves it from the free list to the process. -/
theorem Load.flows {src : Source} {m₁ m₂ : Machine} {mem : Pa} {p₂ : Proc} {page : Page} {pt : PageTable} (hwf : p.Wf)
    (h : Load m p i va src m₁ mem m₂ p₂ page pt m' p') : Flows m p.owned m' p'.owned := by
  obtain ⟨-, -, hs⟩ := h.leaf
  have hlt := hs.lt_userPages hwf.topped
  have htf : p'.trapframe = p.trapframe := by
    rw [h.proc]
    exact h.fetched.same.2.1.trapframe
  have h1 := (Fetched.flows h.alloc h.fetched).frame p.owned
  have h2 := hs.moves.flows.frame (slot p.trapframe)
  rw [leafFrame, if_pos hlt] at h2
  refine (h1.congr (zero_add _) ?_).trans (h2.congr rfl ?_)
  · rw [Proc.owned]
    abel
  · rw [Proc.owned, htf, add_comm]

theorem Load.wf {src : Source} {m₁ m₂ : Machine} {mem : Pa} {p₂ : Proc} {page : Page} {pt : PageTable} (hwf : p.Wf)
    (h : Load m p i va src m₁ mem m₂ p₂ page pt m' p') : p'.Wf := by
  obtain ⟨hleaf, -, hs⟩ := h.leaf
  have hlt := hs.lt_userPages hwf.topped
  have himg : SameImage p p' := by
    rw [h.proc]
    exact h.fetched.same.2.1.trans rfl
  refine hwf.of_same himg hs.root (fun v hv => ?_) ?_
  · rw [hleaf, Function.update_of_ne (by omega)]
  · rw [h.proc]
    exact (map_va_modify (by simp)).trans h.fetched.same.2.2.2

/-- A load that fails gives the page back; pages for tables may have moved to the process. -/
theorem LoadFail.flows {src : Source} (hwf : p.Wf) (h : LoadFail m p i va src m' p') : Flows m p.owned m' p'.owned ∧ p'.Wf := by
  cases h with
  | read hk _ _ _ _ _ hkf =>
    refine ⟨?_, hwf.of_same rfl rfl (fun _ _ => rfl) rfl⟩
    exact (((kalloc_moves hk).flows.trans ((SameMem.io _ _ _).flows _)).trans (kfree_moves hkf).flows).frame p.owned |>.congr
      (zero_add _) (zero_add _)
  | map hk hf hm hkf =>
    rename_i m₁ m₂ m₃ p₂ page pt mem
    obtain ⟨hsame, himg, hpt, hvas⟩ := hf.same
    obtain ⟨hr, -⟩ | ⟨-, hs⟩ := mappages_page hm
    · nomatch hr
    have hwf' : ({ p₂ with pagetable := pt } : Proc).kill.Wf :=
      hwf.of_same (himg.trans rfl) (hs.root.trans (by rw [hpt])) (fun v _ => (congrFun hs.leaf v).trans (by rw [hpt])) hvas
    refine ⟨?_, hwf'⟩
    have h1 := (Fetched.flows hk hf).frame p.owned
    have h2 := hs.moves.flows.frame ({mem} + slot p.trapframe)
    have h3 := (kfree_moves hkf).flows.frame (slot p.trapframe + pt.pages)
    rw [hpt] at h2
    refine (h1.congr (zero_add _) ?_).trans (h2.trans (h3.congr ?_ ?_))
    · rw [Proc.owned]
      abel
    · abel
    · rw [zero_add]
      change _ = slot p₂.trapframe + pt.pages
      rw [himg.trapframe]

/-- The first write to a page changes a permission. -/
theorem firstWrite_wf {e : PageInfo} {pte : Pte} (hwf : p.Wf) (h : FirstWrite p va i e pte) : (firstWrite p i va).Wf := by
  refine hwf.of_same rfl (by simp [firstWrite, Proc.modPage]) (fun v hv => ?_) (map_va_modify (by simp))
  refine PageTable.modLeaf_leaf_of_ne _ _ _ ?_
  rintro rfl
  exact absurd (hwf.user_lt h.leaf h.user) (Nat.not_lt.mpr hv)

theorem firstWrite_owned : (firstWrite p i va).owned = p.owned :=
  congrArg (slot p.trapframe + ·) (PageTable.pages_modLeaf (fun _ => rfl))

/-- A new entry is for a page of the user. -/
theorem track_wf (hwf : p.Wf) (hlt : va < maxVa) (hal : va % 4096 = 0)
    (hu : ∀ pte, p.pagetable.leaf (va / 4096) = some pte → pte.perm.u = true) : (p.track va).Wf := by
  refine ⟨⟨hwf.root, hwf.trampoline, hwf.trapframe⟩, hwf.stack, fun a ha => ?_⟩
  change a ∈ (p.pages ++ [_]).map PageInfo.va at ha
  rw [List.map_append, List.mem_append] at ha
  rcases ha with ha | ha
  · exact hwf.tracked a ha
  · rw [List.map_singleton, List.mem_singleton] at ha
    have ha : a = va := ha
    rw [ha]
    refine ⟨?_, hal⟩
    by_contra hge
    have hcase : va / 4096 = userPages ∨ va / 4096 = userPages + 1 := by
      have := userPages_eq
      unfold maxVa at hlt
      omega
    rcases hcase with hc | hc
    · obtain ⟨q, hq, hf, -⟩ := hwf.trapframe
      exact absurd (hu q (hc ▸ hq)) (by simp [hf])
    · obtain ⟨q, hq, hf⟩ := hwf.trampoline
      exact absurd (hu q (hc ▸ hq)) (by simp [hf])

/-- A page event moves pages only between the process and the free list, and keeps the process well formed. -/
theorem PageStep.flows {ev : PageEvent} (hwf : p.Wf) (h : PageStep (m, p) ev (m', p')) :
    Flows m p.owned m' p'.owned ∧ p'.Wf := by
  cases h with
  | kill => exact ⟨Flows.refl _ _, hwf.of_same rfl rfl (fun _ _ => rfl) rfl⟩
  | track hlt hal hu => exact ⟨Flows.refl _ _, track_wf hwf hlt hal hu⟩
  | evictClean h =>
    have hwf' := unmapEntry_wf (f := fun e => { e with state := .unmapped }) hwf h.victim.entry (by simp)
    rw [h.proc]
    exact ⟨unmapEntry_flows hwf h.victim.entry h.victim.leaf h.freed, hwf'⟩
  | evictDirty h =>
    rename_i slot _ _ _
    have hwf' := unmapEntry_wf (f := fun e => { e with state := .swapped, swapSlot := slot }) hwf h.victim.entry (by simp)
    have hsame := h.opened.sameMem.trans h.written.sameMem
    have hflow := unmapEntry_flows (f := fun e => { e with state := .swapped, swapSlot := slot }) hwf h.victim.entry
      h.victim.leaf h.freed
    rw [h.proc]
    exact ⟨(hsame.flows _).trans hflow, hwf'.of_same rfl rfl (fun _ _ => rfl) rfl⟩
  | evictFail h =>
    rw [h.proc]
    exact ⟨h.sameMem.flows _, hwf.of_same rfl rfl (fun _ _ => rfl) rfl⟩
  | load _ _ _ _ _ h => exact ⟨h.flows hwf, h.wf hwf⟩
  | loadFail _ _ _ h => exact h.flows hwf
  | firstWrite h _ => exact ⟨(Flows.refl m p.owned).congr rfl firstWrite_owned.symm, firstWrite_wf hwf h⟩
  | store htr =>
    obtain ⟨pte, hl, hu, -, rfl⟩ := translate_some htr
    exact ⟨(Moves.fill _ (Proc.owns (hwf.user_lt hl hu) hl)).flows, hwf⟩
  | copy _ hl hu _ => exact ⟨(Moves.fill _ (Proc.owns (hwf.user_lt hl hu) hl)).flows, hwf⟩

end Steps

/-! ## Frames of a process -/

/-- A process and the machine it runs on: no page is free or owned twice. -/
structure PageInv (m : Machine) (p : Proc) : Prop where
  wf : p.Wf
  nodup : (free m + p.owned).Nodup

section Frames

variable {m m' : Machine} {p p' : Proc} {v w : Nat} {pte pte' : Pte}

theorem PageInv.step {ev : PageEvent} (hinv : PageInv m p) (h : PageStep (m, p) ev (m', p')) : PageInv m' p' := by
  obtain ⟨hflow, hwf⟩ := h.flows hinv.wf
  exact ⟨hwf, hflow.pages ▸ hinv.nodup⟩

theorem PageInv.freelist_nodup (hinv : PageInv m p) : m.freelist.Nodup :=
  Multiset.coe_nodup.mp (Multiset.nodup_of_le (Multiset.le_add_right _ _) hinv.nodup)

/-- The frame of a mapped page is not free. -/
theorem PageInv.not_free (hinv : PageInv m p) (hv : v < userPages) (hl : p.pagetable.leaf v = some pte) : pte.pa ∉ m.freelist := by
  intro hfree
  refine Multiset.disjoint_left.mp (Multiset.nodup_add.mp hinv.nodup).2.2 (Multiset.mem_coe.mpr hfree) ?_
  exact Multiset.mem_add.mpr (Or.inr (PageTable.mem_pages_of_leaf hv hl))

/-- Two mapped pages have two frames. -/
theorem PageInv.leaf_inj (hinv : PageInv m p) (hv : v < userPages) (hw : w < userPages) (hl : p.pagetable.leaf v = some pte)
    (hl' : p.pagetable.leaf w = some pte') (he : pte.pa = pte'.pa) : v = w := by
  have hn := (Multiset.nodup_add.mp hinv.nodup).2.1
  exact PageTable.leaf_inj (Multiset.nodup_add.mp hn).2.1 hv hw hl hl' he

end Frames

end Xv6SnifferBakery.Kernel
