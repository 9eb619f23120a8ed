import Xv6SnifferBakery.Lemmas.Ownership
import Xv6SnifferBakery.Lemmas.Panics

/-!
# Which way a page fault goes

The cases of `handle_page_fault` the other way round: from a condition on the state before, what the handler does. A fault grants
the first write, or loads the page, or is refused, and the state says which; the eviction and the load do what their cases say.
-/

namespace Xv6SnifferBakery.Kernel

open Lib

variable {m m' : Machine} {p p' : Proc} {i va : Nat} {access : Access}

/-! ## The tests -/

/-- A fault for page `va` gets to load it: the page is one of the user's or not mapped, the address is valid, and the access is not a
write to text, nor the first write to a page in memory. -/
structure Loads (p : Proc) (va : Nat) (access : Access) : Prop where
  lt : va < maxVa
  user : ∀ pte, p.pagetable.leaf (va / 4096) = some pte → pte.perm.u = true
  valid : faultValid p va
  text : access = .write → ¬faultText p va
  write : access = .write → (p.pagetable.leaf (va / 4096)).isSome →
    ¬inText p va ∧ ∀ e, entryOf p va = some e → ¬(e.state = .resident ∧ e.isDirty = false)

/-- A fault for writing that grants the first write. -/
def GrantsWrite (p : Proc) (va : Nat) (access : Access) (i : Nat) : Prop :=
  access = .write ∧ ∃ e pte, FirstWrite p va i e pte

/-- The entry a fault works on. -/
theorem entryOf_find (h : findPageInfo p va = some i) : entryOf p va = p.pages[i]? := by
  rw [entryOf, h, Option.bind_some]

/-- What a fault does once it is to load the page. -/
def loadEntry (m : Machine) (p : Proc) (va : Nat) : Kern (Machine × Proc × Bool) :=
  match findPageInfo p va with
  | some i => faultLoad m p i va
  | none =>
    match addPageInfo p va with
    | none => .ok (m, p.kill, false)
    | some (p, i) => faultLoad m p i va

theorem faultUnmapped_loads {fromUser : Bool} (hvalid : faultValid p va) (htext : access = .write → ¬faultText p va) :
    faultUnmapped m p va access fromUser = loadEntry m p va := by
  unfold faultUnmapped
  rw [if_neg (not_not.mpr hvalid), if_neg (fun h => htext h.2 h.1)]
  rfl

theorem faultUnmapped_refused {fromUser : Bool} (h : ¬(faultValid p va ∧ (access = .write → ¬faultText p va))) :
    faultUnmapped m p va access fromUser = .ok (m, refuse p fromUser, false) := by
  unfold faultUnmapped
  by_cases hvalid : faultValid p va
  · rw [if_neg (not_not.mpr hvalid), if_pos]
    by_contra hn
    exact h ⟨hvalid, fun ha ht => hn ⟨ht, ha⟩⟩
  · rw [if_pos hvalid]

/-- `handle_page_fault` of a mapped page for another access than a write. -/
theorem handlePageFault_loads {addr : Nat} {fromUser : Bool} (h : Loads p (pgRoundDown addr) access) :
    handlePageFault m p addr access fromUser = loadEntry m p (pgRoundDown addr) := by
  unfold handlePageFault
  dsimp only
  rw [if_neg (Nat.not_le.mpr h.lt), lookup, if_neg (Nat.not_le.mpr h.lt), bind_of_ok rfl]
  cases hleaf : p.pagetable.leaf (pgRoundDown addr / 4096) with
  | none => exact faultUnmapped_loads h.valid h.text
  | some pte =>
    dsimp only
    rw [if_neg (not_not.mpr (h.user pte hleaf))]
    by_cases hacc : access = .write
    · obtain ⟨htext, hentry⟩ := h.write hacc (by rw [hleaf]; rfl)
      rw [if_pos hacc, faultWrite, if_neg htext]
      subst hacc
      cases hfind : findPageInfo p (pgRoundDown addr) with
      | none => exact faultUnmapped_loads h.valid h.text
      | some i =>
        obtain ⟨e, he, -⟩ := findPageInfo_some hfind
        have hno := hentry e ((entryOf_find hfind).trans he)
        simp only [he]
        rw [if_neg (by simpa using hno)]
        exact faultUnmapped_loads h.valid h.text
    · rw [if_neg hacc]
      exact faultUnmapped_loads h.valid h.text

/-- `handle_page_fault` that grants the first write. -/
theorem handlePageFault_grants {addr : Nat} {fromUser : Bool} (h : GrantsWrite p (pgRoundDown addr) access i) :
    handlePageFault m p addr access fromUser = .ok (m, firstWrite p i (pgRoundDown addr), true) := by
  obtain ⟨rfl, e, pte, hw⟩ := h
  unfold handlePageFault
  dsimp only
  rw [if_neg (Nat.not_le.mpr hw.lt), lookup, if_neg (Nat.not_le.mpr hw.lt), bind_of_ok rfl]
  simp only [hw.leaf]
  rw [if_neg (not_not.mpr hw.user), if_pos trivial, faultWrite, if_neg hw.text]
  simp only [hw.found, hw.entry]
  rw [if_pos ⟨hw.resident, by simp [hw.clean]⟩]

/-- `handle_page_fault` that does neither refuses. -/
theorem handlePageFault_refused {addr : Nat} {fromUser : Bool} (hload : ¬Loads p (pgRoundDown addr) access)
    (hgrant : ∀ i, ¬GrantsWrite p (pgRoundDown addr) access i) :
    handlePageFault m p addr access fromUser = .ok (m, refuse p fromUser, false) := by
  unfold handlePageFault
  dsimp only
  by_cases hlt : maxVa ≤ pgRoundDown addr
  · rw [if_pos hlt]
  have hlt' : pgRoundDown addr < maxVa := Nat.not_le.mp hlt
  rw [if_neg hlt, lookup, if_neg hlt, bind_of_ok rfl]
  cases hleaf : p.pagetable.leaf (pgRoundDown addr / 4096) with
  | none =>
    refine faultUnmapped_refused ?_
    rintro ⟨hvalid, htext⟩
    refine hload ⟨hlt', ?_, hvalid, htext, ?_⟩
    · intro pte hp
      rw [hleaf] at hp
      cases hp
    · intro _ hs
      rw [hleaf] at hs
      cases hs
  | some pte =>
    dsimp only
    by_cases hu : pte.perm.u = true
    · rw [if_neg (not_not.mpr hu)]
      have huser : ∀ pte', p.pagetable.leaf (pgRoundDown addr / 4096) = some pte' → pte'.perm.u = true := by
        intro pte' hp
        rw [hleaf] at hp
        rwa [← Option.some.inj hp]
      by_cases hacc : access = .write
      · rw [if_pos hacc]
        subst hacc
        unfold faultWrite
        by_cases htext : inText p (pgRoundDown addr)
        · rw [if_pos htext]
        rw [if_neg htext]
        cases hfind : findPageInfo p (pgRoundDown addr) with
        | none =>
          refine faultUnmapped_refused ?_
          rintro ⟨hvalid, hft⟩
          refine hload ⟨hlt', huser, hvalid, hft, fun _ _ => ⟨htext, ?_⟩⟩
          intro e he
          rw [entryOf, hfind] at he
          cases he
        | some i =>
          obtain ⟨e, he, -⟩ := findPageInfo_some hfind
          simp only [he]
          by_cases hc : e.state = .resident ∧ ¬e.isDirty
          · exact absurd ⟨rfl, e, pte, hlt', hleaf, hu, htext, hfind, he, hc.1, by simpa using hc.2⟩ (hgrant i)
          · rw [if_neg hc]
            refine faultUnmapped_refused ?_
            rintro ⟨hvalid, hft⟩
            refine hload ⟨hlt', huser, hvalid, hft, fun _ _ => ⟨htext, ?_⟩⟩
            intro e' he'
            rw [entryOf_find hfind, he] at he'
            obtain rfl := Option.some.inj he'
            simpa using hc
      · rw [if_neg hacc]
        refine faultUnmapped_refused ?_
        rintro ⟨hvalid, htext⟩
        exact hload ⟨hlt', huser, hvalid, htext, fun ha => absurd ha hacc⟩
    · rw [if_pos hu]

/-! ## Evictions -/

/-- A mapped page can be looked up. -/
theorem lookup_leaf {pt : PageTable} {pte : Pte} (h : pt.leaf (va / 4096) = some pte) : lookup pt va = .ok (some pte) := by
  have hlt := pt.lt_of_leaf (v := va / 4096) (by rw [h]; rfl)
  unfold lookup maxVa
  rw [if_neg (by omega), h]

/-- The end of an eviction: the page of the victim is freed. -/
theorem evictUnmap_eq {pte : Pte} {f : PageInfo → PageInfo} (hal : va % 4096 = 0) (hleaf : p.pagetable.leaf (va / 4096) = some pte)
    (hk : kfree m pte.pa = .ok m') : evictUnmap m (p.modPage i f) va = .ok (m', p.unmapEntry i va f, true) := by
  have hpage : unmapPage true m p.pagetable va = .ok (m', p.pagetable.clearLeaf (va / 4096)) := by
    rw [unmapPage, bind_of_ok (lookup_leaf hleaf)]
    simp only [if_true]
    exact bind_of_ok hk _
  have hun : uvmunmap m p.pagetable va 1 true = .ok (m', p.pagetable.clearLeaf (va / 4096)) := by
    rw [uvmunmap, if_neg (by unfold pgSize; omega)]
    change (unmapPage true m p.pagetable (va + 0 * pgSize) >>= forFrom _ 1 0) = _
    rw [Nat.zero_mul, Nat.add_zero, hpage]
    rfl
  exact bind_of_ok hun _

/-- `evict_page_fifo` of a clean victim. -/
theorem EvictClean.eq {e : PageInfo} {pte : Pte} (hal : p.Aligned) (h : EvictClean m p i e pte m' p') :
    evictPageFifo m p = .ok (m', p', true) := by
  unfold evictPageFifo
  simp only [h.victim.idx, h.victim.entry]
  rw [bind_of_ok (lookup_leaf h.victim.leaf)]
  simp only [h.clean, Bool.false_eq_true, if_false]
  rw [h.proc]
  exact evictUnmap_eq (hal.entry h.victim.entry) h.victim.leaf h.freed

/-- `create_swap_file` that opens the swap file, or finds it open. -/
theorem OpenSwap.eq {f : Nat} (h : OpenSwap m p m' f) : createSwapFile m p = .ok (m', { p with swapFile := some f }, true) := by
  unfold createSwapFile
  rcases h with ⟨hf, rfl⟩ | ⟨hf, fs, hmk, rfl⟩
  · rw [if_pos (by rw [hf]; rfl), ← hf]
  · rw [if_neg (by simp [hf]), bind_of_ok hmk]

/-- `swap_out_page` of a mapped page, once the swap file is open. -/
theorem SwapWrite.eq {f slot : Nat} {pte : Pte} {done : Bool} (h : SwapWrite m f pte.pa slot m' done) (hf : p.swapFile = some f)
    (hlook : Kernel.lookup p.pagetable va = .ok (some pte)) : swapOutPage m p va slot = .ok (m', p, done) := by
  obtain ⟨fs₁, fs₂, tot, hlock, hwrite, rfl, rfl⟩ := h
  have hopen : createSwapFile m p = .ok (m, p, true) := by
    rw [createSwapFile, if_pos (by rw [hf]; rfl)]
  rw [swapOutPage, bind_of_ok hopen]
  simp only
  rw [bind_of_ok hlook]
  simp only [hf, Option.getD_some]
  rw [Machine.reach_fs, bind_of_ok hlock, Machine.reach_mem, bind_of_ok hwrite]

/-- `evict_page_fifo` of a dirty victim that is written out. -/
theorem EvictDirty.eq {e : PageInfo} {pte : Pte} {slot f : Nat} {m₁ m₂ : Machine} (hal : p.Aligned)
    (h : EvictDirty m p i e pte slot f m₁ m₂ m' p') : evictPageFifo m p = .ok (m', p', true) := by
  unfold evictPageFifo
  simp only [h.victim.idx, h.victim.entry]
  rw [bind_of_ok (lookup_leaf h.victim.leaf)]
  simp only [h.dirty, if_true]
  unfold evictDirty allocSwapSlot
  simp only [h.clear]
  have hopen : OpenSwap m { p with swapBitmap := Function.update p.swapBitmap slot true, swapSlotsUsed := p.swapSlotsUsed + 1 } m₁ f :=
    h.opened
  rw [bind_of_ok hopen.eq]
  simp only
  have hout := h.written.eq (p := { p with
    swapBitmap := Function.update p.swapBitmap slot true, swapSlotsUsed := p.swapSlotsUsed + 1, swapFile := some f }) rfl (lookup_leaf h.victim.leaf)
  rw [bind_of_ok hout]
  simp only
  rw [h.proc]
  exact evictUnmap_eq (hal.entry h.victim.entry) h.victim.leaf h.freed

/-! ## Entries -/

/-- The page of a fault has an entry, or there is no room for one. -/
theorem tracked_or_full (p : Proc) (va : Nat) :
    (∃ i p₀, Tracked p va i p₀) ∨ (findPageInfo p va = none ∧ maxPages ≤ p.pages.length) := by
  cases hfind : findPageInfo p va with
  | some i => exact Or.inl ⟨i, p, .old hfind⟩
  | none =>
    by_cases hroom : p.pages.length < maxPages
    · exact Or.inl ⟨_, _, .new hfind hroom⟩
    · exact Or.inr ⟨rfl, Nat.not_lt.mp hroom⟩

theorem loadEntry_full (hnone : findPageInfo p va = none) (hfull : maxPages ≤ p.pages.length) :
    loadEntry m p va = .ok (m, p.kill, false) := by
  rw [loadEntry, hnone]
  simp only [addPageInfo, if_pos hfull]

theorem Tracked.loadEntry (h : Tracked p va i p') : Kernel.loadEntry m p va = faultLoad m p' i va := by
  unfold Kernel.loadEntry
  cases h with
  | old hfind => rw [hfind]
  | new hfind hroom => simp only [hfind, addPageInfo, if_neg (Nat.not_le.mpr hroom)]

theorem Tracked.entry (hal : va % 4096 = 0) (h : Tracked p va i p') : ∃ e, p'.pages[i]? = some e ∧ e.va = va := by
  have hround := pgRoundDown_of_aligned hal
  cases h with
  | old hfind =>
    obtain ⟨e, he, hva⟩ := findPageInfo_some hfind
    exact ⟨e, he, hva.trans hround⟩
  | new hfind hroom => exact ⟨⟨pgRoundDown va, .unmapped, false, 0, -1⟩, by simp, hround⟩

theorem Tracked.aligned (hal : p.Aligned) (h : Tracked p va i p') : p'.Aligned := by
  cases h with
  | old => exact hal
  | new =>
    intro a ha
    rw [List.map_append, List.mem_append] at ha
    rcases ha with ha | ha
    · exact hal a ha
    · rw [List.map_singleton, List.mem_singleton] at ha
      rw [ha]
      exact pgRoundDown_mod va

/-! ## Loads -/

/-- The contents of page `va`, which has entry `i`, can be had: a page of memory, after an eviction when none is free, and what is to
be in it. -/
structure Obtained (m : Machine) (p : Proc) (i va : Nat) (src : Source) (m₁ : Machine) (p₁ : Proc) (m₂ : Machine) (mem : Pa)
    (m₃ : Machine) (p₂ : Proc) (page : Page) : Prop where
  freed : Freed m p m₁ p₁
  alloc : kalloc m₁ = some (m₂, mem)
  fetched : Fetched m₂ p₁ i va src m₃ p₂ page

/-- `kalloc`, after an eviction when no page is free. -/
theorem kallocEvict_eq {m₁ m₂ : Machine} {p₁ : Proc} {mem : Pa} (hal : p.Aligned) (hf : Freed m p m₁ p₁) (hk : kalloc m₁ = some (m₂, mem)) :
    kallocEvict m p = .ok (m₂, p₁, some mem) := by
  have hevict : m.freelist = [] → evictPageFifo m p = .ok (m₁, p₁, true) → kallocEvict m p = .ok (m₂, p₁, some mem) := by
    intro hempty hev
    unfold kallocEvict
    simp only [kalloc_eq_none_iff.mpr hempty]
    rw [bind_of_ok hev]
    simp only [hk]
  cases hf with
  | free => rw [kallocEvict, hk]
  | clean hempty hx => exact hevict hempty (hx.eq hal)
  | dirty hempty hx => exact hevict hempty (hx.eq hal)

/-- Loading a page whose contents can be had ends in mapping it. -/
theorem Obtained.eq {m₁ m₂ m₃ : Machine} {p₁ p₂ : Proc} {mem : Pa} {page : Page} {e : PageInfo} (hal : p.Aligned) (he : p.pages[i]? = some e)
    (h : Obtained m p i va (sourceOf p e va) m₁ p₁ m₂ mem m₃ p₂ page) :
    faultLoad m p i va = faultMap (m₃.fill mem page) p₂ i va mem ((sourceOf p e va).perm p₁ va) := by
  have hk := kallocEvict_eq hal h.freed h.alloc
  have hfetched := h.fetched
  unfold faultLoad
  simp only [he]
  unfold sourceOf at hfetched ⊢
  by_cases hs : e.state = .swapped
  · rw [if_pos hs] at hfetched ⊢
    rw [if_pos hs, faultSwap, bind_of_ok hk]
    cases hfetched with
    | swap hfile hentry hlock hread =>
      simp only [hfile, hentry]
      rw [Machine.reach_fs, bind_of_ok hlock, if_neg (not_not.mpr hread)]
      rfl
  · rw [if_neg hs] at hfetched ⊢
    rw [if_neg hs]
    by_cases hx : inExec p va
    · rw [if_pos hx] at hfetched ⊢
      rw [if_pos hx, faultExec, bind_of_ok hk]
      cases hfetched with
      | exec hr =>
        simp only [hr, Bool.false_eq_true, if_false]
        rfl
      | execRead hr hlock =>
        simp only [hr, if_true]
        rw [Machine.reach_fs, bind_of_ok hlock]
        rfl
    · rw [if_neg hx] at hfetched ⊢
      rw [if_neg hx, faultZero, bind_of_ok hk]
      cases hfetched with
      | zero => rfl

/-- Getting a page of memory and its contents leaves the table, but for the page that is evicted. -/
theorem Obtained.pagetable {src : Source} {m₁ m₂ m₃ : Machine} {p₁ p₂ : Proc} {mem : Pa} {page : Page}
    (h : Obtained m p i va src m₁ p₁ m₂ mem m₃ p₂ page) : p₂.pagetable = p₁.pagetable :=
  h.fetched.same.2.2.1

/-- An eviction maps nothing. -/
theorem Freed.mapped {v : Nat} (h : Freed m p m' p') (hv : (p'.pagetable.leaf v).isSome) : (p.pagetable.leaf v).isSome := by
  have hclear : ∀ w, p'.pagetable = p.pagetable.clearLeaf w → (p.pagetable.leaf v).isSome := by
    intro w hp
    rw [hp, PageTable.clearLeaf_leaf] at hv
    by_cases hvw : v = w
    · rw [hvw, Function.update_self] at hv
      cases hv
    · rwa [Function.update_of_ne hvw] at hv
  cases h with
  | free => exact hv
  | clean _ hx => exact hclear _ (congrArg Proc.pagetable hx.proc)
  | dirty _ hx => exact hclear _ (congrArg Proc.pagetable hx.proc)

theorem Tracked.pagetable (h : Tracked p va i p') : p'.pagetable = p.pagetable := by
  cases h <;> rfl

/-- `mappages` of a page that is mapped. -/
theorem mappages_remap {pt : PageTable} {mem : Pa} {perm : Perm} (hal : va % 4096 = 0) (h : (pt.leaf (va / 4096)).isSome) :
    mappages m pt va pgSize mem perm = .error .mappagesRemap := by
  have hlt : va < maxVa := by
    have := pt.lt_of_leaf h
    unfold maxVa
    omega
  have hlow : (pt.low (va / 2 ^ 21)).isSome := by
    have := pt.low_of_leaf _ h
    rwa [show va / 4096 / 512 = va / 2 ^ 21 by omega] at this
  unfold mappages
  rw [if_neg (by unfold pgSize; omega), if_neg (by decide), if_neg (by decide), show pgSize / pgSize = 0 + 1 from rfl, mappagesLoop,
    bind_of_ok (walk_present hlt hlow)]
  simp only [h, if_true]

end Xv6SnifferBakery.Kernel
