import Xv6SnifferBakery.Lemmas.Freeing
import Xv6SnifferBakery.Lemmas.Outcome
import Xv6SnifferBakery.Lemmas.Room

/-!
# When a page fault is served

An eviction succeeds, fails, or panics, and a fault is served, declined without a trace, or neither: the state before says which.
-/

namespace Xv6SnifferBakery.Kernel

open Lib

variable {m m' : Machine} {p p' : Proc} {i va : Nat} {access : Access}

/-! ## Evictions -/

/-- `evict_page_fifo` gives up: there is no victim, or its page is not mapped; or it is dirty and there is no slot for it, the swap
file cannot be made, or the page not be written. -/
inductive Stuck (m : Machine) (p : Proc) : Prop where
  | none (h : victimIdx p.pages = none) : Stuck m p
  | unmapped {i : Nat} {e : PageInfo} (idx : victimIdx p.pages = some i) (entry : p.pages[i]? = some e) (lt : e.va < maxVa)
      (leaf : p.pagetable.leaf (e.va / 4096) = Option.none) : Stuck m p
  | slots {i : Nat} {e : PageInfo} {pte : Pte} (victim : Victim p i e pte) (dirty : e.isDirty = true)
      (full : firstClear p.swapBitmap 0 maxSwapSlots = Option.none) : Stuck m p
  | create {i slot : Nat} {e : PageInfo} {pte : Pte} {fs : Fs} (victim : Victim p i e pte) (dirty : e.isDirty = true)
      (clear : firstClear p.swapBitmap 0 maxSwapSlots = some slot) (closed : p.swapFile = Option.none)
      (h : makeSwapFile m.fs (p.cwd.getD 0) p.pid = .ok (fs, Option.none)) : Stuck m p
  | write {i slot f : Nat} {e : PageInfo} {pte : Pte} {m₁ m₂ : Machine} (victim : Victim p i e pte) (dirty : e.isDirty = true)
      (clear : firstClear p.swapBitmap 0 maxSwapSlots = some slot) (opened : OpenSwap m p m₁ f)
      (h : SwapWrite m₁ f pte.pa slot m₂ false) : Stuck m p

/-- The start of `evict_page_fifo`, when the page of the victim is mapped and dirty. -/
theorem evictPageFifo_dirty {e : PageInfo} {pte : Pte} (hv : Victim p i e pte) (hd : e.isDirty = true) :
    evictPageFifo m p = evictDirty m p i e.va := by
  unfold evictPageFifo
  simp only [hv.idx, hv.entry]
  rw [bind_of_ok (lookup_leaf hv.leaf)]
  simp only [hd, if_true]

theorem evictPageFifo_fail_iff : (∃ m' p', evictPageFifo m p = .ok (m', p', false)) ↔ Stuck m p := by
  constructor
  · rintro ⟨m', p', h⟩
    rcases evictPageFifo_cases h with ⟨hf, -⟩ | ⟨hf, -⟩ | ⟨-, hfail⟩
    · cases hf
    · cases hf
    · cases hfail with
      | victim hv =>
        cases hidx : victimIdx p.pages with
        | none => exact .none hidx
        | some i =>
          obtain ⟨e, he, -⟩ := victimIdx_some hidx
          cases hleaf : p.pagetable.leaf (e.va / 4096) with
          | none =>
            refine .unmapped hidx he ?_ hleaf
            by_contra hge
            unfold evictPageFifo at h
            simp only [hidx, he] at h
            rw [lookup, if_pos (Nat.not_lt.mp hge)] at h
            cases h
          | some pte =>
            obtain ⟨hd, hs⟩ := hv i e pte ⟨hidx, he, hleaf⟩
            exact .slots ⟨hidx, he, hleaf⟩ hd hs
      | create hv hd hclosed hmk =>
        cases hs : firstClear p.swapBitmap 0 maxSwapSlots with
        | none => exact .slots hv hd hs
        | some slot => exact .create hv hd hs hclosed hmk
      | write hv hd hs ho hw => exact .write hv hd hs ho hw
  · intro h
    cases h with
    | none hidx =>
      refine ⟨m, p, ?_⟩
      unfold evictPageFifo
      simp only [hidx]
    | unmapped hidx he hlt hleaf =>
      refine ⟨m, p, ?_⟩
      unfold evictPageFifo
      simp only [hidx, he]
      rw [lookup, if_neg (Nat.not_le.mpr hlt), hleaf]
      rfl
    | slots hv hd hs =>
      refine ⟨m, p, ?_⟩
      rw [evictPageFifo_dirty hv hd, evictDirty, allocSwapSlot]
      simp only [hs]
    | create hv hd hs hclosed hmk =>
      rename_i slot e pte fs
      rw [evictPageFifo_dirty hv hd, evictDirty, allocSwapSlot]
      simp only [hs]
      have hcreate : createSwapFile m { p with swapBitmap := Function.update p.swapBitmap slot true, swapSlotsUsed := p.swapSlotsUsed + 1 } =
          .ok ((m.reach [.beginOp]).withFs fs,
            { p with swapBitmap := Function.update p.swapBitmap slot true, swapSlotsUsed := p.swapSlotsUsed + 1 }, false) := by
        rw [createSwapFile, if_neg (by simp [hclosed]), bind_of_ok hmk]
      rw [bind_of_ok hcreate]
      exact ⟨_, _, rfl⟩
    | write hv hd hs ho hw =>
      rename_i slot f e pte m₁ m₂
      rw [evictPageFifo_dirty hv hd, evictDirty, allocSwapSlot]
      simp only [hs]
      have hopen : OpenSwap m { p with swapBitmap := Function.update p.swapBitmap slot true, swapSlotsUsed := p.swapSlotsUsed + 1 } m₁ f := ho
      rw [bind_of_ok hopen.eq]
      simp only
      have hout := hw.eq (p := { p with
        swapBitmap := Function.update p.swapBitmap slot true, swapSlotsUsed := p.swapSlotsUsed + 1, swapFile := some f }) rfl
        (lookup_leaf hv.leaf)
      rw [bind_of_ok hout]
      exact ⟨_, _, rfl⟩

/-- An eviction that succeeds leaves a free page. -/
theorem evictPageFifo_frees (h : evictPageFifo m p = .ok (m', p', true)) : m'.freelist ≠ [] := by
  have hfreed : ∀ {m₁ : Machine} {q : Pa}, kfree m₁ q = .ok m' → m'.freelist ≠ [] := by
    intro m₁ q hk
    rw [kfree_ok hk]
    exact List.cons_ne_nil _ _
  rcases evictPageFifo_cases h with ⟨-, i, e, pte, hx⟩ | ⟨-, i, e, pte, slot, f, m₁, m₂, hx⟩ | ⟨hf, -⟩
  · exact hfreed hx.freed
  · exact hfreed hx.freed
  · nomatch hf

/-- No page of memory can be had exactly when none is free and the eviction gives up. -/
theorem kallocEvict_none_iff : (∃ m' p', kallocEvict m p = .ok (m', p', none)) ↔ m.freelist = [] ∧ Stuck m p := by
  rw [← evictPageFifo_fail_iff]
  constructor
  · rintro ⟨m', p', h⟩
    unfold kallocEvict at h
    cases hk : kalloc m with
    | some x =>
      simp only [hk, Except.ok.injEq, Prod.mk.injEq] at h
      nomatch h.2.2
    | none =>
      refine ⟨kalloc_eq_none_iff.mp hk, ?_⟩
      simp only [hk] at h
      obtain ⟨⟨m₁, p₁, b⟩, hev, h⟩ := bind_ok h
      cases b with
      | false => exact ⟨m₁, p₁, hev⟩
      | true =>
        cases hk₁ : kalloc m₁ with
        | none => exact absurd (kalloc_eq_none_iff.mp hk₁) (evictPageFifo_frees hev)
        | some x =>
          simp only [hk₁, Except.ok.injEq, Prod.mk.injEq] at h
          nomatch h.2.2
  · rintro ⟨hempty, m', p', hev⟩
    refine ⟨m', p'.kill, ?_⟩
    unfold kallocEvict
    simp only [kalloc_eq_none_iff.mpr hempty]
    rw [bind_of_ok hev]

/-! ## Faults -/

/-- A fault at page `va` maps it, or grants the first write to it: the contents can be had, after that the page is not mapped, and
there is memory for its tables. -/
inductive ServedRun (m : Machine) (p : Proc) (va : Nat) (access : Access) : Prop where
  | grant {i : Nat} (h : GrantsWrite p va access i) : ServedRun m p va access
  | load {i : Nat} {e : PageInfo} {p₀ p₁ p₂ : Proc} {m₁ m₂ m₃ : Machine} {mem : Pa} {page : Page} (loads : Loads p va access)
      (tracked : Tracked p va i p₀) (entry : p₀.pages[i]? = some e)
      (obtained : Obtained m p₀ i va (sourceOf p₀ e va) m₁ p₁ m₂ mem m₃ p₂ page) (free : p₁.pagetable.leaf (va / 4096) = none)
      (room : p₁.pagetable.missing va ≤ m₂.freelist.length) : ServedRun m p va access

/-- A fault at page `va` changes neither the table nor the free list: it is refused, there is no room for an entry, memory is full and
no page can be evicted, the swap file is too short, or the last free page would be needed for a table. -/
inductive DeclinedRun (m : Machine) (p : Proc) (va : Nat) (access : Access) : Prop where
  | refused (load : ¬Loads p va access) (grant : ∀ i, ¬GrantsWrite p va access i) : DeclinedRun m p va access
  | full (loads : Loads p va access) (untracked : findPageInfo p va = none) (full : maxPages ≤ p.pages.length) : DeclinedRun m p va access
  | stuck {i : Nat} {p₀ : Proc} (loads : Loads p va access) (tracked : Tracked p va i p₀) (empty : m.freelist = [])
      (stuck : Stuck m p₀) : DeclinedRun m p va access
  | short {i f : Nat} {p₀ : Proc} {e : PageInfo} {m₁ : Machine} {mem : Pa} {fs : Fs} (loads : Loads p va access)
      (tracked : Tracked p va i p₀) (entry : p₀.pages[i]? = some e) (swapped : e.state = .swapped) (alloc : kalloc m = some (m₁, mem))
      (file : p₀.swapFile = some f) (lock : ilock m₁.fs (m₁.fs.ftable f).ip = .ok fs)
      (read : readi (fs.inode (m₁.fs.ftable f).ip) (slotOff e.swapSlot) pgSize ≠ pgSize) (freeable : Freeable m.kend mem) :
      DeclinedRun m p va access
  | noTable {i : Nat} {e : PageInfo} {p₀ p₂ : Proc} {m₁ m₂ : Machine} {mem : Pa} {page : Page} (loads : Loads p va access)
      (tracked : Tracked p va i p₀) (entry : p₀.pages[i]? = some e) (alloc : kalloc m = some (m₁, mem)) (last : m₁.freelist = [])
      (fetched : Fetched m₁ p₀ i va (sourceOf p₀ e va) m₂ p₂ page) (missing : 0 < p₀.pagetable.missing va)
      (freeable : Freeable m.kend mem) : DeclinedRun m p va access

theorem kfree_ok_of {q : Pa} (h : Freeable m.kend q) : ∃ m', kfree m q = .ok m' := ⟨_, h.kfree⟩

/-- A load that gets no page of memory. -/
theorem faultLoad_noPage {e : PageInfo} (he : p.pages[i]? = some e) (h : kallocEvict m p = .ok (m', p', none)) :
    faultLoad m p i va = .ok (m', p', false) := by
  unfold faultLoad
  simp only [he]
  by_cases hs : e.state = .swapped
  · rw [if_pos hs, faultSwap, bind_of_ok h]
  · rw [if_neg hs]
    by_cases hx : inExec p va
    · rw [if_pos hx, faultExec, bind_of_ok h]
    · rw [if_neg hx, faultZero, bind_of_ok h]

/-- What `kalloc` returned and `kfree` took. -/
theorem kfree_kalloc {m₁ m₂ : Machine} {mem : Pa} (hk : kalloc m = some (m₁, mem)) (hkend : m₂.kend = m₁.kend)
    (hf : kfree m₂ mem = .ok m') : Freeable m.kend mem := by
  have hsame : m₁.kend = m.kend := by
    rw [(kalloc_some hk).2]
    rfl
  have hfreeable := kfree_freeable hf
  rwa [hkend, hsame] at hfreeable

/-- A load that does not panic got no page of memory, or it went on as if the page had been free. -/
theorem faultLoad_split {e : PageInfo} {r : Bool} (he : p.pages[i]? = some e) (h : faultLoad m p i va = .ok (m', p', r)) :
    (r = false ∧ kallocEvict m p = .ok (m', p', none)) ∨
    ∃ m₁ p₁, Freed m p m₁ p₁ ∧ m₁.freelist ≠ [] ∧ FaultLoad m₁ p₁ i va (sourceOf p e va) m' p' r := by
  have hsplit : ∀ {f : Machine × Proc × Option Pa → Kern (Machine × Proc × Bool)} {src : Source},
      (∀ m₁ p₁, f (m₁, p₁, none) = .ok (m₁, p₁, false)) →
      (∀ m₁ p₁, (kallocEvict m₁ p₁ >>= f) = .ok (m', p', r) → FaultLoad m₁ p₁ i va src m' p' r) →
      (kallocEvict m p >>= f) = .ok (m', p', r) → (r = false ∧ kallocEvict m p = .ok (m', p', none)) ∨
        ∃ m₁ p₁, Freed m p m₁ p₁ ∧ m₁.freelist ≠ [] ∧ FaultLoad m₁ p₁ i va src m' p' r := by
    intro f src hnone hcases hx
    obtain ⟨⟨m₂, p₁, o⟩, hk, hrest⟩ := bind_ok hx
    rcases kallocEvict_cases hk with ⟨rfl, -⟩ | ⟨mem, m₁, rfl, hfreed, halloc⟩
    · rw [hnone] at hrest
      simp only [Except.ok.injEq, Prod.mk.injEq] at hrest
      obtain ⟨rfl, rfl, rfl⟩ := hrest
      exact Or.inl ⟨rfl, hk⟩
    · have hne : m₁.freelist ≠ [] := by
        intro hn
        rw [kalloc_eq_none_iff.mpr hn] at halloc
        nomatch halloc
      have hagain : kallocEvict m₁ p₁ = .ok (m₂, p₁, some mem) := by rw [kallocEvict, halloc]
      refine Or.inr ⟨m₁, p₁, hfreed, hne, hcases m₁ p₁ ?_⟩
      rw [bind_of_ok hagain]
      exact hrest
  unfold faultLoad at h
  simp only [he] at h
  unfold sourceOf
  by_cases hs : e.state = .swapped
  · rw [if_pos hs] at h ⊢
    exact hsplit (fun _ _ => rfl) (fun _ _ hx => faultSwap_cases hx) h
  · rw [if_neg hs] at h ⊢
    by_cases hx : inExec p va
    · rw [if_pos hx] at h ⊢
      exact hsplit (fun _ _ => rfl) (fun _ _ hx => faultExec_cases hx) h
    · rw [if_neg hx] at h ⊢
      exact hsplit (fun _ _ => rfl) (fun _ _ hx => faultZero_cases hx) h

/-- The state in which a load that fails leaves the table. -/
theorem LoadFail.last {src : Source} (h : LoadFail m p i va src m' p') (hsame : p'.pagetable = p.pagetable)
    (hlist : m'.freelist = m.freelist) : (src = .swap ∧ ∃ f e fs m₁ mem, kalloc m = some (m₁, mem) ∧ p.swapFile = some f ∧
      p.pages[i]? = some e ∧ ilock m₁.fs (m₁.fs.ftable f).ip = .ok fs ∧
      readi (fs.inode (m₁.fs.ftable f).ip) (slotOff e.swapSlot) pgSize ≠ pgSize ∧ Freeable m.kend mem) ∨
    ∃ m₁ mem m₂ p₂ page, kalloc m = some (m₁, mem) ∧ m₁.freelist = [] ∧ Fetched m₁ p i va src m₂ p₂ page ∧
      0 < p.pagetable.missing va ∧ Freeable m.kend mem := by
  cases h with
  | read halloc hsrc hfile he hlock hread hfreed =>
    have hfreeable : Freeable m.kend _ := kfree_kalloc halloc (by rfl) hfreed
    exact Or.inl ⟨hsrc, _, _, _, _, _, halloc, hfile, he, hlock, hread, hfreeable⟩
  | map halloc hfetch hmap hfreed =>
    rename_i m₁ m₂ m₃ p₂ page pt mem
    obtain ⟨hr, -⟩ | ⟨-, hs⟩ := mappages_page hmap
    · nomatch hr
    obtain ⟨hmem, -, hpt, -⟩ := hfetch.same
    have hfreeable : Freeable m.kend mem := kfree_kalloc halloc (hs.alloc.kend.trans hmem.kend) hfreed
    have hshort := mappages_short hmap
    rw [kfree_ok hfreed, hshort, (kalloc_some halloc).1] at hlist
    have hlast : m₁.freelist = [] := (List.cons.inj hlist).2.symm
    have hmiss := (mappages_missing hmap).1.not.mp (by simp)
    rw [Machine.fill_freelist, hmem.freelist, hlast, hpt] at hmiss
    exact Or.inr ⟨m₁, mem, m₂, p₂, page, halloc, hlast, hfetch, Nat.not_le.mp hmiss, hfreeable⟩

/-- An eviction changes the table. -/
theorem Freed.same (h : Freed m p m' p') (hsame : ∀ v, (p.pagetable.leaf v).isSome → (p'.pagetable.leaf v).isSome) : m' = m ∧ p' = p ∧
    m.freelist ≠ [] := by
  have hvictim : ∀ {i : Nat} {e : PageInfo} {pte : Pte}, Victim p i e pte → p'.pagetable = p.pagetable.clearLeaf (e.va / 4096) → False := by
    intro i e pte hv hp
    have hs := hsame (e.va / 4096) (by rw [hv.leaf]; rfl)
    rw [hp, PageTable.clearLeaf_leaf, Function.update_self] at hs
    cases hs
  cases h with
  | free hne => exact ⟨rfl, rfl, hne⟩
  | clean _ hx => exact (hvictim hx.victim (congrArg Proc.pagetable hx.proc)).elim
  | dirty _ hx => exact (hvictim hx.victim (congrArg Proc.pagetable hx.proc)).elim

/-- With a free page nothing is evicted. -/
theorem Freed.eq_of_free (h : Freed m p m' p') (hne : m.freelist ≠ []) : m' = m ∧ p' = p := by
  cases h with
  | free => exact ⟨rfl, rfl⟩
  | clean hempty => exact absurd hempty hne
  | dirty hempty => exact absurd hempty hne

theorem LoadFail.leaf {src : Source} (h : LoadFail m p i va src m' p') : p'.pagetable.leaf = p.pagetable.leaf := by
  cases h with
  | read => rfl
  | map _ hf hm =>
    obtain ⟨hr, -⟩ | ⟨-, hs⟩ := mappages_page hm
    · nomatch hr
    exact hs.leaf.trans (by rw [hf.same.2.2.1])

/-- A fault returns 0 exactly when it is served. -/
theorem handlePageFault_ok_iff {addr : Nat} {fromUser : Bool} (hal : p.Aligned) :
    (∃ m' p', handlePageFault m p addr access fromUser = .ok (m', p', true)) ↔ ServedRun m p (pgRoundDown addr) access := by
  have hround := pgRoundDown_mod addr
  constructor
  · rintro ⟨m', p', h⟩
    by_cases hgrant : ∃ i, GrantsWrite p (pgRoundDown addr) access i
    · obtain ⟨i, hgrant⟩ := hgrant
      exact .grant hgrant
    by_cases hload : Loads p (pgRoundDown addr) access
    swap
    · rw [handlePageFault_refused hload (fun i hi => hgrant ⟨i, hi⟩)] at h
      cases h
    rw [handlePageFault_loads hload] at h
    rcases tracked_or_full p (pgRoundDown addr) with ⟨i, p₀, htr⟩ | ⟨hnone, hfull⟩
    · rw [htr.loadEntry] at h
      obtain ⟨e, he, hx⟩ := faultLoad_cases h
      cases hx with
      | load hfreed hl =>
        have hmap := hl.mapped
        obtain ⟨-, hs⟩ | ⟨hf, -⟩ := mappages_page hmap
        swap
        · cases hf
        obtain ⟨hmem, -, hpt, -⟩ := hl.fetched.same
        have hroom := (mappages_missing hmap).1.mp rfl
        have hfree := hs.free
        rw [Machine.fill_freelist, hmem.freelist, hpt] at hroom
        rw [hpt] at hfree
        exact .load hload htr he ⟨hfreed, hl.alloc, hl.fetched⟩ hfree hroom
    · rw [loadEntry_full hnone hfull] at h
      cases h
  · intro h
    cases h with
    | grant h => exact ⟨_, _, handlePageFault_grants h⟩
    | load hload htr he hob hfree hroom =>
      rw [handlePageFault_loads hload, htr.loadEntry, hob.eq (htr.aligned hal) he, faultMap]
      rename_i i e p₀ p₁ p₂ m₁ m₂ m₃ mem page
      rw [← hob.pagetable] at hfree hroom
      obtain ⟨m', pt', r, hmap⟩ : ∃ m' pt' r, mappages (m₃.fill mem page) p₂.pagetable (pgRoundDown addr) pgSize mem
          ((sourceOf p₀ e (pgRoundDown addr)).perm p₁ (pgRoundDown addr)) = .ok (m', pt', r) := mappages_free hround hload.lt hfree
      obtain rfl : r = true := by
        rw [(mappages_missing hmap).1, Machine.fill_freelist, hob.fetched.same.1.freelist]
        exact hroom
      rw [bind_of_ok hmap]
      exact ⟨_, _, rfl⟩

/-- A fault returns -1 and leaves the table and the free list exactly when it declines. -/
theorem handlePageFault_fail_iff {addr : Nat} {fromUser : Bool} (hal : p.Aligned) :
    (∃ m' p', handlePageFault m p addr access fromUser = .ok (m', p', false) ∧ p'.pagetable = p.pagetable ∧ m'.freelist = m.freelist) ↔
      DeclinedRun m p (pgRoundDown addr) access := by
  have hround := pgRoundDown_mod addr
  constructor
  · rintro ⟨m', p', h, hpt, hlist⟩
    by_cases hgrant : ∃ i, GrantsWrite p (pgRoundDown addr) access i
    · obtain ⟨i, hgrant⟩ := hgrant
      rw [handlePageFault_grants hgrant] at h
      cases h
    by_cases hload : Loads p (pgRoundDown addr) access
    swap
    · exact .refused hload (fun i hi => hgrant ⟨i, hi⟩)
    rw [handlePageFault_loads hload] at h
    rcases tracked_or_full p (pgRoundDown addr) with ⟨i, p₀, htr⟩ | ⟨hnone, hfull⟩
    swap
    · exact .full hload hnone hfull
    rw [htr.loadEntry] at h
    obtain ⟨e, he, -⟩ := htr.entry hround
    rcases faultLoad_split he h with ⟨-, hk⟩ | ⟨m₁, p₁, hfreed, hne, hx⟩
    · obtain ⟨hempty, hstuck⟩ := kallocEvict_none_iff.mp ⟨m', p', hk⟩
      exact .stuck hload htr hempty hstuck
    cases hx with
    | noPage hempty => exact absurd hempty hne
    | fail hfreed' hfail =>
      obtain ⟨rfl, rfl⟩ := hfreed'.eq_of_free hne
      obtain ⟨rfl, rfl, -⟩ := hfreed.same (fun v hv => by rw [← hfail.leaf, hpt, ← htr.pagetable]; exact hv)
      rcases hfail.last (hpt.trans htr.pagetable.symm) hlist with
        ⟨hsrc, f, e', fs, m₁, mem, halloc, hfile, he', hlock, hread, hfreeable⟩ | ⟨m₁, mem, m₂, p₂, page, halloc, hlast, hfetch, hmiss, hfreeable⟩
      · obtain rfl := Option.some.inj (he.symm.trans he')
        have hswap : e.state = .swapped := by
          by_contra hs
          unfold sourceOf at hsrc
          rw [if_neg hs] at hsrc
          split at hsrc <;> cases hsrc
        exact .short hload htr he hswap halloc hfile hlock hread hfreeable
      · exact .noTable hload htr he halloc hlast hfetch hmiss hfreeable
  · intro h
    cases h with
    | refused hload hgrant =>
      refine ⟨_, _, handlePageFault_refused hload hgrant, ?_, rfl⟩
      unfold refuse
      split <;> rfl
    | full hload hnone hfull => exact ⟨_, _, (handlePageFault_loads hload).trans (loadEntry_full hnone hfull), rfl, rfl⟩
    | stuck hload htr hempty hstuck =>
      rename_i i p₀
      obtain ⟨m', p', hk⟩ := kallocEvict_none_iff.mpr ⟨hempty, hstuck⟩
      obtain ⟨e, he, -⟩ := htr.entry hround
      obtain ⟨-, -, p₁, hfail, rfl⟩ | ⟨mem, m₁, hn, -⟩ := kallocEvict_cases hk
      swap
      · cases hn
      refine ⟨m', p₁.kill, ?_, ?_, hfail.sameMem.freelist⟩
      · rw [handlePageFault_loads hload, htr.loadEntry, faultLoad_noPage he hk]
      · rw [← htr.pagetable]
        have hpt : p₁.pagetable = p₀.pagetable := by
          rw [hfail.proc]
        exact hpt
    | short hload htr he hswap halloc hfile hlock hread hfreeable =>
      rename_i i f p₀ e m₁ mem fs
      have hk : kallocEvict m p₀ = .ok (m₁, p₀, some mem) := by rw [kallocEvict, halloc]
      obtain ⟨hcons, hm₁⟩ := kalloc_some halloc
      have hkend : m₁.kend = m.kend := by rw [hm₁]; rfl
      obtain ⟨m', hfreed⟩ := kfree_ok_of (m := (m₁.reach [.beginOp, .ilock, .diskRead]).withFs fs) (q := mem) (hkend ▸ hfreeable)
      refine ⟨m', p₀.kill, ?_, htr.pagetable, ?_⟩
      · rw [handlePageFault_loads hload, htr.loadEntry, faultLoad]
        simp only [he]
        rw [if_pos hswap, faultSwap, bind_of_ok hk]
        simp only [hfile, he]
        rw [Machine.reach_fs, bind_of_ok hlock, if_pos hread, bind_of_ok hfreed]
      · rw [kfree_ok hfreed, hcons]
        rfl
    | noTable hload htr he halloc hlast hfetch hmiss hfreeable =>
      rename_i i e p₀ p₂ m₁ m₂ mem page
      have hne : m.freelist ≠ [] := by
        rw [(kalloc_some halloc).1]
        exact List.cons_ne_nil _ _
      have hob : Obtained m p₀ i (pgRoundDown addr) (sourceOf p₀ e (pgRoundDown addr)) m p₀ m₁ mem m₂ p₂ page := ⟨.free hne, halloc, hfetch⟩
      obtain ⟨hcons, hm₁⟩ := kalloc_some halloc
      have hkend : m₂.kend = m.kend := by
        rw [hfetch.same.1.kend, hm₁]
        rfl
      obtain ⟨m', hfreed⟩ := kfree_ok_of (m := m₂.fill mem page) (q := mem) (hkend ▸ hfreeable)
      rw [← hob.pagetable] at hmiss
      have hmap : mappages (m₂.fill mem page) p₂.pagetable (pgRoundDown addr) pgSize mem
          ((sourceOf p₀ e (pgRoundDown addr)).perm p₀ (pgRoundDown addr)) = .ok (m₂.fill mem page, p₂.pagetable, false) :=
        mappages_empty hround hload.lt (by rw [Machine.fill_freelist, hfetch.same.1.freelist, hlast]) hmiss
      refine ⟨m', p₂.kill, ?_, hob.pagetable.trans htr.pagetable, ?_⟩
      · rw [handlePageFault_loads hload, htr.loadEntry, hob.eq (htr.aligned hal) he, faultMap, bind_of_ok hmap]
        simp only
        rw [bind_of_ok hfreed]
      · rw [kfree_ok hfreed, hcons, hlast]
        change mem :: m₂.freelist = [mem]
        rw [hfetch.same.1.freelist, hlast]

end Xv6SnifferBakery.Kernel
