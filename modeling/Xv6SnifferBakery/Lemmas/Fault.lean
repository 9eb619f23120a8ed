import Xv6SnifferBakery.Lemmas.Evict

/-!
# What a page fault can do

Inversion of `handle_page_fault`. A fault is refused, or grants the first write to a page, or loads a page: it gets the page an
entry, gets a page of memory (after an eviction when there is none), fetches the contents, and maps it.
-/

namespace Xv6SnifferBakery.Kernel

open Lib

variable {m m' : Machine} {p p' : Proc} {i va : Nat}

/-! ## Fetching the contents of a page -/

/-- Where the contents of a page come from. -/
inductive Source where
  | zero | exec | swap
  deriving DecidableEq, Repr

/-- The source of a page whose entry is `e`. -/
def sourceOf (p : Proc) (e : PageInfo) (va : Nat) : Source :=
  if e.state = .swapped then .swap else if inExec p va then .exec else .zero

/-- The permissions a page is mapped with. -/
def Source.perm (src : Source) (p : Proc) (va : Nat) : Perm :=
  match src with
  | .exec => execPerm p va
  | .zero | .swap => trackPerm

/-- The contents of a page are fetched: the machine and the process after it, and the contents. -/
inductive Fetched (m : Machine) (p : Proc) (i va : Nat) : Source → Machine → Proc → Page → Prop where
  | zero : Fetched m p i va .zero m p (fun _ => 0)
  | exec (h : readsExec p va = false) : Fetched m p i va .exec m p (execPage m.fs p va)
  | execRead {fs : Fs} (h : readsExec p va = true) (lock : ilock m.fs (p.execInode.getD 0) = .ok fs) :
      Fetched m p i va .exec ((m.reach [.beginOp, .ilock, .diskRead]).withFs fs) p (execPage fs p va)
  | swap {f : Nat} {e : PageInfo} {fs : Fs} (file : p.swapFile = some f) (entry : p.pages[i]? = some e)
      (lock : ilock m.fs (m.fs.ftable f).ip = .ok fs)
      (read : readi (fs.inode (m.fs.ftable f).ip) (slotOff e.swapSlot) pgSize = pgSize) :
      Fetched m p i va .swap ((m.reach [.beginOp, .ilock, .diskRead]).withFs fs)
        ((freeSwapSlot p e.swapSlot).modPage i (fun e => { e with swapSlot := -1 }))
        (fun k => (fs.inode (m.fs.ftable f).ip).data (slotOff e.swapSlot + k))

/-- The process once entry `i` is mapped. -/
def Proc.loaded (p : Proc) (i : Nat) (pt : PageTable) : Proc :=
  { { p with pagetable := pt }.modPage i (fun e =>
      { e with state := .resident, seq := p.nextFifoSeq, isDirty := false }) with
    nextFifoSeq := wrap32 (p.nextFifoSeq + 1) }

/-- A page is loaded. -/
structure Load (m : Machine) (p : Proc) (i va : Nat) (src : Source) (m₁ : Machine) (mem : Pa) (m₂ : Machine) (p₂ : Proc)
    (page : Page) (pt : PageTable) (m' : Machine) (p' : Proc) : Prop where
  alloc : kalloc m = some (m₁, mem)
  fetched : Fetched m₁ p i va src m₂ p₂ page
  mapped : mappages (m₂.fill mem page) p₂.pagetable va pgSize mem (src.perm p va) = .ok (m', pt, true)
  proc : p' = p₂.loaded i pt

/-- A page that could be had is not loaded: the swap file is too short, or a page for a table is missing. The process is killed. -/
inductive LoadFail (m : Machine) (p : Proc) (i va : Nat) (src : Source) : Machine → Proc → Prop where
  | read {f : Nat} {e : PageInfo} {fs : Fs} {m₁ m' : Machine} {mem : Pa} (alloc : kalloc m = some (m₁, mem))
      (swap : src = .swap) (file : p.swapFile = some f) (entry : p.pages[i]? = some e)
      (lock : ilock m₁.fs (m₁.fs.ftable f).ip = .ok fs)
      (read : readi (fs.inode (m₁.fs.ftable f).ip) (slotOff e.swapSlot) pgSize ≠ pgSize)
      (freed : kfree ((m₁.reach [.beginOp, .ilock, .diskRead]).withFs fs) mem = .ok m') : LoadFail m p i va src m' p.kill
  | map {m₁ m₂ m₃ m' : Machine} {p₂ : Proc} {page : Page} {pt : PageTable} {mem : Pa} (alloc : kalloc m = some (m₁, mem))
      (fetched : Fetched m₁ p i va src m₂ p₂ page)
      (unmapped : mappages (m₂.fill mem page) p₂.pagetable va pgSize mem (src.perm p va) = .ok (m₃, pt, false))
      (freed : kfree m₃ mem = .ok m') : LoadFail m p i va src m' { p₂ with pagetable := pt }.kill

/-- Getting a page of memory: there is a free one, or one was made free by an eviction. -/
inductive Freed (m : Machine) (p : Proc) : Machine → Proc → Prop where
  | free (h : m.freelist ≠ []) : Freed m p m p
  | clean {i : Nat} {e : PageInfo} {pte : Pte} {m' : Machine} {p' : Proc} (h : m.freelist = [])
      (evict : EvictClean m p i e pte m' p') : Freed m p m' p'
  | dirty {i : Nat} {e : PageInfo} {pte : Pte} {slot f : Nat} {m₁ m₂ m' : Machine} {p' : Proc} (h : m.freelist = [])
      (evict : EvictDirty m p i e pte slot f m₁ m₂ m' p') : Freed m p m' p'

/-- Loading page `va` with entry `i` from a source: every way it can go. -/
inductive FaultLoad (m : Machine) (p : Proc) (i va : Nat) (src : Source) : Machine → Proc → Bool → Prop where
  | noPage {m' : Machine} {p' : Proc} (h : m.freelist = []) (fail : EvictFail m p m' p') : FaultLoad m p i va src m' p'.kill false
  | fail {m₁ m' : Machine} {p₁ p' : Proc} (freed : Freed m p m₁ p₁) (fail : LoadFail m₁ p₁ i va src m' p') :
      FaultLoad m p i va src m' p' false
  | load {m₁ m₂ m₃ m' : Machine} {p₁ p₂ p' : Proc} {mem : Pa} {page : Page} {pt : PageTable} (freed : Freed m p m₁ p₁)
      (load : Load m₁ p₁ i va src m₂ mem m₃ p₂ page pt m' p') : FaultLoad m p i va src m' p' true

/-- `kalloc`, or `evict_page_fifo` and `kalloc`. -/
theorem kallocEvict_cases {r : Option Pa} (h : kallocEvict m p = .ok (m', p', r)) :
    (r = none ∧ m.freelist = [] ∧ ∃ p₁, EvictFail m p m' p₁ ∧ p' = p₁.kill) ∨
    ∃ mem m₁, r = some mem ∧ Freed m p m₁ p' ∧ kalloc m₁ = some (m', mem) := by
  unfold kallocEvict at h
  cases hk : kalloc m with
  | some x =>
    obtain ⟨m₁, mem⟩ := x
    simp only [hk, Except.ok.injEq, Prod.mk.injEq] at h
    obtain ⟨rfl, rfl, rfl⟩ := h
    exact Or.inr ⟨mem, m, rfl, .free (fun hn => by simp [kalloc_eq_none_iff.mpr hn] at hk), hk⟩
  | none =>
    have hempty := kalloc_eq_none_iff.mp hk
    simp only [hk] at h
    obtain ⟨⟨m₁, p₁, b⟩, he, h⟩ := bind_ok h
    have hfreed : ∀ pa m₀, kfree m₀ pa = .ok m₁ → kalloc m₁ ≠ none := fun pa m₀ hf hn => by
      rw [kalloc_eq_none_iff, kfree_ok hf] at hn
      nomatch hn
    have hgo : Freed m p m₁ p₁ → b = true → kalloc m₁ ≠ none →
        ∃ mem m₁, r = some mem ∧ Freed m p m₁ p' ∧ kalloc m₁ = some (m', mem) := by
      rintro hF rfl hne
      cases hk₁ : kalloc m₁ with
      | none => exact absurd hk₁ hne
      | some y =>
        obtain ⟨m₂, mem⟩ := y
        simp only [hk₁, Except.ok.injEq, Prod.mk.injEq] at h
        obtain ⟨rfl, rfl, rfl⟩ := h
        exact ⟨mem, m₁, rfl, hF, hk₁⟩
    rcases evictPageFifo_cases he with ⟨hb, i, e, pte, hx⟩ | ⟨hb, i, e, pte, slot, f, m₃, m₄, hx⟩ | ⟨rfl, hx⟩
    · exact Or.inr (hgo (.clean hempty hx) hb (hfreed _ _ hx.freed))
    · exact Or.inr (hgo (.dirty hempty hx) hb (hfreed _ _ hx.freed))
    · simp only [Except.ok.injEq, Prod.mk.injEq] at h
      obtain ⟨rfl, rfl, rfl⟩ := h
      exact Or.inl ⟨rfl, hempty, p₁, hx, rfl⟩

/-- `faultMap` after the contents were fetched. -/
theorem faultMap_cases {m₀ m₁ m₂ : Machine} {p₀ p₁ p₂ : Proc} {src : Source} {mem : Pa} {page : Page} {r : Bool}
    (hfreed : Freed m₀ p₀ m p) (hk : kalloc m = some (m₁, mem)) (hf : Fetched m₁ p i va src m₂ p₂ page)
    (h : faultMap (m₂.fill mem page) p₂ i va mem (src.perm p va) = .ok (m', p₁, r)) : FaultLoad m₀ p₀ i va src m' p₁ r := by
  obtain ⟨⟨m₃, pt, b⟩, hm, h⟩ := bind_ok h
  cases b with
  | false =>
    obtain ⟨m₄, hkf, h⟩ := bind_ok h
    simp only [Except.ok.injEq, Prod.mk.injEq] at h
    obtain ⟨rfl, rfl, rfl⟩ := h
    exact .fail hfreed (.map hk hf hm hkf)
  | true =>
    simp only [Except.ok.injEq, Prod.mk.injEq] at h
    obtain ⟨rfl, rfl, rfl⟩ := h
    exact .load hfreed ⟨hk, hf, hm, rfl⟩

theorem faultZero_cases {r : Bool} (h : faultZero m p i va = .ok (m', p', r)) : FaultLoad m p i va .zero m' p' r := by
  obtain ⟨⟨m₁, p₁, o⟩, hk, h⟩ := bind_ok h
  rcases kallocEvict_cases hk with ⟨rfl, hempty, p₂, hfail, rfl⟩ | ⟨mem, m₂, rfl, hfreed, hka⟩
  · simp only [Except.ok.injEq, Prod.mk.injEq] at h
    obtain ⟨rfl, rfl, rfl⟩ := h
    exact .noPage hempty hfail
  · exact faultMap_cases hfreed hka .zero h

theorem faultExec_cases {r : Bool} (h : faultExec m p i va = .ok (m', p', r)) : FaultLoad m p i va .exec m' p' r := by
  obtain ⟨⟨m₁, p₁, o⟩, hk, h⟩ := bind_ok h
  rcases kallocEvict_cases hk with ⟨rfl, hempty, p₂, hfail, rfl⟩ | ⟨mem, m₂, rfl, hfreed, hka⟩
  · simp only [Except.ok.injEq, Prod.mk.injEq] at h
    obtain ⟨rfl, rfl, rfl⟩ := h
    exact .noPage hempty hfail
  · simp only at h
    split at h
    · rename_i hr
      obtain ⟨fs, hl, h⟩ := bind_ok h
      exact faultMap_cases hfreed hka (.execRead hr hl) h
    · rename_i hr
      exact faultMap_cases hfreed hka (.exec (by simpa using hr)) h

theorem faultSwap_cases {r : Bool} (h : faultSwap m p i va = .ok (m', p', r)) : FaultLoad m p i va .swap m' p' r := by
  obtain ⟨⟨m₁, p₁, o⟩, hk, h⟩ := bind_ok h
  rcases kallocEvict_cases hk with ⟨rfl, hempty, p₂, hfail, rfl⟩ | ⟨mem, m₂, rfl, hfreed, hka⟩
  · simp only [Except.ok.injEq, Prod.mk.injEq] at h
    obtain ⟨rfl, rfl, rfl⟩ := h
    exact .noPage hempty hfail
  · simp only at h
    split at h
    · rename_i f e hfile hentry
      obtain ⟨fs, hl, h⟩ := bind_ok h
      split at h
      · rename_i hread
        obtain ⟨m₃, hkf, h⟩ := bind_ok h
        simp only [Except.ok.injEq, Prod.mk.injEq] at h
        obtain ⟨rfl, rfl, rfl⟩ := h
        exact .fail hfreed (.read hka rfl hfile hentry hl hread hkf)
      · rename_i hread
        exact faultMap_cases hfreed hka (.swap hfile hentry hl (not_not.mp hread)) h
    · nomatch h

/-- `handle_page_fault` once the page has entry `i`. -/
theorem faultLoad_cases {r : Bool} (h : faultLoad m p i va = .ok (m', p', r)) :
    ∃ e, p.pages[i]? = some e ∧ FaultLoad m p i va (sourceOf p e va) m' p' r := by
  unfold faultLoad at h
  split at h
  · nomatch h
  rename_i e he
  refine ⟨e, he, ?_⟩
  unfold sourceOf
  split at h
  · rename_i hs
    rw [if_pos hs]
    exact faultSwap_cases h
  · rename_i hs
    rw [if_neg hs]
    split at h
    · rename_i hx
      rw [if_pos hx]
      exact faultExec_cases h
    · rename_i hx
      rw [if_neg hx]
      exact faultZero_cases h

/-! ## Faults -/

/-- The page of a fault has entry `i`, which was there or was added. -/
inductive Tracked (p : Proc) (va : Nat) : Nat → Proc → Prop where
  | old {i : Nat} (h : findPageInfo p va = some i) : Tracked p va i p
  | new (h : findPageInfo p va = none) (room : p.pages.length < maxPages) :
      Tracked p va p.pages.length { p with pages := p.pages ++ [⟨pgRoundDown va, .unmapped, false, 0, -1⟩] }

/-- A new entry is no victim. -/
theorem victimIdx_track (pages : List PageInfo) (a : Nat) : victimIdx (pages ++ [⟨a, .unmapped, false, 0, -1⟩]) = victimIdx pages := by
  have hloop : ∀ (es : List PageInfo) (i : Nat) (best : Option Nat) (low : Int),
      victimLoop (es ++ [⟨a, .unmapped, false, 0, -1⟩]) i best low = victimLoop es i best low := by
    intro es
    induction es with
    | nil => simp [victimLoop]
    | cons e es ih =>
      intro i best low
      simp only [List.cons_append, victimLoop, ih]
  exact hloop pages 0 none intMax

theorem Tracked.victim {p p₀ : Proc} {va i j : Nat} {x : PageInfo} {pte : Pte} (h : Tracked p va i p₀) :
    Victim p₀ j x pte ↔ Victim p j x pte := by
  cases h with
  | old => exact Iff.rfl
  | new =>
    have hentry : ∀ {j : Nat}, victimIdx p.pages = some j →
        (p.pages ++ [(⟨pgRoundDown va, .unmapped, false, 0, -1⟩ : PageInfo)])[j]? = p.pages[j]? := by
      intro j hj
      obtain ⟨e, he, -⟩ := victimIdx_some hj
      exact List.getElem?_append_left (List.getElem?_eq_some_iff.mp he).1
    constructor
    · rintro ⟨hidx, he, hleaf⟩
      have hidx' : victimIdx p.pages = some j := (victimIdx_track _ _).symm.trans hidx
      exact ⟨hidx', (hentry hidx').symm.trans he, hleaf⟩
    · rintro ⟨hidx, he, hleaf⟩
      exact ⟨(victimIdx_track _ _).trans hidx, (hentry hidx).trans he, hleaf⟩

/-- What `findPageInfo` finds is an entry with the page's address. -/
theorem findPageInfo_some (h : findPageInfo p va = some i) : ∃ e, p.pages[i]? = some e ∧ e.va = pgRoundDown va := by
  unfold findPageInfo at h
  rw [List.findIdx?_eq_some_iff_getElem] at h
  obtain ⟨hlt, hp, -⟩ := h
  exact ⟨p.pages[i], List.getElem?_eq_getElem hlt, by simpa using hp⟩

theorem findPageInfo_none (h : findPageInfo p va = none) {e : PageInfo} (he : e ∈ p.pages) : e.va ≠ pgRoundDown va := by
  unfold findPageInfo at h
  rw [List.findIdx?_eq_none_iff] at h
  simpa using h e he

/-- Where no page is tracked twice, an address has one entry. -/
theorem entry_unique {j : Nat} {e x : PageInfo} (hn : (p.pages.map PageInfo.va).Nodup) (he : p.pages[i]? = some e)
    (hx : p.pages[j]? = some x) (hva : e.va = x.va) : i = j := by
  have hi : (p.pages.map PageInfo.va)[i]? = some e.va := by rw [List.getElem?_map, he]; rfl
  have hj : (p.pages.map PageInfo.va)[j]? = some e.va := by rw [List.getElem?_map, hx, hva]; rfl
  obtain ⟨hlt, -⟩ := List.getElem?_eq_some_iff.mp hi
  exact (List.getElem?_inj hlt hn).mp (hi.trans hj.symm)

/-- The first write to a page of the process is granted. -/
structure FirstWrite (p : Proc) (va i : Nat) (e : PageInfo) (pte : Pte) : Prop where
  lt : va < maxVa
  leaf : p.pagetable.leaf (va / 4096) = some pte
  user : pte.perm.u = true
  text : ¬inText p va
  found : findPageInfo p va = some i
  entry : p.pages[i]? = some e
  resident : e.state = .resident
  clean : e.isDirty = false

/-- A fault for page `va` that gets to load it has passed these tests. -/
structure FaultPasses (p : Proc) (va : Nat) (access : Access) : Prop where
  lt : va < maxVa
  user : ∀ pte, p.pagetable.leaf (va / 4096) = some pte → pte.perm.u = true
  valid : faultValid p va
  text : ¬(faultText p va ∧ access = .write)

/-- Every way a fault at page `va` can go. -/
inductive Faulted (m : Machine) (p : Proc) (va : Nat) (access : Access) : Machine → Proc → Bool → Prop where
  | refused : Faulted m p va access m p false
  | killed : Faulted m p va access m p.kill false
  | firstWrite {i : Nat} {e : PageInfo} {pte : Pte} (acc : access = .write) (h : FirstWrite p va i e pte) :
      Faulted m p va access m (firstWrite p i va) true
  | load {i : Nat} {e : PageInfo} {m' : Machine} {p₁ p' : Proc} {r : Bool} (passes : FaultPasses p va access)
      (tracked : Tracked p va i p₁) (entry : p₁.pages[i]? = some e) (load : FaultLoad m p₁ i va (sourceOf p₁ e va) m' p' r) :
      Faulted m p va access m' p' r

theorem refuse_faulted {access : Access} (fromUser : Bool) : Faulted m p va access m (refuse p fromUser) false := by
  unfold refuse
  split
  · exact .killed
  · exact .refused

/-- `handle_page_fault` after the special cases of a mapped page. -/
theorem faultUnmapped_cases {access : Access} {fromUser r : Bool} (hlt : va < maxVa)
    (hu : ∀ pte, p.pagetable.leaf (va / 4096) = some pte → pte.perm.u = true)
    (h : faultUnmapped m p va access fromUser = .ok (m', p', r)) : Faulted m p va access m' p' r := by
  unfold faultUnmapped at h
  split at h
  · simp only [Except.ok.injEq, Prod.mk.injEq] at h
    obtain ⟨rfl, rfl, rfl⟩ := h
    exact refuse_faulted fromUser
  rename_i hvalid
  split at h
  · simp only [Except.ok.injEq, Prod.mk.injEq] at h
    obtain ⟨rfl, rfl, rfl⟩ := h
    exact refuse_faulted fromUser
  rename_i htext
  have hpass : FaultPasses p va access := ⟨hlt, hu, not_not.mp hvalid, htext⟩
  split at h
  · rename_i i hfind
    obtain ⟨e, he, hl⟩ := faultLoad_cases h
    exact .load hpass (.old hfind) he hl
  · rename_i hfind
    unfold addPageInfo at h
    split at h
    · simp only [Except.ok.injEq, Prod.mk.injEq] at h
      obtain ⟨rfl, rfl, rfl⟩ := h
      exact .killed
    · rename_i p₁ i hadd
      split at hadd
      · nomatch hadd
      rename_i hroom
      simp only [hfind, Option.some.injEq, Prod.mk.injEq] at hadd
      obtain ⟨rfl, rfl⟩ := hadd
      obtain ⟨e, he, hl⟩ := faultLoad_cases h
      exact .load hpass (.new hfind (Nat.not_le.mp hroom)) he hl

/-- `handle_page_fault`. -/
theorem handlePageFault_cases {addr : Nat} {access : Access} {fromUser r : Bool}
    (h : handlePageFault m p addr access fromUser = .ok (m', p', r)) : Faulted m p (pgRoundDown addr) access m' p' r := by
  unfold handlePageFault at h
  simp only at h
  split at h
  · simp only [Except.ok.injEq, Prod.mk.injEq] at h
    obtain ⟨rfl, rfl, rfl⟩ := h
    exact refuse_faulted fromUser
  rename_i hlt
  have hlt : pgRoundDown addr < maxVa := Nat.not_le.mp hlt
  obtain ⟨o, hl, h⟩ := bind_ok h
  unfold lookup at hl
  rw [if_neg (Nat.not_le.mpr hlt)] at hl
  obtain rfl := Except.ok.inj hl
  cases hleaf : p.pagetable.leaf (pgRoundDown addr / 4096) with
  | none =>
    simp only [hleaf] at h
    exact faultUnmapped_cases hlt (fun pte hp => by rw [hleaf] at hp; nomatch hp) h
  | some pte =>
    simp only [hleaf] at h
    split at h
    · simp only [Except.ok.injEq, Prod.mk.injEq] at h
      obtain ⟨rfl, rfl, rfl⟩ := h
      exact refuse_faulted fromUser
    rename_i hu
    have hu : pte.perm.u = true := not_not.mp hu
    have huser : ∀ pte', p.pagetable.leaf (pgRoundDown addr / 4096) = some pte' → pte'.perm.u = true := fun pte' hp => by
      rw [hleaf] at hp
      exact Option.some.inj hp ▸ hu
    split at h
    · rename_i hacc
      rw [hacc]
      unfold faultWrite at h
      split at h
      · simp only [Except.ok.injEq, Prod.mk.injEq] at h
        obtain ⟨rfl, rfl, rfl⟩ := h
        exact refuse_faulted fromUser
      rename_i htext
      split at h
      · exact faultUnmapped_cases hlt huser h
      · rename_i i hfind
        obtain ⟨e, he, -⟩ := findPageInfo_some hfind
        simp only [he] at h
        split at h
        · rename_i hc
          simp only [Except.ok.injEq, Prod.mk.injEq] at h
          obtain ⟨rfl, rfl, rfl⟩ := h
          exact .firstWrite rfl ⟨hlt, hleaf, hu, htext, hfind, he, hc.1, by simpa using hc.2⟩
        · exact faultUnmapped_cases hlt huser h
    · exact faultUnmapped_cases hlt huser h

end Xv6SnifferBakery.Kernel
