import Mathlib.Tactic.Ring
import Xv6SnifferBakery.Lemmas.Pages

/-!
# What the functions of `vm.c` do

One lemma for each function: which leaves it writes, and that it only moves pages between the free list and the address space.
-/

namespace Xv6SnifferBakery.Kernel

open Lib

variable {m m' : Machine} {pt pt' : PageTable} {va : Nat} {pa : Pa} {perm : Perm}

/-! ## `walk` and `mappages` -/

/-- One level of `walk` is there already, or is a page from the free list. -/
theorem nextLevel_some {pte : Option Pa} (h : nextLevel m pte true = some (m', pa)) :
    (pte = some pa ∧ m' = m) ∨ (pte = none ∧ m.freelist = pa :: m'.freelist ∧ Alloc m m' ∧ Moves m 0 m' {pa}) := by
  unfold nextLevel at h
  split at h
  · simp only [Option.some.injEq, Prod.mk.injEq] at h
    exact Or.inl ⟨by rw [h.2], h.1.symm⟩
  · simp only [if_true] at h
    split at h
    · nomatch h
    · rename_i m₁ q hk
      simp only [Option.some.injEq, Prod.mk.injEq] at h
      obtain ⟨rfl, rfl⟩ := h
      obtain ⟨ha, hq⟩ := kalloc_alloc hk
      exact Or.inr ⟨rfl, (kalloc_some hk).1, ha.fill hq _,
        (kalloc_moves hk).trans (Moves.fill _ (Multiset.mem_singleton_self _))⟩

theorem nextLevel_none {pte : Option Pa} (h : nextLevel m pte true = none) : pte = none ∧ m.freelist = [] := by
  unfold nextLevel at h
  split at h
  · nomatch h
  · simp only [if_true] at h
    split at h
    · rename_i hk
      exact ⟨rfl, kalloc_eq_none_iff.mp hk⟩
    · nomatch h

/-- What `walk` with `alloc` does: it adds the tables that are missing, and changes no leaf. -/
structure WalkSpec (m : Machine) (pt : PageTable) (va : Nat) (m' : Machine) (pt' : PageTable) (r : Option Nat) : Prop where
  lt : va < maxVa
  alloc : Alloc m m'
  moves : Moves m pt.pages m' pt'.pages
  leaf : pt'.leaf = pt.leaf
  root : pt'.root = pt.root
  found : ∀ v, r = some v → v = va / 4096 ∧ (pt'.low (v / 512)).isSome
  few : r = none → m.freelist.length ≤ 1
  taken : m.freelist.length ≤ m'.freelist.length + 2

/-- One level of `walk` added to a table. -/
theorem nextLevel_moves {pte : Option Pa} (set : Pa → PageTable) (h : nextLevel m pte true = some (m', pa))
    (hself : pte = some pa → set pa = pt) (hnew : pte = none → (set pa).pages = pt.pages + {pa}) :
    Alloc m m' ∧ Moves m pt.pages m' (set pa).pages ∧ m.freelist.length ≤ m'.freelist.length + 1 := by
  rcases nextLevel_some h with ⟨hp, rfl⟩ | ⟨hp, hfree, ha, hm⟩
  · rw [hself hp]
    exact ⟨Alloc.refl _, Moves.refl _ _, by omega⟩
  · refine ⟨ha, ?_, by rw [hfree, List.length_cons]⟩
    rw [hnew hp]
    exact (hm.frame pt.pages).congr (zero_add _) (add_comm _ _)

theorem walk_spec {r : Option Nat} (h : walk m pt va true = .ok (m', pt', r)) : WalkSpec m pt va m' pt' r := by
  unfold walk at h
  split at h
  · nomatch h
  rename_i hva
  have hlt : va < maxVa := Nat.not_le.mp hva
  have hi : va / 2 ^ 30 < 256 := by
    unfold maxVa at hlt
    omega
  cases h1 : nextLevel m (pt.mid (va / 2 ^ 30)) true with
  | none =>
    simp only [h1, Except.ok.injEq, Prod.mk.injEq] at h
    obtain ⟨rfl, rfl, rfl⟩ := h
    exact ⟨hlt, Alloc.refl _, Moves.refl _ _, rfl, rfl, by simp, fun _ => by simp [(nextLevel_none h1).2], by omega⟩
  | some x =>
    obtain ⟨m₁, mid⟩ := x
    obtain ⟨ha₁, hm₁, hl₁⟩ := nextLevel_moves (pt.setMid (va / 2 ^ 30)) h1 (PageTable.setMid_self _ _ _)
      (PageTable.pages_setMid hi)
    have hmid : ((pt.setMid (va / 2 ^ 30) mid).mid (va / 2 ^ 21 / 512)).isSome := by
      rw [PageTable.setMid_mid _ _ _ hi, show va / 2 ^ 21 / 512 = va / 2 ^ 30 by omega, Function.update_self]
      rfl
    simp only [h1] at h
    cases h2 : nextLevel m₁ ((pt.setMid (va / 2 ^ 30) mid).low (va / 2 ^ 21)) true with
    | none =>
      simp only [h2, Except.ok.injEq, Prod.mk.injEq] at h
      obtain ⟨rfl, rfl, rfl⟩ := h
      refine ⟨hlt, ha₁, hm₁, by simp, by simp, by simp, fun _ => ?_, by omega⟩
      simpa [(nextLevel_none h2).2] using hl₁
    | some y =>
      obtain ⟨m₂, low⟩ := y
      simp only [h2, Except.ok.injEq, Prod.mk.injEq] at h
      obtain ⟨rfl, rfl, rfl⟩ := h
      obtain ⟨ha₂, hm₂, hl₂⟩ := nextLevel_moves ((pt.setMid (va / 2 ^ 30) mid).setLow (va / 2 ^ 21)) h2
        (PageTable.setLow_self _ _ _) (PageTable.pages_setLow hmid)
      refine ⟨hlt, ha₁.trans ha₂, hm₁.trans hm₂, by simp, by simp, fun v hv => ?_, by simp, by omega⟩
      obtain rfl := Option.some.inj hv
      refine ⟨rfl, ?_⟩
      rw [PageTable.setLow_low _ _ _ hmid, show va / 4096 / 512 = va / 2 ^ 21 by omega, Function.update_self]
      rfl

/-- The frame a new leaf at page `v` adds to what the address space owns. -/
def leafFrame (v : Nat) (pa : Pa) : Multiset Pa := if v < userPages then {pa} else 0

/-- What `mappages` of one page does when it succeeds. -/
structure MapSpec (m : Machine) (pt : PageTable) (va : Nat) (pa : Pa) (perm : Perm) (m' : Machine) (pt' : PageTable) : Prop where
  alloc : Alloc m m'
  moves : Moves m (pt.pages + leafFrame (va / 4096) pa) m' pt'.pages
  free : pt.leaf (va / 4096) = none
  leaf : pt'.leaf = Function.update pt.leaf (va / 4096) (some ⟨pa, perm⟩)
  root : pt'.root = pt.root
  aligned : va % 4096 = 0
  lt : va < maxVa
  taken : m.freelist.length ≤ m'.freelist.length + 2

/-- What `mappages` of one page does when a table page is missing. -/
structure MapFail (m : Machine) (pt : PageTable) (m' : Machine) (pt' : PageTable) : Prop where
  alloc : Alloc m m'
  moves : Moves m pt.pages m' pt'.pages
  leaf : pt'.leaf = pt.leaf
  root : pt'.root = pt.root
  few : m.freelist.length ≤ 1

/-- One page is one pass of the loop. -/
theorem mappages_page {r : Bool} (h : mappages m pt va pgSize pa perm = .ok (m', pt', r)) :
    (r = true ∧ MapSpec m pt va pa perm m' pt') ∨ (r = false ∧ MapFail m pt m' pt') := by
  have hone : pgSize / pgSize = 0 + 1 := rfl
  unfold mappages at h
  split at h
  · nomatch h
  rename_i hal
  rw [if_neg (by decide), if_neg (by decide), hone, mappagesLoop] at h
  obtain ⟨⟨m₁, pt₁, o⟩, hw, h⟩ := bind_ok h
  have hs := walk_spec hw
  cases o with
  | none =>
    simp only [Except.ok.injEq, Prod.mk.injEq] at h
    obtain ⟨rfl, rfl, rfl⟩ := h
    exact Or.inr ⟨rfl, hs.alloc, hs.moves, hs.leaf, hs.root, hs.few rfl⟩
  | some v =>
    obtain ⟨rfl, hlow⟩ := hs.found v rfl
    simp only at h
    split at h
    · nomatch h
    rename_i hnone
    rw [Bool.not_eq_true, Option.isSome_eq_false_iff, Option.isNone_iff_eq_none] at hnone
    simp only [mappagesLoop, Except.ok.injEq, Prod.mk.injEq] at h
    obtain ⟨rfl, rfl, rfl⟩ := h
    refine Or.inl ⟨rfl, hs.alloc, ?_, by rw [← hs.leaf, hnone], ?_, by simp [hs.root], by simpa using hal, hs.lt, hs.taken⟩
    · have hf := hs.moves.frame (leafFrame (va / 4096) pa)
      refine hf.congr rfl ?_
      by_cases hv : va / 4096 < userPages
      · rw [PageTable.pages_setLeaf hv hlow hnone, leafFrame, if_pos hv]
      · rw [PageTable.pages_setLeaf_top (Nat.not_lt.mp hv), leafFrame, if_neg hv, add_zero]
    · rw [PageTable.setLeaf_leaf _ _ _ hlow, hs.leaf]

/-- Where the tables are there, `walk` takes nothing. -/
theorem walk_present (hva : va < maxVa) (hlow : (pt.low (va / 2 ^ 21)).isSome) : walk m pt va true = .ok (m, pt, some (va / 4096)) := by
  obtain ⟨low, hl⟩ := Option.isSome_iff_exists.mp hlow
  obtain ⟨mid, hm⟩ := Option.isSome_iff_exists.mp (pt.mid_of_low _ hlow)
  rw [show va / 2 ^ 21 / 512 = va / 2 ^ 30 by omega] at hm
  unfold walk
  rw [if_neg (Nat.not_le.mpr hva)]
  simp only [hm, nextLevel, PageTable.setMid_self _ _ _ hm, hl, PageTable.setLow_self _ _ _ hl]

/-- Mapping a page fails only where a table is missing. -/
theorem mappages_fail_absent (h : mappages m pt va pgSize pa perm = .ok (m', pt', false)) : pt.low (va / 2 ^ 21) = none := by
  by_contra hne
  have hlow := Option.isSome_iff_ne_none.mpr hne
  unfold mappages at h
  split at h
  · nomatch h
  rw [if_neg (by decide), if_neg (by decide), show pgSize / pgSize = 0 + 1 from rfl, mappagesLoop] at h
  by_cases hva : va < maxVa
  · rw [walk_present hva hlow] at h
    change (if (pt.leaf (va / 4096)).isSome then _ else _) = _ at h
    split at h
    · nomatch h
    · simp [mappagesLoop] at h
  · rw [walk, if_pos (Nat.not_lt.mp hva)] at h
    nomatch h

/-! ## `uvmunmap` -/

/-- What one pass of `uvmunmap` does when it frees: the leaf is cleared, and its frame becomes free. -/
structure UnmapSpec (m : Machine) (pt : PageTable) (va : Nat) (m' : Machine) (pt' : PageTable) : Prop where
  clear : pt' = pt.clearLeaf (va / 4096)
  lt : va < maxVa
  freed : (pt.leaf (va / 4096) = none ∧ m' = m) ∨ ∃ pte, pt.leaf (va / 4096) = some pte ∧ kfree m pte.pa = .ok m'

theorem unmapPage_spec (h : unmapPage true m pt va = .ok (m', pt')) : UnmapSpec m pt va m' pt' := by
  obtain ⟨o, hl, h⟩ := bind_ok h
  unfold lookup at hl
  split at hl
  · nomatch hl
  rename_i hva
  obtain rfl := Except.ok.inj hl
  cases ho : pt.leaf (va / 4096) with
  | none =>
    simp only [ho, Except.ok.injEq, Prod.mk.injEq] at h
    obtain ⟨rfl, rfl⟩ := h
    exact ⟨(PageTable.clearLeaf_self ho).symm, Nat.not_le.mp hva, Or.inl ⟨ho, rfl⟩⟩
  | some pte =>
    simp only [ho, if_true] at h
    obtain ⟨m₁, hk, h⟩ := bind_ok h
    simp only [Except.ok.injEq, Prod.mk.injEq] at h
    obtain ⟨rfl, rfl⟩ := h
    exact ⟨rfl, Nat.not_le.mp hva, Or.inr ⟨pte, ho, hk⟩⟩

/-- Without `doFree`, only the leaf is cleared. -/
theorem unmapPage_keep (h : unmapPage false m pt va = .ok (m', pt')) : m' = m ∧ pt' = pt.clearLeaf (va / 4096) := by
  obtain ⟨o, hl, h⟩ := bind_ok h
  unfold lookup at hl
  split at hl
  · nomatch hl
  obtain rfl := Except.ok.inj hl
  cases ho : pt.leaf (va / 4096) with
  | none =>
    simp only [ho, Except.ok.injEq, Prod.mk.injEq] at h
    obtain ⟨rfl, rfl⟩ := h
    exact ⟨rfl, (PageTable.clearLeaf_self ho).symm⟩
  | some pte =>
    simp only [ho, Bool.false_eq_true, if_false, Except.ok.injEq, Prod.mk.injEq] at h
    obtain ⟨rfl, rfl⟩ := h
    exact ⟨rfl, rfl⟩

/-- Unmapping a user page moves its frame to the free list. -/
theorem UnmapSpec.moves (h : UnmapSpec m pt va m' pt') (htop : userPages ≤ va / 4096 → pt.leaf (va / 4096) = none) :
    Moves m pt.pages m' pt'.pages := by
  rcases h.freed with ⟨hnone, rfl⟩ | ⟨pte, hsome, hk⟩
  · rw [h.clear, PageTable.clearLeaf_self hnone]
    exact Moves.refl _ _
  · have hv : va / 4096 < userPages := by
      by_contra hv
      rw [htop (Nat.not_lt.mp hv)] at hsome
      nomatch hsome
    rw [h.clear]
    exact ((kfree_moves hk).frame _).congr (by rw [add_comm, PageTable.pages_clearLeaf hv hsome]) (zero_add _)

/-- A single page unmapped and freed. -/
theorem uvmunmap_one (h : uvmunmap m pt va 1 true = .ok (m', pt')) : UnmapSpec m pt va m' pt' := by
  unfold uvmunmap at h
  split at h
  · nomatch h
  obtain ⟨⟨m₁, pt₁⟩, hu, h⟩ := bind_ok h
  cases h
  simp only [Nat.zero_mul, Nat.add_zero] at hu
  exact unmapPage_spec hu

theorem uvmunmap_one_keep (h : uvmunmap m pt va 1 false = .ok (m', pt')) : m' = m ∧ pt' = pt.clearLeaf (va / 4096) := by
  unfold uvmunmap at h
  split at h
  · nomatch h
  obtain ⟨⟨m₁, pt₁⟩, hu, h⟩ := bind_ok h
  cases h
  simp only [Nat.zero_mul, Nat.add_zero] at hu
  exact unmapPage_keep hu

/-- What a loop that unmaps and frees pages does: the leaves of the pages in `S` are cleared, the tables stay. -/
structure Unmaps (S : Nat → Prop) (m : Machine) (pt : PageTable) (m' : Machine) (pt' : PageTable) : Prop where
  moves : Moves m pt.pages m' pt'.pages
  root : pt'.root = pt.root
  cleared : ∀ v, S v → pt'.leaf v = none
  kept : ∀ v, ¬S v → pt'.leaf v = pt.leaf v

theorem Unmaps.refl (m : Machine) (pt : PageTable) : Unmaps (fun _ => False) m pt m pt :=
  ⟨Moves.refl _ _, rfl, fun _ h => h.elim, fun _ _ => rfl⟩

theorem Unmaps.congr {S T : Nat → Prop} (h : Unmaps S m pt m' pt') (hST : ∀ v, S v ↔ T v) : Unmaps T m pt m' pt' :=
  (funext fun v => propext (hST v) : S = T) ▸ h

/-- One more page. -/
theorem Unmaps.page {S : Nat → Prop} {m₂ : Machine} {pt₂ : PageTable} (h : Unmaps S m pt m' pt')
    (hu : UnmapSpec m' pt' va m₂ pt₂) (htop : userPages ≤ va / 4096 → pt.leaf (va / 4096) = none) :
    Unmaps (fun v => S v ∨ v = va / 4096) m pt m₂ pt₂ := by
  have htop' : userPages ≤ va / 4096 → pt'.leaf (va / 4096) = none := fun hv => by
    by_cases hS : S (va / 4096)
    · exact h.cleared _ hS
    · rw [h.kept _ hS, htop hv]
  refine ⟨h.moves.trans (hu.moves htop'), by rw [hu.clear, PageTable.clearLeaf_root, h.root], fun v hv => ?_, fun v hv => ?_⟩
  · rw [hu.clear, PageTable.clearLeaf_leaf]
    by_cases he : v = va / 4096
    · rw [he, Function.update_self]
    · rw [Function.update_of_ne he, h.cleared v (hv.resolve_right he)]
  · rw [not_or] at hv
    rw [hu.clear, PageTable.clearLeaf_leaf, Function.update_of_ne hv.2, h.kept v hv.1]

/-- `uvmunmap` of `n` pages with `doFree`. -/
theorem uvmunmap_spec {n : Nat} (h : uvmunmap m pt va n true = .ok (m', pt'))
    (htop : ∀ v, userPages ≤ v → va / 4096 ≤ v → v < va / 4096 + n → pt.leaf v = none) :
    Unmaps (fun v => va / 4096 ≤ v ∧ v < va / 4096 + n) m pt m' pt' := by
  unfold uvmunmap at h
  split at h
  · nomatch h
  rename_i hal
  have hal : va % 4096 = 0 := by simpa using hal
  have hdiv : ∀ i, (va + i * 4096) / 4096 = va / 4096 + i := by
    intro i
    omega
  have := forFrom_inv (fun i s => Unmaps (fun v => va / 4096 ≤ v ∧ v < va / 4096 + i) m pt s.1 s.2) h
    ((Unmaps.refl m pt).congr (fun v => ⟨False.elim, fun hv => by omega⟩)) (fun i s t _ hi hP hb => by
      have hu : UnmapSpec s.1 s.2 (va + i * 4096) t.1 t.2 := unmapPage_spec hb
      exact (hP.page hu (fun hv => htop _ hv (by rw [hdiv]; omega) (by rw [hdiv]; omega))).congr
        (fun v => by rw [hdiv]; omega))
  simpa using this

/-! ## `uvmdealloc` and `uvmalloc` -/

/-- The pages that `uvmdealloc` of the pages from `lo` to `hi` takes out: the guard page and the stack stay. -/
def shrinks (stackTop lo hi v : Nat) : Prop :=
  lo ≤ v ∧ v < hi ∧ ¬(guardBase stackTop ≤ v * 4096 ∧ v * 4096 < stackTop)

/-- `uvmdealloc`. The pages between the sizes lie below the trapframe page, or there is none. -/
theorem uvmdealloc_spec {stackTop old new sz : Nat} (h : uvmdealloc m pt stackTop old new = .ok (m', pt', sz))
    (htop : new < old → ∀ v, userPages ≤ v → v < pgRoundUp old / 4096 → pgRoundUp new / 4096 ≤ v → pt.leaf v = none) :
    sz = min old new ∧
    Unmaps (fun v => new < old ∧ shrinks stackTop (pgRoundUp new / 4096) (pgRoundUp old / 4096) v) m pt m' pt' := by
  unfold uvmdealloc at h
  split at h
  · rename_i hle
    simp only [Except.ok.injEq, Prod.mk.injEq] at h
    obtain ⟨rfl, rfl, rfl⟩ := h
    exact ⟨by omega, (Unmaps.refl m pt).congr (fun v => ⟨False.elim, fun hv => by omega⟩)⟩
  rename_i hlt
  have hlt : new < old := Nat.not_le.mp hlt
  obtain ⟨⟨m₁, pt₁⟩, hl, h⟩ := bind_ok h
  simp only [Except.ok.injEq, Prod.mk.injEq] at h
  obtain ⟨rfl, rfl, rfl⟩ := h
  refine ⟨by omega, ?_⟩
  have hnew := pgRoundUp_mod new
  have hold := pgRoundUp_mod old
  have hdiv : ∀ i, (pgRoundUp new + i * pgSize) / 4096 = pgRoundUp new / 4096 + i := fun i => by
    rw [pgSize]
    omega
  have hmul : ∀ i, (pgRoundUp new / 4096 + i) * 4096 = pgRoundUp new + i * pgSize := fun i => by
    rw [pgSize]
    omega
  have hn : (pgRoundUp old - pgRoundUp new) / pgSize = pgRoundUp old / 4096 - pgRoundUp new / 4096 := by
    rw [pgSize]
    omega
  rw [hn] at hl
  have hrun := forFrom_inv
    (fun i s => Unmaps (shrinks stackTop (pgRoundUp new / 4096) (pgRoundUp new / 4096 + i)) m pt s.1 s.2) hl
    ((Unmaps.refl m pt).congr (fun v => ⟨False.elim, fun hv => absurd hv.2.1 (Nat.not_lt.mpr hv.1)⟩))
    (fun i s t _ hi hP hb => by
      unfold deallocPage at hb
      split at hb
      · rename_i hstack
        obtain rfl := Except.ok.inj hb
        refine hP.congr (fun v => ⟨fun hv => ⟨hv.1, by have := hv.2.1; omega, hv.2.2⟩, fun hv => ⟨hv.1, ?_, hv.2.2⟩⟩)
        -- page `i` itself is in the stack region
        by_contra hge
        have hv' : v = pgRoundUp new / 4096 + i := by
          have := hv.2.1
          omega
        exact hv.2.2 (by rw [hv', hmul]; exact hstack)
      · rename_i hstack
        have hu : UnmapSpec s.1 s.2 (pgRoundUp new + i * pgSize) t.1 t.2 := uvmunmap_one hb
        refine (hP.page hu (fun hv => htop hlt _ hv (by rw [hdiv]; omega) (by rw [hdiv]; omega))).congr (fun v => ?_)
        rw [hdiv]
        constructor
        · rintro (hv | rfl)
          · exact ⟨hv.1, by have := hv.2.1; omega, hv.2.2⟩
          · exact ⟨by omega, by omega, by rw [hmul]; exact hstack⟩
        · intro hv
          by_cases he : v = pgRoundUp new / 4096 + i
          · exact Or.inr he
          · exact Or.inl ⟨hv.1, by have := hv.2.1; omega, hv.2.2⟩)
  refine hrun.congr (fun v => ?_)
  constructor
  · exact fun hv => ⟨hlt, hv.1, by have := hv.1; have := hv.2.1; omega, hv.2.2⟩
  · exact fun hv => ⟨hv.2.1, by have := hv.2.2.1; omega, hv.2.2.2⟩

/-- The trapframe and trampoline pages are mapped. -/
def PageTable.Topped (pt : PageTable) : Prop := (pt.leaf userPages).isSome ∧ (pt.leaf (userPages + 1)).isSome

/-- A page that could be mapped lies below the trapframe page. -/
theorem MapSpec.lt_userPages (h : MapSpec m pt va pa perm m' pt') (ht : pt.Topped) : va / 4096 < userPages := by
  have hlt := h.lt
  have hu := userPages_eq
  unfold maxVa at hlt
  by_contra hge
  have hv : va / 4096 = userPages ∨ va / 4096 = userPages + 1 := by omega
  rcases hv with hv | hv
  · exact absurd ht.1 (by rw [← hv, h.free]; simp)
  · exact absurd ht.2 (by rw [← hv, h.free]; simp)

/-- What `uvmalloc` does to the leaves between the sizes: mapped with all of `R`, `W` and `U`, or as before, or cleared. Every
page it maps was not mapped. -/
structure Grows (lo hi : Nat) (done : Bool) (m : Machine) (pt : PageTable) (m' : Machine) (pt' : PageTable) : Prop where
  moves : Moves m pt.pages m' pt'.pages
  root : pt'.root = pt.root
  outside : ∀ v, ¬(lo ≤ v ∧ v < hi) → pt'.leaf v = pt.leaf v
  inside : ∀ v, lo ≤ v → v < hi → v < userPages ∧ pt.leaf v = none ∧
    ((∃ pa, pt'.leaf v = some ⟨pa, ⟨true, true, false, true⟩⟩) ∨ done = false ∧ pt'.leaf v = none)

theorem Grows.refl {lo : Nat} (m : Machine) (pt : PageTable) : Grows lo lo true m pt m pt :=
  ⟨Moves.refl _ _, rfl, fun _ _ => rfl, fun v h1 h2 => by omega⟩

theorem Grows.topped {lo hi : Nat} {done : Bool} (h : Grows lo hi done m pt m' pt') (ht : pt.Topped) : pt'.Topped := by
  refine ⟨?_, ?_⟩
  · rw [h.outside _ (fun hv => by have := (h.inside _ hv.1 hv.2).1; omega)]
    exact ht.1
  · rw [h.outside _ (fun hv => by have := (h.inside _ hv.1 hv.2).1; omega)]
    exact ht.2

/-- One more page mapped. -/
theorem Grows.map {lo a : Nat} {m₁ m₂ m₃ : Machine} {pt₁ pt₂ : PageTable} (h : Grows lo (a / 4096) true m pt m₁ pt₁)
    (hlo : lo ≤ a / 4096) (ht : pt.Topped) (hk : kalloc m₁ = some (m₂, pa))
    (hs : MapSpec (m₂.fill pa (fun _ => 0)) pt₁ a pa ⟨true, true, false, true⟩ m₃ pt₂) :
    Grows lo (a / 4096 + 1) true m pt m₃ pt₂ := by
  have hlt := hs.lt_userPages (h.topped ht)
  refine ⟨?_, by rw [hs.root, h.root], fun v hv => ?_, fun v h1 h2 => ?_⟩
  · have h2 := ((kalloc_moves hk).trans (Moves.fill (fun _ => 0) (Multiset.mem_singleton_self pa))).frame pt₁.pages
    have h3 := hs.moves
    rw [leafFrame, if_pos hlt] at h3
    exact h.moves.trans ((h2.congr (zero_add _) (add_comm _ _)).trans h3)
  · have hne : v ≠ a / 4096 := fun he => hv (by omega)
    rw [hs.leaf, Function.update_of_ne hne, h.outside v (fun hv' => hv (by omega))]
  · by_cases he : v = a / 4096
    · refine ⟨he ▸ hlt, ?_, Or.inl ⟨pa, by rw [hs.leaf, he, Function.update_self]⟩⟩
      rw [← h.outside v (fun hv => by omega), he, hs.free]
    · obtain ⟨hv, hnone, hin⟩ := h.inside v h1 (by omega)
      refine ⟨hv, hnone, ?_⟩
      rw [hs.leaf, Function.update_of_ne he]
      exact hin

/-- A failed step of `uvmalloc` gives the pages mapped so far back, those of the stack region apart. -/
theorem Grows.undo {lo hi stackTop sz : Nat} {m₁ : Machine} {pt₁ : PageTable} (h : Grows (lo / 4096) (hi / 4096) true m pt m₁ pt₁)
    (hlo : lo % 4096 = 0) (hhi : hi % 4096 = 0) (hd : uvmdealloc m₁ pt₁ stackTop hi lo = .ok (m', pt', sz)) :
    Grows (lo / 4096) (hi / 4096) false m pt m' pt' ∧ (stackTop ≤ lo → pt'.leaf = pt.leaf) := by
  have hround : lo < hi → pgRoundUp lo = lo ∧ pgRoundUp hi = hi := fun hlt => by
    have hin := (h.inside (hi / 4096 - 1) (by omega) (by omega)).1
    rw [userPages_eq] at hin
    exact ⟨pgRoundUp_of_aligned hlo (by omega), pgRoundUp_of_aligned hhi (by omega)⟩
  obtain ⟨-, hu⟩ := uvmdealloc_spec hd (fun hlt v hv h1 h2 => by
    rw [(hround hlt).2] at h1
    rw [(hround hlt).1] at h2
    have := (h.inside v h2 h1).1
    omega)
  replace hu := hu.congr (T := fun v => lo < hi ∧ shrinks stackTop (lo / 4096) (hi / 4096) v) (fun v =>
    and_congr_right (fun hlt => by rw [(hround hlt).1, (hround hlt).2]))
  refine ⟨⟨h.moves.trans hu.moves, by rw [hu.root, h.root], fun v hv => ?_, fun v h1 h2 => ?_⟩, fun hstack => funext fun v => ?_⟩
  · rw [hu.kept v (fun hs => hv ⟨hs.2.1, hs.2.2.1⟩), h.outside v hv]
  · obtain ⟨hv, hnone, hin⟩ := h.inside v h1 h2
    refine ⟨hv, hnone, ?_⟩
    by_cases hs : lo < hi ∧ shrinks stackTop (lo / 4096) (hi / 4096) v
    · exact Or.inr ⟨rfl, hu.cleared v hs⟩
    · rw [hu.kept v hs]
      rcases hin with hin | ⟨hf, -⟩
      · exact Or.inl hin
      · nomatch hf
  · by_cases hin : lo / 4096 ≤ v ∧ v < hi / 4096
    · rw [hu.cleared v ⟨by omega, hin.1, hin.2, by omega⟩, (h.inside v hin.1 hin.2).2.1]
    · rw [hu.kept v (fun hs => hin ⟨hs.2.1, hs.2.2.1⟩), h.outside v hin]

/-- The loop of `uvmalloc`. When it fails above the stack, nothing stays mapped. -/
theorem uvmallocLoop_spec {stackTop lo n a : Nat} {r : Bool} {m₀ : Machine} {pt₀ : PageTable} (hlo : lo % 4096 = 0)
    (ht : pt₀.Topped) (h : uvmallocLoop stackTop lo ⟨true, true, false, true⟩ n m pt a = .ok (m', pt', r))
    (hg : Grows (lo / 4096) (a / 4096) true m₀ pt₀ m pt) (ha : a % 4096 = 0) (hle : lo ≤ a) :
    (∃ hi, a / 4096 ≤ hi ∧ hi ≤ a / 4096 + n ∧ (r = true → hi = a / 4096 + n) ∧ Grows (lo / 4096) hi r m₀ pt₀ m' pt') ∧
    (r = false → stackTop ≤ lo → pt'.leaf = pt₀.leaf) := by
  induction n generalizing m pt a with
  | zero =>
    simp only [uvmallocLoop, Except.ok.injEq, Prod.mk.injEq] at h
    obtain ⟨rfl, rfl, rfl⟩ := h
    exact ⟨⟨a / 4096, by omega, by omega, fun _ => rfl, hg⟩, nofun⟩
  | succ n ih =>
    rw [uvmallocLoop] at h
    split at h
    · obtain ⟨⟨m₁, pt₁, sz⟩, hd, h⟩ := bind_ok h
      simp only [Except.ok.injEq, Prod.mk.injEq] at h
      obtain ⟨rfl, rfl, rfl⟩ := h
      obtain ⟨hg', hsame⟩ := hg.undo hlo ha hd
      exact ⟨⟨a / 4096, by omega, by omega, by simp, hg'⟩, fun _ => hsame⟩
    · rename_i m₁ mem hk
      obtain ⟨⟨m₂, pt₂, o⟩, hm, h⟩ := bind_ok h
      rcases mappages_page hm with ⟨rfl, hs⟩ | ⟨rfl, hs⟩
      · have hg' := hg.map (by omega) ht hk hs
        have hdiv : (a + pgSize) / 4096 = a / 4096 + 1 := by
          rw [pgSize]
          omega
        obtain ⟨⟨hi, h1, h2, h3, h4⟩, hsame⟩ := ih h (by rw [hdiv]; exact hg') (by rw [pgSize]; omega) (by omega)
        exact ⟨⟨hi, by omega, by omega, fun hr => by rw [h3 hr]; omega, h4⟩, hsame⟩
      · obtain ⟨m₃, hf, h⟩ := bind_ok h
        obtain ⟨⟨m₄, pt₄, sz⟩, hd, h⟩ := bind_ok h
        simp only [Except.ok.injEq, Prod.mk.injEq] at h
        obtain ⟨rfl, rfl, rfl⟩ := h
        -- the page in hand goes back before the pages already mapped
        have hback : Moves m pt.pages m₃ pt₂.pages := by
          have h1 := ((kalloc_moves hk).trans (Moves.fill (fun _ => 0) (Multiset.mem_singleton_self mem))).frame pt.pages
          have h2 := (hs.moves.frame {mem}).congr (add_comm _ _) (add_comm _ _)
          have h3 := (kfree_moves hf).frame pt₂.pages
          exact (h1.congr (zero_add _) rfl).trans (h2.trans (h3.congr rfl (zero_add _)))
        have hg' : Grows (lo / 4096) (a / 4096) true m₀ pt₀ m₃ pt₂ :=
          ⟨hg.moves.trans hback, by rw [hs.root, hg.root], fun v hv => by rw [hs.leaf, hg.outside v hv],
            fun v h1 h2 => by rw [hs.leaf]; exact hg.inside v h1 h2⟩
        obtain ⟨hg'', hsame⟩ := hg'.undo hlo ha hd
        exact ⟨⟨a / 4096, by omega, by omega, by simp, hg''⟩, fun _ => hsame⟩

/-- The page number where `uvmalloc` stops. -/
def growEnd (old new : Nat) : Nat := pgRoundUp old / 4096 + (new - pgRoundUp old + 4095) / 4096

/-- `uvmalloc`. -/
theorem uvmalloc_spec {stackTop old new : Nat} {r : Option Nat} (h : uvmalloc m pt stackTop old new = .ok (m', pt', r))
    (ht : pt.Topped) :
    (new < old ∧ r = some old ∧ m' = m ∧ pt' = pt) ∨
    (old ≤ new ∧ ∃ hi, Grows (pgRoundUp old / 4096) hi r.isSome m pt m' pt' ∧
      hi ≤ growEnd old new ∧ (r = none ∨ r = some new ∧ hi = growEnd old new)) := by
  unfold uvmalloc at h
  split at h
  · rename_i hlt
    simp only [Except.ok.injEq, Prod.mk.injEq] at h
    obtain ⟨rfl, rfl, rfl⟩ := h
    exact Or.inl ⟨hlt, rfl, rfl, rfl⟩
  rename_i hle
  obtain ⟨⟨m₁, pt₁, done⟩, hl, h⟩ := bind_ok h
  simp only [Except.ok.injEq, Prod.mk.injEq] at h
  obtain ⟨rfl, rfl, rfl⟩ := h
  refine Or.inr ⟨Nat.not_lt.mp hle, ?_⟩
  obtain ⟨⟨hi, -, h2, h3, h4⟩, -⟩ := uvmallocLoop_spec (pgRoundUp_mod old) ht hl (Grows.refl m pt) (pgRoundUp_mod old)
    (Nat.le_refl _)
  cases done with
  | false => exact ⟨hi, h4, h2, Or.inl rfl⟩
  | true => exact ⟨hi, h4, h2, Or.inr ⟨rfl, h3 rfl⟩⟩

/-- A growth that fails above the stack leaves the mappings. -/
theorem uvmalloc_failed {stackTop old new : Nat} (h : uvmalloc m pt stackTop old new = .ok (m', pt', none)) (ht : pt.Topped)
    (hstack : stackTop ≤ pgRoundUp old) : pt'.leaf = pt.leaf := by
  unfold uvmalloc at h
  split at h
  · nomatch h
  obtain ⟨⟨m₁, pt₁, done⟩, hl, h⟩ := bind_ok h
  simp only [Except.ok.injEq, Prod.mk.injEq] at h
  obtain ⟨rfl, rfl, hr⟩ := h
  have hdone : done = false := by
    cases done with
    | false => rfl
    | true => nomatch hr
  exact (uvmallocLoop_spec (pgRoundUp_mod old) ht hl (Grows.refl m pt) (pgRoundUp_mod old) (Nat.le_refl _)).2 hdone hstack

/-! ## Freeing a table -/

/-- The pages below the level-0 table of `va >> 21 = k`, with the table. -/
def lowPages (pt : PageTable) (k : Nat) : Multiset Pa := content 512 (fun j => pt.frame (k * 512 + j)) + slot (pt.low k)

/-- The pages below the level-1 table of `PX(2, va) = i`, with the table. -/
def midPages (pt : PageTable) (i : Nat) : Multiset Pa :=
  ∑ j ∈ Finset.range 512, lowPages pt (i * 512 + j) + slot (pt.mid i)

theorem freeLeaf_moves {v : Nat} (h : freeLeaf pt v m = .ok m') : Moves m (slot (pt.frame v)) m' 0 := by
  unfold freeLeaf at h
  unfold PageTable.frame
  split at h
  · rename_i hn
    obtain rfl := Except.ok.inj h
    rw [hn]
    exact Moves.refl _ _
  · rename_i pte hs
    rw [hs]
    exact kfree_moves h

/-- A loop that frees the pages of one block after the other. -/
theorem forFrom_moves (block : Nat → Multiset Pa) {body : Nat → Machine → Kern Machine} {n : Nat}
    (h : forFrom body 0 n m = .ok m') (hb : ∀ i m m', body i m = .ok m' → Moves m (block i) m' 0) :
    Moves m (∑ i ∈ Finset.range n, block i) m' 0 := by
  have hinv := forFrom_inv (fun i t => Moves m (∑ j ∈ Finset.range i, block j) t 0) h
    ((Moves.refl m 0).congr (Finset.sum_range_zero _).symm rfl) (fun i t t' _ _ hP ht => by
      have h1 := hP.frame (block i)
      have h2 := hb i t t' ht
      rw [Finset.sum_range_succ]
      exact (h1.congr rfl (zero_add _)).trans h2)
  rwa [Nat.zero_add] at hinv

/-- A missing level-0 table has nothing below it. -/
theorem lowPages_none {k : Nat} (h : pt.low k = none) : lowPages pt k = 0 := by
  have hf : content 512 (fun j => pt.frame (k * 512 + j)) = 0 := content_none (fun j hj => by
    unfold PageTable.frame
    rw [Option.map_eq_none_iff]
    by_contra hne
    have := pt.low_of_leaf _ (Option.isSome_iff_ne_none.mpr hne)
    rw [show (k * 512 + j) / 512 = k by omega, h] at this
    nomatch this)
  rw [lowPages, hf, h]
  rfl

theorem freeLow_moves {k : Nat} (h : freeLow pt k m = .ok m') : Moves m (lowPages pt k) m' 0 := by
  unfold freeLow at h
  split at h
  · rename_i hn
    obtain rfl := Except.ok.inj h
    rw [lowPages_none hn]
    exact Moves.refl _ _
  · rename_i pa hs
    obtain ⟨m₁, hl, h⟩ := bind_ok h
    have h1 := forFrom_moves (fun j => slot (pt.frame (k * 512 + j))) hl (fun j t t' ht => freeLeaf_moves ht)
    rw [lowPages, hs, slot_some]
    exact ((h1.frame {pa}).congr rfl (zero_add _)).trans (kfree_moves h)

/-- A missing level-1 table has nothing below it. -/
theorem midPages_none {i : Nat} (h : pt.mid i = none) : midPages pt i = 0 := by
  have hl : ∑ j ∈ Finset.range 512, lowPages pt (i * 512 + j) = 0 := Finset.sum_eq_zero (fun j hj => by
    refine lowPages_none ?_
    by_contra hne
    have := pt.mid_of_low _ (Option.isSome_iff_ne_none.mpr hne)
    rw [show (i * 512 + j) / 512 = i by have := Finset.mem_range.mp hj; omega, h] at this
    nomatch this)
  rw [midPages, hl, h]
  rfl

theorem freeMid_moves {i : Nat} (h : freeMid pt i m = .ok m') : Moves m (midPages pt i) m' 0 := by
  unfold freeMid at h
  split at h
  · rename_i hn
    obtain rfl := Except.ok.inj h
    rw [midPages_none hn]
    exact Moves.refl _ _
  · rename_i pa hs
    obtain ⟨m₁, hl, h⟩ := bind_ok h
    have h1 := forFrom_moves (fun j => lowPages pt (i * 512 + j)) hl (fun j t t' ht => freeLow_moves ht)
    rw [midPages, hs, slot_some]
    exact ((h1.frame {pa}).congr rfl (zero_add _)).trans (kfree_moves h)

/-- The blocks of a table are its pages, when the trapframe and trampoline leaves are gone. -/
theorem sum_midPages (htop : ∀ v, userPages ≤ v → pt.leaf v = none) :
    ∑ i ∈ Finset.range 512, midPages pt i + slot pt.root = pt.pages := by
  have hlow : ∀ i, ∑ j ∈ Finset.range 512, lowPages pt (i * 512 + j) =
      content (512 * 512) (fun l => pt.frame (i * 512 * 512 + l)) + content 512 (fun j => pt.low (i * 512 + j)) := fun i => by
    rw [← sum_content_blocks 512 512 (fun l => pt.frame (i * 512 * 512 + l)), content, ← Finset.sum_add_distrib]
    refine Finset.sum_congr rfl (fun j _ => congrArg (· + slot (pt.low (i * 512 + j))) (content_congr (fun l _ => ?_)))
    rw [show (i * 512 + j) * 512 + l = i * 512 * 512 + (j * 512 + l) by ring]
  have hmid : ∑ i ∈ Finset.range 512, midPages pt i =
      content (512 * (512 * 512)) pt.frame + content (512 * 512) pt.low + content 512 pt.mid := by
    rw [← sum_content_blocks 512 (512 * 512) pt.frame, ← sum_content_blocks 512 512 pt.low, content,
      ← Finset.sum_add_distrib, ← Finset.sum_add_distrib]
    refine Finset.sum_congr rfl (fun i _ => ?_)
    rw [midPages, hlow, Nat.mul_assoc]
  have hframes : content (512 * (512 * 512)) pt.frame = pt.frames := by
    unfold PageTable.frames content
    symm
    refine Finset.sum_subset (Finset.range_subset_range.mpr (by rw [userPages_eq]; omega)) (fun v _ hv => ?_)
    have hge : userPages ≤ v := by simpa using hv
    rw [PageTable.frame, htop v hge]
    rfl
  rw [hmid, hframes, PageTable.pages, PageTable.tables]
  abel

/-- `freewalk` frees every page of an address space. -/
theorem freewalk_moves (h : freewalk m pt = .ok m') (hroot : pt.root.isSome) (htop : ∀ v, userPages ≤ v → pt.leaf v = none) :
    Moves m pt.pages m' 0 := by
  unfold freewalk at h
  split at h
  · rename_i hn
    rw [hn] at hroot
    nomatch hroot
  · rename_i pa hs
    obtain ⟨m₁, hl, h⟩ := bind_ok h
    have h1 := forFrom_moves (midPages pt) hl (fun i t t' ht => freeMid_moves ht)
    rw [← sum_midPages htop, hs, slot_some]
    exact ((h1.frame {pa}).congr rfl (zero_add _)).trans (kfree_moves h)

/-- `uvmfree`. -/
theorem uvmfree_moves {sz : Nat} (h : uvmfree m pt sz = .ok m') (hroot : pt.root.isSome)
    (htop : ∀ v, userPages ≤ v → pt.leaf v = none) : Moves m pt.pages m' 0 := by
  unfold uvmfree at h
  split at h
  · obtain ⟨⟨m₁, pt₁⟩, hu, h⟩ := bind_ok h
    have hs := uvmunmap_spec hu (fun v hv _ _ => htop v hv)
    refine hs.moves.trans (freewalk_moves h (hs.root ▸ hroot) (fun v hv => ?_))
    by_cases hr : 0 / 4096 ≤ v ∧ v < 0 / 4096 + pgRoundUp sz / pgSize
    · exact hs.cleared v hr
    · rw [hs.kept v hr, htop v hv]
  · exact freewalk_moves h hroot htop

end Xv6SnifferBakery.Kernel
