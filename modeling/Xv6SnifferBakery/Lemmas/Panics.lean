import Xv6SnifferBakery.Lemmas.Tables

/-!
# Panics of the page table functions

`walk` panics above `MAXVA` and `mappages` on a page that is mapped. These lemmas say when the functions on top of them do not: as
long as the pages they go through lie below the top of the address space, and those they map are free.
-/

namespace Xv6SnifferBakery.Kernel

open Lib

/-- The panics of `walk`, `mappages` and `uvmunmap`. -/
def Panic.ofTable : Panic → Prop
  | .walk | .mappagesNotAligned | .mappagesSize | .mappagesRemap | .uvmunmapNotAligned => True
  | _ => False

/-- A computation without a panic of the page table functions. -/
abbrev TableSafe {α : Type} (x : Kern α) : Prop := Avoids Panic.ofTable x

variable {m : Machine} {pt : PageTable} {va : Nat}

theorem kfree_safe (m : Machine) (pa : Pa) : TableSafe (kfree m pa) := by
  unfold kfree
  refine Avoids.ite (fun _ => Avoids.error id) (fun _ => Avoids.ok _)

theorem lookup_safe (h : va < maxVa) : TableSafe (lookup pt va) := by
  unfold lookup
  rw [if_neg (Nat.not_le.mpr h)]
  exact Avoids.ok _

theorem walk_safe (h : va < maxVa) (alloc : Bool) : TableSafe (walk m pt va alloc) := by
  unfold walk
  rw [if_neg (Nat.not_le.mpr h)]
  split
  · exact Avoids.ok _
  · simp only
    split <;> exact Avoids.ok _

theorem unmapPage_safe (h : va < maxVa) (doFree : Bool) : TableSafe (unmapPage doFree m pt va) := by
  refine (lookup_safe h).bind ?_
  intro o _
  cases o with
  | none => exact Avoids.ok _
  | some pte => exact Avoids.ite (fun _ => (kfree_safe _ _).bind (fun _ _ => Avoids.ok _)) (fun _ => Avoids.ok _)

/-- `uvmunmap` of pages below `MAXVA`. -/
theorem uvmunmap_safe {n : Nat} (hal : va % 4096 = 0) (h : va + n * 4096 ≤ maxVa) (doFree : Bool) :
    TableSafe (uvmunmap m pt va n doFree) := by
  unfold uvmunmap
  rw [if_neg (by unfold pgSize; omega)]
  refine Avoids.forFrom (fun _ _ => True) trivial ?_ (fun _ _ _ _ _ _ _ => trivial)
  intro i t _ hi _
  refine unmapPage_safe ?_ doFree
  unfold pgSize
  omega

/-- `mappages` of one page that is free. -/
theorem mappages_safe {pa : Pa} {perm : Perm} (hal : va % 4096 = 0) (h : va < maxVa) (hfree : pt.leaf (va / 4096) = none) :
    TableSafe (mappages m pt va pgSize pa perm) := by
  unfold mappages
  rw [if_neg (by unfold pgSize; omega), if_neg (by decide), if_neg (by decide), show pgSize / pgSize = 0 + 1 from rfl, mappagesLoop]
  refine (walk_safe h true).bind ?_
  rintro ⟨m₁, pt₁, o⟩ hw
  cases o with
  | none => exact Avoids.ok _
  | some v =>
    have hs := walk_spec hw
    have hleaf : pt₁.leaf v = none := by
      rw [(hs.found v rfl).1, hs.leaf, hfree]
    simp only [hleaf, Option.isSome_none, Bool.false_eq_true, if_false, mappagesLoop]
    exact Avoids.ok _

/-! ## Copying -/

/-- The loop of `uvmcopy` below the trapframe page, into a table whose pages from `i` on are free. -/
theorem uvmcopyLoop_safe {old new : PageTable} {n i : Nat} (hal : i % 4096 = 0) (h : i + n * 4096 ≤ trapframeVa)
    (hfree : ∀ v, i / 4096 ≤ v → v < userPages → new.leaf v = none) : TableSafe (uvmcopyLoop old n m new i) := by
  induction n generalizing m new i with
  | zero => exact Avoids.ok _
  | succ n ih =>
    have htop : trapframeVa < maxVa := by decide
    have hnext : ∀ {m' : Machine} {new' : PageTable}, (∀ v, i / 4096 + 1 ≤ v → new'.leaf v = new.leaf v) →
        TableSafe (uvmcopyLoop old n m' new' (i + pgSize)) := by
      intro m' new' hsame
      refine ih (by unfold pgSize; omega) (by unfold pgSize; omega) ?_
      intro v hv hlt
      rw [show (i + pgSize) / 4096 = i / 4096 + 1 by unfold pgSize; omega] at hv
      rw [hsame v hv]
      exact hfree v (by omega) hlt
    rw [uvmcopyLoop]
    refine (lookup_safe (by omega)).bind ?_
    intro o _
    cases o with
    | none => exact hnext (fun _ _ => rfl)
    | some pte =>
      simp only
      split
      · exact Avoids.ok _
      · have hlt : i / 4096 < userPages := by
          rw [trapframeVa_eq] at h
          omega
        refine (mappages_safe hal (by omega) (hfree _ (Nat.le_refl _) hlt)).bind ?_
        rintro ⟨m₂, new₂, b⟩ hm
        cases b with
        | false => exact (kfree_safe _ _).bind (fun _ _ => Avoids.ok _)
        | true =>
          obtain ⟨-, hs⟩ | ⟨hf, -⟩ := mappages_page hm
          · refine hnext ?_
            intro v hv
            rw [hs.leaf, Function.update_of_ne (by omega)]
          · cases hf

/-- `uvmcopy` of a size that is not above the trapframe page, into a new table. -/
theorem uvmcopy_safe {old new : PageTable} {tr tf : Pa} {sz : Nat} (hold : old.Topped) (hnew : FreshTable tr tf new)
    (hsz : sz ≤ trapframeVa) : TableSafe (uvmcopy m old new sz) := by
  have hpages : (sz + 4095) / pgSize * 4096 ≤ trapframeVa := by
    rw [trapframeVa_eq] at hsz ⊢
    unfold pgSize
    omega
  refine (uvmcopyLoop_safe (Nat.zero_mod _) (by omega) ?_).bind ?_
  · intro v _ hlt
    exact hnew.rest v (by omega) (by omega)
  · rintro ⟨m₁, new₁, o⟩ hl
    cases o with
    | none => exact Avoids.ok _
    | some j =>
      have hj : j / 4096 ≤ userPages := by
        obtain ⟨hn, -⟩ | ⟨k, hk, hc⟩ := uvmcopyLoop_spec hnew.topped hl (by simpa using Copies.refl old m new) rfl
        · nomatch hn
        · obtain rfl := Option.some.inj hk
          exact hc.le_userPages hold hnew.topped
      refine (uvmunmap_safe (Nat.zero_mod _) ?_ true).bind (fun _ _ => Avoids.ok _)
      have htop : userPages * 4096 ≤ maxVa := by
        rw [← trapframeVa_eq]
        decide
      rw [Nat.zero_add]
      exact (Nat.mul_le_mul_right 4096 hj).trans htop

/-! ## Freeing -/

theorem freewalk_safe (m : Machine) (pt : PageTable) : TableSafe (freewalk m pt) := by
  have hleaf : ∀ v m, TableSafe (freeLeaf pt v m) := by
    intro v m
    unfold freeLeaf
    split
    · exact Avoids.ok _
    · exact kfree_safe _ _
  have hlow : ∀ k m, TableSafe (freeLow pt k m) := by
    intro k m
    unfold freeLow
    split
    · exact Avoids.ok _
    · refine (Avoids.forFrom (fun _ _ => True) trivial ?_ (fun _ _ _ _ _ _ _ => trivial)).bind (fun _ _ => kfree_safe _ _)
      intro j t _ _ _
      exact hleaf _ t
  have hmid : ∀ i m, TableSafe (freeMid pt i m) := by
    intro i m
    unfold freeMid
    split
    · exact Avoids.ok _
    · refine (Avoids.forFrom (fun _ _ => True) trivial ?_ (fun _ _ _ _ _ _ _ => trivial)).bind (fun _ _ => kfree_safe _ _)
      intro j t _ _ _
      exact hlow _ t
  unfold freewalk
  split
  · exact Avoids.ok _
  · refine (Avoids.forFrom (fun _ _ => True) trivial ?_ (fun _ _ _ _ _ _ _ => trivial)).bind (fun _ _ => kfree_safe _ _)
    intro j t _ _ _
    exact hmid _ t

/-- `uvmfree` of a size that is not above `MAXVA`. -/
theorem uvmfree_safe {sz : Nat} (h : pgRoundUp sz ≤ maxVa) : TableSafe (uvmfree m pt sz) := by
  unfold uvmfree
  refine Avoids.ite (fun _ => Avoids.bind (uvmunmap_safe (Nat.zero_mod _) ?_ true) (fun _ _ => freewalk_safe _ _))
    (fun _ => freewalk_safe _ _)
  unfold pgSize
  omega

/-- `proc_freepagetable` of such a size. -/
theorem procFreepagetable_safe {sz st : Nat} (h : pgRoundUp sz ≤ maxVa) (hst : st = 0 ∨ StackTop st) :
    TableSafe (procFreepagetable m pt sz st) := by
  unfold procFreepagetable
  refine (uvmunmap_safe (by decide) (by decide) false).bind (fun _ _ => ?_)
  refine (uvmunmap_safe (by decide) (by decide) false).bind (fun _ _ => ?_)
  refine Avoids.bind ?_ (fun _ _ => uvmfree_safe h)
  refine Avoids.forFrom (fun _ _ => True) trivial ?_ (fun _ _ _ _ _ _ _ => trivial)
  intro i t _ hi _
  have hpage : (guardBase st + i * pgSize) % 4096 = 0 ∧ guardBase st + i * pgSize + 4096 ≤ maxVa := by
    rcases hst with rfl | hst
    · rw [stackPages, if_neg (by omega)] at hi
      omega
    · have hg := guardBase_eq hst
      have htop : trapframeVa ≤ maxVa := by decide
      obtain ⟨h1, h2, h3⟩ := hst
      rw [stackPages, if_pos (by omega), hg, pgSize] at hi
      rw [hg, pgSize]
      omega
  refine (lookup_safe (by omega)).bind ?_
  intro o _
  cases o with
  | none => exact Avoids.ok _
  | some pte => exact uvmunmap_safe hpage.1 (by omega) true

/-! ## The panic of a mapped page -/

/-- A computation that does not end in the panic of `mappages` on a mapped page. -/
abbrev NoRemap {α : Type} (x : Kern α) : Prop := Avoids (· = Panic.mappagesRemap) x

theorem TableSafe.noRemap {α : Type} {x : Kern α} (h : TableSafe x) : NoRemap x := by
  intro e he heq
  exact h e he (heq ▸ trivial)

theorem lookup_noRemap (pt : PageTable) (va : Nat) : NoRemap (lookup pt va) := by
  unfold lookup
  exact Avoids.ite (fun _ => Avoids.error nofun) (fun _ => Avoids.ok _)

theorem uvmunmap_noRemap {pt : PageTable} {n : Nat} {doFree : Bool} : NoRemap (uvmunmap m pt va n doFree) := by
  unfold uvmunmap
  refine Avoids.ite (fun _ => Avoids.error nofun) (fun _ => ?_)
  refine Avoids.forFrom (fun _ _ => True) trivial ?_ (fun _ _ _ _ _ _ _ => trivial)
  intro i t _ _ _
  refine (lookup_noRemap _ _).bind (fun o _ => ?_)
  cases o with
  | none => exact Avoids.ok _
  | some pte => exact Avoids.ite (fun _ => (kfree_safe _ _).noRemap.bind (fun _ _ => Avoids.ok _)) (fun _ => Avoids.ok _)

theorem uvmdealloc_noRemap {stackTop old new : Nat} : NoRemap (uvmdealloc m pt stackTop old new) := by
  unfold uvmdealloc
  refine Avoids.ite (fun _ => Avoids.ok _) (fun _ => Avoids.bind ?_ (fun _ _ => Avoids.ok _))
  refine Avoids.forFrom (fun _ _ => True) trivial ?_ (fun _ _ _ _ _ _ _ => trivial)
  intro i t _ _ _
  exact Avoids.ite (fun _ => Avoids.ok _) (fun _ => uvmunmap_noRemap)

/-- `mappages` of a page that is free comes to an end. -/
theorem mappages_free {pa : Pa} {perm : Perm} (hal : va % 4096 = 0) (h : va < maxVa) (hfree : pt.leaf (va / 4096) = none) :
    ∃ m' pt' r, mappages m pt va pgSize pa perm = .ok (m', pt', r) := by
  have hwalk : ∃ x, walk m pt va true = .ok x := by
    unfold walk
    rw [if_neg (Nat.not_le.mpr h)]
    split
    · exact ⟨_, rfl⟩
    · simp only
      split <;> exact ⟨_, rfl⟩
  obtain ⟨⟨m₁, pt₁, o⟩, hw⟩ := hwalk
  unfold mappages
  rw [if_neg (by unfold pgSize; omega), if_neg (by decide), if_neg (by decide), show pgSize / pgSize = 0 + 1 from rfl, mappagesLoop,
    bind_of_ok hw]
  cases o with
  | none => exact ⟨_, _, _, rfl⟩
  | some v =>
    have hs := walk_spec hw
    have hleaf : pt₁.leaf v = none := by
      rw [(hs.found v rfl).1, hs.leaf, hfree]
    simp only [hleaf, Option.isSome_none, Bool.false_eq_true, if_false, mappagesLoop]
    exact ⟨_, _, _, rfl⟩

/-! ## The file system -/

theorem iget_safe (fs : Fs) (i : Nat) : TableSafe (iget fs i) := by
  unfold iget
  exact Avoids.ite (fun _ => Avoids.ok _) (fun _ => Avoids.ite (fun _ => Avoids.error id) (fun _ => Avoids.ok _))

theorem ilock_safe (fs : Fs) (i : Nat) : TableSafe (ilock fs i) := by
  unfold ilock
  refine Avoids.ite (fun _ => Avoids.error id) (fun _ => Avoids.ite (fun _ => Avoids.ok _) (fun _ => ?_))
  exact Avoids.ite (fun _ => Avoids.error id) (fun _ => Avoids.ok _)

theorem dirlookup_safe (fs : Fs) (dp : Nat) (name : Name) : TableSafe (dirlookup fs dp name) := by
  unfold dirlookup
  refine Avoids.ite (fun _ => Avoids.error id) (fun _ => ?_)
  split
  · exact Avoids.ok _
  · exact (iget_safe _ _).bind (fun _ _ => Avoids.ok _)

theorem namexLoop_safe (parent : Bool) (n : Nat) (fs : Fs) (ip : Nat) (path : List Char) (last : Name) :
    TableSafe (namexLoop parent n fs ip path last) := by
  induction n generalizing fs ip path last with
  | zero => exact Avoids.ok _
  | succ n ih =>
    rw [namexLoop]
    split
    · exact Avoids.ite (fun _ => Avoids.ok _) (fun _ => Avoids.ok _)
    · refine (ilock_safe _ _).bind (fun fs₁ _ => ?_)
      refine Avoids.ite (fun _ => Avoids.ok _) (fun _ => Avoids.ite (fun _ => Avoids.ok _) (fun _ => ?_))
      refine (dirlookup_safe _ _ _).bind ?_
      rintro ⟨fs₂, o⟩ _
      cases o with
      | none => exact Avoids.ok _
      | some x => exact ih _ _ _ _

theorem namex_safe (fs : Fs) (cwd : Nat) (path : List Char) (parent : Bool) : TableSafe (namex fs cwd path parent) := by
  unfold namex
  refine Avoids.ite (fun _ => ?_) (fun _ => namexLoop_safe _ _ _ _ _ _)
  exact (iget_safe _ _).bind (fun _ _ => namexLoop_safe _ _ _ _ _ _)

/-- Looking up a name ends in no panic of the page table functions. -/
theorem namei_safe (fs : Fs) (cwd : Nat) (path : List Char) : TableSafe (namei fs cwd path) :=
  (namex_safe _ _ _ _).bind (fun _ _ => Avoids.ok _)

theorem bmap_safe (fs : Fs) (i bn : Nat) : TableSafe (bmap fs i bn) := by
  unfold bmap
  refine Avoids.ite (fun _ => Avoids.ok _) (fun _ => Avoids.ite (fun _ => ?_) (fun _ => Avoids.error id))
  refine Avoids.ite (fun _ => Avoids.ok _) (fun _ => ?_)
  split <;> exact Avoids.ok _

theorem dirlink_safe (fs : Fs) (dp : Nat) (name : Name) (inum : Nat) : TableSafe (dirlink fs dp name inum) := by
  refine (dirlookup_safe _ _ _).bind ?_
  rintro ⟨fs₁, o⟩ _
  cases o with
  | some x => exact Avoids.ok _
  | none =>
    unfold writeDirent
    refine Avoids.ite (fun _ => Avoids.ok _) (fun _ => (bmap_safe _ _ _).bind ?_)
    rintro ⟨fs₂, got⟩ _
    exact Avoids.ite (fun _ => Avoids.ok _) (fun _ => Avoids.ok _)

theorem createLink_safe (fs : Fs) (dp ip : Nat) (name : Name) (type : FileType) (major minor : Int) :
    TableSafe (createLink fs dp ip name type major minor) := by
  refine (ilock_safe _ _).bind (fun fs₁ _ => Avoids.ite (fun _ => (dirlink_safe _ _ _ _).bind ?_)
    (fun _ => (dirlink_safe _ _ _ _).bind ?_))
  swap
  · rintro ⟨fs₂, b⟩ _
    cases b <;> exact Avoids.ok _
  rintro ⟨fs₂, b⟩ _
  cases b with
  | false => exact Avoids.ok _
  | true =>
    refine (dirlink_safe _ _ _ _).bind ?_
    rintro ⟨fs₃, b⟩ _
    cases b with
    | false => exact Avoids.ok _
    | true =>
      refine (dirlink_safe _ _ _ _).bind ?_
      rintro ⟨fs₄, b⟩ _
      cases b <;> exact Avoids.ok _

/-- Creating a file ends in no panic of the page table functions. -/
theorem create_safe (fs : Fs) (cwd : Nat) (path : List Char) (type : FileType) (major minor : Int) :
    TableSafe (create fs cwd path type major minor) := by
  refine (namex_safe _ _ _ _).bind ?_
  rintro ⟨fs₁, o⟩ _
  rcases o with _ | ⟨dp, name⟩
  · exact Avoids.ok _
  refine (ilock_safe _ _).bind (fun fs₂ _ => (dirlookup_safe _ _ _).bind ?_)
  rintro ⟨fs₃, o⟩ _
  rcases o with _ | ⟨ip, k⟩
  · refine Avoids.bind ?_ ?_
    · unfold ialloc
      split
      · exact Avoids.ok _
      · exact (iget_safe _ _).bind (fun _ _ => Avoids.ok _)
    · rintro ⟨fs₄, o⟩ _
      cases o with
      | none => exact Avoids.ok _
      | some i => exact createLink_safe _ _ _ _ _ _ _
  · refine (ilock_safe _ _).bind (fun fs₄ _ => Avoids.ite (fun _ => Avoids.ok _) (fun _ => Avoids.ok _))

theorem writei_safe (fs : Fs) (i : Nat) (src : Nat → Byte) (off n : Nat) : TableSafe (writei fs i src off n) := by
  have hloop : ∀ (fuel tot : Nat) (fs : Fs), TableSafe (writeiLoop i off n fuel tot fs) := by
    intro fuel
    induction fuel with
    | zero => exact fun _ _ => Avoids.ok _
    | succ fuel ih =>
      intro tot fs
      rw [writeiLoop]
      refine Avoids.ite (fun _ => (bmap_safe _ _ _).bind ?_) (fun _ => Avoids.ok _)
      rintro ⟨fs₁, got⟩ _
      exact Avoids.ite (fun _ => ih _ _) (fun _ => Avoids.ok _)
  unfold writei
  refine Avoids.ite (fun _ => Avoids.ok _) (fun _ => Avoids.ite (fun _ => Avoids.ok _) (fun _ => ?_))
  exact (hloop _ _ _).bind (fun _ _ => Avoids.ok _)

end Xv6SnifferBakery.Kernel
