import Xv6SnifferBakery.Kernel.Machine
import Xv6SnifferBakery.Lib.Pool

/-!
# Page tables

The three-level Sv39 tree of `vm.c` as a value: the page of the root, the pages of the level-1 tables (one for each `PX(2, va)`),
the pages of the level-0 tables (one for each `va >> 21`), and the leaf entries by virtual page number. A table is only ever below
a table: the structure carries that, so a leaf never hangs in the air. `walk`, `mappages` and `uvmunmap` are the source's, page by
page, with the pages they take from `kalloc` and give back to `kfree`.
-/

namespace Xv6SnifferBakery.Kernel

open Lib

/-- The permission bits of an entry (`PTE_R`, `PTE_W`, `PTE_X`, `PTE_U`). -/
structure Perm where
  r : Bool
  w : Bool
  x : Bool
  u : Bool
  deriving DecidableEq, Repr

/-- A valid leaf entry. -/
structure Pte where
  pa : Pa
  perm : Perm
  deriving DecidableEq, Repr

/-- A page table. `none` is an entry without `PTE_V`; a table with `root = none` is the null pointer. -/
@[ext] structure PageTable where
  root : Option Pa
  mid : Nat → Option Pa
  low : Nat → Option Pa
  leaf : Nat → Option Pte
  mid_lt : ∀ i, (mid i).isSome → i < 256
  mid_of_low : ∀ k, (low k).isSome → (mid (k / 512)).isSome
  low_of_leaf : ∀ v, (leaf v).isSome → (low (v / 512)).isSome

namespace PageTable

/-- The null pointer. -/
def null : PageTable where
  root := none
  mid _ := none
  low _ := none
  leaf _ := none
  mid_lt := by simp
  mid_of_low := by simp
  low_of_leaf := by simp

/-- The page number of every mapped address lies below `maxVa`. -/
theorem lt_of_leaf (pt : PageTable) {v : Nat} (h : (pt.leaf v).isSome) : v < 2 ^ 26 := by
  have h1 := pt.mid_lt _ (pt.mid_of_low _ (pt.low_of_leaf v h))
  omega

/-- Write a level-2 entry. -/
def setMid (pt : PageTable) (i : Nat) (pa : Pa) : PageTable :=
  if h : i < 256 then
    { pt with
      mid := Function.update pt.mid i (some pa)
      mid_lt := fun j hj => by
        by_cases hji : j = i
        · exact hji ▸ h
        · rw [Function.update_of_ne hji] at hj
          exact pt.mid_lt j hj
      mid_of_low := fun k hk => by
        by_cases hki : k / 512 = i
        · rw [hki, Function.update_self]
          rfl
        · rw [Function.update_of_ne hki]
          exact pt.mid_of_low k hk }
  else pt

/-- Write a level-1 entry, in a table that is there. -/
def setLow (pt : PageTable) (k : Nat) (pa : Pa) : PageTable :=
  if h : (pt.mid (k / 512)).isSome then
    { pt with
      low := Function.update pt.low k (some pa)
      mid_of_low := fun j hj => by
        by_cases hjk : j = k
        · exact hjk ▸ h
        · rw [Function.update_of_ne hjk] at hj
          exact pt.mid_of_low j hj
      low_of_leaf := fun v hv => by
        by_cases hvk : v / 512 = k
        · rw [hvk, Function.update_self]
          rfl
        · rw [Function.update_of_ne hvk]
          exact pt.low_of_leaf v hv }
  else pt

/-- Write a leaf entry, in a table that is there. -/
def setLeaf (pt : PageTable) (v : Nat) (pte : Pte) : PageTable :=
  if h : (pt.low (v / 512)).isSome then
    { pt with
      leaf := Function.update pt.leaf v (some pte)
      low_of_leaf := fun w hw => by
        by_cases hwv : w = v
        · exact hwv ▸ h
        · rw [Function.update_of_ne hwv] at hw
          exact pt.low_of_leaf w hw }
  else pt

/-- Clear a leaf entry (`*pte = 0`). -/
def clearLeaf (pt : PageTable) (v : Nat) : PageTable :=
  { pt with
    leaf := Function.update pt.leaf v none
    low_of_leaf := fun w hw => by
      by_cases hwv : w = v
      · rw [hwv, Function.update_self] at hw
        nomatch hw
      · rw [Function.update_of_ne hwv] at hw
        exact pt.low_of_leaf w hw }

/-- Change a leaf entry in place. -/
def modLeaf (pt : PageTable) (v : Nat) (f : Pte → Pte) : PageTable :=
  match pt.leaf v with
  | none => pt
  | some pte => pt.setLeaf v (f pte)

section Simp

variable (pt : PageTable) (i v : Nat) (pa : Pa) (pte : Pte)

theorem setMid_mid (h : i < 256) : (pt.setMid i pa).mid = Function.update pt.mid i (some pa) := by simp [setMid, h]
@[simp] theorem setMid_low : (pt.setMid i pa).low = pt.low := by unfold setMid; split <;> rfl
@[simp] theorem setMid_leaf : (pt.setMid i pa).leaf = pt.leaf := by unfold setMid; split <;> rfl
@[simp] theorem setMid_root : (pt.setMid i pa).root = pt.root := by unfold setMid; split <;> rfl
theorem setLow_low (h : (pt.mid (i / 512)).isSome) : (pt.setLow i pa).low = Function.update pt.low i (some pa) := by
  simp [setLow, h]
@[simp] theorem setLow_mid : (pt.setLow i pa).mid = pt.mid := by unfold setLow; split <;> rfl
@[simp] theorem setLow_leaf : (pt.setLow i pa).leaf = pt.leaf := by unfold setLow; split <;> rfl
@[simp] theorem setLow_root : (pt.setLow i pa).root = pt.root := by unfold setLow; split <;> rfl
theorem setLeaf_leaf (h : (pt.low (v / 512)).isSome) : (pt.setLeaf v pte).leaf = Function.update pt.leaf v (some pte) := by
  simp [setLeaf, h]
@[simp] theorem setLeaf_mid : (pt.setLeaf v pte).mid = pt.mid := by unfold setLeaf; split <;> rfl
@[simp] theorem setLeaf_low : (pt.setLeaf v pte).low = pt.low := by unfold setLeaf; split <;> rfl
@[simp] theorem setLeaf_root : (pt.setLeaf v pte).root = pt.root := by unfold setLeaf; split <;> rfl
@[simp] theorem clearLeaf_leaf : (pt.clearLeaf v).leaf = Function.update pt.leaf v none := rfl
@[simp] theorem clearLeaf_mid : (pt.clearLeaf v).mid = pt.mid := rfl
@[simp] theorem clearLeaf_low : (pt.clearLeaf v).low = pt.low := rfl
@[simp] theorem clearLeaf_root : (pt.clearLeaf v).root = pt.root := rfl

/-- Writing an entry that is already there changes nothing. -/
theorem setMid_self (h : pt.mid i = some pa) : pt.setMid i pa = pt := by
  have hi : i < 256 := pt.mid_lt i (by simp [h])
  ext1
  · simp
  · rw [setMid_mid _ _ _ hi, ← h, Function.update_eq_self]
  · simp
  · simp

theorem setLow_self (h : pt.low i = some pa) : pt.setLow i pa = pt := by
  have hi : (pt.mid (i / 512)).isSome := pt.mid_of_low i (by simp [h])
  ext1
  · simp
  · simp
  · rw [setLow_low _ _ _ hi, ← h, Function.update_eq_self]
  · simp

theorem modLeaf_leaf (f : Pte → Pte) (h : pt.leaf v = some pte) :
    (pt.modLeaf v f).leaf = Function.update pt.leaf v (some (f pte)) := by
  unfold modLeaf
  rw [h]
  exact setLeaf_leaf pt v (f pte) (pt.low_of_leaf v (by simp [h]))

theorem modLeaf_leaf_of_ne (f : Pte → Pte) {w : Nat} (hw : w ≠ v) : (pt.modLeaf v f).leaf w = pt.leaf w := by
  unfold modLeaf
  split
  · rfl
  · rename_i pte h
    rw [setLeaf_leaf pt v (f pte) (pt.low_of_leaf v (by simp [h])), Function.update_of_ne hw]

@[simp] theorem modLeaf_mid (f : Pte → Pte) : (pt.modLeaf v f).mid = pt.mid := by unfold modLeaf; split <;> simp
@[simp] theorem modLeaf_low (f : Pte → Pte) : (pt.modLeaf v f).low = pt.low := by unfold modLeaf; split <;> simp
@[simp] theorem modLeaf_root (f : Pte → Pte) : (pt.modLeaf v f).root = pt.root := by unfold modLeaf; split <;> simp

end Simp

end PageTable

/-! ## `walk` -/

/-- One level of `walk`: the table the entry points to, or with `alloc` a new zeroed one. -/
def nextLevel (m : Machine) (pte : Option Pa) (alloc : Bool) : Option (Machine × Pa) :=
  match pte with
  | some pa => some (m, pa)
  | none =>
    if alloc then
      match kalloc m with
      | none => none
      | some (m, pa) => some (m.fill pa (fun _ => 0), pa)
    else none

/-- `walk`: the page number whose leaf entry `va` has, if its level-0 table is there (with `alloc`, once the missing tables have
been made). The level-0 table of `va` is the one of `va >> 21`, that is of `PX(2, va)` and `PX(1, va)`. -/
def walk (m : Machine) (pt : PageTable) (va : Nat) (alloc : Bool) : Kern (Machine × PageTable × Option Nat) :=
  if maxVa ≤ va then .error .walk
  else
    match nextLevel m (pt.mid (va / 2 ^ 30)) alloc with
    | none => .ok (m, pt, none)
    | some (m, mid) =>
      let pt := pt.setMid (va / 2 ^ 30) mid
      match nextLevel m (pt.low (va / 2 ^ 21)) alloc with
      | none => .ok (m, pt, none)
      | some (m, low) => .ok (m, pt.setLow (va / 2 ^ 21) low, some (va / 4096))

/-- The valid leaf entry of an address, as `walk(pagetable, va, 0)` and a test of `PTE_V` find it. -/
def lookup (pt : PageTable) (va : Nat) : Kern (Option Pte) :=
  if maxVa ≤ va then .error .walk else .ok (pt.leaf (va / 4096))

/-- `walkaddr`: the page a user address is mapped to. -/
def walkaddr (pt : PageTable) (va : Nat) : Option Pa :=
  if maxVa ≤ va then none
  else
    match pt.leaf (va / 4096) with
    | none => none
    | some pte => if pte.perm.u then some pte.pa else none

/-- `walk` without `alloc` and a test of the entry are `lookup`: nothing changes, and a missing table is an invalid entry. -/
theorem walk_lookup {m m' : Machine} {pt pt' : PageTable} {va : Nat} {r : Option Nat}
    (h : walk m pt va false = .ok (m', pt', r)) :
    m' = m ∧ pt' = pt ∧ lookup pt va = .ok (r.bind pt.leaf) := by
  unfold walk at h
  split at h
  · nomatch h
  · rename_i hva
    have hlook : lookup pt va = .ok (pt.leaf (va / 4096)) := by simp [lookup, hva]
    have hnone : pt.low (va / 2 ^ 21) = none → pt.leaf (va / 4096) = none := by
      intro hl
      by_contra hne
      have := pt.low_of_leaf (va / 4096) (Option.isSome_iff_ne_none.mpr hne)
      rw [show va / 4096 / 512 = va / 2 ^ 21 by omega, hl] at this
      nomatch this
    cases hm : pt.mid (va / 2 ^ 30) with
    | none =>
      have hl : pt.low (va / 2 ^ 21) = none := by
        by_contra hne
        have := pt.mid_of_low (va / 2 ^ 21) (Option.isSome_iff_ne_none.mpr hne)
        rw [show va / 2 ^ 21 / 512 = va / 2 ^ 30 by omega, hm] at this
        nomatch this
      simp only [hm, nextLevel, Bool.false_eq_true, if_false, Except.ok.injEq, Prod.mk.injEq] at h
      obtain ⟨rfl, rfl, rfl⟩ := h
      exact ⟨rfl, rfl, by rw [hlook, hnone hl]; rfl⟩
    | some mid =>
      cases hl : pt.low (va / 2 ^ 21) with
      | none =>
        simp only [hm, nextLevel, PageTable.setMid_low, hl, Bool.false_eq_true, if_false, Except.ok.injEq,
          Prod.mk.injEq] at h
        obtain ⟨rfl, rfl, rfl⟩ := h
        exact ⟨rfl, PageTable.setMid_self _ _ _ hm, by rw [hlook, hnone hl]; rfl⟩
      | some low =>
        simp only [hm, nextLevel, PageTable.setMid_low, hl, Except.ok.injEq, Prod.mk.injEq] at h
        obtain ⟨rfl, rfl, rfl⟩ := h
        refine ⟨rfl, ?_, hlook⟩
        rw [PageTable.setMid_self _ _ _ hm, PageTable.setLow_self _ _ _ hl]

/-! ## `mappages`, `uvmunmap` -/

/-- The loop of `mappages` over the pages still to map. -/
def mappagesLoop (perm : Perm) : Nat → Machine → PageTable → Nat → Pa → Kern (Machine × PageTable × Bool)
  | 0, m, pt, _, _ => .ok (m, pt, true)
  | n + 1, m, pt, a, pa => do
    match ← walk m pt a true with
    | (m, pt, none) => .ok (m, pt, false)
    | (m, pt, some v) =>
      if (pt.leaf v).isSome then .error .mappagesRemap
      else mappagesLoop perm n m (pt.setLeaf v ⟨pa, perm⟩) (a + pgSize) (pa + pgSize)

/-- `mappages`: map the pages of `[va, va + size)` to the pages from `pa` on. It stops, with what it has mapped, when `walk` gets
no page for a table. -/
def mappages (m : Machine) (pt : PageTable) (va size : Nat) (pa : Pa) (perm : Perm) : Kern (Machine × PageTable × Bool) :=
  if va % pgSize ≠ 0 then .error .mappagesNotAligned
  else if size % pgSize ≠ 0 then .error .mappagesNotAligned
  else if size = 0 then .error .mappagesSize
  else mappagesLoop perm (size / pgSize) m pt va pa

/-- One pass of `uvmunmap`: clear the entry of page `a`, if it is valid, and with `doFree` free its page. -/
def unmapPage (doFree : Bool) (m : Machine) (pt : PageTable) (a : Nat) : Kern (Machine × PageTable) := do
  match ← lookup pt a with
  | none => .ok (m, pt)
  | some pte =>
    if doFree then
      let m ← kfree m pte.pa
      .ok (m, pt.clearLeaf (a / 4096))
    else .ok (m, pt.clearLeaf (a / 4096))

/-- `uvmunmap`: take out the mappings of `npages` pages from `va` on. -/
def uvmunmap (m : Machine) (pt : PageTable) (va npages : Nat) (doFree : Bool) : Kern (Machine × PageTable) :=
  if va % pgSize ≠ 0 then .error .uvmunmapNotAligned
  else forFrom (fun i s => unmapPage doFree s.1 s.2 (va + i * pgSize)) 0 npages (m, pt)

/-- `uvmcreate`: an empty table, if there is a page for it. -/
def uvmcreate (m : Machine) : Option (Machine × PageTable) :=
  match kalloc m with
  | none => none
  | some (m, pa) => some (m.fill pa (fun _ => 0), { PageTable.null with root := some pa })

/-- `uvmclear`: take `PTE_U` from the entry of a page. -/
def uvmclear (pt : PageTable) (va : Nat) : Kern PageTable :=
  if maxVa ≤ va then .error .walk
  else if (pt.low (va / 2 ^ 21)).isNone then .error .uvmclear
  else .ok (pt.modLeaf (va / 4096) (fun pte => { pte with perm := { pte.perm with u := false } }))

end Xv6SnifferBakery.Kernel
