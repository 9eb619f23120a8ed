import Xv6SnifferBakery.Lemmas.Conservation
import Xv6SnifferBakery.Lemmas.Environment
import Xv6SnifferBakery.Lemmas.Panics

/-!
# Pages that can be freed

`kfree` panics on a page that the allocator does not manage. No such page is ever in a table, so freeing a table fails at most where
`walk` does, and that is when its pages reach beyond the address space.
-/

namespace Xv6SnifferBakery.Kernel

open Lib

variable {m m' : Machine} {pt pt' : PageTable} {bad : Panic → Prop}

/-- A page that `kfree` takes. -/
structure Freeable (kend q : Nat) : Prop where
  aligned : q % 4096 = 0
  low : kend ≤ q
  high : q < physTop

theorem Freeable.kfree {q : Pa} (h : Freeable m.kend q) :
    kfree m q = .ok { m.fill q (fun _ => 1) with freelist := q :: m.freelist } := by
  refine if_neg ?_
  rintro (hal | hlow | hhigh)
  · exact hal h.aligned
  · exact absurd h.low (Nat.not_le.mpr hlow)
  · exact absurd h.high (Nat.not_lt.mpr hhigh)

theorem kfree_avoids {q : Pa} (h : Freeable m.kend q) : Avoids bad (kfree m q) := by
  rw [h.kfree]
  exact Avoids.ok _

theorem kfree_freeable {q : Pa} (h : kfree m q = .ok m') : Freeable m.kend q := by
  unfold kfree at h
  split at h
  · nomatch h
  · rename_i hgood
    rw [not_or, not_or] at hgood
    exact ⟨not_not.mp hgood.1, Nat.not_lt.mp hgood.2.1, Nat.not_le.mp hgood.2.2⟩

/-- Every page the allocator manages can be freed, when the kernel ends below the top of memory. -/
theorem managed_freeable {kend q : Nat} (hk : kend < physTop) (hq : q ∈ managed kend) : Freeable kend q := by
  have hup := pgRoundUp_mod kend
  have hle : kend ≤ pgRoundUp kend := le_pgRoundUp (lt_trans (Nat.add_lt_add_right hk 4095) (by decide))
  obtain ⟨k, hlt, rfl⟩ := List.mem_map.mp hq
  have hlt := List.mem_range.mp hlt
  unfold pgSize at hlt ⊢
  exact ⟨by omega, by omega, by omega⟩

/-! ## Freeing a table -/

/-- A table whose pages can all be freed. -/
structure PageTable.Freeable (m : Machine) (pt : PageTable) : Prop where
  root : ∀ pa, pt.root = some pa → Kernel.Freeable m.kend pa
  mid : ∀ i pa, pt.mid i = some pa → Kernel.Freeable m.kend pa
  low : ∀ k pa, pt.low k = some pa → Kernel.Freeable m.kend pa
  leaf : ∀ v pte, pt.leaf v = some pte → Kernel.Freeable m.kend pte.pa

/-- A table that owns only pages that can be freed, and maps no page beyond the user's. -/
theorem PageTable.Freeable.of_pages (h : ∀ q ∈ pt.pages, Kernel.Freeable m.kend q) (htop : ∀ v, userPages ≤ v → pt.leaf v = none) :
    pt.Freeable m := by
  refine ⟨?_, ?_, ?_, ?_⟩
  · intro pa hpa
    refine h pa ?_
    rw [pages, tables, hpa, slot_some]
    simp
  · intro i pa hpa
    have hi := pt.mid_lt i (by rw [hpa]; rfl)
    refine h pa ?_
    rw [pages, tables, Multiset.mem_add, Multiset.mem_add, Multiset.mem_add, mem_content]
    exact Or.inl (Or.inl (Or.inr ⟨i, by omega, hpa⟩))
  · intro k pa hpa
    have hk := pt.mid_lt _ (pt.mid_of_low k (by rw [hpa]; rfl))
    refine h pa ?_
    rw [pages, tables, Multiset.mem_add, Multiset.mem_add, mem_content]
    exact Or.inl (Or.inr ⟨k, by omega, hpa⟩)
  · intro v pte hv
    by_cases hlt : v < userPages
    · exact h _ (mem_pages_of_leaf hlt hv)
    · rw [htop v (Nat.not_lt.mp hlt)] at hv
      cases hv

/-- A table that has only lost leaves since. -/
structure Shrunk (m : Machine) (pt : PageTable) (m' : Machine) (pt' : PageTable) : Prop where
  kend : m'.kend = m.kend
  root : pt'.root = pt.root
  mid : pt'.mid = pt.mid
  low : pt'.low = pt.low
  leaf : ∀ v pte, pt'.leaf v = some pte → pt.leaf v = some pte

theorem Shrunk.refl (m : Machine) (pt : PageTable) : Shrunk m pt m pt := ⟨rfl, rfl, rfl, rfl, fun _ _ h => h⟩

theorem Shrunk.trans {m₁ m₂ : Machine} {pt₁ pt₂ : PageTable} (h : Shrunk m pt m₁ pt₁) (h' : Shrunk m₁ pt₁ m₂ pt₂) :
    Shrunk m pt m₂ pt₂ :=
  ⟨h'.kend.trans h.kend, h'.root.trans h.root, h'.mid.trans h.mid, h'.low.trans h.low, fun v pte hv => h.leaf v pte (h'.leaf v pte hv)⟩

theorem Shrunk.clear (m : Machine) (pt : PageTable) (v : Nat) : Shrunk m pt m (pt.clearLeaf v) := by
  refine ⟨rfl, rfl, rfl, rfl, ?_⟩
  intro w pte hw
  rw [PageTable.clearLeaf_leaf] at hw
  by_cases he : w = v
  · rw [he, Function.update_self] at hw
    nomatch hw
  · rwa [Function.update_of_ne he] at hw

theorem UnmapSpec.shrunk {va : Nat} (h : UnmapSpec m pt va m' pt') : Shrunk m pt m' pt' := by
  have hkend : m'.kend = m.kend := by
    rcases h.freed with ⟨-, rfl⟩ | ⟨pte, -, hk⟩
    · rfl
    · rw [kfree_ok hk]
      rfl
  obtain ⟨-, h1, h2, h3, h4⟩ := Shrunk.clear m pt (va / 4096)
  rw [h.clear]
  exact ⟨hkend, h1, h2, h3, h4⟩

theorem uvmunmap_shrunk {va n : Nat} (h : uvmunmap m pt va n true = .ok (m', pt')) : Shrunk m pt m' pt' := by
  unfold uvmunmap at h
  split at h
  · nomatch h
  refine forFrom_inv (fun _ s => Shrunk m pt s.1 s.2) h (Shrunk.refl m pt) ?_
  intro i s t _ _ hs hb
  exact hs.trans (unmapPage_spec hb).shrunk

theorem PageTable.Freeable.shrunk (h : pt.Freeable m) (hs : Shrunk m pt m' pt') : pt'.Freeable m' := by
  obtain ⟨hkend, hroot, hmid, hlow, hleaf⟩ := hs
  refine ⟨?_, ?_, ?_, ?_⟩
  · rw [hkend, hroot]
    exact h.root
  · rw [hkend, hmid]
    exact h.mid
  · rw [hkend, hlow]
    exact h.low
  · intro v pte hv
    rw [hkend]
    exact h.leaf v pte (hleaf v pte hv)

theorem lookup_avoids {va : Nat} (hw : ¬bad .walk) : Avoids bad (lookup pt va) := by
  unfold lookup
  exact Avoids.ite (fun _ => Avoids.error hw) (fun _ => Avoids.ok _)

/-- Unmapping a page fails at most as `walk` does. -/
theorem unmapPage_avoids {va : Nat} (hw : ¬bad .walk) (h : pt.Freeable m) : Avoids bad (unmapPage true m pt va) := by
  refine (lookup_avoids hw).bind ?_
  intro o hl
  cases o with
  | none => exact Avoids.ok _
  | some pte =>
    unfold lookup at hl
    split at hl
    · nomatch hl
    · exact (kfree_avoids (h.leaf _ _ (Except.ok.inj hl))).bind (fun _ _ => Avoids.ok _)

theorem unmapPage_keep_avoids {va : Nat} (hw : ¬bad .walk) : Avoids bad (unmapPage false m pt va) := by
  refine (lookup_avoids hw).bind ?_
  intro o _
  cases o with
  | none => exact Avoids.ok _
  | some pte => exact Avoids.ok _

theorem uvmunmap_avoids {va n : Nat} (hw : ¬bad .walk) (hal : va % 4096 = 0) (h : pt.Freeable m) :
    Avoids bad (uvmunmap m pt va n true) := by
  unfold uvmunmap
  rw [if_neg (by unfold pgSize; omega)]
  refine Avoids.forFrom (fun _ s => s.2.Freeable s.1) h ?_ ?_
  · intro i t _ _ ht
    exact unmapPage_avoids hw ht
  · intro i t t' _ _ ht hb
    exact ht.shrunk (unmapPage_spec hb).shrunk

theorem uvmunmap_one_keep_avoids {va : Nat} (hw : ¬bad .walk) (hal : va % 4096 = 0) : Avoids bad (uvmunmap m pt va 1 false) := by
  unfold uvmunmap
  rw [if_neg (by unfold pgSize; omega)]
  refine Avoids.forFrom (fun _ _ => True) trivial ?_ (fun _ _ _ _ _ _ _ => trivial)
  intro i t _ _ _
  exact unmapPage_keep_avoids hw

/-- A loop that frees pages of a table, each of which can be freed. -/
theorem freeLoop_avoids {body : Nat → Machine → Kern Machine} {n : Nat} (hbody : ∀ i m', m'.kend = m.kend → Avoids bad (body i m'))
    (hkend : ∀ i m₁ m₂, body i m₁ = .ok m₂ → m₂.kend = m₁.kend) : Avoids bad (forFrom body 0 n m) := by
  refine Avoids.forFrom (fun _ t => t.kend = m.kend) rfl ?_ ?_
  · intro i t _ _ ht
    exact hbody i t ht
  · intro i t t' _ _ ht hb
    exact (hkend i t t' hb).trans ht

/-- `freewalk` of a table whose pages can all be freed cannot fail. -/
theorem freewalk_avoids (h : pt.Freeable m) : Avoids bad (freewalk m pt) := by
  have hleaf : ∀ v m', m'.kend = m.kend → Avoids bad (freeLeaf pt v m') := by
    intro v m' hk
    unfold freeLeaf
    split
    · exact Avoids.ok _
    · rename_i pte hv
      exact kfree_avoids (hk ▸ h.leaf v pte hv)
  have hlow : ∀ k m', m'.kend = m.kend → Avoids bad (freeLow pt k m') := by
    intro k m' hk
    unfold freeLow
    split
    · exact Avoids.ok _
    · rename_i pa hpa
      refine (freeLoop_avoids (fun j m₁ hm => hleaf _ _ (hm.trans hk)) (fun _ _ _ hb => (freeLeaf_env hb).kend)).bind ?_
      intro m₁ hl
      have hk₁ := ((forFrom_env id hl (fun _ _ _ hb => freeLeaf_env hb)).kend).trans hk
      exact kfree_avoids (hk₁ ▸ h.low k pa hpa)
  have hmid : ∀ i m', m'.kend = m.kend → Avoids bad (freeMid pt i m') := by
    intro i m' hk
    unfold freeMid
    split
    · exact Avoids.ok _
    · rename_i pa hpa
      refine (freeLoop_avoids (fun j m₁ hm => hlow _ _ (hm.trans hk)) (fun _ _ _ hb => (freeLow_env hb).kend)).bind ?_
      intro m₁ hl
      have hk₁ := ((forFrom_env id hl (fun _ _ _ hb => freeLow_env hb)).kend).trans hk
      exact kfree_avoids (hk₁ ▸ h.mid i pa hpa)
  unfold freewalk
  split
  · exact Avoids.ok _
  · rename_i pa hpa
    refine (freeLoop_avoids hmid (fun _ _ _ hb => (freeMid_env hb).kend)).bind ?_
    intro m₁ hl
    have hk₁ := (forFrom_env id hl (fun _ _ _ hb => freeMid_env hb)).kend
    exact kfree_avoids (hk₁ ▸ h.root pa hpa)

/-- `uvmfree` fails at most as `walk` does. -/
theorem uvmfree_avoids {sz : Nat} (hw : ¬bad .walk) (h : pt.Freeable m) : Avoids bad (uvmfree m pt sz) := by
  unfold uvmfree
  refine Avoids.ite (fun _ => Avoids.bind (uvmunmap_avoids hw (Nat.zero_mod _) h) ?_) (fun _ => freewalk_avoids h)
  rintro ⟨m₁, pt₁⟩ hu
  exact freewalk_avoids (h.shrunk (uvmunmap_shrunk hu))

/-- `proc_freepagetable` fails at most as `walk` does. -/
theorem procFreepagetable_avoids {sz st : Nat} (hw : ¬bad .walk) (h : ∀ q ∈ pt.pages, Freeable m.kend q)
    (hst : st = 0 ∨ StackTop st) : Avoids bad (procFreepagetable m pt sz st) := by
  unfold procFreepagetable
  refine (uvmunmap_one_keep_avoids hw (by decide)).bind ?_
  rintro ⟨m₁, pt₁⟩ h1
  obtain ⟨rfl, rfl⟩ := uvmunmap_one_keep h1
  refine (uvmunmap_one_keep_avoids hw (by decide)).bind ?_
  rintro ⟨m₂, pt₂⟩ h2
  obtain ⟨rfl, rfl⟩ := uvmunmap_one_keep h2
  have hfree : ((pt.clearLeaf (trampolineVa / 4096)).clearLeaf (trapframeVa / 4096)).Freeable m₂ := by
    refine PageTable.Freeable.of_pages (m := m₂) ?_ ?_
    · rw [trampolineVa_div, trapframeVa_div, PageTable.pages_clearLeaf_top (le_refl _), PageTable.pages_clearLeaf_top (by omega)]
      exact h
    · intro v hv
      rw [trampolineVa_div, trapframeVa_div, PageTable.clearLeaf_leaf, PageTable.clearLeaf_leaf]
      by_cases h1 : v = userPages
      · rw [h1, Function.update_self]
      by_cases h2 : v = userPages + 1
      · rw [h2, Function.update_of_ne (by omega), Function.update_self]
      rw [Function.update_of_ne h1, Function.update_of_ne h2]
      by_contra hne
      have hlt := pt.lt_of_leaf (Option.isSome_iff_ne_none.mpr hne)
      rw [userPages_eq] at *
      omega
  have hal : ∀ i, i < stackPages st → (guardBase st + i * pgSize) % 4096 = 0 := by
    intro i hi
    rcases hst with rfl | hst
    · rw [stackPages, if_neg (by omega)] at hi
      omega
    · have hg := guardBase_eq hst
      obtain ⟨h1, h2, h3⟩ := hst
      rw [hg]
      unfold pgSize
      omega
  have hpage : ∀ i t, t.2.Freeable t.1 → i < stackPages st → Avoids bad (freeStackPage st i t) := by
    intro i t ht hi
    refine (lookup_avoids hw).bind ?_
    intro o _
    cases o with
    | none => exact Avoids.ok _
    | some pte => exact uvmunmap_avoids hw (hal i hi) ht
  have hkept : ∀ i t t', t.2.Freeable t.1 → freeStackPage st i t = .ok t' → t'.2.Freeable t'.1 := by
    intro i t t' ht hb
    obtain ⟨o, -, hb⟩ := bind_ok hb
    cases o with
    | none =>
      obtain rfl := Except.ok.inj hb
      exact ht
    | some pte => exact ht.shrunk (uvmunmap_shrunk hb)
  refine Avoids.bind (Avoids.forFrom (fun _ t => t.2.Freeable t.1) hfree ?_ ?_) ?_
  · intro i t _ hi ht
    exact hpage i t ht (by omega)
  · intro i t t' _ _ ht hb
    exact hkept i t t' ht hb
  · rintro ⟨m₃, pt₃⟩ h3
    refine uvmfree_avoids hw ?_
    exact forFrom_inv (fun _ t => t.2.Freeable t.1) h3 hfree (fun i t t' _ _ ht hb => hkept i t t' ht hb)

/-! ## Freeing that succeeds -/

theorem unmapPage_lt {doFree : Bool} {va : Nat} (h : unmapPage doFree m pt va = .ok (m', pt')) : va < maxVa := by
  obtain ⟨o, hl, -⟩ := bind_ok h
  unfold lookup at hl
  split at hl
  · nomatch hl
  · rename_i hva
    exact Nat.not_le.mp hva

/-- The pages `uvmunmap` goes through lie below the end of the address space. -/
theorem uvmunmap_le {doFree : Bool} {va n : Nat} (h : uvmunmap m pt va n doFree = .ok (m', pt')) :
    n = 0 ∨ va + n * 4096 ≤ maxVa := by
  unfold uvmunmap at h
  split at h
  · nomatch h
  rename_i hal
  have hal : va % 4096 = 0 := not_not.mp hal
  have hend : maxVa = 2 ^ 26 * 4096 := by decide
  have hinv := forFrom_inv (fun i _ => i = 0 ∨ va + i * 4096 ≤ maxVa) h (Or.inl rfl) ?_
  · rwa [Nat.zero_add] at hinv
  · intro i t t' _ _ _ hb
    have hlt : va + i * 4096 < maxVa := unmapPage_lt hb
    exact Or.inr (by omega)

/-- An address space that has been freed lay below the end; the walk came after the pages of `[0, sz)`. -/
theorem uvmfree_cases {sz : Nat} (h : uvmfree m pt sz = .ok m') :
    pgRoundUp sz ≤ maxVa ∧ ∃ m₁ pt₁, Shrunk m pt m₁ pt₁ ∧ freewalk m₁ pt₁ = .ok m' := by
  unfold uvmfree at h
  dsimp only at h
  by_cases hpos : 0 < sz
  · rw [if_pos hpos] at h
    obtain ⟨⟨m₁, pt₁⟩, hu, h⟩ := bind_ok h
    refine ⟨?_, m₁, pt₁, uvmunmap_shrunk hu, h⟩
    have hmod := pgRoundUp_mod sz
    have hle := uvmunmap_le hu
    rw [pgSize] at hle
    omega
  · rw [if_neg hpos] at h
    obtain rfl : sz = 0 := Nat.eq_zero_of_not_pos hpos
    exact ⟨by decide, m, pt, Shrunk.refl m pt, h⟩

/-- A table that has been freed lay below the end of the address space. -/
theorem procFreepagetable_le {sz st : Nat} (h : procFreepagetable m pt sz st = .ok m') : pgRoundUp sz ≤ maxVa := by
  obtain ⟨⟨m₁, pt₁⟩, -, h⟩ := bind_ok h
  obtain ⟨⟨m₂, pt₂⟩, -, h⟩ := bind_ok h
  obtain ⟨⟨m₃, pt₃⟩, -, h⟩ := bind_ok h
  exact (uvmfree_cases h).1

/-- The root of a table that has been freed is a page that can be. -/
theorem procFreepagetable_root {sz st : Nat} {pa : Pa} (h : procFreepagetable m pt sz st = .ok m') (hroot : pt.root = some pa)
    (hst : st = 0 ∨ StackTop st) : Freeable m.kend pa := by
  obtain ⟨⟨m₁, pt₁⟩, h1, h⟩ := bind_ok h
  obtain ⟨rfl, rfl⟩ := uvmunmap_one_keep h1
  obtain ⟨⟨m₂, pt₂⟩, h2, h⟩ := bind_ok h
  obtain ⟨rfl, rfl⟩ := uvmunmap_one_keep h2
  obtain ⟨⟨m₃, pt₃⟩, h3, h⟩ := bind_ok h
  obtain ⟨hm₃, hr₃, -⟩ := freeStack_spec h3 hst
  obtain ⟨-, m₄, pt₄, hs, hw⟩ := uvmfree_cases h
  unfold freewalk at hw
  rw [hs.root, hr₃, PageTable.clearLeaf_root, PageTable.clearLeaf_root, hroot] at hw
  obtain ⟨m₅, hl, hk⟩ := bind_ok hw
  have hkend : m₅.kend = m₄.kend := (forFrom_env id hl (fun _ _ _ hb => freeMid_env hb)).kend
  rw [← hm₃.kend, ← hs.kend, ← hkend]
  exact kfree_freeable hk

/-! ## The end of the kernel -/

/-- The parts of an `exec` that succeeded after the inode was released. -/
theorem execImage_some {p p' : Proc} {path : List Char} {argv : List (List Byte)} {st : Scan} {entry argc : Nat}
    (h : execImage m p path argv st entry pt = .ok (m', p', some argc)) :
    ∃ m₁ pt₁ m₂ p₂ sp, execStack m pt (imageTop st.sz) = .ok (m₁, pt₁, true) ∧
      pushBlock pt₁ (stackBase (imageTop st.sz)) argv m₁ p (imageTop st.sz) = .ok (m₂, p₂, some (sp, argc)) ∧
      procFreepagetable m₂ p₂.pagetable p₂.sz (imageTop st.sz) = .ok m' ∧ p' = p₂.commit path st entry pt₁ sp := by
  obtain ⟨⟨m₁, pt₁, b⟩, hs, h⟩ := bind_ok h
  cases b with
  | false =>
    obtain ⟨m₂, -, h⟩ := bind_ok h
    cases h
  | true =>
    obtain ⟨⟨m₂, p₂, o₂⟩, hb, h⟩ := bind_ok h
    cases o₂ with
    | none =>
      obtain ⟨m₃, -, h⟩ := bind_ok h
      cases h
    | some x =>
      obtain ⟨sp, argc'⟩ := x
      obtain ⟨m₃, hf, h⟩ := bind_ok h
      simp only [Except.ok.injEq, Prod.mk.injEq, Option.some.injEq] at h
      obtain ⟨rfl, rfl, rfl⟩ := h
      exact ⟨m₁, pt₁, m₂, p₂, sp, hs, hb, hf, rfl⟩

/-- The machine when the new table is made: the inode of the file is locked. -/
def Machine.entered (m : Machine) (fs : Fs) : Machine := ((m.reach [.beginOp]).withFs fs).reach [.ilock, .diskRead]

/-- Up to the table of the new image, `exec` of an ELF file. -/
theorem kexec_file {p : Proc} {path : List Char} {argv : List (List Byte)} {fs₀ fs : Fs} {ip : Nat} (h : ExecFile m p path fs₀ fs ip) :
    kexec m p path argv = (procPagetable (m.entered fs) (p.trapframe.getD 0) >>=
      fun r => match r with
        | (m, none) => .ok (m.withFs (iput m.fs ip), p, none)
        | (m, some pt) => execLoad m p path argv ip pt) := by
  unfold kexec
  dsimp only
  rw [Machine.reach_fs, bind_of_ok h.name]
  dsimp only
  rw [bind_of_ok h.lock, if_neg (not_not.mpr h.elf)]
  rfl

/-- An `exec` that succeeded: each of its parts did. -/
structure ExecParts (m : Machine) (p : Proc) (argv : List (List Byte)) (fs : Fs) (ip : Nat) (m' : Machine) (argc : Nat)
    (m₁ : Machine) (pt : PageTable) (m₂ : Machine) (pt₂ : PageTable) (m₃ : Machine) (sp : Nat) : Prop where
  good : (scanFile (fs.inode ip)).2 = true
  table : procPagetable (m.entered fs) (p.trapframe.getD 0) = .ok (m₁, some pt)
  stack : execStack (m₁.withFs (iput (idup fs ip) ip)) pt (imageTop (scanFile (fs.inode ip)).1.sz) = .ok (m₂, pt₂, true)
  args : pushBlock pt₂ (stackBase (imageTop (scanFile (fs.inode ip)).1.sz)) argv m₂
    { p with segments := (scanFile (fs.inode ip)).1.segs, execInode := some ip } (imageTop (scanFile (fs.inode ip)).1.sz) =
    .ok (m₃, { p with segments := (scanFile (fs.inode ip)).1.segs, execInode := some ip }, some (sp, argc))
  freed : procFreepagetable m₃ p.pagetable p.sz (imageTop (scanFile (fs.inode ip)).1.sz) = .ok m'
  kend : m₃.kend = m.kend

theorem kexec_parts {p p' : Proc} {path : List Char} {argv : List (List Byte)} {fs₀ fs : Fs} {ip argc : Nat}
    (hfile : ExecFile m p path fs₀ fs ip) (hargs : ArgsOk argv) (h : kexec m p path argv = .ok (m', p', some argc)) :
    ∃ m₁ pt m₂ pt₂ m₃ sp, ExecParts m p argv fs ip m' argc m₁ pt m₂ pt₂ m₃ sp ∧
      p' = { p with segments := (scanFile (fs.inode ip)).1.segs, execInode := some ip }.commit path (scanFile (fs.inode ip)).1
        (elfHdr (fs.inode ip).data).entry pt₂ sp := by
  rw [kexec_file hfile] at h
  obtain ⟨⟨m₁, o⟩, hp, h⟩ := bind_ok h
  obtain ⟨rfl, -⟩ | ⟨pt, rfl, hm₁, hfresh⟩ := procPagetable_spec hp
  · cases h
  have hfs : m₁.fs = fs := hm₁.fs
  simp only [execLoad, hfs] at h
  split at h
  · rename_i hgood
    obtain ⟨m₂, pt₂, m₃, p₂, sp, hs, hb, hf, rfl⟩ := execImage_some h
    obtain ⟨hm₂, -, himg⟩ := execStack_spec hfresh hs
    obtain ⟨mem, himg⟩ := himg rfl
    obtain ⟨rfl, hw, -⟩ := pushBlock_spec himg hargs hb
    have hkend : m₃.kend = m.kend := by
      rw [(hw.moves himg.mem_pages).kend, hm₂.kend, Machine.withFs_kend, hm₁.kend]
      rfl
    exact ⟨m₁, pt, m₂, pt₂, m₃, sp, ⟨hgood, hp, hs, hb, hf, hkend⟩, rfl⟩
  · obtain ⟨m₂, -, h⟩ := bind_ok h
    cases h

/-- The kernel ends below the top of memory: the first process has freed a page. -/
theorem Boot.kend_lt {s : Sys} (h : Boot s) : s.m.kend < physTop := by
  obtain ⟨s₀, j, m₁, tf, pt, fs, ip, m, p, argc, hb⟩ := h.booted
  obtain ⟨hflow, fs₀, fs', ip', mem, pt', sp, hd⟩ := hb.done
  have hargs : ArgsOk ["/init".toList.map (fun c => UInt8.ofNat c.toNat)] := by
    intro s hs
    rw [List.mem_singleton.mp hs]
    decide
  obtain ⟨m₂, pt₂, m₃, pt₃, m₄, sp, hparts, -⟩ := kexec_parts hd.file hargs hb.exec
  obtain ⟨pa, hroot⟩ := Option.isSome_iff_exists.mp hb.fresh.root
  have hfree := procFreepagetable_root hparts.freed hroot (Or.inr hd.table.top)
  have hkend : s.m.kend = m₄.kend := by
    rw [hb.result, hparts.kend]
    exact hflow.kend
  rw [hkend]
  exact lt_of_le_of_lt hfree.low hfree.high

/-- No event moves the end of the kernel. -/
theorem SysStep.kend {s t : Sys} {ev : Event} (hs : SysInv s) (h : SysStep s ev t) (hk : ev.keepsTrapframe s) :
    t.m.kend = s.m.kend := by
  cases h with
  | page hi hl h => exact (h.flows (hs.wf hi hl)).1.kend
  | lock => rfl
  | unlock => rfl
  | setSp => rfl
  | sbrk hi hl h => exact ((sysSbrk_spec (hs.wf hi hl) hk h).flows (hs.wf hi hl) hk).1.kend
  | fork hi hl h =>
    rcases kfork_spec hs.slots (hs.wf hi hl) h with ⟨-, rfl | ⟨j, m, p, hj, he, hp, hm, rfl⟩⟩ | ⟨j, m₁, tf, pt, m₂, pt', fs, -, hd⟩
    · rfl
    · exact hm.kend
    · rw [hd.result]
      exact hd.copies.moves.kend.trans hd.alloc.kend
  | exec hi hl hargs h =>
    have hwf := hs.wf hi hl
    exact (kexec_spec hwf.toHasTable (Or.inr hwf.stack) hargs h).1.kend
  | exit hi hl h =>
    unfold kexit at h
    split at h
    · nomatch h
    obtain ⟨fs, -, h⟩ := bind_ok h
    obtain rfl := Except.ok.inj h
    rfl
  | reap hi hl hj hz h =>
    have hwf := (hs.slots _ hj).wf (by rw [hz]; simp)
    exact (freeproc_spec h (Or.inl hwf.root) (Or.inr (hs.wf hi hl).stack)).1.kend
  | kill pid =>
    unfold kkill
    split <;> rfl
  | files hi hl => rfl
  | kalloc h => exact (kalloc_moves h).kend
  | kfree hheld h => exact (kfree_env h).kend

theorem Reachable.kend_lt {s : Sys} (h : Reachable s) : s.m.kend < physTop := by
  have hinv : SysInv s ∧ s.m.kend < physTop := by
    refine Reach.invariant (fun s => SysInv s ∧ s.m.kend < physTop) (fun _ hb => ⟨hb.inv, hb.kend_lt⟩) ?_ h
    rintro s a t ⟨hs, hlt⟩ hstep
    obtain ⟨evs, hr⟩ := hstep.run
    refine hr.invariant (fun s => SysInv s ∧ s.m.kend < physTop) ?_ ⟨hs, hlt⟩
    rintro u ev v ⟨hu, hlt⟩ ⟨hk, hev⟩
    exact ⟨hev.inv hu hk, lt_of_eq_of_lt (hev.kend hu hk) hlt⟩
  exact hinv.2

/-- Every page that is free or a process's can be freed. -/
theorem Reachable.freeable {s : Sys} {i : Nat} {q : Pa} (h : Reachable s) (hi : i < nProc) (hq : q ∈ free s.m + (s.proc i).owned) :
    Freeable s.m.kend q := by
  have hmem := Multiset.mem_of_le (Sys.owned_le hi) hq
  have hpages := h.inv.pages
  rw [hpages, Multiset.mem_coe] at hmem
  exact managed_freeable h.kend_lt hmem

end Xv6SnifferBakery.Kernel
