import Xv6SnifferBakery.Lemmas.Freeing
import Xv6SnifferBakery.Lemmas.Replay
import Xv6SnifferBakery.Lemmas.Room
import Xv6SnifferBakery.Lemmas.SwapSlots

/-!
# Calls that fail

What is left of an eviction, a growth and a fork that fail. An eviction and a fork undo what they have done. `uvmalloc` undoes a
growth with `uvmdealloc`, which spares the guard page and the stack: the pages that the growth itself mapped there stay mapped.
-/

namespace Xv6SnifferBakery.Kernel

open Lib

variable {m m' : Machine} {p p' : Proc} {pt pt' : PageTable}

/-! ## Eviction -/

/-- An eviction is undone: of the process only the open swap file may be new, no page has moved, and the slots in use hold what they
held. -/
structure EvictUndone (m : Machine) (p : Proc) (m' : Machine) (p' : Proc) : Prop where
  pagetable : p'.pagetable = p.pagetable
  freelist : m'.freelist = m.freelist
  mem : m'.mem = m.mem
  pages : p'.pages = p.pages
  bitmap : p'.swapBitmap = p.swapBitmap
  used : p'.swapSlotsUsed = p.swapSlotsUsed
  slots : ∀ f, p.swapFile = some f → p'.swapFile = some f ∧ m'.fs.ftable = m.fs.ftable ∧
    (m.fs.openInode f).size ≤ (m'.fs.openInode f).size ∧
    ∀ slot, p.swapBitmap slot = true → ∀ k < 4096, (m'.fs.openInode f).data (slot * 4096 + k) = (m.fs.openInode f).data (slot * 4096 + k)

theorem EvictUndone.refl (m : Machine) (p : Proc) : EvictUndone m p m p :=
  ⟨rfl, rfl, rfl, rfl, rfl, rfl, fun _ h => ⟨h, rfl, Nat.le_refl _, fun _ _ _ _ => rfl⟩⟩

/-- An eviction that fails changes nothing: page table, free list, entries and slots are as before, and so are the bytes of every
slot in use. -/
theorem evictPageFifo_undone (h : evictPageFifo m p = .ok (m', p', false)) : EvictUndone m p m' p' := by
  obtain ⟨hr, -⟩ | ⟨hr, -⟩ | ⟨-, hfail⟩ := evictPageFifo_cases h
  · nomatch hr
  · nomatch hr
  have hmem := hfail.sameMem
  cases hfail with
  | victim hv => exact EvictUndone.refl m p
  | create victim dirty closed hmake =>
    refine ⟨rfl, rfl, rfl, rfl, rfl, rfl, fun f hf => ?_⟩
    rw [closed] at hf
    nomatch hf
  | @write i e pte slot f m₁ m₂ victim dirty hslot hopen hwrite =>
    obtain ⟨hfree, -, hlt⟩ := firstClear_some hslot
    obtain ⟨hwrites, -⟩ := hwrite.writes (by omega)
    refine ⟨rfl, hmem.freelist, hmem.mem, rfl, rfl, rfl, fun g hg => ?_⟩
    rcases hopen with ⟨hf, rfl⟩ | ⟨hnone, -⟩
    · obtain rfl := Option.some.inj (hf.symm.trans hg)
      refine ⟨rfl, hwrites.ftable, hwrites.grows, ?_⟩
      intro s hs k hk
      -- the slot written, in part or whole, was clear
      have hne : s ≠ slot := by
        rintro rfl
        rw [hfree] at hs
        nomatch hs
      refine hwrites.others _ ?_
      rcases Nat.lt_or_gt_of_ne hne with hlt | hgt <;> omega
    · rw [hnone] at hg
      nomatch hg

/-- A machine whose disk has `n` free blocks left. -/
def Machine.fillDisk (m : Machine) (n : Nat) : Machine := m.withFs { m.fs with nfree := n }

/-- Two pages of the heap are written, and the stack page and the first of them evicted, to slot 0. -/
def writeTwo : List Action := [.sbrk 0 8192 false, .fault 0 16384 .read, .fault 0 16384 .write, .fault 0 20480 .read,
  .fault 0 20480 .write, .evict 0, .evict 0]

/-- On a disk with two free blocks left, the second page is written to slot 1 in part, and nothing is taken out. -/
theorem evictPageFifo_undone_second : ∃ t m' p' f, Run Step (smallBoot smallFiles 32) writeTwo t ∧
    (t.proc 0).swapBitmap 0 = true ∧ (t.proc 0).swapFile = some f ∧
    evictPageFifo (t.m.fillDisk 2) (t.proc 0) = .ok (m', p', false) ∧
    (t.m.fs.openInode f).size < (m'.fs.openInode f).size ∧ EvictUndone (t.m.fillDisk 2) (t.proc 0) m' p' := by
  have hex : (replay (smallBoot smallFiles 32) writeTwo).any (fun t => (t.proc 0).swapBitmap 0 &&
      (t.proc 0).swapFile.any (fun f => (evictPageFifo (t.m.fillDisk 2) (t.proc 0)).toOption.any (fun r => !r.2.2 &&
        decide ((t.m.fs.openInode f).size < (r.1.fs.openInode f).size)))) = true := by
    decide +kernel
  obtain ⟨t, ht, hex⟩ := (Option.any_eq_true _ _).mp hex
  simp only [Bool.and_eq_true] at hex
  obtain ⟨hused, hex⟩ := hex
  obtain ⟨f, hf, hex⟩ := (Option.any_eq_true _ _).mp hex
  obtain ⟨⟨m', p', r⟩, hrun, hx⟩ := ok_of_any hex
  simp only [Bool.and_eq_true, Bool.not_eq_true', decide_eq_true_eq] at hx
  obtain ⟨rfl, hgrown⟩ := hx
  exact ⟨t, m', p', f, replay_run ht, hused, hf, hrun, hgrown, evictPageFifo_undone hrun⟩

/-! ## Growth -/

/-- Page `w` is the guard page or part of the stack: `uvmdealloc` spares it. -/
def Spared (stackTop w : Nat) : Prop := guardBase stackTop ≤ w * 4096 ∧ w * 4096 < stackTop

/-- Mapping a user page takes the tables it adds from the free list. -/
theorem MapSpec.tables {va : Nat} {pa : Pa} {perm : Perm} (h : MapSpec m pt va pa perm m' pt') :
    Kernel.free m' + pt'.tables = Kernel.free m + pt.tables := by
  have hframes : pt'.frames = pt.frames + leafFrame (va / 4096) pa := by
    have hframe : pt'.frame = Function.update pt.frame (va / 4096) (some pa) := by
      funext w
      rw [PageTable.frame, h.leaf]
      by_cases hw : w = va / 4096
      · rw [hw, Function.update_self, Function.update_self]
        rfl
      · rw [Function.update_of_ne hw, Function.update_of_ne hw]
        rfl
    have hnone : pt.frame (va / 4096) = none := by rw [PageTable.frame, h.free]; rfl
    rw [PageTable.frames, hframe, leafFrame, PageTable.frames]
    split
    · rename_i hlt
      rw [content_fill _ _ _ _ hlt hnone]
    · rename_i hge
      rw [add_zero]
      exact content_congr (fun w hw => Function.update_of_ne (by omega) _ _)
  have hpages := h.moves.pages
  rw [PageTable.pages, hframes, PageTable.pages, add_assoc pt.tables, ← add_assoc (Kernel.free m'),
    ← add_assoc (Kernel.free m)] at hpages
  exact add_right_cancel hpages

theorem MapFail.tables (h : MapFail m pt m' pt') : free m' + pt'.tables = free m + pt.tables := by
  have hframes : pt'.frames = pt.frames := PageTable.frames_congr (fun v _ => by rw [h.leaf])
  have hpages := h.moves.pages
  rw [PageTable.pages, hframes, PageTable.pages, ← add_assoc, ← add_assoc] at hpages
  exact add_right_cancel hpages

/-- The `k` pages from page `v` on, which were not mapped, are mapped to pages that were free. -/
structure Filled (m : Machine) (pt : PageTable) (v k : Nat) (m' : Machine) (pt' : PageTable) : Prop where
  alloc : Alloc m m'
  outside : ∀ w, ¬(v ≤ w ∧ w < v + k) → pt'.leaf w = pt.leaf w
  inside : ∀ w, v ≤ w → w < v + k → pt.leaf w = none ∧ ∃ pte, pt'.leaf w = some pte ∧ pte.pa ∈ m.freelist
  pages : free m' + pt'.tables + content k (fun j => pt'.frame (v + j)) = free m + pt.tables

theorem Filled.refl (m : Machine) (pt : PageTable) (v : Nat) : Filled m pt v 0 m pt :=
  ⟨Alloc.refl m, fun _ _ => rfl, fun w h1 h2 => by omega, by simp [content]⟩

variable {m₁ m₂ m₃ : Machine} {pt₁ pt₂ : PageTable} {v k : Nat} {pa : Pa} {perm : Perm}

/-- One more page. -/
theorem Filled.map (h : Filled m pt v k m₁ pt₁) (hk : kalloc m₁ = some (m₂, pa))
    (hs : MapSpec (m₂.fill pa (fun _ => 0)) pt₁ ((v + k) * 4096) pa perm m₃ pt₂) : Filled m pt v (k + 1) m₃ pt₂ := by
  have hdiv : (v + k) * 4096 / 4096 = v + k := Nat.mul_div_cancel _ (by decide)
  have hleaf := hs.leaf
  have hfree := hs.free
  rw [hdiv] at hleaf hfree
  obtain ⟨htaken, hpa⟩ := kalloc_alloc hk
  refine ⟨h.alloc.trans ((htaken.fill hpa _).trans hs.alloc), fun w hw => ?_, fun w h1 h2 => ?_, ?_⟩
  · rw [hleaf, Function.update_of_ne (by omega), h.outside w (by omega)]
  · by_cases he : w = v + k
    · refine ⟨by rw [he, ← h.outside _ (by omega), hfree], _, by rw [hleaf, he, Function.update_self], ?_⟩
      by_contra hnot
      exact h.alloc.kept pa hnot hpa
    · rw [hleaf, Function.update_of_ne he]
      exact h.inside w h1 (by omega)
  · have hold : ∀ j < k, pt₂.frame (v + j) = pt₁.frame (v + j) := by
      intro j hj
      rw [PageTable.frame, hleaf, Function.update_of_ne (by omega), PageTable.frame]
    have hnew : pt₂.frame (v + k) = some pa := by
      rw [PageTable.frame, hleaf, Function.update_self]
      rfl
    have hpages := (kalloc_moves hk).pages
    rw [content, Finset.sum_range_succ, ← content, content_congr hold, hnew, slot_some, hs.tables, free_fill, ← h.pages,
      add_comm (free m₂), ← add_zero (free m₁), ← hpages]
    abel

/-- A page that could not be mapped for want of a table goes back. -/
theorem Filled.mapFail (h : Filled m pt v k m₁ pt₁) (hk : kalloc m₁ = some (m₂, pa))
    (hs : MapFail (m₂.fill pa (fun _ => 0)) pt₁ m₃ pt₂) (hf : kfree m₃ pa = .ok m') : Filled m pt v k m' pt₂ := by
  obtain ⟨htaken, hpa⟩ := kalloc_alloc hk
  refine ⟨h.alloc.trans (((htaken.fill hpa _).trans hs.alloc).kfree hpa hf), fun w hw => ?_, fun w h1 h2 => ?_, ?_⟩
  · rw [hs.leaf, h.outside w hw]
  · rw [hs.leaf]
    exact h.inside w h1 h2
  · have hframe : pt₂.frame = pt₁.frame := by
      funext w
      rw [PageTable.frame, hs.leaf, PageTable.frame]
    have htables := hs.tables
    have hback := (kfree_moves hf).pages
    have hpages := (kalloc_moves hk).pages
    rw [add_zero] at hback hpages
    rw [free_fill] at htables
    rw [hframe, ← h.pages, hback, ← hpages, add_right_comm (free m₃), htables]
    abel

/-- The loop of `uvmalloc` stops after as many pages as memory has room for, with their tables, and hands them to `uvmdealloc`. -/
theorem uvmallocLoop_short {stackTop n : Nat} {m₀ : Machine} {pt₀ : PageTable}
    (h : uvmallocLoop stackTop (v * 4096) perm n m pt ((v + k) * 4096) = .ok (m', pt', false)) (hf : Filled m₀ pt₀ v k m pt) :
    ∃ j < n, j + pt.tablesFor (v + k) j ≤ m.freelist.length ∧ m.freelist.length < j + 1 + pt.tablesFor (v + k) (j + 1) ∧
      ∃ m₁ pt₁ sz, Filled m₀ pt₀ v (k + j) m₁ pt₁ ∧ uvmdealloc m₁ pt₁ stackTop ((v + (k + j)) * 4096) (v * 4096) = .ok (m', pt', sz) := by
  induction n generalizing m pt k with
  | zero => nomatch h
  | succ n ih =>
    rw [uvmallocLoop] at h
    split at h
    · rename_i hk
      obtain ⟨⟨m₁, pt₁, sz⟩, hd, h⟩ := bind_ok h
      simp only [Except.ok.injEq, Prod.mk.injEq] at h
      obtain ⟨rfl, rfl, -⟩ := h
      have hempty := kalloc_eq_none_iff.mp hk
      refine ⟨0, Nat.succ_pos n, ?_, ?_, m, pt, sz, hf, hd⟩
      · simp [PageTable.tablesFor, absent]
      · rw [hempty, List.length_nil]
        omega
    · rename_i m₁ mem hk
      have hlen : m.freelist.length = m₁.freelist.length + 1 := by
        rw [(kalloc_some hk).1, List.length_cons]
      obtain ⟨⟨m₂, pt₂, o⟩, hm, h⟩ := bind_ok h
      obtain ⟨hroom, hleft⟩ := mappages_missing hm
      rw [Machine.fill_freelist] at hroom hleft
      rcases mappages_page hm with ⟨rfl, hs⟩ | ⟨rfl, hs⟩
      · obtain ⟨hsum, hway⟩ := hleft rfl
        have hnext : (v + k) * 4096 + pgSize = (v + (k + 1)) * 4096 := by
          unfold pgSize
          omega
        simp only [hnext] at h
        obtain ⟨j, hj, hle, hlt, hrest⟩ := ih h (hf.map hk hs)
        refine ⟨j + 1, by omega, ?_, ?_, ?_⟩
        · rw [PageTable.tablesFor_succ j hway]
          change _ + (_ + pt₂.tablesFor (v + (k + 1)) j) ≤ _
          omega
        · rw [PageTable.tablesFor_succ (j + 1) hway]
          change _ < _ + (_ + pt₂.tablesFor (v + (k + 1)) (j + 1))
          omega
        · rwa [show k + (j + 1) = k + 1 + j by omega]
      · obtain ⟨m₃, hfree, h⟩ := bind_ok h
        obtain ⟨⟨m₄, pt₄, sz⟩, hd, h⟩ := bind_ok h
        simp only [Except.ok.injEq, Prod.mk.injEq] at h
        obtain ⟨rfl, rfl, -⟩ := h
        have hshort := hroom.not.mp (by simp)
        have hmissing := pt.missing_le_tablesFor (v := v + k) 0
        refine ⟨0, Nat.succ_pos n, ?_, by omega, m₃, pt₂, sz, hf.mapFail hk hs hfree, hd⟩
        simp [PageTable.tablesFor, absent]

/-- The pages `[v, v + k)` are unmapped and freed, those of the stack region apart. -/
structure Emptied (stackTop : Nat) (m : Machine) (pt : PageTable) (v k : Nat) (m' : Machine) (pt' : PageTable) : Prop where
  tables : pt'.tables = pt.tables
  cleared : ∀ w, v ≤ w → w < v + k → ¬Spared stackTop w → pt'.leaf w = none
  kept : ∀ w, ¬(v ≤ w ∧ w < v + k) ∨ Spared stackTop w → pt'.leaf w = pt.leaf w
  mem : ∀ q, (∀ w pte, v ≤ w → w < v + k → pt.leaf w = some pte → pte.pa ≠ q) → m'.mem q = m.mem q
  pages : (∀ w, v ≤ w → w < v + k → ¬Spared stackTop w) → free m' = free m + content k (fun j => pt.frame (v + j))

theorem Emptied.refl (stackTop : Nat) (m : Machine) (pt : PageTable) (v : Nat) : Emptied stackTop m pt v 0 m pt :=
  ⟨rfl, fun w h1 h2 => by omega, fun _ _ => rfl, fun _ _ => rfl, fun _ => by simp [content]⟩

/-- A page of the stack region is left. -/
theorem Emptied.spare {stackTop : Nat} (h : Emptied stackTop m pt v k m₁ pt₁) (hs : Spared stackTop (v + k)) :
    Emptied stackTop m pt v (k + 1) m₁ pt₁ := by
  refine ⟨h.tables, fun w h1 h2 hw => ?_, fun w hw => ?_, fun q hq => ?_, fun hall => ?_⟩
  · by_cases he : w = v + k
    · exact absurd (he ▸ hs) hw
    · exact h.cleared w h1 (by omega) hw
  · refine h.kept w (hw.imp_left (fun hout => ?_))
    omega
  · exact h.mem q (fun w pte h1 h2 => hq w pte h1 (by omega))
  · exact absurd hs (hall _ (by omega) (by omega))

/-- Any other page is unmapped, and freed if it was mapped. -/
theorem Emptied.page {stackTop : Nat} (h : Emptied stackTop m pt v k m₁ pt₁) (hs : ¬Spared stackTop (v + k))
    (hu : UnmapSpec m₁ pt₁ ((v + k) * 4096) m₂ pt₂) : Emptied stackTop m pt v (k + 1) m₂ pt₂ := by
  have hdiv : (v + k) * 4096 / 4096 = v + k := Nat.mul_div_cancel _ (by decide)
  have hclear := hu.clear
  have hfreed := hu.freed
  rw [hdiv] at hclear hfreed
  have hleaf : pt₂.leaf = Function.update pt₁.leaf (v + k) none := by rw [hclear, PageTable.clearLeaf_leaf]
  have hsame : pt₁.leaf (v + k) = pt.leaf (v + k) := h.kept _ (Or.inl (by omega))
  rw [hsame] at hfreed
  refine ⟨?_, fun w h1 h2 hw => ?_, fun w hw => ?_, fun q hq => ?_, fun hall => ?_⟩
  · rw [← h.tables, hclear]
    exact PageTable.tables_congr rfl rfl rfl
  · rw [hleaf]
    by_cases he : w = v + k
    · rw [he, Function.update_self]
    · rw [Function.update_of_ne he]
      exact h.cleared w h1 (by omega) hw
  · have hne : w ≠ v + k := by
      rintro rfl
      rcases hw with hw | hw
      · omega
      · exact hs hw
    rw [hleaf, Function.update_of_ne hne]
    exact h.kept w (hw.imp_left (fun hout => by omega))
  · have hold := h.mem q (fun w pte h1 h2 => hq w pte h1 (by omega))
    rcases hfreed with ⟨-, rfl⟩ | ⟨pte, hsome, hf⟩
    · exact hold
    · rw [← hold, kfree_ok hf]
      exact Machine.fill_mem_of_ne m₁ _ (hq _ pte (by omega) (by omega) hsome).symm
  · have hold := h.pages (fun w h1 h2 => hall w h1 (by omega))
    rw [content, Finset.sum_range_succ, ← content, ← add_assoc, ← hold]
    rcases hfreed with ⟨hnone, rfl⟩ | ⟨pte, hsome, hf⟩
    · rw [PageTable.frame, hnone]
      exact (add_zero _).symm
    · have hback := (kfree_moves hf).pages
      rw [PageTable.frame, hsome]
      exact (add_zero _).symm.trans hback

/-- `uvmdealloc` between two page boundaries. -/
theorem uvmdealloc_emptied {stackTop sz : Nat} (h : uvmdealloc m pt stackTop ((v + k) * 4096) (v * 4096) = .ok (m', pt', sz))
    (hb : 0 < k → v + k ≤ 2 ^ 26) : Emptied stackTop m pt v k m' pt' := by
  unfold uvmdealloc at h
  split at h
  · rename_i hle
    obtain rfl : k = 0 := by omega
    simp only [Except.ok.injEq, Prod.mk.injEq] at h
    obtain ⟨rfl, rfl, -⟩ := h
    exact Emptied.refl stackTop m pt v
  · rename_i hlt
    have hbound := hb (by omega)
    have hround : ∀ w, w ≤ v + k → pgRoundUp (w * 4096) = w * 4096 := fun w hw =>
      pgRoundUp_of_aligned (Nat.mul_mod_left w 4096) (by omega)
    rw [hround v (by omega), hround (v + k) (Nat.le_refl _)] at h
    obtain ⟨⟨m₁, pt₁⟩, hl, h⟩ := bind_ok h
    simp only [Except.ok.injEq, Prod.mk.injEq] at h
    obtain ⟨rfl, rfl, -⟩ := h
    have hn : ((v + k) * 4096 - v * 4096) / pgSize = k := by
      unfold pgSize
      omega
    rw [hn] at hl
    have hrun := forFrom_inv (fun i s => Emptied stackTop m pt v i s.1 s.2) hl (Emptied.refl stackTop m pt v) (fun i s t _ _ hP hb => by
      have haddr : v * 4096 + i * pgSize = (v + i) * 4096 := by
        unfold pgSize
        omega
      rw [haddr] at hb
      unfold deallocPage at hb
      split at hb
      · rename_i hs
        obtain rfl := Except.ok.inj hb
        exact hP.spare hs
      · rename_i hs
        have hu : UnmapSpec s.1 s.2 ((v + i) * 4096) t.1 t.2 := uvmunmap_one hb
        exact hP.page hs hu)
    rwa [Nat.zero_add] at hrun

/-- A growth is undone: the size, the mapped pages with their frames and permissions, and the contents of the user's pages are as
before, and what the free list has lost are pages of the table. -/
structure GrowUndone (m : Machine) (p : Proc) (m' : Machine) (p' : Proc) : Prop where
  sz : p'.sz = p.sz
  leaf : p'.pagetable.leaf = p.pagetable.leaf
  mem : ∀ v < userPages, ∀ pte, p.pagetable.leaf v = some pte → m'.mem pte.pa = m.mem pte.pa
  frames : free m' + p'.pagetable.tables = free m + p.pagetable.tables

/-- Memory suffices to map the pages from the end of the process up to one of the guard page or the stack: a page for each, and the
tables that are missing. -/
def ReachesStack (m : Machine) (p : Proc) : Prop :=
  ∃ k, Spared p.stackTop (pgRoundUp p.sz / 4096 + k) ∧ k + 1 + p.pagetable.tablesFor (pgRoundUp p.sz / 4096) (k + 1) ≤ m.freelist.length

/-- More pages need no fewer tables. -/
theorem PageTable.tablesFor_mono {i j : Nat} (h : i ≤ j) : pt.tablesFor v i ≤ pt.tablesFor v j := by
  have hsub : ∀ (f : Nat → Option Pa) (d : Nat), absent f d v i ≤ absent f d v j := fun f d =>
    Finset.card_le_card (Finset.filter_subset_filter _ (Finset.image_subset_image (Finset.Ico_subset_Ico_right (by omega))))
  exact Nat.add_le_add (hsub _ _) (hsub _ _)

/-- What a growth that fails has done: it mapped pages as far as memory went, and emptied them. -/
theorem growproc_failed {n : Int} (hn : 0 < n) (h : growproc m p n = .ok (m', p', false)) :
    ∃ k pt', k + p.pagetable.tablesFor (pgRoundUp p.sz / 4096) k ≤ m.freelist.length ∧
      m.freelist.length < k + 1 + p.pagetable.tablesFor (pgRoundUp p.sz / 4096) (k + 1) ∧
      p' = { p with pagetable := pt' } ∧
      ∃ m₁ pt₁, Filled m p.pagetable (pgRoundUp p.sz / 4096) k m₁ pt₁ ∧ Emptied p.stackTop m₁ pt₁ (pgRoundUp p.sz / 4096) k m' pt' := by
  unfold growproc at h
  rw [if_pos hn] at h
  obtain ⟨⟨m₂, pt', o⟩, hu, h⟩ := bind_ok h
  cases o with
  | some sz => simp at h
  | none =>
    simp only [Except.ok.injEq, Prod.mk.injEq, and_true] at h
    obtain ⟨rfl, rfl⟩ := h
    unfold uvmalloc at hu
    split at hu
    · nomatch hu
    obtain ⟨⟨m₃, pt₃, done⟩, hl, hu⟩ := bind_ok hu
    simp only [Except.ok.injEq, Prod.mk.injEq] at hu
    obtain ⟨rfl, rfl, hdone⟩ := hu
    cases done with
    | true => nomatch hdone
    | false =>
      have hround : pgRoundUp p.sz / 4096 * 4096 = pgRoundUp p.sz := by
        have := pgRoundUp_mod p.sz
        omega
      generalize pgRoundUp p.sz / 4096 = v at hround ⊢
      rw [← hround] at hl
      obtain ⟨k, -, hle, hlt, m₁, pt₁, sz, hf, hd⟩ := uvmallocLoop_short (k := 0) hl (Filled.refl m p.pagetable v)
      rw [Nat.zero_add] at hf hd
      refine ⟨k, pt₃, hle, hlt, rfl, m₁, pt₁, hf, uvmdealloc_emptied hd (fun hk => ?_)⟩
      obtain ⟨pte, hpte, -⟩ := (hf.inside (v + k - 1) (by omega) (by omega)).2
      have hbound := pt₁.lt_of_leaf (Option.isSome_iff_exists.mpr ⟨pte, hpte⟩)
      omega

/-- A growth that fails is undone exactly when memory did not suffice to get to the guard page or the stack. -/
theorem growproc_undone {n : Int} (hn : 0 < n) (h : growproc m p n = .ok (m', p', false))
    (hmapped : ∀ v < userPages, ∀ pte, p.pagetable.leaf v = some pte → pte.pa ∉ m.freelist) :
    GrowUndone m p m' p' ↔ ¬ReachesStack m p := by
  obtain ⟨k, pt', hle, hlt, rfl, m₁, pt₁, hfilled, hemptied⟩ := growproc_failed hn h
  unfold ReachesStack
  generalize pgRoundUp p.sz / 4096 = v at hle hlt hfilled hemptied ⊢
  constructor
  · rintro hundone ⟨j, hspared, hroom⟩
    -- the growth got to page `v + j` and mapped it, and it was spared
    have hjk : j < k := by
      by_contra hge
      have := p.pagetable.tablesFor_mono (v := v) (show k + 1 ≤ j + 1 by omega)
      omega
    obtain ⟨hnone, pte, hsome, -⟩ := hfilled.inside (v + j) (by omega) (by omega)
    have hkept := hemptied.kept (v + j) (Or.inr hspared)
    have hsame : pt'.leaf = p.pagetable.leaf := hundone.leaf
    rw [hsame, hnone, hsome] at hkept
    nomatch hkept
  · intro hshort
    have hnot : ∀ w, v ≤ w → w < v + k → ¬Spared p.stackTop w := by
      intro w h1 h2 hs
      refine hshort ⟨w - v, by rwa [Nat.add_sub_cancel' h1], ?_⟩
      have := p.pagetable.tablesFor_mono (v := v) (show w - v + 1 ≤ k by omega)
      omega
    refine ⟨rfl, funext fun w => ?_, fun w hlt pte hw => ?_, ?_⟩
    · change pt'.leaf w = p.pagetable.leaf w
      by_cases hin : v ≤ w ∧ w < v + k
      · rw [hemptied.cleared w hin.1 hin.2 (hnot w hin.1 hin.2), (hfilled.inside w hin.1 hin.2).1]
      · rw [hemptied.kept w (Or.inl hin), hfilled.outside w hin]
    · have hfree := hmapped w hlt pte hw
      rw [hemptied.mem _ ?_, hfilled.alloc.mem _ hfree]
      intro u pte' h1 h2 hu he
      obtain ⟨-, pte'', hsome, hmem⟩ := hfilled.inside u h1 h2
      obtain rfl := Option.some.inj (hsome.symm.trans hu)
      exact hfree (he ▸ hmem)
    · change free m' + pt'.tables = free m + p.pagetable.tables
      rw [hemptied.pages hnot, hemptied.tables, ← hfilled.pages, add_right_comm]

/-- No page that a process maps is free. -/
theorem SysInv.mapped {s : Sys} {i : Nat} {pte : Pte} (h : SysInv s) (hi : i < nProc) (hv : v < userPages)
    (hleaf : (s.proc i).pagetable.leaf v = some pte) : pte.pa ∉ s.m.freelist := by
  have howned : pte.pa ∈ (s.proc i).owned := Multiset.mem_add.mpr (Or.inr (PageTable.mem_pages_of_leaf hv hleaf))
  exact fun hfree => Multiset.disjoint_left.mp (Multiset.nodup_add.mp (h.nodup hi)).2.2 hfree howned

/-- An eager growth that fails changes nothing exactly when memory did not suffice to get to the guard page or the stack: in every
state in which the process maps no free page, and that is every state of a run in which no shrink reaches the trapframe page. -/
theorem growproc_undone_iff (n : Int) (hn : 0 < n) :
    (∀ (m : Machine) (p : Proc) (m' : Machine) (p' : Proc), growproc m p n = .ok (m', p', false) →
      (∀ v < userPages, ∀ pte, p.pagetable.leaf v = some pte → pte.pa ∉ m.freelist) →
      (GrowUndone m p m' p' ↔ ¬ReachesStack m p)) ∧
    ∀ t, Reachable t → ∀ i < nProc, ∀ v < userPages, ∀ pte, (t.proc i).pagetable.leaf v = some pte → pte.pa ∉ t.m.freelist :=
  ⟨fun _ _ _ _ h hmapped => growproc_undone hn h hmapped, fun _ ht _ hi _ hv _ hleaf => ht.inv.mapped hi hv hleaf⟩

/-- The first process grows until memory runs out. -/
theorem growproc_undone_iff_boot : ∃ m' p', growproc (smallBoot smallFiles 32).m ((smallBoot smallFiles 32).proc 0) 262144 = .ok (m', p', false) ∧
    GrowUndone (smallBoot smallFiles 32).m ((smallBoot smallFiles 32).proc 0) m' p' := by
  have hfails : (match growproc (smallBoot smallFiles 32).m ((smallBoot smallFiles 32).proc 0) 262144 with
      | .ok (_, _, r) => !r
      | .error _ => false) = true := by
    decide +kernel
  split at hfails
  · rename_i m' p' r hrun
    obtain rfl : r = false := by simpa using hfails
    refine ⟨m', p', hrun, ((growproc_undone_iff 262144 (by decide)).1 _ _ _ _ hrun (fun v hv pte hleaf => ?_)).mpr ?_⟩
    · exact (growproc_undone_iff 262144 (by decide)).2 _ (Reach.of_init smallBoot_init) 0 (by decide) v hv pte hleaf
    · rintro ⟨k, hspared, -⟩
      have hsz : pgRoundUp ((smallBoot smallFiles 32).proc 0).sz / 4096 = 4 := by decide +kernel
      have htop : ((smallBoot smallFiles 32).proc 0).stackTop = 16384 := by decide +kernel
      have := hspared.2
      omega
  · nomatch hfails

/-- The stack page is evicted, the size goes to its address, and an eager growth runs out of memory: the stack page stays mapped. -/
theorem growproc_keeps_stack : ¬∀ t, Reach Boot Step t → ∀ i, (t.proc i).live → ∀ (n : Int) (m' : Machine) (p' : Proc), 0 < n →
    growproc t.m (t.proc i) n = .ok (m', p', false) → GrowUndone t.m (t.proc i) m' p' := by
  have hex : (replay (smallBoot smallFiles 32) [.evict 0, .sbrk 0 (-4096) false]).any (fun t => (t.proc 0).live ∧
      (match growproc t.m (t.proc 0) 262144 with
        | .ok (_, p', r) => !r && (p'.pagetable.leaf 3).isSome && ((t.proc 0).pagetable.leaf 3).isNone
        | .error _ => false) = true) = true := by
    decide +kernel
  obtain ⟨t, ht, hex⟩ := (Option.any_eq_true _ _).mp hex
  obtain ⟨hlive, hfails⟩ := of_decide_eq_true hex
  split at hfails
  · rename_i m' p' r hrun
    simp only [Bool.and_eq_true, Bool.not_eq_true', Option.isNone_iff_eq_none] at hfails
    obtain ⟨⟨rfl, hmapped⟩, hnone⟩ := hfails
    intro hall
    have hundone := hall t ⟨_, _, smallBoot_init, replay_run ht⟩ 0 hlive 262144 m' p' (by decide) hrun
    rw [hundone.leaf, hnone] at hmapped
    cases hmapped
  · cases hfails

/-! ## Fork -/

/-- A fork is undone: no process has changed, a slot that was unused is so, and the files, the memory of every process and the set of
free pages are as before. -/
structure ForkUndone (s t : Sys) : Prop where
  procs : ∀ k, t.proc k = s.proc k ∨ (s.proc k).Empty ∧ (t.proc k).Empty
  files : t.m.fs = s.m.fs
  mem : ∀ k < nProc, ∀ v < userPages, ∀ pte, (s.proc k).pagetable.leaf v = some pte → t.m.mem pte.pa = s.m.mem pte.pa
  free : free t.m = free s.m

theorem ForkFail.undone {s t : Sys} (hs : SysInv s) (h : ForkFail s t) : ForkUndone s t := by
  rcases h with rfl | ⟨j, m, p, hj, hempty, hp, hm, rfl⟩
  · exact ⟨fun _ => Or.inl rfl, rfl, fun _ _ _ _ _ _ => rfl, rfl⟩
  · refine ⟨fun k => ?_, hm.fs, fun k hk v hv pte hleaf => ?_, ?_⟩
    · by_cases hkj : k = j
      · subst hkj
        exact Or.inr ⟨hempty, by rw [Sys.put_proc_self]; exact hp⟩
      · exact Or.inl (Sys.put_proc_of_ne s m p hkj)
    · exact hm.alloc.mem _ (hs.mapped hk hv hleaf)
    · have hpages := hm.pages
      rwa [add_zero, add_zero] at hpages

/-- A fork that fails changes nothing. -/
theorem kfork_undone {s t : Sys} {i : Nat} (h : Reachable s) (hi : i < nProc) (hlive : (s.proc i).live)
    (hfork : kfork s i = .ok (t, none)) : ForkUndone s t ∧ t.proc i = s.proc i := by
  obtain ⟨-, hfail⟩ | ⟨j, m₁, tf, pt, m₂, pt', fs, hj, -⟩ := kfork_spec h.inv.slots (h.inv.wf hi hlive) hfork
  · have hundone := hfail.undone h.inv
    refine ⟨hundone, ?_⟩
    rcases hundone.procs i with hsame | ⟨hempty, -⟩
    · exact hsame
    · exact absurd hempty.state hlive.ne_unused
  · nomatch hj

/-- A machine with too few pages for a second process. -/
theorem kfork_undone_small : ∃ t, kfork (smallBoot smallFiles 14) 0 = .ok (t, none) ∧ ForkUndone (smallBoot smallFiles 14) t ∧
    t.proc 0 = (smallBoot smallFiles 14).proc 0 := by
  have hboot : Boot (smallBoot smallFiles 14) := smallBoot_boot (by decide) (by decide +kernel)
  have hfails : (match kfork (smallBoot smallFiles 14) 0 with
      | .ok (_, o) => o.isNone
      | .error _ => false) = true := by
    decide +kernel
  split at hfails
  · rename_i t o hrun
    obtain rfl := Option.isNone_iff_eq_none.mp hfails
    exact ⟨t, hrun, kfork_undone (Reach.of_init hboot) (by decide) (by decide +kernel) hrun⟩
  · nomatch hfails

end Xv6SnifferBakery.Kernel
