import Xv6SnifferBakery.Kernel.Vm

/-!
# Where the pages of a table are

The pages an address space owns, as a multiset: the pages of the table's three levels and the frames of the leaves below the
trapframe page. Every operation on a table moves pages between this multiset and the free list: `Moves` says so, together with
the frame condition (no other page changes) that lets the statements compose.
-/

namespace Xv6SnifferBakery.Kernel

open Lib

/-! ## The pages of a table -/

/-- The number of user pages: the leaves below the trapframe page. -/
@[irreducible] def userPages : Nat := trapframeVa / 4096

theorem userPages_eq : userPages = 2 ^ 26 - 2 := by
  unfold userPages
  decide

theorem trapframeVa_div : trapframeVa / 4096 = userPages := by
  rw [userPages]

theorem trampolineVa_div : trampolineVa / 4096 = userPages + 1 := by
  rw [userPages_eq]
  decide

/-- The pages of the table itself. -/
def PageTable.tables (pt : PageTable) : Multiset Pa :=
  slot pt.root + content 512 pt.mid + content (512 * 512) pt.low

/-- The page a leaf maps, if it is valid. -/
def PageTable.frame (pt : PageTable) (v : Nat) : Option Pa := (pt.leaf v).map Pte.pa

/-- The frames of the user leaves. -/
def PageTable.frames (pt : PageTable) : Multiset Pa := content userPages pt.frame

/-- The pages an address space owns. -/
def PageTable.pages (pt : PageTable) : Multiset Pa := pt.tables + pt.frames

namespace PageTable

variable {pt pt' : PageTable}

theorem pages_null : null.pages = 0 := by
  have hm : content 512 null.mid = 0 := content_none (fun _ _ => rfl)
  have hl : content (512 * 512) null.low = 0 := content_none (fun _ _ => rfl)
  have hf : null.frames = 0 := content_none (fun _ _ => rfl)
  rw [pages, tables, hm, hl, hf]
  rfl

/-- The leaves decide the frames, the other levels the tables. -/
theorem frames_congr (h : ∀ v < userPages, pt'.leaf v = pt.leaf v) : pt'.frames = pt.frames :=
  content_congr (fun v hv => by rw [frame, h v hv, frame])

theorem tables_congr (hr : pt'.root = pt.root) (hm : pt'.mid = pt.mid) (hl : pt'.low = pt.low) : pt'.tables = pt.tables := by
  rw [tables, hr, hm, hl, tables]

/-- A new level-1 table is one more page. -/
theorem pages_setMid {i : Nat} {pa : Pa} (hi : i < 256) (h : pt.mid i = none) :
    (pt.setMid i pa).pages = pt.pages + {pa} := by
  have hf : (pt.setMid i pa).frames = pt.frames := frames_congr (fun v _ => by simp)
  rw [pages, hf, tables, setMid_root, setMid_mid _ _ _ hi, setMid_low, content_fill 512 _ i pa (by omega) h, pages, tables]
  abel

/-- A new level-0 table is one more page. -/
theorem pages_setLow {k : Nat} {pa : Pa} (hk : (pt.mid (k / 512)).isSome) (h : pt.low k = none) :
    (pt.setLow k pa).pages = pt.pages + {pa} := by
  have hlt : k < 512 * 512 := by
    have := pt.mid_lt _ hk
    omega
  have hf : (pt.setLow k pa).frames = pt.frames := frames_congr (fun v _ => by simp)
  rw [pages, hf, tables, setLow_root, setLow_mid, setLow_low _ _ _ hk, content_fill _ _ k pa hlt h, pages, tables]
  abel

theorem frame_setLeaf {v : Nat} {pte : Pte} (hl : (pt.low (v / 512)).isSome) :
    (pt.setLeaf v pte).frame = Function.update pt.frame v (some pte.pa) := by
  funext w
  unfold frame
  rw [setLeaf_leaf _ _ _ hl]
  by_cases hw : w = v
  · subst hw
    simp
  · simp [Function.update_of_ne hw]

theorem frame_clearLeaf (v : Nat) : (pt.clearLeaf v).frame = Function.update pt.frame v none := by
  funext w
  unfold frame
  rw [clearLeaf_leaf]
  by_cases hw : w = v
  · subst hw
    simp
  · simp [Function.update_of_ne hw]

/-- Mapping a user page adds its frame. -/
theorem pages_setLeaf {v : Nat} {pte : Pte} (hv : v < userPages) (hl : (pt.low (v / 512)).isSome) (h : pt.leaf v = none) :
    (pt.setLeaf v pte).pages = pt.pages + {pte.pa} := by
  have ht : (pt.setLeaf v pte).tables = pt.tables := tables_congr (by simp) (by simp) (by simp)
  rw [pages, ht, frames, frame_setLeaf hl, content_fill _ _ v pte.pa hv (by simp [frame, h]), pages, frames, add_assoc]

/-- The trapframe and trampoline leaves own no page. -/
theorem pages_setLeaf_top {v : Nat} {pte : Pte} (hv : userPages ≤ v) : (pt.setLeaf v pte).pages = pt.pages := by
  have ht : (pt.setLeaf v pte).tables = pt.tables := tables_congr (by simp) (by simp) (by simp)
  have hf : (pt.setLeaf v pte).frames = pt.frames := by
    refine frames_congr (fun w hw => ?_)
    unfold setLeaf
    split
    · exact Function.update_of_ne (by omega) _ _
    · rfl
  rw [pages, ht, hf, pages]

/-- Unmapping a user page takes its frame out. -/
theorem pages_clearLeaf {v : Nat} {pte : Pte} (hv : v < userPages) (h : pt.leaf v = some pte) :
    (pt.clearLeaf v).pages + {pte.pa} = pt.pages := by
  have ht : (pt.clearLeaf v).tables = pt.tables := tables_congr rfl rfl rfl
  have hc := content_clear userPages pt.frame v hv
  rw [show pt.frame v = some pte.pa by simp [frame, h], slot_some] at hc
  rw [pages, ht, frames, frame_clearLeaf, add_assoc, hc, pages, frames]

theorem pages_clearLeaf_top {v : Nat} (hv : userPages ≤ v) : (pt.clearLeaf v).pages = pt.pages := by
  have ht : (pt.clearLeaf v).tables = pt.tables := tables_congr rfl rfl rfl
  have hf : (pt.clearLeaf v).frames = pt.frames := frames_congr (fun w hw => Function.update_of_ne (by omega) _ _)
  rw [pages, ht, hf, pages]

/-- Clearing an entry that is not valid changes nothing. -/
theorem clearLeaf_self {v : Nat} (h : pt.leaf v = none) : pt.clearLeaf v = pt := by
  ext1
  · rfl
  · rfl
  · rfl
  · rw [clearLeaf_leaf, ← h, Function.update_eq_self]

/-- Changing the permissions of an entry moves no page. -/
theorem pages_modLeaf {v : Nat} {f : Pte → Pte} (hf : ∀ pte, (f pte).pa = pte.pa) : (pt.modLeaf v f).pages = pt.pages := by
  have ht : (pt.modLeaf v f).tables = pt.tables := tables_congr (by simp) (by simp) (by simp)
  have hfr : (pt.modLeaf v f).frame = pt.frame := by
    funext w
    unfold frame
    by_cases hw : w = v
    · subst hw
      cases h : pt.leaf w with
      | none => simp [modLeaf, h]
      | some pte => simp [modLeaf_leaf _ _ _ _ h, hf]
    · rw [modLeaf_leaf_of_ne _ _ _ hw]
  rw [pages, ht, frames, hfr, pages, frames]

/-- A user leaf's frame is a page of the address space. -/
theorem mem_pages_of_leaf {v : Nat} {pte : Pte} (hv : v < userPages) (h : pt.leaf v = some pte) : pte.pa ∈ pt.pages := by
  rw [pages, Multiset.mem_add, frames, mem_content]
  exact Or.inr ⟨v, hv, by simp [frame, h]⟩

/-- No frame is mapped at two user pages of one address space, when it owns no page twice. -/
theorem leaf_inj {v w : Nat} {pte pte' : Pte} (hn : pt.pages.Nodup) (hv : v < userPages) (hw : w < userPages)
    (h : pt.leaf v = some pte) (h' : pt.leaf w = some pte') (he : pte.pa = pte'.pa) : v = w := by
  have hf : (content userPages pt.frame).Nodup := by
    rw [pages, Multiset.nodup_add] at hn
    exact hn.2.1
  have hfv : pt.frame v = some pte.pa := by simp [frame, h]
  have hfw : pt.frame w = some pte.pa := by simp [frame, h', he]
  exact slot_injective hf hv hw hfv hfw

end PageTable

/-! ## The frame condition -/

/-- The parts of the machine that memory management leaves alone. -/
structure SameEnv (m m' : Machine) : Prop where
  kend : m'.kend = m.kend
  trampoline : m'.trampoline = m.trampoline
  fs : m'.fs = m.fs
  noff : m'.noff = m.noff
  trace : m'.trace = m.trace

theorem SameEnv.refl (m : Machine) : SameEnv m m := ⟨rfl, rfl, rfl, rfl, rfl⟩

theorem SameEnv.trans {m₁ m₂ m₃ : Machine} (h : SameEnv m₁ m₂) (h' : SameEnv m₂ m₃) : SameEnv m₁ m₃ :=
  ⟨h'.kend.trans h.kend, h'.trampoline.trans h.trampoline, h'.fs.trans h.fs, h'.noff.trans h.noff, h'.trace.trans h.trace⟩

theorem SameEnv.fill (m : Machine) (pa : Pa) (page : Page) : SameEnv m (m.fill pa page) := ⟨rfl, rfl, rfl, rfl, rfl⟩

/-- A page that is not free stays so, with its contents: what an operation does that only takes pages, or gives back pages it
has taken. -/
structure Alloc (m m' : Machine) : Prop extends SameEnv m m' where
  kept : ∀ q, q ∉ m.freelist → q ∉ m'.freelist
  mem : ∀ q, q ∉ m.freelist → m'.mem q = m.mem q

theorem Alloc.refl (m : Machine) : Alloc m m := ⟨SameEnv.refl m, fun _ h => h, fun _ _ => rfl⟩

theorem Alloc.trans {m₁ m₂ m₃ : Machine} (h : Alloc m₁ m₂) (h' : Alloc m₂ m₃) : Alloc m₁ m₃ :=
  ⟨h.toSameEnv.trans h'.toSameEnv, fun q hq => h'.kept q (h.kept q hq),
    fun q hq => (h'.mem q (h.kept q hq)).trans (h.mem q hq)⟩

/-- The free list, as a multiset. -/
def free (m : Machine) : Multiset Pa := m.freelist

@[simp] theorem free_fill (m : Machine) (pa : Pa) (page : Page) : free (m.fill pa page) = free m := rfl

/-- An operation that moves pages only between the free list and what `before` and `after` count, and writes to no other page. -/
structure Moves (m : Machine) (before : Multiset Pa) (m' : Machine) (after : Multiset Pa) : Prop extends SameEnv m m' where
  pages : free m' + after = free m + before
  mem : ∀ q, q ∉ free m + before → m'.mem q = m.mem q

namespace Moves

variable {m m₁ m₂ m₃ : Machine} {a b c : Multiset Pa}

theorem refl (m : Machine) (a : Multiset Pa) : Moves m a m a := ⟨SameEnv.refl m, rfl, fun _ _ => rfl⟩

theorem trans (h : Moves m₁ a m₂ b) (h' : Moves m₂ b m₃ c) : Moves m₁ a m₃ c :=
  ⟨h.toSameEnv.trans h'.toSameEnv, h'.pages.trans h.pages,
    fun q hq => (h'.mem q (h.pages ▸ hq)).trans (h.mem q hq)⟩

/-- Pages that are not part of the operation can be counted along. -/
theorem frame (h : Moves m₁ a m₂ b) (c : Multiset Pa) : Moves m₁ (a + c) m₂ (b + c) := by
  refine ⟨h.toSameEnv, by rw [← add_assoc, h.pages, add_assoc], fun q hq => h.mem q (fun hm => hq ?_)⟩
  rw [← add_assoc]
  exact Multiset.mem_add.mpr (Or.inl hm)

theorem congr {a' b' : Multiset Pa} (h : Moves m₁ a m₂ b) (ha : a = a') (hb : b = b') : Moves m₁ a' m₂ b' := ha ▸ hb ▸ h

/-- What starts with no page of its own leaves every page that is not free. -/
theorem alloc (h : Moves m₁ 0 m₂ b) : Alloc m₁ m₂ := by
  have hsub : ∀ q, q ∈ m₂.freelist → q ∈ m₁.freelist := fun q hq => by
    have hmem : q ∈ free m₂ + b := Multiset.mem_add.mpr (Or.inl hq)
    rwa [h.pages, add_zero] at hmem
  exact ⟨h.toSameEnv, fun q hq hq' => hq (hsub q hq'), fun q hq => h.mem q (by rwa [add_zero])⟩

/-- Writing a page that is counted. -/
theorem fill {pa : Pa} (page : Page) (h : pa ∈ a) : Moves m a (m.fill pa page) a :=
  ⟨SameEnv.fill m pa page, rfl, fun _ hq =>
    m.fill_mem_of_ne page (ne_of_mem_of_not_mem (Multiset.mem_add.mpr (Or.inr h)) hq).symm⟩

end Moves

/-! ## `kalloc` and `kfree` -/

/-- `kalloc` takes one page off the free list. -/
theorem kalloc_moves {m m' : Machine} {pa : Pa} (h : kalloc m = some (m', pa)) : Moves m 0 m' {pa} := by
  obtain ⟨hfree, hm⟩ := kalloc_some h
  have hpages : free m' + {pa} = free m := by
    rw [add_comm, Multiset.singleton_add, free, free, hfree, Multiset.cons_coe]
  refine ⟨by rw [hm]; exact ⟨rfl, rfl, rfl, rfl, rfl⟩, by rw [hpages, add_zero], fun q hq => ?_⟩
  rw [hm]
  refine Machine.fill_mem_of_ne _ _ (fun e => hq ?_)
  rw [add_zero, ← hpages, e]
  exact Multiset.mem_add.mpr (Or.inr (Multiset.mem_singleton_self pa))

/-- `kalloc` leaves every page that was not free. -/
theorem kalloc_alloc {m m' : Machine} {pa : Pa} (h : kalloc m = some (m', pa)) : Alloc m m' ∧ pa ∈ m.freelist := by
  obtain ⟨hfree, hm⟩ := kalloc_some h
  refine ⟨⟨(kalloc_moves h).toSameEnv, fun q hq hq' => hq (hfree ▸ List.mem_cons_of_mem _ hq'), fun q hq => ?_⟩,
    hfree ▸ List.mem_cons_self⟩
  rw [hm]
  exact Machine.fill_mem_of_ne _ _ (fun e => hq (by rw [e, hfree]; exact List.mem_cons_self))

/-- `kfree` puts one page on the free list. -/
theorem kfree_moves {m m' : Machine} {pa : Pa} (h : kfree m pa = .ok m') : Moves m {pa} m' 0 := by
  rw [kfree_ok h]
  refine ⟨⟨rfl, rfl, rfl, rfl, rfl⟩, ?_, fun q hq => ?_⟩
  · rw [add_zero, add_comm, Multiset.singleton_add, free, free, Multiset.cons_coe]
  · refine Machine.fill_mem_of_ne m _ (fun e => hq ?_)
    rw [e]
    exact Multiset.mem_add.mpr (Or.inr (Multiset.mem_singleton_self pa))

/-- Taking a page, writing to it and other free pages, and giving it back is `Alloc`. -/
theorem Alloc.kfree {m m₁ m' : Machine} {pa : Pa} (h : Alloc m m₁) (hpa : pa ∈ m.freelist) (hf : kfree m₁ pa = .ok m') :
    Alloc m m' := by
  rw [kfree_ok hf]
  refine ⟨h.toSameEnv.trans ⟨rfl, rfl, rfl, rfl, rfl⟩, fun q hq hq' => ?_, fun q hq => ?_⟩
  · rcases List.mem_cons.mp hq' with rfl | hm
    · exact hq hpa
    · exact h.kept q hq hm
  · rw [← h.mem q hq]
    refine Machine.fill_mem_of_ne m₁ _ (fun e => hq ?_)
    rwa [e]

/-- Writing to a page that was free is `Alloc`. -/
theorem Alloc.fill {m m₁ : Machine} {pa : Pa} (h : Alloc m m₁) (hpa : pa ∈ m.freelist) (page : Page) :
    Alloc m (m₁.fill pa page) :=
  ⟨h.toSameEnv.trans (SameEnv.fill m₁ pa page), h.kept, fun q hq =>
    (m₁.fill_mem_of_ne page (ne_of_mem_of_not_mem hpa hq).symm).trans (h.mem q hq)⟩

end Xv6SnifferBakery.Kernel
