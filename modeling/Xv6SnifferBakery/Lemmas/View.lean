import Xv6SnifferBakery.Lemmas.Conservation

/-!
# What a user load yields

The view of an address: the byte its frame holds, or, when it is not mapped, the byte a page fault would bring. The view is a
function of the state; a fault that succeeds yields it. The lemmas on frames say which memory a page event leaves alone.
-/

namespace Xv6SnifferBakery.Kernel

open Lib

/-! ## The view -/

/-- The contents of a page that is loaded for the first time. -/
def freshPage (fs : Fs) (p : Proc) (va : Nat) : Page := if inExec p va then execPage fs p va else fun _ => 0

/-- The page in the swap slot of an entry, when the file reaches that far. -/
def swapPage (fs : Fs) (p : Proc) (e : PageInfo) : Option Page :=
  match p.swapFile with
  | none => none
  | some f =>
    let ip := fs.inode (fs.ftable f).ip
    if readi ip (slotOff e.swapSlot) pgSize = pgSize then some (fun k => ip.data (slotOff e.swapSlot + k)) else none

/-- What a fault would load for page `va`: nothing when it refuses, or has no entry for the page. -/
def demandPage (fs : Fs) (p : Proc) (va : Nat) : Option Page :=
  if ¬faultValid p va then none
  else
    match entryOf p va with
    | some e => if e.state = .swapped then swapPage fs p e else some (freshPage fs p va)
    | none => if maxPages ≤ p.pages.length then none else some (freshPage fs p va)

/-- What a user load yields: the byte in memory, or the byte a fault would bring. -/
def view (m : Machine) (p : Proc) (a : Nat) : Option Byte :=
  if maxVa ≤ a then none
  else
    match p.pagetable.leaf (a / 4096) with
    | some pte => if pte.perm.u && pte.perm.r then some (m.mem pte.pa (a % 4096)) else none
    | none => (demandPage m.fs p (pgRoundDown a)).map (fun page => page (a % 4096))

variable {m m' : Machine} {p p' : Proc} {i va a : Nat}

/-- Where a page is mapped, the view is what the hardware loads. -/
theorem view_mapped {pte : Pte} (h : p.pagetable.leaf (a / 4096) = some pte) : view m p a = userLoad m p a := by
  unfold view userLoad translate
  rw [h]
  split
  · rfl
  · simp only
    split <;> rfl

theorem view_unmapped (ha : a < maxVa) (h : p.pagetable.leaf (a / 4096) = none) :
    view m p a = (demandPage m.fs p (pgRoundDown a)).map (fun page => page (a % 4096)) := by
  unfold view
  rw [if_neg (Nat.not_le.mpr ha), h]

/-! ## Files that paging reads -/

theorem ilock_inode {fs fs' : Fs} {ip : Nat} (h : ilock fs ip = .ok fs') : fs'.inode = fs.inode ∧ fs'.ftable = fs.ftable := by
  unfold ilock at h
  split at h
  · nomatch h
  split at h
  · obtain rfl := Except.ok.inj h
    exact ⟨rfl, rfl⟩
  split at h
  · nomatch h
  · obtain rfl := Except.ok.inj h
    exact ⟨rfl, rfl⟩

/-- The contents of a page of the executable depend on the inodes and on what the process has recorded of the file. -/
theorem execPage_congr {fs fs' : Fs} (hfs : fs'.inode = fs.inode) (hseg : p'.segments = p.segments) (hino : p'.execInode = p.execInode)
    (va : Nat) : execPage fs' p' va = execPage fs p va := by
  rw [execPage, findSegment, hseg, hino, hfs, execPage, findSegment]

theorem freshPage_congr {fs fs' : Fs} (hfs : fs'.inode = fs.inode) (himg : SameImage p p') (va : Nat) :
    freshPage fs' p' va = freshPage fs p va := by
  have hseg : p'.segments = p.segments := by rw [himg.eq]; rfl
  have hino : p'.execInode = p.execInode := by rw [himg.eq]; rfl
  have hexec : inExec p' va ↔ inExec p va := by rw [himg.eq]; rfl
  unfold freshPage
  rw [execPage_congr hfs hseg hino]
  simp only [hexec]

/-- Fetching a page reads inodes only. -/
theorem Fetched.inode {src : Source} {page : Page} (h : Fetched m p i va src m' p' page) : m'.fs.inode = m.fs.inode := by
  cases h with
  | zero => rfl
  | exec => rfl
  | execRead _ hl => exact (ilock_inode hl).1
  | swap _ _ hl => exact (ilock_inode hl).1

/-- The contents fetched for a page that is not in the swap file. -/
theorem Fetched.fresh {src : Source} {page : Page} (h : Fetched m p i va src m' p' page) (hsrc : src = .exec ↔ src ≠ .swap ∧ inExec p va)
    (hns : src ≠ .swap) : page = freshPage m.fs p va := by
  cases h with
  | zero =>
    have hx : ¬inExec p va := by simpa using hsrc
    rw [freshPage, if_neg hx]
  | exec =>
    have hx : inExec p va := (hsrc.mp rfl).2
    rw [freshPage, if_pos hx]
  | execRead _ hl =>
    have hx : inExec p va := (hsrc.mp rfl).2
    rw [freshPage, if_pos hx, execPage_congr (ilock_inode hl).1 rfl rfl]
  | swap => exact absurd rfl hns

/-! ## Frames -/

/-- What loading a page does to memory: the frame was free and holds the contents; frames that were not free keep theirs. -/
structure LoadMem (m : Machine) (mem : Pa) (page : Page) (m' : Machine) : Prop where
  free : mem ∈ m.freelist
  taken : m.freelist.Nodup → mem ∉ m'.freelist
  kept : ∀ q, q ∉ m.freelist → q ∉ m'.freelist
  contents : m.freelist.Nodup → m'.mem mem = page
  others : ∀ q, q ∉ m.freelist → m'.mem q = m.mem q

theorem Load.mem {src : Source} {m₁ m₂ : Machine} {mem : Pa} {p₂ : Proc} {page : Page} {pt : PageTable}
    (h : Load m p i va src m₁ mem m₂ p₂ page pt m' p') : LoadMem m mem page m' := by
  obtain ⟨halloc, hfree⟩ := kalloc_alloc h.alloc
  have hsame := h.fetched.same.1
  have hcons := (kalloc_some h.alloc).1
  obtain ⟨-, -, hs⟩ := h.leaf
  have hlist : (m₂.fill mem page).freelist = m₁.freelist := hsame.freelist
  have hne : m.freelist.Nodup → mem ∉ m₁.freelist := by
    intro hn
    rw [hcons] at hn
    exact (List.nodup_cons.mp hn).1
  have hkept : ∀ q, q ∉ m.freelist → q ∉ (m₂.fill mem page).freelist := fun q hq => hlist ▸ halloc.kept q hq
  refine ⟨hfree, fun hn => hs.alloc.kept mem (hlist ▸ hne hn), fun q hq => hs.alloc.kept q (hkept q hq), ?_, ?_⟩
  · intro hn
    rw [hs.alloc.mem mem (hlist ▸ hne hn), Machine.fill_mem_self]
  · intro q hq
    have hqm : q ≠ mem := by
      rintro rfl
      exact hq hfree
    rw [hs.alloc.mem q (hkept q hq), Machine.fill_mem_of_ne _ _ hqm, hsame.mem, halloc.mem q hq]

/-- A load that fails leaves the frames that were not free. -/
theorem LoadFail.mem {src : Source} (h : LoadFail m p i va src m' p') :
    (∀ q, q ∉ m.freelist → m'.mem q = m.mem q) ∧ m'.fs.inode = m.fs.inode ∧ p'.pagetable.leaf = p.pagetable.leaf := by
  cases h with
  | read hk _ _ _ hl _ hkf =>
    obtain ⟨halloc, hfree⟩ := kalloc_alloc hk
    refine ⟨fun q hq => ?_, ?_, rfl⟩
    · have hqm : q ≠ _ := fun he => hq (he ▸ hfree)
      rw [kfree_ok hkf]
      exact (Function.update_of_ne hqm _ _).trans (halloc.mem q hq)
    · rw [kfree_ok hkf]
      exact (ilock_inode hl).1.trans (congrArg Fs.inode halloc.fs)
  | map hk hf hm hkf =>
    rename_i m₁ m₂ m₃ p₂ page pt mem
    obtain ⟨halloc, hfree⟩ := kalloc_alloc hk
    obtain ⟨hr, -⟩ | ⟨-, hs⟩ := mappages_page hm
    · nomatch hr
    obtain ⟨hsame, -, hpt, -⟩ := hf.same
    refine ⟨fun q hq => ?_, ?_, hs.leaf.trans (by rw [hpt])⟩
    · have hqm : q ≠ mem := fun he => hq (he ▸ hfree)
      have hq₂ : q ∉ (m₂.fill mem page).freelist := by
        change q ∉ m₂.freelist
        rw [hsame.freelist]
        exact halloc.kept q hq
      rw [kfree_ok hkf]
      refine (Function.update_of_ne hqm _ _).trans ?_
      rw [hs.alloc.mem q hq₂, Machine.fill_mem_of_ne _ _ hqm, hsame.mem, halloc.mem q hq]
    · rw [kfree_ok hkf]
      change m₃.fs.inode = _
      rw [hs.alloc.fs]
      exact hf.inode.trans (congrArg Fs.inode halloc.fs)

/-- An event that does not write to the swap file leaves the inodes. -/
theorem PageStep.inode {ev : PageEvent} (h : PageStep (m, p) ev (m', p')) (hev : ¬ev.swapsOut) : m'.fs.inode = m.fs.inode := by
  cases h with
  | kill | track | firstWrite | store | copy => rfl
  | evictClean hx => rw [kfree_ok hx.freed]; rfl
  | evictDirty | evictFail => exact absurd trivial hev
  | load _ _ _ _ _ hx =>
    obtain ⟨-, -, hs⟩ := hx.leaf
    rw [hs.alloc.fs]
    exact hx.fetched.inode.trans (congrArg Fs.inode (kalloc_alloc hx.alloc).1.fs)
  | loadFail _ _ _ hx => exact hx.mem.2.1

/-- The page an event takes out of memory. -/
def PageEvent.evicts (v : Nat) : PageEvent → Prop
  | .evictClean _ va | .evictDirty _ va => va / 4096 = v
  | _ => False

/-- The page an event writes to. -/
def PageEvent.writes (v : Nat) : PageEvent → Prop
  | .store a _ => a / 4096 = v
  | .copy va => va / 4096 = v
  | _ => False

/-- A page that an event neither evicts nor writes to keeps its frame and its contents. -/
theorem PageStep.kept {ev : PageEvent} {v : Nat} {pte : Pte} (hinv : PageInv m p) (h : PageStep (m, p) ev (m', p'))
    (hv : v < userPages) (hl : p.pagetable.leaf v = some pte) (hev : ¬ev.evicts v) (hw : ¬ev.writes v) :
    (∃ perm, p'.pagetable.leaf v = some ⟨pte.pa, perm⟩) ∧ m'.mem pte.pa = m.mem pte.pa := by
  have hfree := hinv.not_free hv hl
  have hunmap : ∀ {m₀ : Machine} {j : Nat} {e : PageInfo} {q : Pte}, p.pages[j]? = some e →
      p.pagetable.leaf (e.va / 4096) = some q → kfree m₀ q.pa = .ok m' → m₀.mem = m.mem → ¬e.va / 4096 = v →
      (∃ perm, (p.pagetable.clearLeaf (e.va / 4096)).leaf v = some ⟨pte.pa, perm⟩) ∧ m'.mem pte.pa = m.mem pte.pa := by
    intro m₀ j e q he hq hk hmem hne
    refine ⟨⟨pte.perm, (Function.update_of_ne (Ne.symm hne) _ _).trans hl⟩, ?_⟩
    have hpa : pte.pa ≠ q.pa := fun heq => hne (hinv.leaf_inj hv (hinv.wf.entry he).1 hl hq heq).symm
    rw [kfree_ok hk, ← hmem]
    exact Function.update_of_ne hpa _ _
  cases h with
  | kill => exact ⟨⟨pte.perm, hl⟩, rfl⟩
  | track => exact ⟨⟨pte.perm, hl⟩, rfl⟩
  | evictClean h =>
    rw [h.proc]
    exact hunmap h.victim.entry h.victim.leaf h.freed rfl hev
  | evictDirty h =>
    rw [h.proc]
    exact hunmap h.victim.entry h.victim.leaf h.freed (h.written.sameMem.mem.trans h.opened.sameMem.mem) hev
  | evictFail h =>
    refine ⟨⟨pte.perm, ?_⟩, by rw [h.sameMem.mem]⟩
    rw [h.proc]
    exact hl
  | load _ _ _ _ _ h =>
    obtain ⟨hleaf, hnone, -⟩ := h.leaf
    refine ⟨⟨pte.perm, ?_⟩, h.mem.others _ hfree⟩
    rw [hleaf, Function.update_of_ne (fun he => by rw [he, hnone] at hl; nomatch hl)]
    exact hl
  | loadFail _ _ _ h =>
    obtain ⟨hmem, -, hleaf⟩ := h.mem
    exact ⟨⟨pte.perm, by rw [hleaf]; exact hl⟩, hmem _ hfree⟩
  | firstWrite h haddr =>
    rename_i i va e q
    refine ⟨?_, rfl⟩
    by_cases hva : v = va / 4096
    · subst hva
      refine ⟨{ pte.perm with w := true }, ?_⟩
      change (p.pagetable.modLeaf _ _).leaf _ = _
      rw [PageTable.modLeaf_leaf _ _ _ _ hl, Function.update_self]
    · refine ⟨pte.perm, ?_⟩
      change (p.pagetable.modLeaf _ _).leaf _ = _
      rw [PageTable.modLeaf_leaf_of_ne _ _ _ hva]
      exact hl
  | store h =>
    rename_i a b pa
    refine ⟨⟨pte.perm, hl⟩, ?_⟩
    obtain ⟨q, hq, hu, -, rfl⟩ := translate_some h
    have hne : pte.pa ≠ q.pa := fun he => hw (hinv.leaf_inj hv (hinv.wf.user_lt hq hu) hl hq he).symm
    exact Machine.fill_mem_of_ne _ _ hne
  | copy hlt hq hu hqw =>
    rename_i va q page
    refine ⟨⟨pte.perm, hl⟩, ?_⟩
    have hne : pte.pa ≠ q.pa := fun he => hw (hinv.leaf_inj hv (hinv.wf.user_lt hq hu) hl hq he).symm
    exact Machine.fill_mem_of_ne _ _ hne

/-- Reading the swap page of an entry when the swap file is there. -/
theorem swapPage_of_read {fs : Fs} {f : Nat} {e : PageInfo} (hf : p.swapFile = some f)
    (hr : readi (fs.inode (fs.ftable f).ip) (slotOff e.swapSlot) pgSize = pgSize) :
    swapPage fs p e = some (fun k => (fs.inode (fs.ftable f).ip).data (slotOff e.swapSlot + k)) := by
  rw [swapPage, hf]
  exact if_pos hr

/-- A fault for reading that succeeds on an unmapped page, with a page of memory free, yields the view. -/
theorem view_fault {u : Bool} (ha : a < maxVa) (hfree : m.freelist ≠ []) (hn : m.freelist.Nodup)
    (hleaf : p.pagetable.leaf (a / 4096) = none) (h : handlePageFault m p a .read u = .ok (m', p', true)) :
    view m p a = userLoad m' p' a := by
  have hround : pgRoundDown (pgRoundDown a) = pgRoundDown a := pgRoundDown_idem a
  rw [view_unmapped ha hleaf]
  cases handlePageFault_cases h with
  | firstWrite hacc => nomatch hacc
  | load hpass htr he hl =>
    rename_i i e p₁
    cases hl with
    | load hfreed hload =>
      cases hfreed with
      | clean hempty => exact absurd hempty hfree
      | dirty hempty => exact absurd hempty hfree
      | free =>
        rename_i m₂ m₃ p₂ mem page pt _
        have hmem := hload.mem
        obtain ⟨hleaf', -, -⟩ := hload.leaf
        -- the load finds what was fetched
        have huser : userLoad m' p' a = some (page (a % 4096)) := by
          unfold userLoad translate
          rw [if_neg (Nat.not_le.mpr ha), hleaf', pgRoundDown_div, Function.update_self]
          have hu := Source.perm_u (sourceOf p₁ e (pgRoundDown a)) p₁ (pgRoundDown a)
          have hr := Source.perm_r (sourceOf p₁ e (pgRoundDown a)) p₁ (pgRoundDown a)
          simp only [hu, hr, Bool.and_self, if_true, Option.map_some, hmem.contents hn]
        rw [huser]
        -- and that is what the page demands
        have halloc := (kalloc_alloc hload.alloc).1
        have hdemand : demandPage m.fs p (pgRoundDown a) = some page := by
          rw [demandPage, if_neg (not_not.mpr hpass.valid)]
          have hfetch : e.state ≠ .swapped → page = freshPage m.fs p₁ (pgRoundDown a) := by
            intro hns
            have hsrc : sourceOf p₁ e (pgRoundDown a) ≠ .swap := fun hs => hns (sourceOf_swap.mp hs)
            rw [hload.fetched.fresh sourceOf_exec hsrc]
            exact freshPage_congr (congrArg Fs.inode halloc.fs) (SameImage.refl _) _
          cases htr with
          | old hfind =>
            have hentry : entryOf p (pgRoundDown a) = some e := by rw [entryOf, hfind, Option.bind_some, he]
            rw [hentry]
            simp only
            by_cases hs : e.state = .swapped
            · rw [if_pos hs]
              have hsrc : sourceOf p e (pgRoundDown a) = .swap := sourceOf_swap.mpr hs
              have hf := hload.fetched
              rw [hsrc] at hf
              cases hf with
              | swap hfile hentry' hlock hread =>
                obtain rfl := Option.some.inj (he.symm.trans hentry')
                have hino := (ilock_inode hlock).1
                rw [halloc.fs] at hino hread ⊢
                rw [hino] at hread ⊢
                exact swapPage_of_read hfile hread
            · rw [if_neg hs, hfetch hs]
          | new hfind hroom =>
            have hentry : entryOf p (pgRoundDown a) = none := by rw [entryOf, hfind]; rfl
            have he' : e = ⟨pgRoundDown (pgRoundDown a), .unmapped, false, 0, -1⟩ := by simpa using he.symm
            rw [hentry]
            simp only
            rw [if_neg (Nat.not_le.mpr hroom), hfetch (by rw [he']; simp)]
            have himg : SameImage p (p.track (pgRoundDown (pgRoundDown a))) := rfl
            exact congrArg some (freshPage_congr rfl himg _).symm
        rw [hdemand]
        rfl

/-- A load from address `a` yields `b`: at once, or after a fault that is served and finds a page of memory free. Where none is free the
fault evicts one first. -/
inductive LoadYields (a : Nat) (b : Byte) (m : Machine) (p : Proc) : Prop where
  | now (h : userLoad m p a = some b)
  | fault {m' : Machine} {p' : Proc} (unmapped : p.pagetable.leaf (a / 4096) = none) (free : m.freelist ≠ [])
      (served : handlePageFault m p a .read true = .ok (m', p', true)) (retry : userLoad m' p' a = some b)

theorem userLoad_some {b : Byte} (h : userLoad m p a = some b) : a < maxVa ∧ (p.pagetable.leaf (a / 4096)).isSome := by
  obtain ⟨pa, hpa, -⟩ := Option.map_eq_some_iff.mp h
  have hmax : a < maxVa := by
    by_contra hge
    rw [translate, if_pos (Nat.not_lt.mp hge)] at hpa
    cases hpa
  obtain ⟨pte, hleaf, -⟩ := translate_some hpa
  exact ⟨hmax, Option.isSome_of_eq_some hleaf⟩

/-- The view is what a load yields. -/
theorem LoadYields.view {b : Byte} (h : LoadYields a b m p) (hn : m.freelist.Nodup) : view m p a = some b := by
  cases h with
  | now h =>
    obtain ⟨pte, hpte⟩ := Option.isSome_iff_exists.mp (userLoad_some h).2
    rw [view_mapped hpte, h]
  | fault unmapped free served retry => rw [view_fault (userLoad_some retry).1 free hn unmapped served, retry]

end Xv6SnifferBakery.Kernel
