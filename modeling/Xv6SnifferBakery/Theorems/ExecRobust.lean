import Xv6SnifferBakery.Lemmas.Freeing
import Xv6SnifferBakery.Lemmas.Image
import Xv6SnifferBakery.Lemmas.Panics
import Xv6SnifferBakery.Lemmas.Replay
import Xv6SnifferBakery.Lemmas.Room

/-!
# `exec` of any file

`kexec` checks of a segment only that its end does not wrap and that it begins at a page. Nothing keeps the segments apart or below
the trapframe page, and the old address space is freed as far as its size says.
-/

namespace Xv6SnifferBakery.Kernel

open Lib

/-! ## Program headers -/

/-- The loadable headers that `kexec` accepts, `n` headers of the file from offset `off` on: those up to the first it refuses, and
whether it refuses none. -/
def acceptLoop (ip : Inode) : Nat → Nat → List ProgHdr × Bool
  | 0, _ => ([], true)
  | n + 1, off =>
    if readi ip off progHdrSize ≠ progHdrSize then ([], false)
    else
      let ph := progHdr ip.data off
      let rest := acceptLoop ip n ((off + progHdrSize) % 2 ^ 32)
      if ph.type ≠ elfProgLoad then rest
      else if ph.ok then (ph :: rest.1, rest.2)
      else ([], false)

/-- The loadable headers of a file that `kexec` accepts. -/
def accepted (ip : Inode) : List ProgHdr × Bool := acceptLoop ip (elfHdr ip.data).phnum ((elfHdr ip.data).phoff % 2 ^ 32)

/-- The end of the highest segment. -/
def hdrsEnd (hs : List ProgHdr) : Nat := hs.foldr (fun ph top => max ph.vend top) 0

/-- The page after the highest segment of a file, where its heap begins. -/
def fileTop (ip : Inode) : Nat := pgRoundUp (hdrsEnd (accepted ip).1)

/-- The headers `kexec` records: the first eight. -/
def recorded (ip : Inode) : List ProgHdr := (accepted ip).1.take maxSegments

section Scan

variable {ip : Inode} {st : Scan}

/-- The scan adds the headers one after the other. -/
theorem scanLoop_accept {n off : Nat} : scanLoop ip n off st = ((acceptLoop ip n off).1.foldl Scan.add st, (acceptLoop ip n off).2) := by
  induction n generalizing off st with
  | zero => rfl
  | succ n ih =>
    rw [scanLoop, acceptLoop]
    by_cases hread : readi ip off progHdrSize ≠ progHdrSize
    · rw [if_pos hread, if_pos hread]
      rfl
    rw [if_neg hread, if_neg hread]
    by_cases htype : (progHdr ip.data off).type ≠ elfProgLoad
    · simp only [if_pos htype, ih]
    · simp only [if_neg htype]
      by_cases hok : (progHdr ip.data off).ok
      · simp only [if_pos hok, ih, List.foldl_cons]
      · simp only [if_neg hok, List.foldl_nil]

theorem foldl_add_sz (hs : List ProgHdr) : (hs.foldl Scan.add st).sz = max st.sz (hdrsEnd hs) := by
  induction hs generalizing st with
  | nil => simp [hdrsEnd]
  | cons ph hs ih =>
    have hsz : (st.add ph).sz = max st.sz ph.vend := by
      unfold Scan.add
      dsimp only
      split <;> omega
    rw [List.foldl_cons, ih, hsz, max_assoc]
    rfl

theorem scanFile_ok : (scanFile ip).2 = (accepted ip).2 := by
  rw [scanFile, scanLoop_accept]
  rfl

theorem scanFile_recorded : (scanFile ip).1.segs = (recorded ip).map ProgHdr.segment := by
  rw [scanFile, scanLoop_accept, recorded, List.map_take]
  exact foldl_segs

theorem scanFile_end : (scanFile ip).1.sz = hdrsEnd (accepted ip).1 := by
  rw [scanFile, scanLoop_accept]
  exact (foldl_add_sz _).trans (Nat.zero_max _)

end Scan

/-! ## The parts of the call -/

section Parts

variable {m m' : Machine} {p p' : Proc} {pt pt' : PageTable} {tr tf : Pa} {sz : Nat}

/-- The guard page of an image begins where its segments end. -/
theorem guardBase_imageTop (sz : Nat) : guardBase (imageTop sz) = pgRoundUp sz := by
  have hlt : pgRoundUp sz < 2 ^ 64 := by
    unfold pgRoundUp add64
    omega
  unfold guardBase imageTop add64 sub64 userStack pgSize
  omega

/-- `mappages` fails only with its own panics. -/
theorem mappages_ofTable {va : Nat} {pa : Pa} {perm : Perm} : Avoids (fun e => ¬e.ofTable) (mappages m pt va pgSize pa perm) := by
  unfold mappages
  refine Avoids.ite (fun _ => Avoids.error (not_not.mpr trivial)) (fun _ => ?_)
  refine Avoids.ite (fun _ => Avoids.error (not_not.mpr trivial)) (fun _ => ?_)
  refine Avoids.ite (fun _ => Avoids.error (not_not.mpr trivial)) (fun _ => ?_)
  rw [show pgSize / pgSize = 0 + 1 from rfl, mappagesLoop]
  have hwalk : Avoids (fun e : Panic => ¬e.ofTable) (walk m pt va true) := by
    unfold walk
    refine Avoids.ite (fun _ => Avoids.error (not_not.mpr trivial)) (fun _ => ?_)
    split
    · exact Avoids.ok _
    · dsimp only
      split <;> exact Avoids.ok _
  refine hwalk.bind ?_
  rintro ⟨m₁, pt₁, o⟩ _
  cases o with
  | none => exact Avoids.ok _
  | some v => exact Avoids.ite (fun _ => Avoids.error (not_not.mpr trivial)) (fun _ => Avoids.ok _)

theorem mappages_lt {va : Nat} {pa : Pa} {perm : Perm} {r : Bool} (h : mappages m pt va pgSize pa perm = .ok (m', pt', r)) :
    va < maxVa := by
  unfold mappages at h
  split at h
  · nomatch h
  rw [if_neg (by decide), if_neg (by decide), show pgSize / pgSize = 0 + 1 from rfl, mappagesLoop] at h
  obtain ⟨⟨m₁, pt₁, o⟩, hw, -⟩ := bind_ok h
  exact (walk_spec hw).lt

theorem uvmclear_safe {va : Nat} (h : va < maxVa) : TableSafe (uvmclear pt va) := by
  unfold uvmclear
  rw [if_neg (Nat.not_le.mpr h)]
  exact Avoids.ite (fun _ => Avoids.error id) (fun _ => Avoids.ok _)

theorem uvmclear_ofTable {va : Nat} (h : (pt.low (va / 2 ^ 21)).isSome) : Avoids (fun e => ¬e.ofTable) (uvmclear pt va) := by
  unfold uvmclear
  refine Avoids.ite (fun _ => Avoids.error (not_not.mpr trivial)) (fun _ => ?_)
  rw [if_neg (by rw [Option.isNone_iff_eq_none]; exact Option.isSome_iff_ne_none.mp h)]
  exact Avoids.ok _

/-- The stack page lies above the guard page. -/
theorem stackPage_eq (h : pgRoundUp sz < maxVa) : pgRoundDown (sub64 (imageTop sz) pgSize) = pgRoundUp sz + pgSize := by
  have hmod := imageTop_mod sz
  obtain ⟨h1, h2, h3⟩ := imageTop_of_guard (show guardBase (imageTop sz) < maxVa by rw [guardBase_imageTop]; exact h)
  rw [guardBase_imageTop] at h2
  rw [h3, pgRoundDown_of_aligned (by omega), pgSize]
  omega

/-- Making a table ends in no panic of the page table functions. -/
theorem procPagetable_safe (m : Machine) (tf : Pa) : TableSafe (procPagetable m tf) := by
  unfold procPagetable
  split
  · exact Avoids.ok _
  rename_i m₁ pt₁ hc
  obtain ⟨-, -, -, hleaf₁⟩ := uvmcreate_spec hc
  refine (mappages_safe (by decide) (by decide) (hleaf₁ _)).bind ?_
  rintro ⟨m₂, pt₂, b₂⟩ h2
  cases b₂ with
  | false => exact (uvmfree_safe (by decide)).bind (fun _ _ => Avoids.ok _)
  | true =>
    obtain ⟨-, hs⟩ | ⟨hf, -⟩ := mappages_page h2
    · have hfree : pt₂.leaf (trapframeVa / 4096) = none := by
        rw [hs.leaf, trapframeVa_div, trampolineVa_div, Function.update_of_ne (by omega), hleaf₁]
      refine (mappages_safe (by decide) (by decide) hfree).bind ?_
      rintro ⟨m₃, pt₃, b₃⟩ _
      cases b₃ with
      | false =>
        refine (uvmunmap_safe (by decide) (by decide) false).bind (fun _ _ => ?_)
        exact (uvmfree_safe (by decide)).bind (fun _ _ => Avoids.ok _)
      | true => exact Avoids.ok _
    · nomatch hf

/-- With three free pages it ends in no other panic either. -/
theorem procPagetable_ofTable (tf : Pa) (h : 3 ≤ m.freelist.length) : Avoids (fun e => ¬e.ofTable) (procPagetable m tf) := by
  unfold procPagetable
  split
  · exact Avoids.ok _
  rename_i m₁ pt₁ hc
  have hone : m.freelist.length = m₁.freelist.length + 1 ∧ pt₁.TablesFor [] := uvmcreate_room hc
  refine mappages_ofTable.bind ?_
  rintro ⟨m₂, pt₂, b₂⟩ h2
  obtain ⟨hiff₂, hroom₂⟩ := mappages_room hone.2 h2
  have hc₂ : tableCost [] trampolineVa = 2 := by decide
  have hc₃ : tableCost [trampolineVa] trapframeVa = 0 := by decide
  obtain rfl : b₂ = true := hiff₂.mpr (by omega)
  obtain ⟨hlen₂, hT₂⟩ := hroom₂ rfl
  refine mappages_ofTable.bind ?_
  rintro ⟨m₃, pt₃, b₃⟩ h3
  obtain rfl : b₃ = true := (mappages_room hT₂ h3).1.mpr (by omega)
  exact Avoids.ok _

/-- The way to an address around the trapframe page takes no table. -/
theorem tableCost_top {as : List Nat} {va : Nat} (has : trapframeVa ∈ as) (h : trapframeVa ≤ va + pgSize) (hlt : va < maxVa) :
    tableCost as va = 0 := by
  have hu := userPages_eq
  have htop := trapframeVa_eq
  unfold maxVa at hlt
  rw [pgSize] at h
  unfold tableCost
  rw [if_pos ⟨trapframeVa, has, by omega⟩, if_pos ⟨trapframeVa, has, by omega⟩]

/-- The guard page and the stack page lie below the trapframe page, as far as there is memory for them. -/
theorem execStack_below {b : Bool} (hpt : FreshTable tr tf pt) (hT : pt.TablesFor topPages)
    (h : execStack m pt (imageTop sz) = .ok (m', pt', b)) :
    (1 ≤ m.freelist.length → pgRoundUp sz < trapframeVa) ∧ (2 ≤ m.freelist.length → pgRoundUp sz + pgSize < trapframeVa) := by
  have hmod := pgRoundUp_mod sz
  have hmem : ∀ a, trapframeVa ∈ a :: topPages := fun a => List.mem_cons_of_mem _ List.mem_cons_self
  unfold execStack at h
  rw [guardBase_imageTop] at h
  cases hk : kalloc m with
  | none =>
    have hempty := congrArg List.length (kalloc_eq_none_iff.mp hk)
    rw [List.length_nil] at hempty
    constructor <;> intro hpos <;> omega
  | some x =>
    obtain ⟨m₁, gmem⟩ := x
    have hlen₁ : m.freelist.length = m₁.freelist.length + 1 := by
      rw [(kalloc_some hk).1]
      rfl
    simp only [hk] at h
    obtain ⟨⟨m₂, pt₂, b₂⟩, hm, h⟩ := bind_ok h
    have hlt := mappages_lt hm
    obtain ⟨hiff₂, hroom₂⟩ := mappages_room hT hm
    rw [Machine.fill_freelist] at hiff₂ hroom₂
    -- where a table was missing, the guard page is not next to the trapframe page
    have hfar : tableCost topPages (pgRoundUp sz) ≠ 0 → pgRoundUp sz + pgSize < trapframeVa := by
      intro hcost
      by_contra hge
      exact hcost (tableCost_top List.mem_cons_self (Nat.not_lt.mp hge) hlt)
    rcases mappages_page hm with ⟨rfl, hg⟩ | ⟨rfl, hg⟩
    · have hglt := hg.lt_userPages hpt.topped
      have hdiv := trapframeVa_eq
      have hbelow : pgRoundUp sz < trapframeVa := by omega
      refine ⟨fun _ => hbelow, fun htwo => ?_⟩
      obtain ⟨pt₃, hc, h⟩ := bind_ok h
      obtain rfl := uvmclear_spec hc
      obtain ⟨hlen₂, hT₂⟩ := hroom₂ rfl
      cases hk₂ : kalloc m₂ with
      | none =>
        have hempty := congrArg List.length (kalloc_eq_none_iff.mp hk₂)
        rw [List.length_nil] at hempty
        exact hfar (by omega)
      | some y =>
        obtain ⟨m₃, smem⟩ := y
        have hpage := stackPage_eq hlt
        simp only [hk₂, hpage] at h
        obtain ⟨⟨m₄, pt₄, b₄⟩, hm₄, -⟩ := bind_ok h
        have hlt₄ := mappages_lt hm₄
        by_contra hge
        rcases mappages_page hm₄ with ⟨-, hs⟩ | ⟨rfl, hs⟩
        · have htopped : (pt₂.modLeaf (pgRoundUp sz / 4096)
              (fun pte => { pte with perm := { pte.perm with u := false } })).Topped := by
            obtain ⟨h1, h2⟩ := hpt.topped
            refine ⟨?_, ?_⟩
            · rw [PageTable.modLeaf_leaf_of_ne _ _ _ (by omega), hg.leaf, Function.update_of_ne (by omega)]
              exact h1
            · rw [PageTable.modLeaf_leaf_of_ne _ _ _ (by omega), hg.leaf, Function.update_of_ne (by omega)]
              exact h2
          have hslt := hs.lt_userPages htopped
          rw [pgSize] at hslt hge
          omega
        · have hT₃ : (pt₂.modLeaf (pgRoundUp sz / 4096)
              (fun pte => { pte with perm := { pte.perm with u := false } })).TablesFor (pgRoundUp sz :: topPages) := by
            refine ⟨?_, ?_⟩
            · simpa using hT₂.mid
            · simpa using hT₂.low
          have hshort := (mappages_room hT₃ hm₄).1.not.mp (by simp)
          have hcost := tableCost_top (hmem (pgRoundUp sz)) (by omega) hlt₄
          omega
    · have hshort := hiff₂.not.mp (by simp)
      have hfar := hfar (by omega)
      exact ⟨fun _ => by omega, fun _ => hfar⟩

/-- Below the trapframe page, mapping the stack ends in no panic of the page table functions. -/
theorem execStack_safe (hpt : FreshTable tr tf pt) (hT : pt.TablesFor topPages)
    (hguard : 1 ≤ m.freelist.length → pgRoundUp sz < trapframeVa)
    (hstack : 2 ≤ m.freelist.length → pgRoundUp sz + pgSize < trapframeVa) : TableSafe (execStack m pt (imageTop sz)) := by
  have hmod := pgRoundUp_mod sz
  have htop : trapframeVa < maxVa := by decide
  have hdiv := trapframeVa_eq
  unfold execStack
  rw [guardBase_imageTop]
  cases hk : kalloc m with
  | none => exact Avoids.ok _
  | some x =>
    obtain ⟨m₁, gmem⟩ := x
    have hlen₁ : m.freelist.length = m₁.freelist.length + 1 := by
      rw [(kalloc_some hk).1]
      rfl
    have hlt := hguard (by omega)
    dsimp only
    refine (mappages_safe hmod (by omega) (hpt.rest _ (by omega) (by omega))).bind ?_
    rintro ⟨m₂, pt₂, b₂⟩ hm
    cases b₂ with
    | false => exact (kfree_safe _ _).bind (fun _ _ => Avoids.ok _)
    | true =>
      obtain ⟨-, hg⟩ | ⟨hf, -⟩ := mappages_page hm
      · refine (uvmclear_safe (by omega)).bind ?_
        intro pt₃ hc
        obtain rfl := uvmclear_spec hc
        cases hk₂ : kalloc m₂ with
        | none => exact Avoids.ok _
        | some y =>
          obtain ⟨m₃, smem⟩ := y
          obtain ⟨hlen₂, -⟩ := (mappages_room hT hm).2 rfl
          rw [Machine.fill_freelist, (kalloc_some hk₂).1, List.length_cons] at hlen₂
          have hslt := hstack (by omega)
          have hpage := stackPage_eq (show pgRoundUp sz < maxVa by omega)
          dsimp only
          rw [hpage]
          refine (mappages_safe (by unfold pgSize; omega) (by omega) ?_).bind ?_
          · rw [PageTable.modLeaf_leaf_of_ne _ _ _ (by unfold pgSize; omega), hg.leaf, Function.update_of_ne (by unfold pgSize; omega)]
            rw [pgSize] at hslt ⊢
            exact hpt.rest _ (by omega) (by omega)
          · rintro ⟨m₄, pt₄, b₄⟩ _
            cases b₄ with
            | false => exact (kfree_safe _ _).bind (fun _ _ => Avoids.ok _)
            | true => exact Avoids.ok _
      · cases hf

/-- Mapping the stack ends in no other panic. -/
theorem execStack_ofTable (hT : pt.TablesFor topPages) (hfree : ∀ q ∈ m.freelist, Freeable m.kend q) :
    Avoids (fun e => ¬e.ofTable) (execStack m pt (imageTop sz)) := by
  unfold execStack
  cases hk : kalloc m with
  | none => exact Avoids.ok _
  | some x =>
    obtain ⟨m₁, gmem⟩ := x
    obtain ⟨ha₁, hq₁⟩ := kalloc_alloc hk
    dsimp only
    refine mappages_ofTable.bind ?_
    rintro ⟨m₂, pt₂, b₂⟩ hm
    cases b₂ with
    | false =>
      obtain ⟨hr, -⟩ | ⟨-, hs⟩ := mappages_page hm
      · nomatch hr
      have hkend : m₂.kend = m.kend := hs.alloc.kend.trans ha₁.kend
      exact (kfree_avoids (hkend ▸ hfree _ hq₁)).bind (fun _ _ => Avoids.ok _)
    | true =>
      obtain ⟨-, hs⟩ | ⟨hr, -⟩ := mappages_page hm
      · have ha₂ : Alloc m m₂ := (ha₁.fill hq₁ _).trans hs.alloc
        obtain ⟨-, hT₂⟩ := (mappages_room hT hm).2 rfl
        have hlow : (pt₂.low (guardBase (imageTop sz) / 2 ^ 21)).isSome := (hT₂.low _).mpr ⟨_, List.mem_cons_self, rfl⟩
        refine (uvmclear_ofTable hlow).bind ?_
        intro pt₃ _
        cases hk₂ : kalloc m₂ with
        | none => exact Avoids.ok _
        | some y =>
          obtain ⟨m₃, smem⟩ := y
          obtain ⟨ha₃, hq₃⟩ := kalloc_alloc hk₂
          dsimp only
          refine mappages_ofTable.bind ?_
          rintro ⟨m₄, pt₄, b₄⟩ hm₄
          cases b₄ with
          | false =>
            obtain ⟨hr, -⟩ | ⟨-, hs₄⟩ := mappages_page hm₄
            · nomatch hr
            have hkend : m₄.kend = m.kend := hs₄.alloc.kend.trans (ha₃.kend.trans ha₂.kend)
            have hsmem : smem ∈ m.freelist := by
              by_contra hne
              exact ha₂.kept _ hne hq₃
            exact (kfree_avoids (hkend ▸ hfree _ hsmem)).bind (fun _ _ => Avoids.ok _)
          | true => exact Avoids.ok _
      · nomatch hr

end Parts

/-! ## Robustness -/

/-- No address lies in both segments. -/
def SegmentInfo.apart (a b : SegmentInfo) : Prop := ∀ x, ¬(a.vaStart ≤ x ∧ x < a.vaEnd ∧ b.vaStart ≤ x ∧ x < b.vaEnd)

/-- The segments, the heap, the guard page and the stack of a process lie below the trapframe page, one above the other, and the
segments do not overlap. -/
structure ImageOk (p : Proc) : Prop where
  segments : ∀ g ∈ p.segments, g.vaEnd ≤ p.heapStart
  heap : p.heapStart ≤ guardBase p.stackTop
  guard : guardBase p.stackTop < stackBase p.stackTop
  stack : stackBase p.stackTop < p.stackTop
  top : p.stackTop ≤ trapframeVa
  apart : p.segments.Pairwise SegmentInfo.apart

/-- A call of `exec` that ends in no panic of the page table functions, and installs only an image that is in order. -/
structure ExecRobust (x : Kern (Machine × Proc × Option Nat)) : Prop where
  safe : TableSafe x
  image : ∀ m p argc, x = .ok (m, p, some argc) → ImageOk p

/-- The segments of two program headers do not overlap. -/
def ProgHdr.apart (a b : ProgHdr) : Prop := a.segment.apart b.segment

/-- The files and arguments for which `exec` is robust, of a process of size `sz` with `free` free pages. A new table takes three of
them. -/
structure ExecFits (free sz : Nat) (ip : Inode) (argv : List (List Byte)) : Prop where
  refused : 3 ≤ free → (accepted ip).2 = false → fileTop ip ≤ maxVa
  noGuard : free = 3 → (accepted ip).2 = true → imageTop (hdrsEnd (accepted ip).1) ≤ maxVa
  guard : 4 ≤ free → (accepted ip).2 = true → fileTop ip < trapframeVa
  stack : 5 ≤ free → (accepted ip).2 = true → fileTop ip + pgSize < trapframeVa
  image : 3 + stackCost (fileTop ip) ≤ free → (accepted ip).2 = true → argsFit argv →
    pgRoundUp sz ≤ maxVa ∧ (∀ ph ∈ recorded ip, ph.vend ≤ fileTop ip) ∧ (recorded ip).Pairwise ProgHdr.apart

section Robust

variable {m m' : Machine} {p p' : Proc} {path : List Char} {argv : List (List Byte)} {fs₀ fs : Fs} {ip argc : Nat}

theorem stackCost_pos (base : Nat) : 2 ≤ stackCost base := by
  unfold stackCost
  omega

/-- The image a file gives is in order when the segments of its headers are. -/
theorem ExecDone.imageOk {fs₀ fs : Fs} {sp : Nat} {mem : Pa} {pt : PageTable} (h : ExecDone m p path m' p' fs₀ fs ip mem pt sp) :
    ImageOk p' ↔ (∀ ph ∈ recorded (fs.inode ip), ph.vend ≤ fileTop (fs.inode ip)) ∧ (recorded (fs.inode ip)).Pairwise ProgHdr.apart := by
  have hst := h.table.top
  have hproc := h.proc
  have hguard := guardBase_eq hst
  have hstack := stackBase_eq hst
  rw [guardBase_imageTop, scanFile_end] at hguard
  obtain ⟨h1, h2, h3⟩ := hst
  rw [commit_eq] at hproc
  have hsegs : p'.segments = (recorded (fs.inode ip)).map ProgHdr.segment := by
    rw [hproc]
    exact scanFile_recorded
  have hheap : p'.heapStart = fileTop (fs.inode ip) := by
    rw [hproc, fileTop, ← scanFile_end]
  have htop : p'.stackTop = imageTop (hdrsEnd (accepted (fs.inode ip)).1) := by
    rw [hproc, ← scanFile_end]
  rw [scanFile_end] at h1 h2 hstack
  constructor
  · intro hok
    have hbelow := hok.segments
    have hapart := hok.apart
    rw [hsegs, List.pairwise_map] at hapart
    rw [hsegs, hheap] at hbelow
    exact ⟨fun ph hph => hbelow _ (List.mem_map_of_mem hph), hapart⟩
  · rintro ⟨hbelow, hapart⟩
    refine ⟨?_, ?_, ?_, ?_, ?_, ?_⟩
    · intro g hg
      rw [hsegs] at hg
      obtain ⟨ph, hph, rfl⟩ := List.mem_map.mp hg
      rw [hheap]
      exact hbelow ph hph
    · rw [hheap, htop, guardBase_imageTop]
      exact le_refl _
    · rw [htop, guardBase_imageTop, hstack]
      omega
    · rw [htop, hstack]
      omega
    · rw [htop]
      exact h2
    · rw [hsegs, List.pairwise_map]
      exact hapart

theorem pgRoundUp_imageTop (sz : Nat) : pgRoundUp (imageTop sz) = imageTop sz := by
  have hlt := imageTop_lt sz
  have hmod := imageTop_mod sz
  exact pgRoundUp_of_aligned hmod (by omega)

/-- A call for an ELF file avoids what its parts avoid: the new table, the stack, and freeing the new table or the old one. -/
theorem kexec_avoids {bad : Panic → Prop} (hfile : ExecFile m p path fs₀ fs ip) (hargs : ∀ arg ∈ argv, arg.length < pgSize)
    (hlen : argv.length < maxArg) (htable : Avoids bad (procPagetable (m.entered fs) (p.trapframe.getD 0)))
    (hstack : (accepted (fs.inode ip)).2 = true → ∀ tr m₁ pt, FreshTable tr (p.trapframe.getD 0) pt → pt.TablesFor topPages →
      Moves (m.entered fs) 0 m₁ pt.pages → m₁.freelist.length + 3 = m.freelist.length →
      Avoids bad (execStack (m₁.withFs (iput (idup fs ip) ip)) pt (imageTop (hdrsEnd (accepted (fs.inode ip)).1))))
    (hnew : ∀ m₁ pt sz, 3 ≤ m.freelist.length → Flows m 0 m₁ pt.pages →
      ((accepted (fs.inode ip)).2 = false ∧ sz = hdrsEnd (accepted (fs.inode ip)).1 ∨
        (accepted (fs.inode ip)).2 = true ∧ sz = imageTop (hdrsEnd (accepted (fs.inode ip)).1)) →
      Avoids bad (procFreepagetable m₁ pt sz p.stackTop))
    (hold : 3 + stackCost (fileTop (fs.inode ip)) ≤ m.freelist.length → (accepted (fs.inode ip)).2 = true → argsFit argv →
      ∀ m₁ st, StackTop st → m₁.kend = m.kend → Avoids bad (procFreepagetable m₁ p.pagetable p.sz st)) :
    Avoids bad (kexec m p path argv) := by
  rw [kexec_file hfile]
  refine htable.bind ?_
  rintro ⟨m₁, o⟩ hp
  obtain ⟨rfl, -⟩ | ⟨pt, rfl, hm₁, hfresh⟩ := procPagetable_spec hp
  · exact Avoids.ok _
  obtain ⟨hroom, hT⟩ := procPagetable_room hp
  have hroom : m₁.freelist.length + 3 = m.freelist.length := hroom
  have hsame : SameMem m (m.entered fs) := ⟨rfl, rfl, rfl, rfl, rfl⟩
  have hflow : Flows m 0 m₁ pt.pages := (hsame.flows 0).trans hm₁.flows
  have hfs : m₁.fs = fs := hm₁.fs
  simp only [execLoad, execImage, hfs, scanFile_ok, scanFile_end]
  refine Avoids.ite (fun hgood => ?_) (fun hbad => ?_)
  · refine (hstack hgood _ _ _ hfresh hT hm₁ hroom).bind ?_
    rintro ⟨m₂, pt₂, b⟩ hs
    obtain ⟨hm₂, -, himg⟩ := execStack_spec hfresh hs
    have hroom₂ := execStack_room hT hs
    have hflow₂ : Flows m 0 m₂ pt₂.pages := (hflow.trans ((SameMem.withFs m₁ _).flows _)).trans hm₂.flows
    rw [guardBase_imageTop] at hroom₂
    cases b with
    | false =>
      refine Avoids.bind ?_ (fun _ _ => Avoids.ok _)
      exact hnew _ _ _ (by omega) hflow₂ (Or.inr ⟨hgood, rfl⟩)
    | true =>
      obtain ⟨mem, himg⟩ := himg rfl
      dsimp only
      obtain ⟨m₃, o, hb, hfit⟩ := pushBlock_fits (m := m₂)
        (p := { p with segments := (scanFile (fs.inode ip)).1.segs, execInode := some ip }) himg hargs hlen
      rw [bind_of_ok hb]
      have hok : ArgsOk argv := fun arg ha => lt_trans (hargs arg ha) (by decide)
      obtain ⟨-, hw, -⟩ := pushBlock_spec himg hok hb
      have hflow₃ : Flows m 0 m₃ pt₂.pages := hflow₂.trans (hw.moves himg.mem_pages).flows
      cases o with
      | none =>
        refine Avoids.bind ?_ (fun _ _ => Avoids.ok _)
        exact hnew _ _ _ (by omega) hflow₃ (Or.inr ⟨hgood, rfl⟩)
      | some x =>
        refine Avoids.bind ?_ (fun _ _ => Avoids.ok _)
        have hcost := hroom₂.mp rfl
        rw [Machine.withFs_freelist] at hcost
        exact hold (by rw [fileTop]; omega) hgood (hfit.mp rfl) _ _ himg.top hflow₃.kend
  · refine Avoids.bind ?_ (fun _ _ => Avoids.ok _)
    exact hnew _ _ _ (by omega) hflow (Or.inl ⟨by simpa using hbad, rfl⟩)

/-- A computation that could end in no other panic, and in none of the page table functions, has a result. -/
theorem ok_of_avoids {α : Type} {x : Kern α} (h : TableSafe x) (h' : Avoids (fun e => ¬e.ofTable) x) : ∃ a, x = .ok a := by
  cases hx : x with
  | ok a => exact ⟨a, rfl⟩
  | error e => exact absurd (not_not.mp (h' e hx)) (h e hx)

/-- The end of a stack that lies below the trapframe page. -/
theorem imageTop_le (h : fileTop (fs.inode ip) < trapframeVa) : imageTop (hdrsEnd (accepted (fs.inode ip)).1) ≤ maxVa := by
  have htop : trapframeVa + 8192 = maxVa := by decide
  have hmod := pgRoundUp_mod (hdrsEnd (accepted (fs.inode ip)).1)
  have hdiv := trapframeVa_eq
  have hmax : maxVa < 2 ^ 64 := by decide
  unfold fileTop at h
  unfold imageTop add64 userStack pgSize
  omega

/-- What an image in memory says about its file. -/
theorem ExecFits.image_of_parts (hwf : p.Wf) (hfile : ExecFile m p path fs₀ fs ip) (hargs : ∀ arg ∈ argv, arg.length < pgSize)
    (hlen : argv.length < maxArg) (hfit : ExecFits m.freelist.length p.sz (fs.inode ip) argv)
    (h : kexec m p path argv = .ok (m', p', some argc)) : ImageOk p' := by
  have hok : ArgsOk argv := fun arg ha => lt_trans (hargs arg ha) (by decide)
  obtain ⟨-, ⟨hn, -⟩ | ⟨argc', fs₀', fs', ip', mem, pt, sp, -, hd⟩⟩ := kexec_spec hwf.toHasTable (Or.inr hwf.stack) hok h
  · nomatch hn
  obtain ⟨rfl, rfl⟩ := hfile.unique hd.file
  obtain ⟨m₁, pt₁, m₂, pt₂, m₃, sp', hparts, -⟩ := kexec_parts hfile hok h
  have hgood : (accepted (fs'.inode ip')).2 = true := scanFile_ok.symm.trans hparts.good
  obtain ⟨hroom, hT⟩ := procPagetable_room hparts.table
  obtain ⟨hn, -⟩ | ⟨pt', he, hm₁, hfresh⟩ := procPagetable_spec hparts.table
  · nomatch hn
  obtain rfl := Option.some.inj he
  have hcost := (execStack_room hT hparts.stack).mp rfl
  obtain ⟨-, -, himg⟩ := execStack_spec hfresh hparts.stack
  obtain ⟨mem', himg⟩ := himg rfl
  rw [guardBase_imageTop, scanFile_end, Machine.withFs_freelist] at hcost
  obtain ⟨m₄, o, hb, hargsFit⟩ := pushBlock_fits (m := m₂)
    (p := { p with segments := (scanFile (fs'.inode ip')).1.segs, execInode := some ip' }) himg hargs hlen
  obtain ⟨-, -, rfl⟩ := Prod.mk.inj (Except.ok.inj (hb.symm.trans hparts.args)) |>.imp_right Prod.mk.inj
  have hroom : m₁.freelist.length + 3 = m.freelist.length := hroom
  have hall := hfit.image (by rw [fileTop]; omega) hgood (hargsFit.mp rfl)
  exact hd.imageOk.mpr hall.2

/-- Within its limits, a call of `exec` is robust. -/
theorem ExecFits.robust (hwf : p.Wf) (hfile : ExecFile m p path fs₀ fs ip) (hargs : ∀ arg ∈ argv, arg.length < pgSize)
    (hlen : argv.length < maxArg) (hfit : ExecFits m.freelist.length p.sz (fs.inode ip) argv) : ExecRobust (kexec m p path argv) := by
  refine ⟨?_, fun _ _ _ h => hfit.image_of_parts hwf hfile hargs hlen h⟩
  refine kexec_avoids hfile hargs hlen (procPagetable_safe _ _) ?_ ?_ ?_
  · intro hgood tr m₁ pt hfresh hT _ hroom
    refine execStack_safe hfresh hT ?_ ?_
    · rw [Machine.withFs_freelist]
      intro h1
      exact hfit.guard (by omega) hgood
    · rw [Machine.withFs_freelist]
      intro h2
      exact hfit.stack (by omega) hgood
  · rintro m₁ pt sz h3 - (⟨hbad, hsz⟩ | ⟨hgood, hsz⟩)
    · exact procFreepagetable_safe (hsz ▸ hfit.refused h3 hbad) (Or.inr hwf.stack)
    · refine procFreepagetable_safe ?_ (Or.inr hwf.stack)
      rw [hsz, pgRoundUp_imageTop]
      rcases Nat.eq_or_lt_of_le h3 with h3 | h4
      · exact hfit.noGuard h3.symm hgood
      · exact imageTop_le (hfit.guard h4 hgood)
  · intro hroom hgood hargsFit m₁ st hst _
    exact procFreepagetable_safe (hfit.image hroom hgood hargsFit).1 (Or.inr hst)

/-- A call that ends in a result, with an image in order if any, was within its limits. -/
theorem ExecRobust.fits (hwf : p.Wf) (hfree : ∀ q ∈ free m + p.owned, Freeable m.kend q) (hfile : ExecFile m p path fs₀ fs ip)
    (hargs : ∀ arg ∈ argv, arg.length < pgSize) (hlen : argv.length < maxArg) (hrob : ExecRobust (kexec m p path argv)) :
    ExecFits m.freelist.length p.sz (fs.inode ip) argv := by
  rcases Nat.lt_or_ge m.freelist.length 3 with hfew | h3
  · have := stackCost_pos (fileTop (fs.inode ip))
    constructor <;> intro hlow <;> omega
  have hnew : ∀ {m₁ : Machine} {pt : PageTable}, Flows m 0 m₁ pt.pages → ∀ q ∈ free m₁ + pt.pages, Freeable m₁.kend q := by
    intro m₁ pt hflow q hq
    rw [hflow.pages, add_zero] at hq
    rw [hflow.kend]
    exact hfree q (Multiset.mem_add.mpr (Or.inl hq))
  have hothers : Avoids (fun e => ¬e.ofTable) (kexec m p path argv) := by
    refine kexec_avoids hfile hargs hlen (procPagetable_ofTable _ h3) ?_ ?_ ?_
    · intro _ tr m₁ pt _ hT hm₁ _
      refine execStack_ofTable hT (fun q hq => ?_)
      have hsame : SameMem m (m.entered fs) := ⟨rfl, rfl, rfl, rfl, rfl⟩
      exact hnew ((hsame.flows 0).trans hm₁.flows) q (Multiset.mem_add.mpr (Or.inl hq))
    · intro m₁ pt sz _ hflow _
      refine procFreepagetable_avoids (not_not.mpr trivial) (fun q hq => ?_) (Or.inr hwf.stack)
      exact hnew hflow q (Multiset.mem_add.mpr (Or.inr hq))
    · intro _ _ _ m₁ st hst hkend
      refine procFreepagetable_avoids (not_not.mpr trivial) (fun q hq => ?_) (Or.inr hst)
      rw [hkend]
      exact hfree q (Multiset.mem_add.mpr (Or.inr (Multiset.mem_add.mpr (Or.inr hq))))
  obtain ⟨⟨m', p', o⟩, hx⟩ := ok_of_avoids hrob.safe hothers
  have hx' := hx
  rw [kexec_file hfile] at hx'
  obtain ⟨⟨m₁, opt⟩, hp, hx'⟩ := bind_ok hx'
  obtain ⟨pt, rfl⟩ := Option.isSome_iff_exists.mp ((procPagetable_iff hp).mpr h3)
  obtain ⟨hroom, hT⟩ := procPagetable_room hp
  obtain ⟨hn, -⟩ | ⟨pt', he, hm₁, hfresh⟩ := procPagetable_spec hp
  · cases hn
  obtain rfl := Option.some.inj he
  have hroom : m₁.freelist.length + 3 = m.freelist.length := hroom
  have hfs : m₁.fs = fs := hm₁.fs
  simp only [execLoad, execImage, hfs, scanFile_ok, scanFile_end] at hx'
  split at hx'
  · rename_i hgood
    obtain ⟨⟨m₂, pt₂, b⟩, hs, hx'⟩ := bind_ok hx'
    obtain ⟨hguard, hstack⟩ := execStack_below hfresh hT hs
    have hcost := execStack_room hT hs
    obtain ⟨-, -, himg⟩ := execStack_spec hfresh hs
    rw [Machine.withFs_freelist] at hguard hstack hcost
    rw [guardBase_imageTop] at hcost
    refine ⟨fun _ hbad => ?_, ?_, fun h4 _ => hguard (by omega), fun h5 _ => hstack (by omega), ?_⟩
    · rw [hgood] at hbad
      cases hbad
    · intro hthree _
      have := stackCost_pos (pgRoundUp (hdrsEnd (accepted (fs.inode ip)).1))
      obtain rfl : b = false := by
        rw [← Bool.not_eq_true, hcost]
        omega
      obtain ⟨m₃, hf, -⟩ := bind_ok hx'
      have hle := procFreepagetable_le hf
      rwa [pgRoundUp_imageTop] at hle
    · intro hmem _ hargsFit
      obtain rfl : b = true := by
        rw [hcost]
        rw [fileTop] at hmem
        omega
      obtain ⟨mem, himg⟩ := himg rfl
      obtain ⟨m₃, o₃, hb, hfit⟩ := pushBlock_fits (m := m₂)
        (p := { p with segments := (scanFile (fs.inode ip)).1.segs, execInode := some ip }) himg hargs hlen
      dsimp only at hx'
      rw [bind_of_ok hb] at hx'
      obtain ⟨⟨sp, argc⟩, rfl⟩ := Option.isSome_iff_exists.mp (hfit.mpr hargsFit)
      obtain ⟨m₄, hf, hx'⟩ := bind_ok hx'
      obtain ⟨rfl, rfl, rfl⟩ := Prod.mk.inj (Except.ok.inj hx') |>.imp_right Prod.mk.inj
      refine ⟨procFreepagetable_le hf, ?_⟩
      have hok : ArgsOk argv := fun arg ha => lt_trans (hargs arg ha) (by decide)
      obtain ⟨-, ⟨hn, -⟩ | ⟨argc', fs₀', fs', ip', mem', pt', sp', -, hd⟩⟩ := kexec_spec hwf.toHasTable (Or.inr hwf.stack) hok hx
      · cases hn
      obtain ⟨rfl, rfl⟩ := hfile.unique hd.file
      exact hd.imageOk.mp (hrob.image _ _ _ hx)
  · rename_i hbad
    have hbad : (accepted (fs.inode ip)).2 = false := by simpa using hbad
    obtain ⟨m₂, hf, -⟩ := bind_ok hx'
    refine ⟨fun _ _ => procFreepagetable_le hf, ?_, ?_, ?_, ?_⟩ <;> intro _ hgood <;> rw [hbad] at hgood <;> cases hgood

/-! ## The theorem -/

/-- A call for what is no ELF file is refused. -/
theorem execRobust_of_noFile (hwf : p.Wf) (hargs : ∀ arg ∈ argv, arg.length < pgSize)
    (hno : ∀ fs₀ fs ip, ¬ExecFile m p path fs₀ fs ip) : ExecRobust (kexec m p path argv) := by
  refine ⟨?_, ?_⟩
  · unfold kexec
    refine (namei_safe _ _ _).bind ?_
    rintro ⟨fs₀, o⟩ hn
    cases o with
    | none => exact Avoids.ok _
    | some ip =>
      refine (ilock_safe _ _).bind (fun fs hl => ?_)
      exact Avoids.ite (fun _ => Avoids.ok _) (fun helf => absurd ⟨hn, hl, not_not.mp helf⟩ (hno fs₀ fs ip))
  · intro m' p' argc h
    have hok : ArgsOk argv := fun arg ha => lt_trans (hargs arg ha) (by decide)
    obtain ⟨-, ⟨hn, -⟩ | ⟨argc', fs₀, fs, ip, mem, pt, sp, -, hd⟩⟩ := kexec_spec hwf.toHasTable (Or.inr hwf.stack) hok h
    · nomatch hn
    · exact absurd hd.file (hno _ _ _)

end Robust

/-- In every state the system reaches, a call of `exec` is robust exactly when its file and its arguments fit. -/
theorem exec_robust_iff {s : Sys} {i : Nat} {path : List Char} {argv : List (List Byte)} (h : Reachable s)
    (he : enabled s (.exec i path argv)) : ExecRobust (kexec s.m (s.proc i) path argv) ↔
      ∀ fs₀ fs ip, ExecFile s.m (s.proc i) path fs₀ fs ip →
        ExecFits s.m.freelist.length (s.proc i).sz (fs.inode ip) argv := by
  obtain ⟨⟨hi, hl, -⟩, hlen, hargs⟩ := he
  have hwf := h.inv.wf hi hl
  constructor
  · intro hrob fs₀ fs ip hfile
    exact hrob.fits hwf (fun q hq => h.freeable hi hq) hfile hargs hlen
  · intro hfit
    by_cases hf : ∃ fs₀ fs ip, ExecFile s.m (s.proc i) path fs₀ fs ip
    · obtain ⟨fs₀, fs, ip, hfile⟩ := hf
      exact (hfit fs₀ fs ip hfile).robust hwf hfile hargs hlen
    · exact execRobust_of_noFile hwf hargs (fun fs₀ fs ip hfile => hf ⟨fs₀, fs, ip, hfile⟩)

/-- The first process runs `echo` with an argument. -/
theorem exec_robust_iff_echo : ExecRobust (kexec (smallBoot twoPrograms 32).m ((smallBoot twoPrograms 32).proc 0) "/echo".toList [[104]]) ↔
    ∀ fs₀ fs ip, ExecFile (smallBoot twoPrograms 32).m ((smallBoot twoPrograms 32).proc 0) "/echo".toList fs₀ fs ip →
      ExecFits (smallBoot twoPrograms 32).m.freelist.length ((smallBoot twoPrograms 32).proc 0).sz (fs.inode ip) [[104]] :=
  exec_robust_iff (Reach.of_init smallBoot_two) (by decide +kernel)

/-- A program with one segment, which begins far above the address space. -/
def farProgram : Inode := elfFile [⟨1, 5, 120, 2 ^ 40, 0, 0⟩] []

/-- `exec` of a file is not always robust: that program makes `walk` panic. -/
theorem exec_not_robust : ¬∀ (s : Sys) (i : Nat) (path : List Char) (argv : List (List Byte)), Reachable s →
    enabled s (.exec i path argv) → ExecRobust (kexec s.m (s.proc i) path argv) := by
  intro hall
  have hboot : Boot (smallBoot [("init".toList, smallInit), ("far".toList, farProgram)] 32) :=
    smallBoot_boot (by decide) (by decide +kernel)
  have hrob := hall _ 0 "/far".toList [] (Reach.of_init hboot) (by decide +kernel)
  have hex : (kexec (smallBoot [("init".toList, smallInit), ("far".toList, farProgram)] 32).m
      ((smallBoot [("init".toList, smallInit), ("far".toList, farProgram)] 32).proc 0) "/far".toList []).map (fun _ => ()) =
      .error .walk := by decide +kernel
  cases hx : kexec (smallBoot [("init".toList, smallInit), ("far".toList, farProgram)] 32).m
      ((smallBoot [("init".toList, smallInit), ("far".toList, farProgram)] 32).proc 0) "/far".toList [] with
  | ok r =>
    rw [hx] at hex
    nomatch hex
  | error e =>
    rw [hx] at hex
    obtain rfl : e = .walk := Except.error.inj hex
    exact hrob.safe _ hx trivial

end Xv6SnifferBakery.Kernel
