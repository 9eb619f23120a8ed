import Xv6SnifferBakery.Lemmas.Image
import Xv6SnifferBakery.Lemmas.OpenFiles
import Xv6SnifferBakery.Lemmas.Replay
import Xv6SnifferBakery.Lemmas.Resize
import Xv6SnifferBakery.Lemmas.Stored
import Xv6SnifferBakery.Lemmas.Tracking

/-!
# Lazy loading

What a load from an address of a segment yields after `exec`, in every run of all processes in which the file stays as it is and the
page of the address is only touched and discarded. The page is loaded from its segment only between the start of the first text segment
and the end of the last data segment, and only when the segment is among the eight that are recorded; elsewhere it is filled with zeros,
or the fault is refused.
-/

namespace Xv6SnifferBakery.Kernel

open Lib

variable {s t u : Sys} {ev : Event} {evs : List Event} {m m' : Machine} {p p' : Proc} {i va page : Nat}

/-! ## Events that spare a page -/

/-- A page event that writes to page `page`, or grants the first write to it. -/
def PageEvent.dirties (page : Nat) : PageEvent → Prop
  | .firstWrite _ va => va = page
  | ev => ev.writes (page / 4096)

/-- An eager growth from the size of a process maps page `page`. -/
def Proc.growsOver (p : Proc) (n : Int) (page : Nat) : Prop := pgRoundUp p.sz ≤ page ∧ page < addInt p.sz n

/-- An event in which process `i` neither ends, nor gets another image, nor writes to its page `page`, nor maps it as part of its heap. A
call of `exec` may fail as long as it leaves the process as it is. -/
def Event.spares (i page : Nat) (s : Sys) (ev : Event) (t : Sys) : Prop :=
  match ev with
  | .page k pev => k = i → ¬pev.dirties page
  | .sbrk k n eager => k = i → eager = true → ¬(s.proc i).growsOver (wrap32 n) page
  | .exec k done => k = i → done = false ∧ t.proc i = s.proc i
  | .exit k => k ≠ i
  | _ => True

/-- One event of the system that spares page `page` of process `i` and leaves the bytes of its executable. -/
structure LazyStep (i page : Nat) (s : Sys) (ev : Event) (t : Sys) : Prop where
  step : SysStep s ev t
  trapframe : ev.keepsTrapframe s
  spares : ev.spares i page s t
  file : ∀ ip, (s.proc i).execInode = some ip → (s.m.fs.inode ip).SameBytes (t.m.fs.inode ip)

/-! ## What the page would be loaded with -/

/-- What a process has recorded of its executable. -/
structure SameSource (p p' : Proc) : Prop where
  segments : p'.segments = p.segments
  execInode : p'.execInode = p.execInode
  textStart : p'.textStart = p.textStart
  dataEnd : p'.dataEnd = p.dataEnd

theorem SameImage.source (h : SameImage p p') : SameSource p p' := by
  rw [h.eq]
  exact ⟨rfl, rfl, rfl, rfl⟩

/-- The contents of a page depend on the bytes of the executable and on what the process has recorded of it. -/
theorem freshPage_source {fs fs' : Fs} (h : SameSource p p')
    (hfile : ∀ ip, p.execInode = some ip → (fs.inode ip).SameBytes (fs'.inode ip)) (va : Nat) :
    freshPage fs' p' va = freshPage fs p va := by
  have hexec : inExec p' va ↔ inExec p va := by
    unfold inExec
    rw [h.textStart, h.dataEnd]
  have hpage : execPage fs' p' va = execPage fs p va := by
    unfold execPage findSegment
    rw [h.segments, h.execInode]
    cases hip : p.execInode with
    | none => rfl
    | some ip =>
      obtain ⟨hdata, hsize⟩ := hfile ip hip
      have hread : ∀ off n, readi (fs'.inode ip) off n = readi (fs.inode ip) off n := by
        intro off n
        rw [readi, readi, hsize]
      cases p.segments.find? (fun s => decide (s.vaStart ≤ va ∧ va < s.vaEnd)) with
      | none => rfl
      | some s => simp only [hdata, hread]
  unfold freshPage
  rw [hpage]
  simp only [hexec]

/-! ## The page itself -/

/-- In memory the page is the user's to load, with these contents. -/
abbrev LoadedAs (content : Page) (page : Nat) (m : Machine) (p : Proc) : Prop :=
  PageHas (fun pte pg => pte.perm.u = true → pte.perm.r = true ∧ pg = content) (page / 4096) m p.pagetable

/-- The page is not in the swap file, and in memory it is clean. -/
def CleanAt (page : Nat) (p : Proc) : Prop :=
  ∀ e ∈ p.pages, e.va = page → e.state ≠ .swapped ∧ (e.state = .resident → e.isDirty = false)

theorem CleanAt.modify {j : Nat} {e : PageInfo} {f : PageInfo → PageInfo} (h : CleanAt page p) (he : p.pages[j]? = some e)
    (hpages : p'.pages = p.pages.modify j f) (hva : (f e).va = e.va)
    (hentry : e.va = page → (f e).state ≠ .swapped ∧ ((f e).state = .resident → (f e).isDirty = false)) : CleanAt page p' := by
  intro x hx hxa
  rw [hpages] at hx
  rcases mem_modify hx with ⟨e', he', rfl⟩ | ⟨l, -, hl⟩
  · obtain rfl := Option.some.inj (he.symm.trans he')
    exact hentry (hva.symm.trans hxa)
  · exact h x (List.mem_of_getElem? hl) hxa

/-- Only a first write to the page makes it dirty. -/
theorem TableChange.cleanAt {pev : PageEvent} (h : TableChange p pev p') (hclean : CleanAt page p) (hno : ∀ j, pev ≠ .firstWrite j page) :
    CleanAt page p' := by
  cases h with
  | same pages => rwa [CleanAt, pages]
  | track _ _ _ pages =>
    intro e he hva
    rw [pages, List.mem_append] at he
    rcases he with he | he
    · exact hclean e he hva
    · rw [List.mem_singleton.mp he]
      exact ⟨by simp, by simp⟩
  | evict entry resident _ _ va out pages =>
    refine hclean.modify entry pages (va _) ?_
    intro hea
    have hdirty := (hclean _ (List.mem_of_getElem? entry) hea).2 resident
    rw [out, hdirty]
    exact ⟨by simp, by simp⟩
  | load event entry _ va loaded pages =>
    refine hclean.modify entry pages (va _) ?_
    intro _
    obtain ⟨hr, hd, -⟩ := loaded _
    rw [hr]
    exact ⟨by simp, fun _ => hd⟩
  | loadFail keeps pages =>
    intro x hx hxa
    obtain ⟨e, he, hev, hes, hed, -⟩ := mem_modify_slot keeps (pages ▸ hx)
    rw [← hes, ← hed]
    exact hclean e he (hev.trans hxa)
  | firstWrite event hx pages =>
    refine hclean.modify hx.entry pages rfl ?_
    rintro rfl
    exact absurd event (hno _)

/-- A page event that does not grant the first write to a page leaves its leaf, takes it out of memory or loads it. -/
theorem TableChange.leaf_cases {pev : PageEvent} (h : TableChange p pev p') (hp : p.Aligned) (hal : page % 4096 = 0)
    (hno : ∀ j, pev ≠ .firstWrite j page) : p'.pagetable.leaf (page / 4096) = p.pagetable.leaf (page / 4096) ∨
      p'.pagetable.leaf (page / 4096) = none ∨ p.pagetable.leaf (page / 4096) = none ∧ ∃ src j, pev = .load src j page := by
  have hother : ∀ {e : PageInfo} {j : Nat} {o : Option Pte}, p.pages[j]? = some e →
      p'.pagetable.leaf = Function.update p.pagetable.leaf (e.va / 4096) o → e.va ≠ page →
      p'.pagetable.leaf (page / 4096) = p.pagetable.leaf (page / 4096) := by
    intro e j o he hleaf hne
    have := hp e.va (List.mem_map_of_mem (List.mem_of_getElem? he))
    rw [hleaf, Function.update_of_ne (by omega)]
  cases h with
  | same _ leaf | track _ _ _ _ leaf | loadFail _ _ leaf => exact Or.inl (by rw [leaf])
  | evict entry resident mapped event va out pages leaf =>
    rename_i j e pte f
    by_cases hea : e.va = page
    · exact Or.inr (Or.inl (by rw [leaf, hea, Function.update_self]))
    · exact Or.inl (hother entry leaf hea)
  | load event entry free va loaded pages leaf =>
    rename_i src j e mem f
    by_cases hea : e.va = page
    · rw [hea] at event free
      exact Or.inr (Or.inr ⟨free, src, j, event⟩)
    · exact Or.inl (hother entry leaf hea)
  | firstWrite event hx pages leaf =>
    rename_i j e pte
    by_cases hea : e.va = page
    · rw [hea] at event
      exact absurd event (hno _)
    · exact Or.inl (hother hx.entry leaf hea)

theorem PageEvent.ne_firstWrite {pev : PageEvent} (h : ¬pev.dirties page) (j : Nat) : pev ≠ .firstWrite j page := by
  rintro rfl
  exact h rfl

/-- A page event that does not dirty a clean page leaves its contents, or loads what belongs there. -/
theorem PageStep.loadedAs {pev : PageEvent} {content : Page} (h : PageStep (m, p) pev (m', p')) (hinv : PageInv m p)
    (hv : page / 4096 < userPages) (hal : page % 4096 = 0) (hno : ¬pev.dirties page) (hclean : CleanAt page p)
    (hfresh : freshPage m.fs p page = content) (hl : LoadedAs content page m p) : LoadedAs content page m' p' := by
  intro pte hpte hu
  rcases h.table.leaf_cases (fun a ha => (hinv.wf.tracked a ha).2) hal (PageEvent.ne_firstWrite hno) with hsame | hnone | ⟨-, src, j, rfl⟩
  · rw [hsame] at hpte
    obtain ⟨hr, hmem⟩ := hl pte hpte hu
    refine ⟨hr, ?_⟩
    have hstays : ¬pev.evicts (page / 4096) := by
      intro hev
      rw [(h.evicted hev).2] at hsame
      rw [← hsame] at hpte
      cases hpte
    have hwrite : ¬pev.writes (page / 4096) := by
      intro hw
      cases pev <;> first | exact hno hw | exact hw.elim
    rw [(h.kept hinv hv hpte hstays hwrite).2, hmem]
  · rw [hnone] at hpte
    cases hpte
  · -- the page is loaded, and not from the swap file
    cases h with
    | load entry addr exec swap valid hload =>
      have hsrc : src ≠ .swap := fun hs => (hclean _ (List.mem_of_getElem? entry) addr).1 (swap hs)
      rw [hload.leaf.1, Function.update_self] at hpte
      obtain rfl := Option.some.inj hpte
      refine ⟨Source.perm_r _ _ _, ?_⟩
      rw [hload.mem.contents hinv.freelist_nodup, hload.fetched.fresh exec hsrc, ← hfresh]
      exact freshPage_congr (congrArg Fs.inode (kalloc_alloc hload.alloc).1.fs) (SameImage.refl _) _

/-! ## Runs -/

/-- What holds of page `page` of process `i` in such a run: a fault would load `content`, and the page is clean and has it. -/
structure LazyInv (i page : Nat) (content : Page) (t : Sys) : Prop where
  inv : SysInv t
  live : (t.proc i).live
  fresh : freshPage t.m.fs (t.proc i) page = content
  clean : CleanAt page (t.proc i)
  loaded : LoadedAs content page t.m (t.proc i)

theorem LazyInv.pageInv {content : Page} (h : LazyInv i page content s) (hi : i < nProc) : PageInv s.m (s.proc i) := h.inv.pageInv hi h.live

/-- The page stays as it is when its leaf and its frame do. -/
theorem LazyInv.of_kept {content : Page} (hs : LazyInv i page content s) (hinv : SysInv t) (hlive : (t.proc i).live)
    (hfresh : freshPage t.m.fs (t.proc i) page = content) (hpages : (t.proc i).pages = (s.proc i).pages)
    (hpt : (t.proc i).pagetable = (s.proc i).pagetable)
    (hmem : ∀ pte, (s.proc i).pagetable.leaf (page / 4096) = some pte → t.m.mem pte.pa = s.m.mem pte.pa) : LazyInv i page content t := by
  refine ⟨hinv, hlive, hfresh, ?_, ?_⟩
  · rw [CleanAt, hpages]
    exact hs.clean
  · intro pte hpte hu
    rw [hpt] at hpte
    rw [hmem pte hpte]
    exact hs.loaded pte hpte hu

theorem LazyStep.inv {content : Page} (h : LazyStep i page s ev t) (hi : i < nProc) (hv : page / 4096 < userPages) (hal : page % 4096 = 0)
    (hs : LazyInv i page content s) : LazyInv i page content t := by
  obtain ⟨hstep, hk, hspares, hfile⟩ := h
  have hlive : (t.proc i).live := by
    refine hstep.stays ?_ hs.live
    rintro rfl
    exact hspares rfl
  have hinv := hstep.inv hs.inv hk
  have hmine := hs.pageInv hi
  have hfresh : SameSource (s.proc i) (t.proc i) → freshPage t.m.fs (t.proc i) page = content := by
    intro hsame
    rw [freshPage_source hsame hfile, hs.fresh]
  by_cases hrem : ev.remaps i
  · rcases hstep.remap hrem with ⟨pev, rfl, hp⟩ | ⟨n, eager, r, rfl, hc⟩ | ⟨path, argv, o, rfl, hargs, hc⟩
    · have hno : ¬pev.dirties page := hspares rfl
      exact ⟨hinv, hlive, hfresh hp.image.source, hp.table.cleanAt hs.clean (PageEvent.ne_firstWrite hno),
        hp.loadedAs hmine hv hal hno hs.clean hs.fresh hs.loaded⟩
    · obtain ⟨-, hp⟩ := sysSbrk_env hc
      have hsource : SameSource (s.proc i) (t.proc i) := by
        rw [hp]
        exact ⟨rfl, rfl, rfl, rfl⟩
      refine ⟨hinv, hlive, hfresh hsource, ?_, ?_⟩
      · rw [hp]
        exact hs.clean
      · refine sysSbrk_pageHas hmine hk hv ?_ hs.loaded hc
        intro heager _ hlow hhigh
        have hmod := pgRoundUp_mod (s.proc i).sz
        unfold growEnd at hhigh
        exact absurd ⟨by omega, by omega⟩ (hspares rfl heager)
    · -- a call of `exec` that failed
      obtain ⟨hdone, hp⟩ := hspares rfl
      obtain rfl : o = none := by simpa using hdone
      refine hs.of_kept hinv hlive (hfresh ?_) (by rw [hp]) (by rw [hp]) ?_
      · rw [hp]
        exact ⟨rfl, rfl, rfl, rfl⟩
      · intro pte hpte
        exact kexec_failed_mem (Or.inr hmine.wf.stack) hargs hc (hmine.not_free hv hpte)
  cases hstep.slot hlive with
  | same live tf ofile cwd parent killed state dead hp =>
    refine hs.of_kept hinv hlive (hfresh ?_) (by rw [hp]) (by rw [hp]) ?_
    · rw [hp]
      exact ⟨rfl, rfl, rfl, rfl⟩
    · intro pte hpte
      exact hstep.frames hs.inv hk hrem hi hs.live (Proc.owns hv hpte)
  | page event | sbrk event | exec event =>
    subst event
    exact absurd rfl hrem
  | fork event live unused => exact absurd unused hs.live.ne_unused

/-! ## The load -/

/-- The range of addresses whose faults are valid, swapped pages aside. -/
def inRange (p : Proc) (va : Nat) : Prop := ¬inGuard p va ∧ (inText p va ∨ inData p va ∨ inHeap p va ∨ inStack p va)

/-- A load from `va` can be served: its page is in memory for the user; or it is not in memory, its address is valid, and the table of
tracked pages has an entry for it, or room for one. -/
def Loadable (p : Proc) (va : Nat) : Prop :=
  (translate p.pagetable va Perm.r).isSome ∨
    p.pagetable.leaf (va / 4096) = none ∧ inRange p (pgRoundDown va) ∧ ((findPageInfo p va).isSome ∨ p.pages.length < maxPages)

/-- What a load from an address of the page yields. -/
theorem LazyInv.view_iff {content : Page} {b : Byte} (h : LazyInv i (pgRoundDown va) content s) (huser : va < trapframeVa) :
    view s.m (s.proc i) va = some b ↔ Loadable (s.proc i) va ∧ content (va % 4096) = b := by
  have hmax : va < maxVa := lt_trans huser (by decide)
  have hdiv : pgRoundDown va / 4096 = va / 4096 := pgRoundDown_div va
  have hround : pgRoundDown (pgRoundDown va) = pgRoundDown va := pgRoundDown_idem va
  unfold Loadable
  cases hleaf : (s.proc i).pagetable.leaf (va / 4096) with
  | some pte =>
    unfold view translate
    rw [if_neg (Nat.not_le.mpr hmax), if_neg (Nat.not_le.mpr hmax), hleaf]
    simp only [reduceCtorEq, false_and, or_false]
    by_cases hu : pte.perm.u = true
    · obtain ⟨hr, hmem⟩ := h.loaded pte (by rwa [hdiv]) hu
      simp only [hu, hr, hmem, Bool.and_self, if_true, Option.isSome_some, true_and, Option.some.injEq]
    · simp [hu]
  | none =>
    have hswap : ¬isSwapped (s.proc i) (pgRoundDown va) := by
      intro hs
      obtain ⟨e, he, hst⟩ := (Option.any_eq_true _ _).mp hs
      obtain ⟨j, hj, he⟩ := Option.bind_eq_some_iff.mp he
      obtain ⟨e', he', hea⟩ := findPageInfo_some hj
      obtain rfl := Option.some.inj (he.symm.trans he')
      exact (h.clean e (List.mem_of_getElem? he) (hea.trans hround)).1 (by simpa using hst)
    have hno : ¬(translate (s.proc i).pagetable va Perm.r).isSome := by
      unfold translate
      rw [if_neg (Nat.not_le.mpr hmax), hleaf]
      exact Bool.false_ne_true
    have hvalid : faultValid (s.proc i) (pgRoundDown va) ↔ inRange (s.proc i) (pgRoundDown va) := or_iff_left hswap
    have hfind : findPageInfo (s.proc i) (pgRoundDown va) = findPageInfo (s.proc i) va := by rw [findPageInfo, hround, findPageInfo]
    rw [view_unmapped hmax hleaf, or_iff_right hno]
    unfold demandPage entryOf
    rw [h.fresh, hfind]
    by_cases hrange : inRange (s.proc i) (pgRoundDown va)
    · rw [if_neg (not_not.mpr (hvalid.mpr hrange))]
      cases hf : findPageInfo (s.proc i) va with
      | none =>
        simp only [Option.bind_none, Option.isSome_none, Bool.false_eq_true, false_or, hrange, true_and]
        by_cases hroom : maxPages ≤ (s.proc i).pages.length
        · rw [if_pos hroom]
          exact iff_of_false (by simp) (fun hx => absurd hx.1 (Nat.not_lt.mpr hroom))
        · rw [if_neg hroom]
          simp only [Option.map_some, Option.some.injEq, Nat.not_le.mp hroom, true_and]
      | some k =>
        obtain ⟨e, he, hea⟩ := findPageInfo_some hf
        have hne : e.state ≠ .swapped := (h.clean e (List.mem_of_getElem? he) hea).1
        simp only [Option.bind_some, he, if_neg hne, Option.map_some, Option.some.injEq, Option.isSome_some, true_or, true_and, hrange]
    · rw [if_pos (hvalid.not.mpr hrange)]
      exact iff_of_false (by simp) (fun hx => hrange hx.1.2.1)

/-! ## After `exec` -/

/-- The addresses that are loaded from the file: from the start of the text to the end of the data. -/
def Scan.loads (st : Scan) (va : Nat) : Prop := st.textStart ≤ va ∧ va < st.dataEnd

/-- Lazy loading brings the byte of a segment: the byte is zero, or its page is in the loaded range and its segment is one of those
recorded. -/
def lazyOk (ip : Inode) (ph : ProgHdr) (va : Nat) : Prop :=
  let st := (scanFile ip).1
  eagerByte ip ph va = 0 ∨ (st.loads (pgRoundDown va) ∧ ph.segment ∈ st.segs)

section Exec

variable {m₀ : Machine} {p₀ : Proc} {path : List Char} {fs₀ fs : Fs} {ip sp : Nat} {mem : Pa} {pt : PageTable} {ph : ProgHdr}

/-- The byte a page of the new image is loaded with is the byte of the segment exactly when that is zero, or the page is loaded from
its segment. -/
theorem ExecDone.fresh_iff {fs' : Fs} (h : ExecDone m₀ p₀ path m p fs₀ fs ip mem pt sp) (hino : fs'.inode ip = fs.inode ip)
    (hsize : (fs.inode ip).size ≤ maxFile * bSize) (hdisj : (fileHdrs (fs.inode ip)).Pairwise ProgHdr.disjoint)
    (hph : ph ∈ fileHdrs (fs.inode ip)) (hva : ph.contains va)
    (hbyte : va - ph.vaddr < ph.filesz → ph.off + (va - ph.vaddr) < (fs.inode ip).size) :
    freshPage fs' p (pgRoundDown va) (va % 4096) = eagerByte (fs.inode ip) ph va ↔
      eagerByte (fs.inode ip) ph va = 0 ∨ ((scanFile (fs.inode ip)).1.loads (pgRoundDown va) ∧
        ph.segment ∈ (scanFile (fs.inode ip)).1.segs) := by
  have hok : ph.ok := (scanFile_good h.good).2 ph hph
  have hp := h.proc
  rw [commit_eq] at hp
  have hsegs : p.segments = (scanFile (fs.inode ip)).1.segs := by rw [hp]
  have hexec : inExec p (pgRoundDown va) ↔ (scanFile (fs.inode ip)).1.loads (pgRoundDown va) := by
    rw [hp]
    rfl
  have hfind := findSegment_of_contains h.good hsegs hdisj hph (hva.page hok)
  unfold freshPage
  by_cases hin : inExec p (pgRoundDown va)
  · rw [if_pos hin]
    by_cases hrec : ph.segment ∈ (scanFile (fs.inode ip)).1.segs
    · rw [if_pos hrec] at hfind
      refine iff_of_true ?_ (Or.inr ⟨hexec.mp hin, hrec⟩)
      rw [← hino] at hsize hbyte ⊢
      exact execPage_recorded (by rw [hp]) hfind hok hva hsize hbyte
    · rw [if_neg hrec] at hfind
      rw [execPage_unrecorded hfind]
      simp only [hrec, and_false, or_false]
      exact eq_comm
  · rw [if_neg hin]
    simp only [← hexec, hin, false_and, or_false]
    exact eq_comm

/-- `exec` leaves only the stack page in memory for the user. -/
theorem ExecDone.user_stack {v : Nat} {pte : Pte} (h : ExecDone m₀ p₀ path m p fs₀ fs ip mem pt sp) (hl : pt.leaf v = some pte)
    (hu : pte.perm.u = true) : v * 4096 = stackBase (imageTop (scanFile (fs.inode ip)).1.sz) := by
  obtain ⟨h1, h2, h3⟩ := h.table.top
  obtain ⟨g, hg⟩ := h.table.guard
  rw [stackBase_eq h.table.top]
  by_contra hne
  by_cases hv₁ : v = userPages
  · rw [hv₁, h.table.trapframe] at hl
    rw [← Option.some.inj hl] at hu
    cases hu
  by_cases hv₂ : v = userPages + 1
  · rw [hv₂, h.table.trampoline] at hl
    rw [← Option.some.inj hl] at hu
    cases hu
  by_cases hv₃ : v + 2 = imageTop (scanFile (fs.inode ip)).1.sz / 4096
  · rw [show v = imageTop (scanFile (fs.inode ip)).1.sz / 4096 - 2 by omega, hg] at hl
    rw [← Option.some.inj hl] at hu
    cases hu
  · rw [h.table.rest v hv₁ hv₂ (by omega) hv₃] at hl
    cases hl

end Exec

/-- A reference taken and given back leaves the inodes. -/
theorem iput_idup_inode {fs : Fs} {ip : Nat} (h : 1 ≤ fs.ref ip) : (iput (idup fs ip) ip).inode = fs.inode := by
  have href : (idup fs ip).ref ip ≠ 1 := by
    have heq : (idup fs ip).ref ip = fs.ref ip + 1 := Function.update_self ..
    omega
  unfold iput
  simp only [href, false_and, if_false]
  rfl

theorem ilock_ref {fs fs' : Fs} {ip : Nat} (h : ilock fs ip = .ok fs') : 1 ≤ fs'.ref ip := by
  unfold ilock at h
  split at h
  · cases h
  rename_i hge
  split at h
  · obtain rfl := Except.ok.inj h
    omega
  split at h
  · cases h
  · obtain rfl := Except.ok.inj h
    change 1 ≤ fs.ref ip
    omega

/-- Process `i` has executed a file without overlapping segments, and every event since has spared the page of `va` and left the
file. -/
inductive Loaded (i : Nat) (file : Inode) (va : Nat) (t : Sys) : Prop where
  | mk {s : Sys} {argc ip : Nat} {path : List Char} {argv : List (List Byte)} {m₁ : Machine} {p₁ : Proc} {fs₀ fs : Fs}
      {evs : List Event} (reachable : Reachable s) (lt : i < nProc) (live : (s.proc i).live)
      (args : ∀ arg ∈ argv, arg.length < pgSize) (exec : kexec s.m (s.proc i) path argv = .ok (m₁, p₁, some argc))
      (named : ExecFile s.m (s.proc i) path fs₀ fs ip) (content : fs.inode ip = file) (size : file.size ≤ maxFile * bSize)
      (disjoint : (fileHdrs file).Pairwise ProgHdr.disjoint)
      (run : Run (LazyStep i (pgRoundDown va)) (s.put i m₁ p₁) evs t)

/-- A user address in a segment of a file. It is not in the one page that `exec` maps itself, for the stack: that page is above every
segment, unless the end of a segment wraps when it is rounded up to a page. -/
structure SegmentAddr (file : Inode) (ph : ProgHdr) (va : Nat) : Prop where
  hdr : ph ∈ fileHdrs file
  contains : ph.contains va
  byte : va - ph.vaddr < ph.filesz → ph.off + (va - ph.vaddr) < file.size
  user : va < trapframeVa
  lazy : pgRoundDown va ≠ stackBase (imageTop (scanFile file).1.sz)

/-- After `exec`, in every run of all processes that spares the page and leaves the file: a load from an address of a segment yields the
byte that loading every segment at once would have put there exactly when `lazyOk` holds and the load can be served. -/
theorem lazy_load_iff {file : Inode} {ph : ProgHdr} (h : Loaded i file va t) (ha : SegmentAddr file ph va) :
    (view t.m (t.proc i) va = some (eagerByte file ph va) ↔ lazyOk file ph va ∧ Loadable (t.proc i) va) ∧
    ∀ b, LoadYields va b t.m (t.proc i) → (b = eagerByte file ph va ↔ lazyOk file ph va) := by
  obtain @⟨s, argc, ip, path, argv, m₁, p₁, fs₀, fs, evs, hs, hi, hl, hargs, hexec, hfile, rfl, hsize, hdisj, hrun⟩ := h
  obtain ⟨hph, hva, hbyte, huser, hlazy⟩ := ha
  have hok : ArgsOk argv := fun arg ha => lt_trans (hargs arg ha) (by decide)
  have hwf := hs.inv.wf hi hl
  obtain ⟨-, ⟨hn, -⟩ | ⟨argc', fs₀', fs', ip', mem, pt, sp, -, hd⟩⟩ := kexec_spec hwf.toHasTable (Or.inr hwf.stack) hok hexec
  · cases hn
  obtain ⟨rfl, rfl⟩ := hfile.unique hd.file
  have hino : m₁.fs.inode ip' = fs'.inode ip' := by rw [hd.files, iput_idup_inode (ilock_ref hd.file.lock)]
  have hv : pgRoundDown va / 4096 < userPages := by
    rw [trapframeVa_eq] at huser
    rw [pgRoundDown_div]
    omega
  have hstart : LazyInv i (pgRoundDown va) (freshPage m₁.fs p₁ (pgRoundDown va)) (s.put i m₁ p₁) := by
    have hstate : p₁.state = (s.proc i).state := by rw [hd.proc, commit_eq]
    have hpt : p₁.pagetable = pt := by rw [hd.proc, commit_eq]
    refine ⟨hs.inv.exec hi hl hok hexec, ?_, ?_, ?_, ?_⟩
    all_goals rw [Sys.put_proc_self]
    · exact live_congr hstate hl
    · rw [Sys.put_m]
    · rw [hd.proc, commit_eq]
      intro e he _
      rw [List.mem_singleton.mp he]
      exact ⟨by simp, fun _ => rfl⟩
    · -- the page is not in memory
      intro pte hpte hu
      rw [hpt] at hpte
      refine absurd ?_ hlazy
      rw [← hd.user_stack hpte hu, pgRoundDown_div]
      rfl
  have hend : LazyInv i (pgRoundDown va) (freshPage m₁.fs p₁ (pgRoundDown va)) t :=
    hrun.invariant _ (fun _ _ _ hx hstep => hstep.inv hi hv (pgRoundDown_mod va) hx) hstart
  have hfresh : freshPage m₁.fs p₁ (pgRoundDown va) (va % 4096) = eagerByte (fs'.inode ip') ph va ↔ lazyOk (fs'.inode ip') ph va :=
    hd.fresh_iff hino hsize hdisj hph hva hbyte
  constructor
  · rw [hend.view_iff huser, hfresh]
    exact And.comm
  · intro b hb
    obtain ⟨-, hcontent⟩ := (hend.view_iff huser).mp (hb.view (hend.pageInv hi).freelist_nodup)
    rw [← hcontent]
    exact hfresh

/-- The file that `exec` finds by a path. -/
def execFile (m : Machine) (p : Proc) (path : List Char) : Kern (Option (Fs × Fs × Nat)) := do
  match ← namei m.fs (p.cwd.getD 0) path with
  | (_, none) => .ok none
  | (fs₀, some ip) =>
    let fs ← ilock fs₀ ip
    .ok (if isElf (fs.inode ip) then some (fs₀, fs, ip) else none)

theorem execFile_some {m : Machine} {p : Proc} {path : List Char} {fs₀ fs : Fs} {ip : Nat}
    (h : execFile m p path = .ok (some (fs₀, fs, ip))) : ExecFile m p path fs₀ fs ip := by
  obtain ⟨⟨fs₁, o⟩, hn, h⟩ := bind_ok h
  cases o with
  | none => cases h
  | some ip₁ =>
    obtain ⟨fs₂, hl, h⟩ := bind_ok h
    have h := Except.ok.inj h
    split at h
    · rename_i he
      simp only [Option.some.injEq, Prod.mk.injEq] at h
      obtain ⟨rfl, rfl, rfl⟩ := h
      exact ⟨hn, hl, he⟩
    · cases h

instance (file : Inode) (ph : ProgHdr) (va : Nat) : Decidable (SegmentAddr file ph va) :=
  decidable_of_iff ((ph ∈ fileHdrs file ∧ (ph.vaddr ≤ va ∧ va < ph.vend) ∧
      (va - ph.vaddr < ph.filesz → ph.off + (va - ph.vaddr) < file.size)) ∧ va < trapframeVa ∧
      pgRoundDown va ≠ stackBase (imageTop (scanFile file).1.sz))
    ⟨fun h => ⟨h.1.1, h.1.2.1, h.1.2.2, h.2.1, h.2.2⟩, fun h => ⟨⟨h.hdr, h.contains, h.byte⟩, h.user, h.lazy⟩⟩

/-! ## Replays -/

/-- An action that is a run of events that spare page `page` of process `i` and write to no file. -/
def Action.sparesPage (i page : Nat) (s : Sys) : Action → Bool
  | .fault k a access => Action.serves s (.fault k a access) && (k ≠ i || access ≠ .write || pgRoundDown a ≠ page)
  | .evict k => Action.serves s (.evict k) && (s.proc k).pages.all (fun e => !e.isDirty)
  | .store k a _ => k ≠ i || a / 4096 ≠ page / 4096
  | .sbrk k n eager => Action.keepsTrapframe s (.sbrk k n eager) && !eager
  | .fork _ | .setSp _ _ => true
  | _ => false

/-- A run of page events that spare the page and write to no file. -/
theorem lazy_pages {K : Machine × Proc → PageEvent → Prop} {k : Nat} {m : Machine} {p : Proc} {evs : List PageEvent}
    (hK : ∀ x pev, K x pev → (k = i → ¬pev.dirties page) ∧ ¬pev.swapsOut) (hready : s.ready k)
    (hr : Run (Guarded K PageStep) (s.m, s.proc k) evs (m, p)) : ∃ evs, Run (LazyStep i page) s evs (s.put k m p) := by
  refine ⟨_, (pages_sys hready.1 hready.2.1 hr).mono ?_⟩
  rintro u ev v ⟨⟨pev, rfl, hk⟩, hs⟩
  obtain ⟨hspares, hout⟩ := hK _ _ hk
  refine ⟨hs, trivial, hspares, fun ip _ => ?_⟩
  cases hs with
  | page lt live hp =>
    rw [Sys.put_m, hp.inode hout]
    exact .refl _

theorem Step.lazy_run {a : Action} (h : Step s a t) (ha : a.sparesPage i page s = true) : ∃ evs, Run (LazyStep i page) s evs t := by
  have hsame : ∀ {ev : Event}, SysStep s ev t → ev.keepsTrapframe s → ev.spares i page s t → t.m.fs.inode = s.m.fs.inode →
      ∃ evs, Run (LazyStep i page) s evs t := by
    intro ev hs hk hspares hino
    exact ⟨_, Run.single ⟨hs, hk, hspares, fun ip _ => by rw [hino]; exact .refl _⟩⟩
  cases a with
  | fault k a access =>
    simp only [Action.sparesPage, Bool.and_eq_true, Bool.or_eq_true, decide_eq_true_eq] at ha
    obtain ⟨m, p, evs, rfl, hr, hevs⟩ := h.fault_events ha.1
    refine lazy_pages ?_ h.1.1 ((hr.mono (fun _ _ _ hg => hg.2)).guard (fun _ => id))
    intro x pev hpev
    rcases hevs with ⟨hwrite, j, rfl⟩ | ⟨src, j, rfl | rfl⟩
    · obtain rfl := List.mem_singleton.mp hpev
      refine ⟨fun hk hpage => ?_, id⟩
      rcases ha.2 with (hne | hacc) | hne
      · exact hne hk
      · exact hacc hwrite
      · exact hne hpage
    · obtain rfl := List.mem_singleton.mp hpev
      exact ⟨fun _ => id, id⟩
    · rcases List.mem_cons.mp hpev with rfl | hpev
      · exact ⟨fun _ => id, id⟩
      · obtain rfl := List.mem_singleton.mp hpev
        exact ⟨fun _ => id, id⟩
  | evict k =>
    simp only [Action.sparesPage, Bool.and_eq_true] at ha
    obtain ⟨m, p, pev, rfl, hs, j, va, hev⟩ := h.evict_event ha.1
    refine lazy_pages (K := fun _ pev => ∃ j va, pev = .evictClean j va) ?_ h.1 (Run.single ⟨⟨j, va, ?_⟩, hs⟩)
    · rintro x pev ⟨j, va, rfl⟩
      exact ⟨fun _ => id, id⟩
    · refine hev.resolve_right ?_
      rintro rfl
      cases hs with
      | evictDirty hx =>
        have hclean := List.all_eq_true.mp ha.2 _ (List.mem_of_getElem? hx.victim.entry)
        rw [hx.dirty] at hclean
        cases hclean
  | store k a b =>
    obtain ⟨⟨hready, hmapped⟩, h⟩ := h
    obtain ⟨pa, hpa⟩ := Option.isSome_iff_exists.mp hmapped
    obtain rfl := Except.ok.inj h
    have hput : s.put k (s.m.poke pa (a % 4096) b) (s.proc k) = { s with m := (userStore s.m (s.proc k) a b).getD s.m } := by
      simp [userStore, hpa, Sys.put]
    rw [← hput]
    refine lazy_pages (K := fun _ pev => pev = .store a b) ?_ hready (Run.single ⟨rfl, .store hpa⟩)
    rintro x pev rfl
    refine ⟨fun hk hpage => ?_, id⟩
    simp only [Action.sparesPage, Bool.or_eq_true, decide_eq_true_eq] at ha
    exact ha.elim (absurd hk) (absurd hpage)
  | sbrk k n eager =>
    simp only [Action.sparesPage, Bool.and_eq_true, decide_eq_true_eq, Bool.not_eq_true'] at ha
    obtain ⟨hsafe, rfl⟩ := ha
    obtain ⟨hready, h⟩ := h
    simp only [perform] at h
    obtain ⟨m, p, r, hc, rfl⟩ := memCall_ok h
    refine hsame (.sbrk hready.1 hready.2.1 hc) hsafe (fun _ he => Bool.noConfusion he) ?_
    rw [Sys.put_m, (sysSbrk_env hc).1.fs]
  | fork k =>
    obtain ⟨hready, h⟩ := h
    obtain ⟨⟨u, o⟩, hf, h⟩ := bind_ok h
    obtain rfl := Except.ok.inj h
    exact hsame (.fork hready.1 hready.2.1 hf) trivial trivial (kfork_slot hf).1.inode
  | setSp k sp =>
    obtain rfl := Except.ok.inj h.2
    exact hsame (.setSp sp) trivial trivial rfl
  | _ => cases ha

theorem replay_lazy {as : List Action} (h : replayIf (Action.sparesPage i page) s as = some t) : ∃ evs, Run (LazyStep i page) s evs t := by
  have hstep : ∀ (s : Sys) (a : Action) (t u : Sys), Guarded (fun s a => a.sparesPage i page s = true) Step s a t → s = u →
      ∃ evs v, Run (LazyStep i page) u evs v ∧ t = v := by
    rintro s a t _ ⟨ha, hs⟩ rfl
    obtain ⟨evs, hr⟩ := hs.lazy_run ha
    exact ⟨evs, t, hr, rfl⟩
  obtain ⟨evs, v, hr, rfl⟩ := (replayIf_run (fun _ _ => id) h).simulate hstep rfl
  exact ⟨evs, hr⟩

/-- The first process executes a file: the file and the state after a run from there, if they pass a test. -/
def loadCheck (s : Sys) (path : List Char) (run : Sys → Option Sys) (test : Inode → Sys → Bool) : Bool :=
  match kexec s.m (s.proc 0) path [], execFile s.m (s.proc 0) path with
  | .ok (m₁, p₁, some _), .ok (some (_, fs, ip)) =>
    match run (s.put 0 m₁ p₁) with
    | some t =>
      decide (s.ready 0 ∧ (fs.inode ip).size ≤ maxFile * bSize ∧ (fileHdrs (fs.inode ip)).Pairwise ProgHdr.disjoint) &&
        test (fs.inode ip) t
    | none => false
  | _, _ => false

theorem loadCheck_loaded {as : List Action} {path : List Char} {test : Inode → Sys → Bool} (hb : Boot s)
    (h : loadCheck s path (fun s => replayIf (Action.sparesPage 0 (pgRoundDown va)) s as) test = true) :
    ∃ file t, Loaded 0 file va t ∧ test file t = true := by
  unfold loadCheck at h
  split at h
  · rename_i m₁ p₁ argc fs₀ fs ip hk hf
    split at h
    · rename_i t ht
      rw [Bool.and_eq_true, decide_eq_true_eq] at h
      obtain ⟨⟨⟨-, hl, -⟩, hsize, hdisj⟩, htest⟩ := h
      obtain ⟨evs, hrun⟩ := replay_lazy ht
      exact ⟨_, t, .mk (Reach.of_init hb) (by decide) hl (by simp) hk (execFile_some hf) rfl hsize hdisj hrun, htest⟩
    · cases h
  · cases h

/-- Pages of the text and the data are loaded and discarded, a page of the heap is written to, the process forks, and its child and then
the process itself load the page of the data again. -/
def touchAndDiscard : List Action := [.fault 0 0 .read, .fault 0 4096 .read, .evict 0, .evict 0, .evict 0, .sbrk 0 4096 false,
  .fault 0 16384 .read, .fault 0 16384 .write, .store 0 16384 7, .fork 0, .fault 1 4096 .write, .fault 0 4096 .read]

/-- The second byte of the data of the first program, after that. -/
theorem lazy_load_iff_data : ∃ file t, Loaded 0 file 4097 t ∧ SegmentAddr file ⟨1, 6, 192, 4096, 8, 24⟩ 4097 ∧ (t.proc 1).live ∧
    (view t.m (t.proc 0) 4097 = some (eagerByte file ⟨1, 6, 192, 4096, 8, 24⟩ 4097) ↔
      lazyOk file ⟨1, 6, 192, 4096, 8, 24⟩ 4097 ∧ Loadable (t.proc 0) 4097) ∧
    (18 = eagerByte file ⟨1, 6, 192, 4096, 8, 24⟩ 4097 ↔ lazyOk file ⟨1, 6, 192, 4096, 8, 24⟩ 4097) := by
  have hex : loadCheck (smallBoot smallFiles 32) "/init".toList
      (fun s => replayIf (Action.sparesPage 0 (pgRoundDown 4097)) s touchAndDiscard)
      (fun file t => decide (SegmentAddr file ⟨1, 6, 192, 4096, 8, 24⟩ 4097 ∧ (t.proc 1).live ∧ userLoad t.m (t.proc 0) 4097 = some 18)) =
        true := by decide +kernel
  obtain ⟨file, t, hl, htest⟩ := loadCheck_loaded smallBoot_init hex
  obtain ⟨ha, hchild, hload⟩ := of_decide_eq_true htest
  exact ⟨file, t, hl, ha, hchild, (lazy_load_iff hl ha).1, (lazy_load_iff hl ha).2 18 (.now hload)⟩

/-- Loading lazily is not always loading: a program without a data segment is filled with zeros. -/
theorem lazy_load_text_only : ¬∀ i file t ph va, Loaded i file va t → SegmentAddr file ph va →
    view t.m (t.proc i) va = some (eagerByte file ph va) := by
  intro hall
  have hex : loadCheck (smallBoot twoPrograms 32) "/echo".toList
      (fun s => replayIf (Action.sparesPage 0 (pgRoundDown 0)) s [])
      (fun file t => decide (SegmentAddr file ⟨1, 5, 120, 0, 8, 8⟩ 0) &&
        decide (view t.m (t.proc 0) 0 ≠ some (eagerByte file ⟨1, 5, 120, 0, 8, 8⟩ 0))) = true := by decide +kernel
  obtain ⟨file, t, hl, ht⟩ := loadCheck_loaded smallBoot_two hex
  rw [Bool.and_eq_true, decide_eq_true_eq, decide_eq_true_eq] at ht
  exact ht.2 (hall 0 file t _ 0 hl ht.1)

end Xv6SnifferBakery.Kernel
