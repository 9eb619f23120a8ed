import Xv6SnifferBakery.Lemmas.Answer
import Xv6SnifferBakery.Lemmas.Tracking
import Xv6SnifferBakery.Theorems.FaultProgress
import Xv6SnifferBakery.Theorems.LazyLoad

/-!
# Writes to segments

Three places decide whether a store to a page of the image is allowed. A page that is loaded from the file gets the permissions of the
first recorded segment that contains it; a fault for writing is refused in the merged range of the text segments; and outside this range
the first write to a page in memory sets `PTE_W` whatever the segment says. So in the text range a page of a writable segment can be
written to once a load has brought it in and not before, and outside it every page can be written to that a fault can load.
-/

namespace Xv6SnifferBakery.Kernel

open Lib

variable {s t : Sys} {ev : Event} {m m' : Machine} {p p' : Proc} {i va : Nat} {file : Inode} {ph : ProgHdr}

/-! ## Stores -/

/-- A store at address `a` is allowed eventually: now, or after faults for it that all return 0. -/
inductive StoreAllowed (a : Nat) : Machine → Proc → Prop where
  | now {m : Machine} {p : Proc} (h : (translate p.pagetable a Perm.w).isSome) : StoreAllowed a m p
  | fault {m m' : Machine} {p p' : Proc} (refused : translate p.pagetable a Perm.w = none)
      (h : handlePageFault m p a .write true = .ok (m', p', true)) (rest : StoreAllowed a m' p') : StoreAllowed a m p

/-- A store is allowed eventually exactly when it is allowed now, or the next fault for it is served. -/
theorem storeAllowed_iff (hset : Settled m p) (hoff : OffGuard p) :
    StoreAllowed va m p ↔ (translate p.pagetable va Perm.w).isSome ∨ Served m p (pgRoundDown va) .write := by
  constructor
  · intro h
    cases h with
    | now h => exact Or.inl h
    | fault _ h => exact Or.inr ((fault_served_iff hset).mp ⟨_, _, h⟩)
  · rintro (h | h)
    · exact .now h
    by_cases hnow : (translate p.pagetable va Perm.w).isSome
    · exact .now hnow
    obtain ⟨m', p', hf⟩ : ∃ m' p', handlePageFault m p va .write true = .ok (m', p', true) := (fault_served_iff hset).mpr h
    refine .fault (by simpa using hnow) hf ?_
    obtain ⟨pte, hleaf, hu, -, hwrite⟩ := (handlePageFault_cases hf).serves (pgRoundDown_mod va) hoff
    rw [pgRoundDown_div] at hleaf
    rcases hwrite rfl with hw | ⟨j, hgrant⟩
    · exact .now (translate_of_leaf hleaf hu hw)
    · -- the page was loaded without `PTE_W`, and the next fault grants it
      by_cases hnow' : (translate p'.pagetable va Perm.w).isSome
      · exact .now hnow'
      refine .fault (by simpa using hnow') (handlePageFault_grants hgrant) (.now ?_)
      obtain ⟨-, e, pte', hw⟩ := hgrant
      have hgranted := hw.granted
      rw [pgRoundDown_div] at hgranted
      have hu' : ({ pte' with perm := { pte'.perm with w := true } } : Pte).perm.u = true := hw.user
      exact translate_of_leaf hgranted hu' rfl

/-- No fault for writing is served in the text range. -/
theorem Served.not_text {page : Nat} (h : Served m p page .write) (hal : page % 4096 = 0) (hoff : OffGuard p) : ¬inText p page := by
  cases h with
  | grant h =>
    obtain ⟨-, e, pte, hw⟩ := h
    exact hw.text
  | load hload => exact fun ht => hload.text rfl ⟨hoff.valid hal hload.valid, ht⟩

/-! ## Pages of the text range -/

/-- The permissions a page gets when it is loaded and not swapped in. -/
def loadPerm (p : Proc) (va : Nat) : Perm := if inExec p va then execPerm p va else trackPerm

theorem loadPerm_congr (h : SameImage p p') (va : Nat) : loadPerm p' va = loadPerm p va := by
  rw [h.eq]
  rfl

/-- What a page of the text range looks like: it is never dirty nor swapped out, and in memory it has the permissions it was loaded
with. -/
structure TextLoaded (page : Nat) (p : Proc) : Prop where
  text : inText p page
  entry : CleanAt page p
  perm : ∀ pte, p.pagetable.leaf (page / 4096) = some pte → pte.perm.u = true → pte.perm = loadPerm p page

theorem PageStep.textLoaded {page : Nat} {pev : PageEvent} (h : PageStep (m, p) pev (m', p')) (hp : p.Aligned) (hal : page % 4096 = 0)
    (ht : TextLoaded page p) : TextLoaded page p' := by
  have himg := h.image
  have hno : ∀ j, pev ≠ .firstWrite j page := by
    rintro j rfl
    cases h with
    | firstWrite hx => exact hx.text ht.text
  refine ⟨?_, h.table.cleanAt ht.entry hno, ?_⟩
  · rw [himg.eq]
    exact ht.text
  intro pte hpte hu
  rw [loadPerm_congr himg]
  rcases h.table.leaf_cases hp hal hno with hsame | hnone | ⟨-, src, j, rfl⟩
  · exact ht.perm pte (hsame ▸ hpte) hu
  · rw [hnone] at hpte
    cases hpte
  · -- the page is loaded, and not from the swap file
    cases h with
    | load entry addr exec swap valid hload =>
      have hunswapped := (ht.entry _ (List.mem_of_getElem? entry) addr).1
      rw [hload.leaf.1, Function.update_self] at hpte
      obtain rfl := Option.some.inj hpte
      unfold loadPerm
      cases src with
      | swap => exact absurd (swap rfl) hunswapped
      | exec =>
        rw [if_pos (exec.mp rfl).2]
        rfl
      | zero =>
        rw [if_neg]
        · rfl
        · intro hin
          cases exec.mpr ⟨nofun, hin⟩

/-- In a page of the text range a store is allowed now exactly when the page is in memory and was loaded with `PTE_W`. -/
theorem TextLoaded.writable_iff (h : TextLoaded (pgRoundDown va) p) :
    (translate p.pagetable va Perm.w).isSome ↔
      (translate p.pagetable va Perm.r).isSome ∧ (loadPerm p (pgRoundDown va)).w = true := by
  have hperm : ∀ {need : Perm → Bool}, (translate p.pagetable va need).isSome →
      ∃ pte, p.pagetable.leaf (va / 4096) = some pte ∧ pte.perm.u = true ∧ need pte.perm = true ∧
        pte.perm = loadPerm p (pgRoundDown va) := by
    intro need hs
    obtain ⟨pa, hpa⟩ := Option.isSome_iff_exists.mp hs
    obtain ⟨pte, hleaf, hu, hneed, -⟩ := translate_some hpa
    exact ⟨pte, hleaf, hu, hneed, h.perm pte (by rwa [pgRoundDown_div]) hu⟩
  constructor
  · intro hw
    obtain ⟨pte, hleaf, hu, hneed, heq⟩ := hperm hw
    refine ⟨translate_of_leaf hleaf hu ?_, heq ▸ hneed⟩
    rw [heq, loadPerm]
    split
    · rw [execPerm]
      split <;> rfl
    · rfl
  · rintro ⟨hr, hw⟩
    obtain ⟨pte, hleaf, hu, -, heq⟩ := hperm hr
    exact translate_of_leaf hleaf hu (heq ▸ hw)

/-! ## Runs after `exec` -/

/-- The events of process `i` that change its size or its image, or end it. -/
def Event.remakes (i : Nat) : Event → Prop
  | .sbrk k _ _ | .exec k _ | .exit k => k = i
  | _ => False

/-- The actions of process `i` that do. -/
def Action.remakes (i : Nat) : Action → Prop
  | .sbrk k _ _ | .exec k _ _ | .exit k _ => k = i
  | _ => False

/-- Every other action is a run of events of the other kinds. -/
theorem Step.stays {a : Action} (h : Step s a t) (ha : ¬a.remakes i) :
    ∃ evs, Run (Guarded (fun _ ev => ¬ev.remakes i) SysStep) s evs t := by
  refine h.silentEvents (K := fun _ ev _ => ¬ev.remakes i) ?_ ?_ (fun _ _ _ hf => hf) ?_ ?_
  · rintro k n eager rfl
    exact ha
  · rintro k path argv done rfl
    exact ha
  · rintro k status rfl
    exact ha
  · intro u ev v hev
    cases ev <;> first | exact fun hf => hf | exact hev.elim

/-- Process `i` has executed a file, and has neither changed its size since nor executed another one. -/
inductive ImageRun (i : Nat) (file : Inode) (t : Sys) : Prop where
  | mk {s : Sys} {argc ip : Nat} {path : List Char} {argv : List (List Byte)} {m₁ : Machine} {p₁ : Proc} {fs₀ fs : Fs}
      {as : List Action} (reachable : Reach ColdBoot SafeStep s) (enabled : enabled s (.exec i path argv))
      (exec : kexec s.m (s.proc i) path argv = .ok (m₁, p₁, some argc)) (named : ExecFile s.m (s.proc i) path fs₀ fs ip)
      (content : fs.inode ip = file) (run : Run (Guarded (fun _ a => ¬a.remakes i) Step) (s.put i m₁ p₁) as t) : ImageRun i file t

/-- An address in a segment of a file. -/
structure InSegment (file : Inode) (ph : ProgHdr) (va : Nat) : Prop where
  hdr : ph ∈ fileHdrs file
  contains : ph.contains va

/-- The flags of a segment include write. -/
def ProgHdr.writable (ph : ProgHdr) : Prop := ph.flags / 2 % 2 = 1

instance (ph : ProgHdr) : Decidable ph.writable := inferInstanceAs (Decidable (_ = _))

/-- The merged range of the text segments, but for the page that `exec` maps itself, for the stack: that page is above every segment,
unless the end of a segment wraps when it is rounded up to a page. -/
def Scan.text (st : Scan) (va : Nat) : Prop := (st.textStart ≤ va ∧ va < st.textEnd) ∧ va ≠ stackBase (imageTop st.sz)

/-- A page that is loaded is given `PTE_W`: it is in the range that is loaded from the file, and the first recorded segment that contains
it is writable. -/
def Scan.grants (st : Scan) (va : Nat) : Prop :=
  st.loads va ∧ (st.segs.find? (fun s => s.vaStart ≤ va ∧ va < s.vaEnd)).any (fun s => s.flags / 2 % 2 = 1) = true

/-- What the image is, and what holds of its text pages, in a run after `exec`. -/
structure ImageInv (i : Nat) (st : Scan) (t : Sys) : Prop where
  live : (t.proc i).live
  aligned : (t.proc i).Aligned
  offGuard : OffGuard (t.proc i)
  segments : (t.proc i).segments = st.segs
  text : (t.proc i).textStart = st.textStart ∧ (t.proc i).textEnd = st.textEnd
  data : (t.proc i).dataEnd = st.dataEnd
  loaded : ∀ page, page % 4096 = 0 → st.text page → TextLoaded page (t.proc i)

theorem SysStep.imageInv {st : Scan} (h : SysStep s ev t) (hev : ¬ev.remakes i) (hs : ImageInv i st s) : ImageInv i st t := by
  have hl := h.stays (fun he => hev (by rw [he]; rfl)) hs.live
  cases h.slot hl with
  | same live tf ofile cwd parent killed state _ hp =>
    refine ⟨hl, ?_, ?_, ?_, ?_, ?_, ?_⟩
    all_goals rw [hp]
    · exact hs.aligned
    · exact hs.offGuard
    · exact hs.segments
    · exact hs.text
    · exact hs.data
    · intro page hal ht
      obtain ⟨h1, h2, h3⟩ := hs.loaded page hal ht
      exact ⟨h1, h2, h3⟩
  | page _ _ hp =>
    have himg := hp.image
    obtain ⟨hal, hoff⟩ := offGuard_kept.page hp ⟨hs.aligned, hs.offGuard⟩
    refine ⟨hl, hal, hoff, ?_, ?_, ?_, fun page hpage ht => hp.textLoaded hs.aligned hpage (hs.loaded page hpage ht)⟩
    all_goals rw [himg.eq]
    · exact hs.segments
    · exact hs.text
    · exact hs.data
  | sbrk he =>
    subst he
    exact absurd rfl hev
  | exec he =>
    subst he
    exact absurd rfl hev
  | fork _ _ hu => exact absurd hu hs.live.ne_unused

/-- A new image. -/
theorem ExecDone.imageInv {path : List Char} {fs₀ fs : Fs} {ip sp : Nat} {mem : Pa} {pt : PageTable}
    (h : ExecDone m p path m' p' fs₀ fs ip mem pt sp) (hproc : t.proc i = p') (hl : p.live) :
    ImageInv i (scanFile (fs.inode ip)).1 t := by
  have hp := h.proc
  have hlive : p'.live := by
    rw [Proc.live, hp, commit_eq]
    exact hl
  have hinv : ∀ q : Proc, q = p' → q.live ∧ q.Aligned ∧ OffGuard q ∧ q.segments = (scanFile (fs.inode ip)).1.segs ∧
      (q.textStart = (scanFile (fs.inode ip)).1.textStart ∧ q.textEnd = (scanFile (fs.inode ip)).1.textEnd) ∧
      q.dataEnd = (scanFile (fs.inode ip)).1.dataEnd ∧
      ∀ page, page % 4096 = 0 → (scanFile (fs.inode ip)).1.text page → TextLoaded page q := by
    rintro q rfl
    have haligned : (({ p with segments := (scanFile (fs.inode ip)).1.segs, execInode := some ip } : Proc).commit path
        (scanFile (fs.inode ip)).1 (elfHdr (fs.inode ip).data).entry pt sp).Aligned := commit_aligned
    have hoff : OffGuard (({ p with segments := (scanFile (fs.inode ip)).1.segs, execInode := some ip } : Proc).commit path
        (scanFile (fs.inode ip)).1 (elfHdr (fs.inode ip).data).entry pt sp) := commit_offGuard
    rw [← hp] at haligned hoff
    rw [commit_eq] at hp
    subst hp
    refine ⟨hlive, haligned, hoff, rfl, ⟨rfl, rfl⟩, rfl, ?_⟩
    rintro page hal ⟨htext, hne⟩
    refine ⟨htext, ?_, ?_⟩
    · intro e he
      rw [List.mem_singleton.mp he]
      exact fun _ => ⟨fun h => (by cases h), fun _ => rfl⟩
    · intro pte hpte hu
      have := h.user_stack hpte hu
      omega
  obtain ⟨h1, h2, h3, h4, h5, h6, h7⟩ := hinv _ hproc
  exact ⟨h1, h2, h3, h4, h5, h6, h7⟩

theorem Step.imageInv {st : Scan} {a : Action} (h : Step s a t) (ha : ¬a.remakes i) (hs : ImageInv i st s) : ImageInv i st t := by
  obtain ⟨evs, hr⟩ := h.stays ha
  exact hr.invariant (ImageInv i st) (fun _ _ _ hx hg => hg.2.imageInv hg.1 hx) hs

theorem ImageRun.inv (h : ImageRun i file t) : (scanFile file).2 = true ∧ ImageInv i (scanFile file).1 t := by
  obtain @⟨s, argc, ip, path, argv, m₁, p₁, fs₀, fs, as, ⟨s₀, as₀, hb, hr₀⟩, ⟨⟨hi, hl, -⟩, -, hargs⟩, hexec, hfile, rfl, hrun⟩ := h
  have hs : Reachable s := ⟨s₀, as₀, hb.boot, hr₀⟩
  have hok : ArgsOk argv := fun arg ha => lt_trans (hargs arg ha) (by decide)
  have hwf := hs.inv.wf hi hl
  obtain ⟨-, ⟨hn, -⟩ | ⟨argc', fs₀', fs', ip', mem, pt, sp, -, hd⟩⟩ := kexec_spec hwf.toHasTable (Or.inr hwf.stack) hok hexec
  · cases hn
  obtain ⟨rfl, rfl⟩ := hfile.unique hd.file
  refine ⟨hd.good, hrun.invariant (ImageInv i _) (fun _ _ _ hx hg => hg.2.imageInv hg.1 hx) ?_⟩
  exact hd.imageInv (Sys.put_proc_self _ _ _ _) hl

theorem ImageRun.settled (h : ImageRun i file t) : Settled t.m (t.proc i) := by
  have hlive := h.inv.2.live
  obtain @⟨s, argc, ip, path, argv, m₁, p₁, fs₀, fs, as, ⟨s₀, as₀, hb, hr₀⟩, hen, hexec, hfile, rfl, hrun⟩ := h
  have hstep : Step s (.exec i path argv) (s.put i m₁ p₁) := by
    refine ⟨hen, ?_⟩
    simp only [perform, Sys.memCall, hexec]
    rfl
  have hreach : Reach ColdBoot Step s := ⟨s₀, as₀, hb, hr₀.mono (fun _ _ _ hg => hg.2)⟩
  refine reach_settled ((hreach.run (Run.single hstep)).run (hrun.mono (fun _ _ _ hg => hg.2))) hen.1.1 hlive

/-- The page of an address of a segment was loaded with `PTE_W`, for an image. -/
theorem ImageInv.loadPerm_iff {st : Scan} (h : ImageInv i st t) : (loadPerm (t.proc i) va).w = true ↔ st.grants va := by
  have hexec : inExec (t.proc i) va ↔ st.loads va := by
    unfold inExec Scan.loads
    rw [h.text.1, h.data]
  unfold loadPerm Scan.grants
  by_cases hin : st.loads va
  · rw [if_pos (hexec.mpr hin), execPerm, findSegment, h.segments]
    cases st.segs.find? (fun s => decide (s.vaStart ≤ va ∧ va < s.vaEnd)) with
    | none => simp
    | some s => simp [hin]
  · rw [if_neg (mt hexec.mp hin)]
    simp [hin, trackPerm]

/-! ## The theorem -/

/-- When the write permission of a segment is enforced for an address `va` of it. In the text range the segment is writable exactly if
the page is in memory and was loaded with `PTE_W`. Elsewhere the flags of the segment play no part: the page of a writable segment has
`PTE_W`, or is in memory and gets its first write, or can be loaded; and the page of a read-only segment has no `PTE_W`, and can neither
get a first write nor be loaded. -/
inductive WriteEnforced (m : Machine) (p : Proc) (st : Scan) (ph : ProgHdr) (va : Nat) : Prop where
  | text (range : st.text (pgRoundDown va)) (loaded : ph.writable ↔ (translate p.pagetable va Perm.r).isSome ∧ st.grants (pgRoundDown va)) :
      WriteEnforced m p st ph va
  | writable (range : ¬st.text (pgRoundDown va)) (flag : ph.writable)
      (allowed : (translate p.pagetable va Perm.w).isSome ∨ (∃ j, GrantsWrite p (pgRoundDown va) .write j) ∨
        (Loads p (pgRoundDown va) .write ∧ Enters p (pgRoundDown va) ∧ CanLoad m p (pgRoundDown va))) : WriteEnforced m p st ph va
  | readOnly (range : ¬st.text (pgRoundDown va)) (flag : ¬ph.writable) (closed : translate p.pagetable va Perm.w = none)
      (grant : ∀ j, ¬GrantsWrite p (pgRoundDown va) .write j)
      (load : ¬(Loads p (pgRoundDown va) .write ∧ Enters p (pgRoundDown va) ∧ CanLoad m p (pgRoundDown va))) : WriteEnforced m p st ph va

theorem served_iff {va : Nat} {access : Access} : Served m p va access ↔
    (∃ j, GrantsWrite p va access j) ∨ (Loads p va access ∧ Enters p va ∧ CanLoad m p va) := by
  constructor
  · intro h
    cases h with
    | grant h => exact Or.inl ⟨_, h⟩
    | load h1 h2 h3 => exact Or.inr ⟨h1, h2, h3⟩
  · rintro (⟨j, h⟩ | ⟨h1, h2, h3⟩)
    · exact .grant h
    · exact .load h1 h2 h3

theorem writeEnforced_iff {st : Scan} : WriteEnforced m p st ph va ↔
    (st.text (pgRoundDown va) → (ph.writable ↔ (translate p.pagetable va Perm.r).isSome ∧ st.grants (pgRoundDown va))) ∧
      (¬st.text (pgRoundDown va) → (ph.writable ↔ (translate p.pagetable va Perm.w).isSome ∨ Served m p (pgRoundDown va) .write)) := by
  rw [served_iff]
  by_cases ht : st.text (pgRoundDown va)
  · constructor
    · intro h
      refine ⟨fun _ => ?_, fun hno => absurd ht hno⟩
      cases h with
      | text _ h => exact h
      | writable hno | readOnly hno => exact absurd ht hno
    · exact fun h => .text ht (h.1 ht)
  · constructor
    · intro h
      refine ⟨fun hyes => absurd hyes ht, fun _ => ?_⟩
      cases h with
      | text hyes => exact absurd hyes ht
      | writable _ hflag hopen => exact iff_of_true hflag hopen
      | readOnly _ hflag hclosed hgrant hload =>
        refine iff_of_false hflag ?_
        rintro (hw | ⟨j, hg⟩ | hl)
        · rw [hclosed] at hw
          cases hw
        · exact hgrant j hg
        · exact hload hl
    · rintro ⟨-, h⟩
      replace h := h ht
      by_cases hflag : ph.writable
      · exact .writable ht hflag (h.mp hflag)
      · have hno := mt h.mpr hflag
        rw [not_or, not_or] at hno
        refine .readOnly ht hflag ?_ (fun j hg => hno.2.1 ⟨j, hg⟩) hno.2.2
        simpa using hno.1

/-- Among segments that do not overlap, a page is loaded with `PTE_W` exactly when its own segment is writable and recorded, and the page
is loaded from the file. -/
theorem Scan.grants_iff (hgood : (scanFile file).2 = true) (hd : (fileHdrs file).Pairwise ProgHdr.disjoint) (h : InSegment file ph va) :
    (scanFile file).1.grants (pgRoundDown va) ↔
      ph.writable ∧ ph.segment ∈ (scanFile file).1.segs ∧ (scanFile file).1.loads (pgRoundDown va) := by
  have hok : ph.ok := (scanFile_good hgood).2 ph h.hdr
  have hfind := findSegment_of_contains (p := { Proc.zero with segments := (scanFile file).1.segs }) hgood rfl hd h.hdr (h.contains.page hok)
  change List.find? _ (scanFile file).1.segs = _ at hfind
  unfold Scan.grants
  rw [hfind]
  by_cases hrec : ph.segment ∈ (scanFile file).1.segs
  · rw [if_pos hrec]
    simp only [Option.any_some, decide_eq_true_eq, hrec, true_and]
    exact And.comm
  · simp [hrec]

/-- In every run after an `exec`, a store to an address of a segment is allowed eventually if and only if the segment is writable, exactly
when `WriteEnforced` holds. And where no segments overlap, a page is loaded with `PTE_W` exactly when its own segment is writable and
recorded, and the page is loaded from the file. -/
theorem segment_write_iff (h : ImageRun i file t) (ha : InSegment file ph va) :
    ((StoreAllowed va t.m (t.proc i) ↔ ph.writable) ↔ WriteEnforced t.m (t.proc i) (scanFile file).1 ph va) ∧
    ((fileHdrs file).Pairwise ProgHdr.disjoint → ((scanFile file).1.grants (pgRoundDown va) ↔
      ph.writable ∧ ph.segment ∈ (scanFile file).1.segs ∧ (scanFile file).1.loads (pgRoundDown va))) := by
  obtain ⟨hgood, hinv⟩ := h.inv
  refine ⟨?_, fun hd => Scan.grants_iff hgood hd ha⟩
  have hpage := pgRoundDown_mod va
  rw [storeAllowed_iff h.settled hinv.offGuard, writeEnforced_iff]
  by_cases ht : (scanFile file).1.text (pgRoundDown va)
  · simp only [ht, true_imp_iff, not_true_eq_false, false_imp_iff, and_true]
    -- no fault for writing is served in the text range, and in memory the page has the permissions it was loaded with
    have hloaded := hinv.loaded _ hpage ht
    have hno : ¬Served t.m (t.proc i) (pgRoundDown va) .write := fun hs => hs.not_text hpage hinv.offGuard hloaded.text
    rw [or_iff_left hno, hloaded.writable_iff, hinv.loadPerm_iff]
    exact ⟨Iff.symm, Iff.symm⟩
  · simp only [ht, false_imp_iff, not_false_eq_true, true_imp_iff, true_and]
    exact ⟨Iff.symm, Iff.symm⟩

theorem ImageRun.replay {u : Sys} {as : List Action} (h : ImageRun i file t) (has : ∀ a ∈ as, ¬a.remakes i)
    (hr : replay t as = some u) : ImageRun i file u := by
  obtain @⟨s, argc, ip, path, argv, m₁, p₁, fs₀, fs, as₁, hs, hen, hexec, hfile, hcontent, hrun⟩ := h
  exact .mk hs hen hexec hfile hcontent (hrun.append ((replay_run hr).guard has))

/-- A program with a writable segment between two text segments, and a read-only segment above them. -/
def mixedInit : Inode :=
  elfFile [⟨1, 5, 288, 0, 8, 8⟩, ⟨1, 6, 296, 4096, 8, 8⟩, ⟨1, 5, 304, 8192, 8, 8⟩, ⟨1, 4, 312, 12288, 8, 8⟩]
    ((List.range 32).map (fun k => UInt8.ofNat (k + 1)))

def mixedFiles : List (Name × Inode) := [("init".toList, mixedInit)]

theorem mixedBoot_cold : ColdBoot (smallBoot mixedFiles 32) := smallBoot_coldBoot (by decide) (by decide +kernel)

/-- Faults for reading by the first process. -/
def reads (addrs : List Nat) : List Action := addrs.map (fun a => .fault 0 a .read)

/-- The first process executes a file again, and reads: the file and the state, if they pass a test. -/
theorem imageRun_reads {s : Sys} {path : List Char} {addrs : List Nat} {test : Inode → Sys → Bool} (hb : ColdBoot s)
    (h : loadCheck s path (fun s => replay s (reads addrs)) test = true) : ∃ file t, ImageRun 0 file t ∧ test file t = true := by
  unfold loadCheck at h
  split at h
  · rename_i m₁ p₁ argc fs₀ fs ip hk hf
    split at h
    · rename_i t ht
      rw [Bool.and_eq_true, decide_eq_true_eq] at h
      obtain ⟨⟨hready, -, -⟩, htest⟩ := h
      have hen : enabled s (.exec 0 path []) := ⟨hready, by decide, nofun⟩
      have hnew : ImageRun 0 (fs.inode ip) (s.put 0 m₁ p₁) := .mk (Reach.of_init hb) hen hk (execFile_some hf) rfl (Run.nil _)
      have hown : ∀ a ∈ reads addrs, ¬a.remakes 0 := by
        intro a ha
        obtain ⟨x, -, rfl⟩ := List.mem_map.mp ha
        exact fun hf => hf
      exact ⟨_, t, hnew.replay hown ht, htest⟩
    · cases h
  · cases h

instance (file : Inode) (ph : ProgHdr) (va : Nat) : Decidable (InSegment file ph va) :=
  decidable_of_iff (ph ∈ fileHdrs file ∧ (ph.vaddr ≤ va ∧ va < ph.vend)) ⟨fun h => ⟨h.1, h.2⟩, fun h => ⟨h.hdr, h.contains⟩⟩

/-- A byte of the writable segment between the two text segments, once its page has been read. -/
theorem segment_write_iff_data : ∃ file t, ImageRun 0 file t ∧ InSegment file ⟨1, 6, 296, 4096, 8, 8⟩ 4097 ∧
    (StoreAllowed 4097 t.m (t.proc 0) ↔ WriteEnforced t.m (t.proc 0) (scanFile file).1 ⟨1, 6, 296, 4096, 8, 8⟩ 4097) := by
  have hex : loadCheck (smallBoot mixedFiles 32) "/init".toList (fun s => replay s (reads [4096]))
      (fun file _ => decide (InSegment file ⟨1, 6, 296, 4096, 8, 8⟩ 4097)) = true := by decide +kernel
  obtain ⟨file, t, hrun, ha⟩ := imageRun_reads mixedBoot_cold hex
  have ha := of_decide_eq_true ha
  have hiff := (segment_write_iff hrun ha).1
  rw [iff_true_right (by decide : (⟨1, 6, 296, 4096, 8, 8⟩ : ProgHdr).writable)] at hiff
  exact ⟨file, t, hrun, ha, hiff⟩

/-- A read-only segment above the text can be stored to, and a writable one between two text segments cannot. -/
theorem segment_write_ignored :
    (¬∀ i file t ph va, ImageRun i file t → InSegment file ph va → StoreAllowed va t.m (t.proc i) → ph.writable) ∧
    ¬∀ i file t ph va, ImageRun i file t → InSegment file ph va → ph.writable → StoreAllowed va t.m (t.proc i) := by
  have hex : loadCheck (smallBoot mixedFiles 32) "/init".toList (fun s => replay s (reads [])) (fun file t =>
      decide (InSegment file ⟨1, 4, 312, 12288, 8, 8⟩ 12288 ∧ InSegment file ⟨1, 6, 296, 4096, 8, 8⟩ 4096 ∧
        translate (t.proc 0).pagetable 12288 Perm.w = none ∧ translate (t.proc 0).pagetable 4096 Perm.w = none) &&
      (handlePageFault t.m (t.proc 0) 12288 .write true).toOption.any (fun x => x.2.2 &&
        decide (translate x.2.1.pagetable 12288 Perm.w = none) &&
          (handlePageFault x.1 x.2.1 12288 .write true).toOption.any (fun y => y.2.2 && (translate y.2.1.pagetable 12288 Perm.w).isSome)) &&
      (handlePageFault t.m (t.proc 0) 4096 .write true).toOption.any (fun x => !x.2.2)) = true := by decide +kernel
  obtain ⟨file, t, hrun, hex⟩ := imageRun_reads mixedBoot_cold hex
  simp only [Bool.and_eq_true, decide_eq_true_eq] at hex
  obtain ⟨⟨⟨hread, hdata, hno, hno'⟩, hfirst⟩, hrefused⟩ := hex
  constructor
  · intro hall
    obtain ⟨⟨m₁, p₁, r₁⟩, hf₁, hx⟩ := ok_of_any hfirst
    simp only [Bool.and_eq_true, decide_eq_true_eq] at hx
    obtain ⟨⟨rfl, hno₁⟩, hsecond⟩ := hx
    obtain ⟨⟨m₂, p₂, r₂⟩, hf₂, hx⟩ := ok_of_any hsecond
    simp only [Bool.and_eq_true] at hx
    obtain ⟨rfl, hw⟩ := hx
    have hstore : StoreAllowed 12288 t.m (t.proc 0) := .fault hno hf₁ (.fault hno₁ hf₂ (.now hw))
    exact absurd (hall 0 file t _ 12288 hrun hread hstore) (by decide)
  · intro hall
    obtain ⟨⟨m₁, p₁, r₁⟩, hf₁, hx⟩ := ok_of_any hrefused
    cases hall 0 file t _ 4096 hrun hdata (by decide) with
    | now h =>
      rw [hno'] at h
      cases h
    | fault _ h =>
      rw [hf₁] at h
      simp only [Except.ok.injEq, Prod.mk.injEq] at h
      rw [h.2.2] at hx
      cases hx

end Xv6SnifferBakery.Kernel
