import Xv6SnifferBakery.Lemmas.Conservation

/-!
# Replays

A list of actions replayed from a state: what the replay reaches is reached by a run, so that a concrete run is checked by
evaluating it. The machines it starts from boot from a small file system, given by the files in its root directory.
-/

namespace Xv6SnifferBakery.Kernel

open Lib

/-! ## Replaying actions -/

/-- The state after a list of actions, when each can happen and none panics. -/
def replay (s : Sys) : List Action → Option Sys
  | [] => some s
  | a :: as =>
    if enabled s a then
      match perform s a with
      | .ok t => replay t as
      | .error _ => none
    else none

/-- The same, when no action shrinks past the trapframe page. -/
def replaySafe (s : Sys) : List Action → Option Sys
  | [] => some s
  | a :: as =>
    if a.keepsTrapframe s ∧ enabled s a then
      match perform s a with
      | .ok t => replaySafe t as
      | .error _ => none
    else none

theorem run_cons {σ α : Type} {step : σ → α → σ → Prop} {s t u : σ} {a : α} {as : List α} (h : step s a t) (hr : Run step t as u) :
    Run step s (a :: as) u :=
  (Run.single h).append hr

theorem replay_run {s t : Sys} {as : List Action} (h : replay s as = some t) : Run Step s as t := by
  induction as generalizing s with
  | nil =>
    obtain rfl := Option.some.inj h
    exact Run.nil s
  | cons a as ih =>
    rw [replay] at h
    split at h
    · rename_i hen
      split at h
      · rename_i u hu
        exact run_cons ⟨hen, hu⟩ (ih h)
      · nomatch h
    · nomatch h

theorem replaySafe_run {s t : Sys} {as : List Action} (h : replaySafe s as = some t) : Run SafeStep s as t := by
  induction as generalizing s with
  | nil =>
    obtain rfl := Option.some.inj h
    exact Run.nil s
  | cons a as ih =>
    rw [replaySafe] at h
    split at h
    · rename_i hen
      split at h
      · rename_i u hu
        exact run_cons ⟨hen.1, hen.2, hu⟩ (ih h)
      · nomatch h
    · nomatch h

/-- The same, when every action passes a test. -/
def replayIf (test : Sys → Action → Bool) (s : Sys) : List Action → Option Sys
  | [] => some s
  | a :: as =>
    if test s a ∧ enabled s a then
      match perform s a with
      | .ok t => replayIf test t as
      | .error _ => none
    else none

theorem replayIf_run {test : Sys → Action → Bool} {G : Sys → Action → Prop} (hG : ∀ s a, test s a = true → G s a) {s t : Sys}
    {as : List Action} (h : replayIf test s as = some t) : Run (Guarded G Step) s as t := by
  induction as generalizing s with
  | nil =>
    obtain rfl := Option.some.inj h
    exact Run.nil s
  | cons a as ih =>
    rw [replayIf] at h
    split at h
    · rename_i hen
      split at h
      · rename_i u hu
        exact run_cons ⟨hG _ _ hen.1, hen.2, hu⟩ (ih h)
      · nomatch h
    · nomatch h

/-! ## Faults and evictions one by one -/

section Single

variable {s t : Sys} {i a : Nat} {access : Access}

/-- A fault that finds a free page and is served, or an eviction that succeeds. -/
def Action.serves (s : Sys) : Action → Bool
  | .fault i a access => !s.m.freelist.isEmpty && (handlePageFault s.m (s.proc i) a access true).toOption.any (·.2.2)
  | .evict i => (evictPageFifo s.m (s.proc i)).toOption.any (·.2.2)
  | _ => false

theorem Step.fault_events (h : Step s (.fault i a access) t) (hs : Action.serves s (.fault i a access) = true) :
    ∃ m p evs, t = s.put i m p ∧ Run (Guarded (fun x ev => ev.faithful x.2) PageStep) (s.m, s.proc i) evs (m, p) ∧
      faultEvents (pgRoundDown a) access evs := by
  obtain ⟨-, h⟩ := h
  simp only [perform] at h
  obtain ⟨m, p, r, hc, rfl⟩ := memCall_ok h
  simp only [Action.serves, hc, Bool.and_eq_true, Bool.not_eq_true', List.isEmpty_eq_false_iff, Except.toOption, Option.any_some] at hs
  obtain ⟨hfree, rfl⟩ := hs
  obtain ⟨evs, hr, hevs⟩ := (handlePageFault_cases hc).free_run (pgRoundDown_mod a) hfree
  exact ⟨m, p, evs, rfl, hr, hevs⟩

theorem Step.evict_event (h : Step s (.evict i) t) (hs : Action.serves s (.evict i) = true) :
    ∃ m p ev, t = s.put i m p ∧ PageStep (s.m, s.proc i) ev (m, p) ∧ ∃ j va, ev = .evictClean j va ∨ ev = .evictDirty j va := by
  obtain ⟨-, h⟩ := h
  simp only [perform] at h
  obtain ⟨m, p, r, hc, rfl⟩ := memCall_ok h
  simp only [Action.serves, hc, Except.toOption, Option.any_some] at hs
  subst hs
  rcases evictPageFifo_cases hc with ⟨-, j, e, pte, hx⟩ | ⟨-, j, e, pte, slot, f, m₁, m₂, hx⟩ | ⟨hf, -⟩
  · exact ⟨m, p, _, rfl, .evictClean hx, j, e.va, Or.inl rfl⟩
  · exact ⟨m, p, _, rfl, .evictDirty hx, j, e.va, Or.inr rfl⟩
  · cases hf

/-- A run of page events of one process is one of the system. -/
theorem pages_sys {K : Machine × Proc → PageEvent → Prop} {m : Machine} {p : Proc} {evs : List PageEvent} (hlt : i < nProc)
    (hlive : (s.proc i).live) (h : Run (Guarded K PageStep) (s.m, s.proc i) evs (m, p)) :
    Run (fun u ev v => (∃ pev, ev = .page i pev ∧ K (u.m, u.proc i) pev) ∧ SysStep u ev v) s (evs.map (.page i)) (s.put i m p) := by
  have hrun : ∀ x evs y, Run (Guarded K PageStep) x evs y → x = (s.m, s.proc i) → SameImage (s.proc i) y.2 ∧
      Run (fun u ev v => (∃ pev, ev = .page i pev ∧ K (u.m, u.proc i) pev) ∧ SysStep u ev v) s (evs.map (.page i)) (s.put i y.1 y.2) := by
    intro x evs y hr hx
    induction hr with
    | nil =>
      subst hx
      refine ⟨SameImage.refl _, ?_⟩
      rw [put_self]
      exact Run.nil _
    | snoc _ hs ih =>
      rename_i t u as a _
      obtain ⟨himg, hr⟩ := ih
      refine ⟨himg.trans hs.2.image, ?_⟩
      have hstep : SysStep (s.put i t.1 t.2) (.page i a) ((s.put i t.1 t.2).put i u.1 u.2) := by
        refine .page hlt ?_ ?_
        · rw [Sys.put_proc_self, Proc.live, himg.state]
          exact hlive
        · rw [Sys.put_proc_self]
          exact hs.2
      rw [show (s.put i t.1 t.2).put i u.1 u.2 = s.put i u.1 u.2 by simp [Sys.put]] at hstep
      rw [List.map_append]
      refine hr.snoc ⟨⟨a, rfl, ?_⟩, hstep⟩
      rw [Sys.put_m, Sys.put_proc_self]
      exact hs.1
  exact (hrun _ _ _ h rfl).2

end Single

/-! ## What a process does to its own memory -/

/-- A fault, a store or an eviction of process `i`. -/
def Action.ownMemory (i : Nat) : Action → Bool
  | .fault k _ _ | .store k _ _ | .evict k => k = i
  | _ => false

section Follow

variable {α : Type} {R : Sys × α → Event → Sys × α → Prop} {s t : Sys} {i : Nat} {q : Proc} {m : Machine} {p : Proc}

/-- `R`, which keeps a record beside the system, follows every page event of a process with the image of `q`. -/
def Follows (R : Sys × α → Event → Sys × α → Prop) (i : Nat) (q : Proc) : Prop :=
  ∀ u b pev v, SameImage q (u.proc i) → SysStep u (.page i pev) v → ∃ c, R (u, b) (.page i pev) (v, c)

/-- A run of page events is a run of the system with its record. -/
theorem PageRun.follow {G : PageEvent → Prop} (hR : Follows R i q) (hq : SameImage q (s.proc i)) (hlt : i < nProc)
    (hlive : (s.proc i).live) (h : PageRun G s.m (s.proc i) m p) (b : α) :
    SameImage q p ∧ ∃ evs c, Run R (s, b) evs (s.put i m p, c) := by
  obtain ⟨evs, hr⟩ := h
  have hrun : ∀ x evs y, Run (Guarded (fun _ ev => G ev) PageStep) x evs y → x = (s.m, s.proc i) →
      SameImage q y.2 ∧ ∃ es c, Run R (s, b) es (s.put i y.1 y.2, c) := by
    intro x evs y hr hx
    induction hr with
    | nil =>
      subst hx
      exact ⟨hq, [], b, by rw [put_self]; exact Run.nil _⟩
    | snoc _ hs ih =>
      rename_i t u as a _
      obtain ⟨himg, es, c, hes⟩ := ih
      have hstep : SysStep (s.put i t.1 t.2) (.page i a) ((s.put i t.1 t.2).put i u.1 u.2) := by
        refine .page hlt ?_ ?_
        · rw [Sys.put_proc_self, Proc.live, (hq.symm.trans himg).state]
          exact hlive
        · rw [Sys.put_proc_self]
          exact hs.2
      rw [show (s.put i t.1 t.2).put i u.1 u.2 = s.put i u.1 u.2 by simp [Sys.put]] at hstep
      obtain ⟨d, hd⟩ := hR _ c _ _ (by rwa [Sys.put_proc_self]) hstep
      exact ⟨himg.trans hs.2.image, _, d, hes.snoc hd⟩
  exact hrun _ _ _ hr rfl

/-- A call that is a run of page events. -/
theorem memCall_follow {β : Type} {call : Machine → Proc → Kern (Machine × Proc × β)} (hR : Follows R i q) (hq : SameImage q (s.proc i))
    (hready : s.ready i) (hcall : ∀ m p r, call s.m (s.proc i) = .ok (m, p, r) → ∃ G, PageRun G s.m (s.proc i) m p)
    (h : s.memCall call i = .ok t) (b : α) : SameImage q (t.proc i) ∧ ∃ evs c, Run R (s, b) evs (t, c) := by
  obtain ⟨m, p, r, hc, rfl⟩ := memCall_ok h
  obtain ⟨G, hrun⟩ := hcall m p r hc
  rw [Sys.put_proc_self]
  exact hrun.follow hR hq hready.1 hready.2.1 b

/-- A replay of what a process does to its own memory is a run of the system with its record. -/
theorem replay_follow {as : List Action} (hR : Follows R i q) (hq : SameImage q (s.proc i)) (has : as.all (Action.ownMemory i) = true)
    (h : replay s as = some t) (b : α) : ∃ evs c, Run R (s, b) evs (t, c) := by
  induction as generalizing s b with
  | nil =>
    obtain rfl := Option.some.inj h
    exact ⟨[], b, Run.nil _⟩
  | cons a as ih =>
    rw [List.all_cons, Bool.and_eq_true] at has
    obtain ⟨ha, has⟩ := has
    rw [replay] at h
    split at h
    swap
    · cases h
    rename_i hen
    split at h
    swap
    · cases h
    rename_i u hu
    have hfirst : SameImage q (u.proc i) ∧ ∃ evs c, Run R (s, b) evs (u, c) := by
      cases a with
      | fault k addr access =>
        obtain rfl : k = i := of_decide_eq_true ha
        simp only [perform] at hu
        exact memCall_follow hR hq hen.1 (fun _ _ _ hc => ⟨_, handlePageFault_run hc⟩) hu b
      | evict k =>
        obtain rfl : k = i := of_decide_eq_true ha
        simp only [perform] at hu
        exact memCall_follow hR hq hen (fun _ _ _ hc => ⟨_, evictPageFifo_run .read hc⟩) hu b
      | store k addr byte =>
        obtain rfl : k = i := of_decide_eq_true ha
        obtain ⟨pa, hpa⟩ := Option.isSome_iff_exists.mp hen.2
        have hrun : PageRun (fun _ => True) s.m (s.proc k) (s.m.poke pa (addr % 4096) byte) (s.proc k) :=
          (PageRun.refl _ _ _).snoc (.store hpa) trivial
        obtain rfl := Except.ok.inj hu
        have hput : s.put k (s.m.poke pa (addr % 4096) byte) (s.proc k) = { s with m := (userStore s.m (s.proc k) addr byte).getD s.m } := by
          simp [userStore, hpa, Sys.put]
        rw [← hput, Sys.put_proc_self]
        exact hrun.follow hR hq hen.1.1 hen.1.2.1 b
      | _ => cases ha
    obtain ⟨hq', evs, c, hr⟩ := hfirst
    obtain ⟨evs', c', hr'⟩ := ih hq' has h c
    exact ⟨_, c', hr.append hr'⟩

end Follow

/-! ## Machines that boot -/

/-- A file with these bytes. -/
def fileOf (bytes : List Byte) : Inode :=
  { Inode.empty .file with
    nlink := 1, size := bytes.length, data := fun k => bytes.getD k 0
    addrs := fun bn => bn * bSize < bytes.length, indirect := nDirect * bSize < bytes.length }

/-- The bytes of a program header. -/
def ProgHdr.bytes (ph : ProgHdr) : List Byte :=
  (le64 ph.type).take 4 ++ (le64 ph.flags).take 4 ++ le64 ph.off ++ le64 ph.vaddr ++ le64 0 ++ le64 ph.filesz ++ le64 ph.memsz ++
    le64 4096

/-- An ELF file: the header, the program headers, and what follows them. -/
def elfFile (phs : List ProgHdr) (rest : List Byte) : Inode :=
  fileOf ((le64 elfMagic).take 4 ++ List.replicate 20 0 ++ le64 0 ++ le64 elfHdrSize ++ List.replicate 16 0 ++
    (le64 phs.length).take 2 ++ List.replicate 6 0 ++ phs.flatMap ProgHdr.bytes ++ rest)

/-- A file system whose root directory has these files. -/
def smallFs (files : List (Name × Inode)) : Fs where
  ninodes := 32
  inode i :=
    if i = rootIno then
      { Inode.empty .dir with
        nlink := 1, size := 16 * (files.length + 2)
        ents := [⟨rootIno, ['.']⟩, ⟨rootIno, ['.', '.']⟩] ++ files.zipIdx.map (fun f => ⟨f.2 + 2, f.1.1⟩) }
    else (files[i - 2]?.map Prod.snd).getD (Inode.empty .free)
  nfree := 900
  ref _ := 0
  valid _ := false
  ftable _ := ⟨.none, 0, false, false, 0, 0⟩

/-- A machine with `n` pages, none taken, before the first process. -/
def smallSys (files : List (Name × Inode)) (n : Nat) : Sys where
  m :=
    { freelist := managed (physTop - n * pgSize), mem := fun _ _ => 0, kend := physTop - n * pgSize, trampoline := 0x80007000,
      fs := smallFs files, noff := 0, trace := [] }
  proc _ := Proc.zero
  nextpid := 1
  held := []

theorem smallSys_preBoot (files : List (Name × Inode)) {n : Nat} (hn : n < 1000) : PreBoot (smallSys files n) where
  proc _ := rfl
  pages := by
    change (managed _ ++ []).Perm (managed _)
    rw [List.append_nil]
    exact List.Perm.refl _
  trampoline := by
    change 0x80007000 < physTop - n * 4096
    unfold physTop
    omega
  nextpid := rfl
  noff := rfl
  ref _ := rfl
  ftable _ := ⟨rfl, rfl⟩

/-- The machine once its first process runs. -/
def smallBoot (files : List (Name × Inode)) (n : Nat) : Sys := (userinit (smallSys files n)).toOption.getD (smallSys files n)

theorem smallBoot_userinit {files : List (Name × Inode)} {n : Nat} (h : (userinit (smallSys files n)).toOption.isSome) :
    userinit (smallSys files n) = .ok (smallBoot files n) := by
  unfold smallBoot
  cases hu : userinit (smallSys files n) with
  | error e =>
    rw [hu] at h
    nomatch h
  | ok s => rfl

theorem smallBoot_boot {files : List (Name × Inode)} {n : Nat} (hn : n < 1000)
    (h : (userinit (smallSys files n)).toOption.isSome) : Boot (smallBoot files n) :=
  ⟨smallSys files n, smallSys_preBoot files hn, smallBoot_userinit h⟩

/-! ## Programs -/

/-- A file with a text page and a data page that ends in zeros. -/
def smallInit : Inode :=
  elfFile [⟨1, 5, 176, 0, 16, 4096⟩, ⟨1, 6, 192, 4096, 8, 24⟩] ((List.range 24).map (fun k => UInt8.ofNat (k + 1)))

/-- The root directory has only that file. -/
def smallFiles : List (Name × Inode) := [("init".toList, smallInit)]

theorem smallBoot_init : Boot (smallBoot smallFiles 32) := smallBoot_boot (by decide) (by decide +kernel)

theorem smallBoot_live : ((smallBoot smallFiles 32).proc 0).live := by decide +kernel

/-- A second program, with one segment. -/
def smallEcho : Inode := elfFile [⟨1, 5, 120, 0, 8, 8⟩] [101, 99, 104, 111, 101, 99, 104, 111]

/-- The two programs. -/
def twoPrograms : List (Name × Inode) := [("init".toList, smallInit), ("echo".toList, smallEcho)]

theorem smallBoot_two : Boot (smallBoot twoPrograms 32) := smallBoot_boot (by decide) (by decide +kernel)

end Xv6SnifferBakery.Kernel
