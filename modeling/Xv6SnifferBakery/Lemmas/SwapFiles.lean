import Xv6SnifferBakery.Kernel.File
import Xv6SnifferBakery.Lemmas.OpenFiles
import Xv6SnifferBakery.Lemmas.Replay
import Xv6SnifferBakery.Lemmas.SysRefs

/-!
# Swap files

The swap file of a process is private from the moment it is made, as long as its name is not taken by then and nobody opens it by name.
-/

namespace Xv6SnifferBakery.Kernel

open Lib

variable {fs fs' : Fs} {r q R Q : Multiset Nat} {O W F : Nat → Prop} {m m₁ m₂ m' : Machine} {p p' : Proc} {f ip x cwd : Nat} {pid : Int}

/-! ## Making the swap file -/

theorem firstFile_congr {j n : Nat} (h : fs'.ftable = fs.ftable) : firstFile fs' j n = firstFile fs j n := by
  induction n generalizing j with
  | zero => rfl
  | succ n ih => rw [firstFile, firstFile, h, ih]

/-- Whether a file is free does not depend on the inodes. -/
theorem filealloc_congr (h : fs'.ftable = fs.ftable) : (filealloc fs').2 = (filealloc fs).2 := by
  unfold filealloc
  rw [firstFile_congr h]
  cases firstFile fs 0 nFile <;> rfl

/-- The name of a swap file that is to be made is that of a file or a device, and `create_swap_file` can open it. -/
def swapNameTaken (fs : Fs) (cwd : Nat) (pid : Int) : Prop := nameTaken fs cwd (swapname pid) ∧ (filealloc fs).2.isSome

/-- An inode that `create_swap_file` opens, where the name is not taken: no file is open on it, and no file is private on it. -/
theorem opensSwap_new (hx : Sound ⟨fs, r, q⟩) (h : opensSwap fs cwd pid ip) (hn : ¬swapNameTaken fs cwd pid) :
    ip ∉ fs.opened ∧ ∀ f x, PrivateFile fs f x → ip ≠ x := by
  obtain ⟨fs₁, hc, hroom⟩ := h
  rw [filealloc_congr (create_ftable (by decide) hc)] at hroom
  obtain ⟨fs₂, dp, hrun, hfree, -⟩ := create_new (O := fun _ => False) (W := fun _ => False) (F := fun _ => False) (r := r) (q := q) hc
    (fun ht => hn ⟨ht, hroom⟩)
  have hopened : fs₂.opened = fs.opened := opened_congr hrun.ftable
  refine ⟨?_, ?_⟩
  · intro hi
    rw [← hopened] at hi
    exact (hrun.sound hx).2.opened ip hi hfree
  · rintro f x hp rfl
    have hmono : FsRun (Within (· ≠ ip) (fun _ => True) (· ≠ f)) _ _ := hrun.mono ?_
    have hp₂ := hmono.privateFile hx hp
    · rw [hp₂.type] at hfree
      nomatch hfree
    · intro ev hG
      cases ev <;> first | trivial | exact hG.elim | exact hG.1.elim

/-- The swap file that `create_swap_file` makes is private. -/
theorem makeSwapFile_private (hx : Sound ⟨fs, r, q⟩) (h : makeSwapFile fs cwd pid = .ok (fs', some f)) (hn : ¬swapNameTaken fs cwd pid) :
    PrivateFile fs' f (fs'.ftable f).ip := by
  rcases makeSwapFile_cases h with ⟨ho, -⟩ | ⟨fs₁, ip, hc, ⟨ho, -⟩ | ⟨fs₂, g, ha, ho, rfl⟩⟩
  · nomatch ho
  · nomatch ho
  obtain rfl := Option.some.inj ho
  have hft := create_ftable (by decide) hc
  have hroom : (filealloc fs).2.isSome := by
    rw [← filealloc_congr hft, ha]
    rfl
  obtain ⟨hnew, -⟩ := opensSwap_new hx ⟨fs₁, hc, by rw [ha]; rfl⟩ hn
  obtain ⟨-, -, -, -, htype⟩ := create_new (O := fun _ => False) (W := fun _ => False) (F := fun _ => False) (r := r) (q := q) hc
    (fun ht => hn ⟨ht, hroom⟩)
  obtain ⟨-, hlt, rfl⟩ := filealloc_some ha
  simp only [Function.update_idem, Function.update_self]
  refine ⟨?_, ?_, htype, ?_⟩
  · simp only [Function.update_self]
    rfl
  · simp only [Function.update_self]
    rfl
  · intro g hg
    rcases update_opens hg with ⟨rfl, -⟩ | ⟨-, hopen⟩
    · rfl
    · refine absurd ?_ hnew
      rw [hft] at hopen
      obtain ⟨⟨lost, hcount⟩, -⟩ := hx
      refine mem_opened.mpr ⟨g, hcount.lt ?_, hopen⟩
      unfold File.opens at hopen
      split at hopen
      · rename_i hpos
        exact hpos.1
      · nomatch hopen

/-! ## Page events of one process -/

/-- A page event that would make the swap file finds its name not taken. -/
def MakesNewSwap (x : Machine × Proc) (ev : PageEvent) : Prop :=
  ev.swapsOut → x.2.makesSwap → ¬swapNameTaken x.1.fs (x.2.cwd.getD 0) x.2.pid

/-- The swap file of a process is private, once it has one. -/
def OwnSwap (m : Machine) (p : Proc) : Prop := ∀ f, p.swapFile = some f → PrivateFile m.fs f (m.fs.ftable f).ip

theorem PageStep.sound {ev : PageEvent} (hx : Sound ⟨m.fs, R, p.files + Q⟩) (h : PageStep (m, p) ev (m', p')) :
    Sound ⟨m'.fs, R, p'.files + Q⟩ :=
  (h.refs (O := fun _ => True) (W := fun _ => True) (F := fun _ => True) (fun _ _ _ _ => ⟨trivial, trivial⟩) (fun _ _ _ => trivial)
    (fun _ _ => trivial)).sound hx

/-- A file that is not in use is none that is private. -/
theorem PrivateFile.ne_free (h : PrivateFile fs f x) {g : Nat} (hg : (fs.ftable g).ref = 0) : g ≠ f := by
  rintro rfl
  rw [h.ref] at hg
  exact absurd hg Nat.one_ne_zero

/-- A private file is held once. -/
theorem PrivateFile.once (h : PrivateFile fs f x) (hx : Sound ⟨fs, R, q + Q⟩) (hQ : f ∈ Q) : f ∉ q := by
  obtain ⟨⟨lost, hc⟩, -⟩ := hx
  intro hq
  have hcount : (fs.ftable f).ref = (q + Q).count f := hc.files f
  have h1 := Multiset.count_pos.mpr hQ
  have h2 := Multiset.count_pos.mpr hq
  rw [h.ref, Multiset.count_add] at hcount
  omega

/-- A page event leaves the private files of the other processes, and their bytes. -/
theorem PageStep.others {ev : PageEvent} (hx : Sound ⟨m.fs, R, p.files + Q⟩) (hown : OwnSwap m p) (hp : PrivateFile m.fs f x) (hf : f ∈ Q)
    (hG : MakesNewSwap (m, p) ev) (h : PageStep (m, p) ev (m', p')) :
    PrivateFile m'.fs f x ∧ (m.fs.inode x).SameBytes (m'.fs.inode x) := by
  have hrun := h.refs (O := (· ≠ x)) (W := (· ≠ x)) (F := (· ≠ f)) (r := R) (q := Q) ?_ ?_ (fun g hg => hp.ne_free hg)
  · exact ⟨hrun.privateFile hx hp, hrun.bytes hx hp⟩
  · intro hev hmakes ip hip
    have hne := (opensSwap_new hx hip (hG hev hmakes)).2 f x hp
    exact ⟨hne, hne⟩
  · -- the swap file of the process is another file, and nothing else is open on the inode
    intro hev g hg heq
    have halone := hp.alone g ?_
    · rw [halone] at hg
      exact hp.once hx hf (mem_files_of_swap hg)
    · rw [← heq]
      exact (hown g hg).opens

/-- A page event leaves the swap file of its process private. -/
theorem PageStep.own {ev : PageEvent} (hx : Sound ⟨m.fs, R, p.files + Q⟩) (hown : OwnSwap m p) (hG : MakesNewSwap (m, p) ev)
    (h : PageStep (m, p) ev (m', p')) : OwnSwap m' p' := by
  intro f hf
  rcases h.swapFile with hsame | ⟨hev, hmakes, g, m₁, pa, slot, m₂, done, hg, hopen, hwrite, hfs⟩
  · -- it had one before
    rw [hsame] at hf
    have hp := hown f hf
    have hno : ¬p.makesSwap := by
      rintro ⟨hnone, -⟩
      rw [hnone] at hf
      nomatch hf
    have hrun := h.refs (O := (· ≠ (m.fs.ftable f).ip)) (W := fun _ => True) (F := (· ≠ f)) (r := R) (q := Q)
      (fun _ hm => absurd hm hno) (fun _ _ _ => trivial) (fun g hg => hp.ne_free hg)
    have hp' := hrun.privateFile hx hp
    rwa [hp'.ip_eq]
  · -- it was made by this event, and then written to
    rw [hg] at hf
    obtain rfl := Option.some.inj hf
    have hfs₁ : ∃ fs₁, makeSwapFile m.fs (p.cwd.getD 0) p.pid = .ok (fs₁, some g) ∧ m₁ = (m.reach [.beginOp]).withFs fs₁ := by
      rcases hopen with ⟨hsome, -⟩ | ⟨-, hmk⟩
      · rw [hmakes.1] at hsome
        nomatch hsome
      · exact hmk
    obtain ⟨fs₁, hmk, rfl⟩ := hfs₁
    have hp := makeSwapFile_private hx hmk (hG hev hmakes)
    have hx₁ : Sound ⟨fs₁, R, {g} + (p.files + Q)⟩ := (makeSwapFile_run (O := fun _ => True) (W := fun _ => True) (F := fun _ => True) hmk
      (fun _ _ => trivial) (fun _ _ => trivial)).sound hx
    have hrun := hwrite.run (O := (· ≠ (fs₁.ftable g).ip)) (W := fun _ => True) (F := (· ≠ g)) (r := R) (q := {g} + (p.files + Q)) trivial
    have hp' := hrun.privateFile hx₁ hp
    rw [hfs, hp'.ip_eq]
    exact hp'

/-- A run of page events that make no swap file under a name that is taken. -/
theorem run_swaps {evs : List PageEvent} (hx : Sound ⟨m.fs, R, p.files + Q⟩) (hown : OwnSwap m p)
    (h : Run (Guarded MakesNewSwap PageStep) (m, p) evs (m', p')) :
    Sound ⟨m'.fs, R, p'.files + Q⟩ ∧ OwnSwap m' p' ∧
      ∀ f x, f ∈ Q → PrivateFile m.fs f x → PrivateFile m'.fs f x ∧ (m.fs.inode x).SameBytes (m'.fs.inode x) := by
  refine h.invariant (fun y => Sound ⟨y.1.fs, R, y.2.files + Q⟩ ∧ OwnSwap y.1 y.2 ∧
    ∀ f x, f ∈ Q → PrivateFile m.fs f x → PrivateFile y.1.fs f x ∧ (m.fs.inode x).SameBytes (y.1.fs.inode x)) ?_ ?_
  · rintro ⟨m₁, p₁⟩ ev ⟨m₂, p₂⟩ ⟨hx₁, hown₁, hothers⟩ ⟨hG, hs⟩
    refine ⟨hs.sound hx₁, hs.own hx₁ hown₁ hG, ?_⟩
    intro f x hf hp
    obtain ⟨hp₁, hb₁⟩ := hothers f x hf hp
    obtain ⟨hp₂, hb₂⟩ := hs.others hx₁ hown₁ hp₁ hf hG
    exact ⟨hp₂, hb₁.trans hb₂⟩
  · exact ⟨hx, hown, fun f x _ hp => ⟨hp, .refl _⟩⟩

/-- Page events that are no swap-outs leave every private file alone. -/
theorem run_noSwapOut {evs : List PageEvent} (hx : Sound ⟨m.fs, R, p.files + Q⟩) (hp : PrivateFile m.fs f x)
    (h : Run PageStep (m, p) evs (m', p')) (hno : ∀ ev ∈ evs, ¬ev.swapsOut) : (m.fs.inode x).SameBytes (m'.fs.inode x) := by
  refine ((h.guard hno).invariant (fun y => Sound ⟨y.1.fs, R, y.2.files + Q⟩ ∧ PrivateFile y.1.fs f x ∧
    (m.fs.inode x).SameBytes (y.1.fs.inode x)) ?_ ⟨hx, hp, .refl _⟩).2.2
  rintro ⟨m₁, p₁⟩ ev ⟨m₂, p₂⟩ ⟨hx₁, hp₁, hb₁⟩ ⟨hev, hs⟩
  have hrun := hs.refs (O := (· ≠ x)) (W := (· ≠ x)) (F := (· ≠ f)) (r := R) (q := Q) (fun hout => absurd hout hev)
    (fun hout => absurd hout hev) (fun g hg => hp₁.ne_free hg)
  exact ⟨hs.sound hx₁, hrun.privateFile hx₁ hp₁, hb₁.trans (hrun.bytes hx₁ hp₁)⟩

/-! ## The system -/

/-- The references are counted, and the swap file of every process is private. -/
structure SwapInv (s : Sys) : Prop where
  holds : s.HoldsOk
  sound : Sound s.refs
  own : ∀ i < nProc, OwnSwap s.m (s.proc i)

variable {s t : Sys} {a : Action} {i j : Nat}

/-- One process apart: what the others hold, and the references of all. -/
theorem SwapInv.apart (h : SwapInv s) (hi : i < nProc) : ∃ R Q, Sound ⟨s.m.fs, (s.proc i).inodes + R, (s.proc i).files + Q⟩ ∧
    (∀ m p, (s.put i m p).refs = ⟨m.fs, p.inodes + R, p.files + Q⟩) ∧ ∀ k < nProc, k ≠ i → (s.proc k).files ≤ Q := by
  obtain ⟨R, hR, hR', -⟩ := sum_put (s := s) (h := Proc.inodes) hi
  obtain ⟨Q, hQ, hQ', hle⟩ := sum_put (s := s) (h := Proc.files) hi
  have hin : s.inodes = (s.proc i).inodes + R := hR
  have hfl : s.files = (s.proc i).files + Q := hQ
  refine ⟨R, Q, ?_, ?_, hle⟩
  · rw [← hin, ← hfl]
    exact h.sound
  · intro m p
    have hin' : (s.put i m p).inodes = p.inodes + R := hR' m p
    have hfl' : (s.put i m p).files = p.files + Q := hQ' m p
    rw [Sys.refs, hin', hfl', Sys.put_m]

/-- The swap file of a process is none of its descriptors, and no other process holds it. -/
theorem SwapInv.only (h : SwapInv s) (hi : i < nProc) (hf : (s.proc i).swapFile = some f) :
    (∀ k < nProc, f ∉ (s.proc k).fds) ∧ ∀ k < nProc, k ≠ i → f ∉ (s.proc k).files := by
  obtain ⟨R, Q, hx, -, hle⟩ := h.apart hi
  have hp := h.own i hi f hf
  have hother : ∀ k < nProc, k ≠ i → f ∉ (s.proc k).files := by
    intro k hk hki hmem
    exact hp.once hx (Multiset.mem_of_le (hle k hk hki) hmem) (mem_files_of_swap hf)
  refine ⟨?_, hother⟩
  intro k hk hmem
  by_cases hki : k = i
  · rw [hki] at hmem
    have hfiles : (s.proc i).files + Q = (s.proc i).fds + ({f} + Q) := by
      rw [Proc.files, hf, slot_some, Proc.fds, add_assoc]
    rw [hfiles] at hx
    exact hp.once hx (Multiset.mem_add.mpr (Or.inl (Multiset.mem_singleton_self f))) hmem
  · exact hother k hk hki (mem_files_of_fds hmem)

/-- Two processes have their swap files on different inodes. -/
theorem SwapInv.distinct (h : SwapInv s) (hi : i < nProc) (hj : j < nProc) (hij : i ≠ j) {g : Nat} (hf : (s.proc i).swapFile = some f)
    (hg : (s.proc j).swapFile = some g) : (s.m.fs.ftable f).ip ≠ (s.m.fs.ftable g).ip := by
  intro heq
  have hopens := (h.own j hj g hg).opens
  rw [← heq] at hopens
  have hgf := (h.own i hi f hf).alone g hopens
  rw [hgf] at hg
  exact (h.only hi hf).2 j hj (Ne.symm hij) (mem_files_of_swap hg)

/-- The boot with a zeroed inode table: no inode has been read. -/
def ColdBoot (s : Sys) : Prop := ∃ s₀, PreBoot s₀ ∧ (∀ i, s₀.m.fs.valid i = false) ∧ userinit s₀ = .ok s

theorem ColdBoot.boot (h : ColdBoot s) : Boot s := by
  obtain ⟨s₀, hpre, -, h⟩ := h
  exact ⟨s₀, hpre, h⟩

theorem smallBoot_coldBoot {files : List (Name × Inode)} {n : Nat} (hn : n < 1000) (h : (userinit (smallSys files n)).toOption.isSome) :
    ColdBoot (smallBoot files n) :=
  ⟨smallSys files n, smallSys_preBoot files hn, fun _ => rfl, smallBoot_userinit h⟩

theorem smallBoot_cold : ColdBoot (smallBoot smallFiles 32) := smallBoot_coldBoot (by decide) (by decide +kernel)

theorem Boot.swapFile (h : Boot s) (k : Nat) : (s.proc k).swapFile = none := by
  obtain ⟨s₀, j, m₁, tf, pt, fs, ip, m, p, argc, hb⟩ := h.booted
  exact hb.swapFile k

/-- Before the first process nothing has been read, so all that has been is allocated. -/
theorem ColdBoot.sound (h : ColdBoot s) : Sound s.refs := by
  obtain ⟨s₀, hpre, hcold, h⟩ := h
  obtain ⟨j, m₁, tf, pt, fs, ip, m, p, argc, hb⟩ := hpre.booted h
  have hsound : Sound s₀.refs := by
    refine ⟨⟨0, hpre.counted.2⟩, ?_, ?_⟩
    · intro i hv
      have hno : s₀.m.fs.valid i = false := hcold i
      rw [show s₀.refs.fs = s₀.m.fs from rfl, hno] at hv
      cases hv
    · intro i hi
      obtain ⟨f, -, hf⟩ := mem_opened.mp hi
      have hnone : (s₀.m.fs.ftable f).opens = none := hpre.counted.2.opens_none (Or.inl (hpre.ftable f).1)
      rw [show s₀.refs.fs = s₀.m.fs from rfl, hnone] at hf
      cases hf
  exact hb.refs.sound hsound

/-- References that are lost are counted. -/
theorem Sound.lose {lost : Multiset Nat} (h : Sound ⟨fs, r + lost, q⟩) : Sound ⟨fs, r, q⟩ := by
  obtain ⟨⟨lost', hc⟩, ha⟩ := h
  exact ⟨⟨lost' + lost, hc.lose⟩, ha⟩

/-- The path of an `open` leads to the inode of a process's swap file. -/
def opensSwapFile (s : Sys) (i : Nat) (path : List Char) (omode : Nat) : Prop :=
  ∃ k < nProc, ∃ f, (s.proc k).swapFile = some f ∧ opensPath s.m.fs (s.proc i) path omode (s.m.fs.ftable f).ip

/-- A call that opens no swap file leaves them private, and their bytes. -/
theorem SwapInv.call (h : SwapInv s) (hs : Step s a t) (ha : a.pages = false)
    (hopen : ∀ i path omode, a = .open i path omode → ¬opensSwapFile s i path omode) :
    SwapInv t ∧ ∀ i < nProc, ∀ f, (s.proc i).swapFile = some f → (t.proc i).swapFile = some f →
      (s.m.fs.inode (s.m.fs.ftable f).ip).SameBytes (t.m.fs.inode (s.m.fs.ftable f).ip) := by
  obtain ⟨lost₀, hcalled₀, -⟩ := hs.call_refs (O := fun _ => True) (W := fun _ => True) (F := fun _ => True) h.holds ha
    (fun _ _ _ _ _ _ => ⟨trivial, trivial⟩) (fun _ _ _ _ _ => trivial) (fun _ _ _ _ _ _ => trivial) (fun _ _ => trivial)
  -- seen from the swap file of one process
  have hone : ∀ i < nProc, ∀ f, (t.proc i).swapFile = some f → PrivateFile t.m.fs f (s.m.fs.ftable f).ip ∧
      (s.m.fs.inode (s.m.fs.ftable f).ip).SameBytes (t.m.fs.inode (s.m.fs.ftable f).ip) := by
    intro i hi f hf
    have hf₀ := hcalled₀.swap i f hf
    have hp := h.own i hi f hf₀
    obtain ⟨hfds, hother⟩ := h.only hi hf₀
    have hcall := hs.call_refs (O := (· ≠ (s.m.fs.ftable f).ip)) (W := (· ≠ (s.m.fs.ftable f).ip)) (F := (· ≠ f)) h.holds ha
      ?_ ?_ ?_ (fun g hg => hp.ne_free hg)
    · obtain ⟨lost, hcalled, -⟩ := hcall
      exact ⟨hcalled.run.privateFile h.sound hp, hcalled.run.bytes h.sound hp⟩
    · intro k path omode hk ip hip
      have hne : ip ≠ (s.m.fs.ftable f).ip := by
        rintro rfl
        exact hopen k path omode hk ⟨i, hi, f, hf₀, hip⟩
      exact ⟨hne, hne⟩
    · rintro k - hk g hg rfl
      exact hfds k hk hg
    · -- the process itself does not exit: it still has its swap file
      rintro k status rfl hk g hg rfl
      by_cases hki : k = i
      · rw [hki] at hs
        rw [hs.exit_swapFile] at hf
        nomatch hf
      · exact hother k hk hki hg
  refine ⟨⟨hcalled₀.holds, (hcalled₀.run.sound h.sound).lose, ?_⟩, fun i hi f _ hf => (hone i hi f hf).2⟩
  intro i hi f hf
  have hp := (hone i hi f hf).1
  rwa [hp.ip_eq]

/-- Page events that make no swap file under a name that is taken leave the swap files private; those of the other processes keep
their bytes. -/
theorem SwapInv.pages {evs : List PageEvent} (h : SwapInv s) (hs : PagesVia MakesNewSwap s a t evs) :
    SwapInv t ∧ ∀ i < nProc, a.actor ≠ some i → ∀ f, (s.proc i).swapFile = some f →
      (s.m.fs.inode (s.m.fs.ftable f).ip).SameBytes (t.m.fs.inode (s.m.fs.ftable f).ip) := by
  obtain ⟨k, m₀, m, p, hactor, hready, hm₀, hrun, hheld⟩ := hs
  have hfs : m₀.fs = s.m.fs := by rcases hm₀ with rfl | rfl <;> rfl
  have himg : PageRun (fun _ => True) m₀ (s.proc k) m p := ⟨evs, hrun.mono (fun _ _ _ hg => ⟨trivial, hg.2⟩)⟩
  obtain ⟨hstate, hcwd, hexec, -⟩ := himg.image.holds
  obtain ⟨R, Q, hx, hput, hle⟩ := h.apart hready.1
  rw [← hfs] at hx
  have hown : OwnSwap m₀ (s.proc k) := by
    intro f hf
    rw [hfs]
    exact h.own k hready.1 f hf
  obtain ⟨hx', hown', hothers⟩ := run_swaps hx hown hrun
  have hin : p.inodes = (s.proc k).inodes := by rw [Proc.inodes, Proc.inodes, hcwd, hexec]
  have hrest : ∀ i < nProc, i ≠ k → ∀ f, (s.proc i).swapFile = some f → PrivateFile m.fs f (s.m.fs.ftable f).ip ∧
      (s.m.fs.inode (s.m.fs.ftable f).ip).SameBytes (m.fs.inode (s.m.fs.ftable f).ip) := by
    intro i hi hik f hf
    have hp := h.own i hi f hf
    rw [← hfs] at hp ⊢
    exact hothers f _ (Multiset.mem_of_le (hle i hi hik) (mem_files_of_swap hf)) hp
  refine ⟨⟨?_, ?_, ?_⟩, ?_⟩
  · refine hheld.holdsOk (h.holds.put (hready.2.1.holdsOk hstate ?_))
    rw [hcwd]
    exact (h.holds k hready.1).cwd hready.2.1
  · rw [hheld.refs, hput m p, hin]
    exact hx'
  · intro i hi f hf
    rw [hheld.swapFile] at hf
    rw [hheld.fs, Sys.put_m]
    by_cases hik : i = k
    · rw [hik, Sys.put_proc_self] at hf
      exact hown' f hf
    · rw [Sys.put_proc_of_ne _ _ _ hik] at hf
      have hp := (hrest i hi hik f hf).1
      rwa [hp.ip_eq]
  · intro i hi hne f hf
    rw [hheld.fs, Sys.put_m]
    refine (hrest i hi ?_ f hf).2
    rintro rfl
    exact hne hactor

/-- The bytes of a process's own swap file change in page events only by a swap-out. -/
theorem SwapInv.ownBytes {evs : List PageEvent} (h : SwapInv s) (hs : PagesVia (fun _ _ => True) s a t evs) (ha : a.actor = some i)
    (hi : i < nProc) (hf : (s.proc i).swapFile = some f) (hno : ∀ ev ∈ evs, ¬ev.swapsOut) :
    (s.m.fs.inode (s.m.fs.ftable f).ip).SameBytes (t.m.fs.inode (s.m.fs.ftable f).ip) := by
  obtain ⟨k, m₀, m, p, hactor, -, hm₀, hrun, hheld⟩ := hs
  obtain rfl := Option.some.inj (ha.symm.trans hactor)
  have hfs : m₀.fs = s.m.fs := by rcases hm₀ with rfl | rfl <;> rfl
  obtain ⟨R, Q, hx, -, -⟩ := h.apart hi
  have hp := h.own i hi f hf
  rw [hheld.fs, Sys.put_m]
  rw [← hfs] at hx hp ⊢
  exact run_noSwapOut hx hp (hrun.mono (fun _ _ _ hg => hg.2)) hno

/-- A round of `write`: the inode is written, then the offset of the file moves. -/
theorem sysWriteRound_cases {p : Proc} {fd n : Nat} {src : Nat → Byte} {o : Option Nat} (h : sysWriteRound fs p fd src n = .ok (fs', o)) :
    fs' = fs ∨ ∃ g fs₁ fs₂ tot off, g ∈ p.fds ∧ (fs.ftable g).type = .inode ∧ ilock fs (fs.ftable g).ip = .ok fs₁ ∧
      writei fs₁ (fs.ftable g).ip src (fs.ftable g).off (min n writeMax) = .ok (fs₂, tot) ∧ fs' = fs₂.setOff g off := by
  unfold sysWriteRound at h
  split at h
  · exact Or.inl (Prod.mk.inj (Except.ok.inj h)).1.symm
  rename_i g hg
  split at h
  · rename_i hfile
    obtain ⟨fs₁, hl, h⟩ := bind_ok h
    obtain ⟨⟨fs₂, tot⟩, hw, h⟩ := bind_ok h
    obtain ⟨rfl, -⟩ := Prod.mk.inj (Except.ok.inj h)
    obtain ⟨hlt, hopen⟩ := argfd_some hg
    refine Or.inr ⟨g, fs₁, fs₂, tot, (fs.ftable g).off + tot.getD 0, mem_fds hlt hopen, hfile.2, hl, hw, ?_⟩
    rw [Fs.setOff, (writei_edits hw).ftable, (ilock_ok hl).2.2.1]
  · exact Or.inl (Prod.mk.inj (Except.ok.inj h)).1.symm

/-- A write to an open file changes no swap file. -/
theorem SwapInv.write {fd n : Nat} {src : Nat → Byte} {o : Option Nat} (h : SwapInv s) (hi : i < nProc)
    (hw : sysWriteRound s.m.fs (s.proc i) fd src n = .ok (fs, o)) : SwapInv { s with m := (s.m.reach [.beginOp, .ilock, .diskWrite]).withFs fs } ∧
    ∀ k < nProc, ∀ f, (s.proc k).swapFile = some f → (s.m.fs.inode (s.m.fs.ftable f).ip).SameBytes (fs.inode (s.m.fs.ftable f).ip) := by
  rcases sysWriteRound_cases hw with rfl | ⟨g, fs₁, fs₂, tot, off, hg, htype, hl, hwrite, rfl⟩
  · exact ⟨⟨h.holds, h.sound, h.own⟩, fun _ _ _ _ => .refl _⟩
  have hrun : ∀ {O W F : Nat → Prop}, W (s.m.fs.ftable g).ip → FsRun (Within O W F) s.refs ⟨fs₂, s.inodes, s.files⟩ := by
    intro O W F hW
    exact (FsRun.single (.lock hl) trivial).snoc (.write hwrite) hW
  have hsound := (hrun (O := fun _ => True) (W := fun _ => True) (F := fun _ => True) trivial).sound h.sound
  -- the file written is no swap file, so it is open on another inode
  have hne : ∀ k < nProc, ∀ f, (s.proc k).swapFile = some f → (s.m.fs.ftable g).ip ≠ (s.m.fs.ftable f).ip := by
    intro k hk f hf heq
    have hpos : 0 < (s.m.fs.ftable g).ref := by
      obtain ⟨⟨lost, hc⟩, -⟩ := h.sound
      exact hc.files.pos_iff.mpr (mem_sys_files hi (mem_files_of_fds hg))
    have halone := (h.own k hk f hf).alone g ?_
    · rw [halone] at hg
      exact (h.only hk hf).1 i hi hg
    · rw [File.opens, if_pos ⟨hpos, Or.inl htype⟩, heq]
  have hone : ∀ k < nProc, ∀ f, (s.proc k).swapFile = some f → PrivateFile fs₂ f (s.m.fs.ftable f).ip ∧
      (s.m.fs.inode (s.m.fs.ftable f).ip).SameBytes (fs₂.inode (s.m.fs.ftable f).ip) := by
    intro k hk f hf
    have hrun := hrun (O := (· ≠ (s.m.fs.ftable f).ip)) (W := (· ≠ (s.m.fs.ftable f).ip)) (F := (· ≠ f)) (hne k hk f hf)
    exact ⟨hrun.privateFile h.sound (h.own k hk f hf), hrun.bytes h.sound (h.own k hk f hf)⟩
  refine ⟨⟨h.holds, hsound.setOff g off, ?_⟩, fun k hk f hf => (hone k hk f hf).2⟩
  intro k hk f hf
  have hp := (hone k hk f hf).1.setOff g off
  change PrivateFile (fs₂.setOff g off) f ((fs₂.setOff g off).ftable f).ip
  rwa [hp.ip_eq]

end Xv6SnifferBakery.Kernel
