import Xv6SnifferBakery.Lemmas.Environment
import Xv6SnifferBakery.Lemmas.Events
import Xv6SnifferBakery.Lemmas.FsCalls

/-!
# What a process holds of the file system

A process holds inodes (its current directory, its executable) and files (its descriptors, its swap file). The calls of a process are
runs of file system events from what it holds before to what it holds after.
-/

namespace Xv6SnifferBakery.Kernel

open Lib

/-- The inodes a process holds. -/
def Proc.inodes (p : Proc) : Multiset Nat := slot p.cwd + slot p.execInode

/-- The files a process holds. -/
def Proc.files (p : Proc) : Multiset Nat := content nOFile p.ofile + slot p.swapFile

variable {fs fs' : Fs} {r q : Multiset Nat} {O W F : Nat → Prop} {p p' : Proc} {path : List Char} {f fd ip : Nat}

/-! ## Descriptors -/

theorem firstFd_some {ofile : Nat → Option Nat} {i n : Nat} (h : firstFd ofile i n = some fd) : ofile fd = none ∧ fd < i + n := by
  induction n generalizing i with
  | zero => nomatch h
  | succ n ih =>
    rw [firstFd] at h
    split at h
    · rename_i hnone
      obtain rfl := Option.some.inj h
      exact ⟨Option.isNone_iff_eq_none.mp hnone, by omega⟩
    · obtain ⟨h1, h2⟩ := ih h
      exact ⟨h1, by omega⟩

/-- `fdalloc` gives the file to a free descriptor. -/
theorem fdalloc_some (h : fdalloc p f = some (p', fd)) :
    p' = { p with ofile := p'.ofile } ∧ p'.files = {f} + p.files := by
  unfold fdalloc at h
  split at h
  · nomatch h
  · rename_i k hk
    obtain ⟨rfl, rfl⟩ := Prod.mk.inj (Option.some.inj h)
    obtain ⟨hnone, hlt⟩ := firstFd_some hk
    have hfill := content_fill nOFile p.ofile k f (by omega) hnone
    refine ⟨rfl, ?_⟩
    change content nOFile (Function.update p.ofile k (some f)) + slot p.swapFile = {f} + (content nOFile p.ofile + slot p.swapFile)
    rw [hfill]
    abel

theorem fdalloc_room (h : fdalloc p f = some (p', fd)) : (firstFd p.ofile 0 nOFile).isSome := by
  unfold fdalloc at h
  split at h
  · nomatch h
  · rename_i k hk
    rw [hk]
    rfl

/-- A process without one of its descriptors. -/
theorem closed_files (hlt : fd < nOFile) (hfd : p.ofile fd = some f) :
    p.files = {f} + ({ p with ofile := Function.update p.ofile fd none } : Proc).files := by
  have hclear := content_clear nOFile p.ofile fd hlt
  rw [hfd, slot_some] at hclear
  change content nOFile p.ofile + slot p.swapFile = {f} + (content nOFile (Function.update p.ofile fd none) + slot p.swapFile)
  rw [← hclear]
  abel

/-- A descriptor that is open holds its file. -/
theorem argfd_some (h : argfd p fd = some f) : fd < nOFile ∧ p.ofile fd = some f := by
  unfold argfd at h
  split at h
  · exact ⟨‹_›, h⟩
  · nomatch h

/-- The files of the descriptors of a process. -/
def Proc.fds (p : Proc) : Multiset Nat := content nOFile p.ofile

theorem mem_fds (hlt : fd < nOFile) (h : p.ofile fd = some f) : f ∈ p.fds := by
  rw [Proc.fds, mem_content]
  exact ⟨fd, hlt, h⟩

theorem mem_files_of_fds (h : f ∈ p.fds) : f ∈ p.files := Multiset.mem_add.mpr (Or.inl h)

theorem mem_files_of_swap (h : p.swapFile = some f) : f ∈ p.files := by
  rw [Proc.files, h]
  exact Multiset.mem_add.mpr (Or.inr (Multiset.mem_singleton_self f))

/-! ## Calls -/

theorem sysDup_run {o : Option Nat} (h : sysDup fs p fd = .ok (fs', p', o)) (hF : ∀ f ∈ p.fds, F f) :
    p' = { p with ofile := p'.ofile } ∧ FsRun (Within O W F) ⟨fs, r, p.files + q⟩ ⟨fs', r, p'.files + q⟩ := by
  unfold sysDup at h
  split at h
  · simp only [Except.ok.injEq, Prod.mk.injEq] at h
    obtain ⟨rfl, rfl, -⟩ := h
    exact ⟨rfl, FsRun.refl _ _⟩
  rename_i f hfd
  split at h
  · simp only [Except.ok.injEq, Prod.mk.injEq] at h
    obtain ⟨rfl, rfl, -⟩ := h
    exact ⟨rfl, FsRun.refl _ _⟩
  · rename_i p₁ new hnew
    obtain ⟨fs₁, hd, h⟩ := bind_ok h
    simp only [Except.ok.injEq, Prod.mk.injEq] at h
    obtain ⟨rfl, rfl, -⟩ := h
    obtain ⟨hp, hfiles⟩ := fdalloc_some hnew
    obtain ⟨hlt, hopen⟩ := argfd_some hfd
    refine ⟨hp, (FsRun.single (.share hd) (hF f (mem_fds hlt hopen))).to rfl ?_⟩
    rw [hfiles, add_assoc]

theorem sysClose_run {b : Bool} (h : sysClose fs p fd = .ok (fs', p', b)) (hF : ∀ f ∈ p.fds, F f) :
    p' = { p with ofile := p'.ofile } ∧ FsRun (Within O W F) ⟨fs, r, p.files + q⟩ ⟨fs', r, p'.files + q⟩ := by
  unfold sysClose at h
  split at h
  · simp only [Except.ok.injEq, Prod.mk.injEq] at h
    obtain ⟨rfl, rfl, -⟩ := h
    exact ⟨rfl, FsRun.refl _ _⟩
  · rename_i f hfd
    obtain ⟨fs₁, hc, h⟩ := bind_ok h
    simp only [Except.ok.injEq, Prod.mk.injEq] at h
    obtain ⟨rfl, rfl, -⟩ := h
    obtain ⟨hlt, hopen⟩ := argfd_some hfd
    refine ⟨rfl, (FsRun.single (.close hc) (hF f (mem_fds hlt hopen))).of rfl ?_⟩
    rw [closed_files hlt hopen, add_assoc]

/-- `openInode` returns a reference to an inode that has been read. -/
theorem openInode_run {cwd omode : Nat} {o : Option Nat} (h : openInode fs cwd path omode = .ok (fs', o)) :
    FsRun (Within O W F) ⟨fs, r, q⟩ ⟨fs', slot o + r, q⟩ ∧ ∀ ip, o = some ip → fs'.valid ip = true := by
  unfold openInode at h
  split at h
  · refine ⟨create_run (by decide) h, ?_⟩
    rintro ip rfl
    exact create_valid h
  · obtain ⟨⟨fs₁, o₁⟩, hn, h⟩ := bind_ok h
    have hname := namei_run (O := O) (W := W) (F := F) (r := r) (q := q) hn
    cases o₁ with
    | none =>
      obtain ⟨rfl, rfl⟩ := Prod.mk.inj (Except.ok.inj h)
      exact ⟨hname, fun _ ho => nomatch ho⟩
    | some ip =>
      obtain ⟨fs₂, hl, h⟩ := bind_ok h
      have hlock := hname.snoc (.lock hl) trivial
      split at h
      · obtain ⟨rfl, rfl⟩ := Prod.mk.inj (Except.ok.inj h)
        exact ⟨(hlock.snoc .put trivial).to (zero_add r).symm rfl, fun _ ho => nomatch ho⟩
      · obtain ⟨rfl, rfl⟩ := Prod.mk.inj (Except.ok.inj h)
        refine ⟨hlock, ?_⟩
        rintro i hi
        obtain rfl := Option.some.inj hi
        exact (ilock_ok hl).2.2.2.1

/-- `openInode` touches no file. -/
theorem openInode_ftable {cwd omode : Nat} {o : Option Nat} (h : openInode fs cwd path omode = .ok (fs', o)) : fs'.ftable = fs.ftable :=
  FsRun.ftable (openInode_run (O := fun _ => False) (W := fun _ => False) (r := 0) (q := 0) h).1

/-- `open` of a path opens inode `ip`: the path leads to it, and a file and a descriptor are free. -/
def opensPath (fs : Fs) (p : Proc) (path : List Char) (omode ip : Nat) : Prop :=
  ∃ fs₁, openInode fs (p.cwd.getD 0) path omode = .ok (fs₁, some ip) ∧ (filealloc fs₁).2.isSome ∧ (firstFd p.ofile 0 nOFile).isSome

theorem sysOpen_run {omode : Nat} {o : Option Nat} (h : sysOpen fs p path omode = .ok (fs', p', o))
    (hO : ∀ ip, opensPath fs p path omode ip → O ip ∧ W ip)
    (hF : ∀ f, (fs.ftable f).ref = 0 → F f) :
    p' = { p with ofile := p'.ofile } ∧ FsRun (Within O W F) ⟨fs, r, p.files + q⟩ ⟨fs', r, p'.files + q⟩ := by
  obtain ⟨⟨fs₁, o₁⟩, hi, h⟩ := bind_ok h
  obtain ⟨hopen, hvalid⟩ := openInode_run (O := O) (W := W) (F := F) (r := r) (q := p.files + q) hi
  cases o₁ with
  | none =>
    simp only [Except.ok.injEq, Prod.mk.injEq] at h
    obtain ⟨rfl, rfl, -⟩ := h
    exact ⟨rfl, hopen.to (zero_add r) rfl⟩
  | some ip =>
    have hput : FsRun (Within O W F) ⟨fs, r, p.files + q⟩ ⟨iput fs₁ ip, r, p.files + q⟩ := hopen.snoc .put trivial
    dsimp only at h
    split at h
    · simp only [Except.ok.injEq, Prod.mk.injEq] at h
      obtain ⟨rfl, rfl, -⟩ := h
      exact ⟨rfl, hput⟩
    split at h
    · rename_i fs₂ ha
      obtain rfl := filealloc_none ha
      simp only [Except.ok.injEq, Prod.mk.injEq] at h
      obtain ⟨rfl, rfl, -⟩ := h
      exact ⟨rfl, hput⟩
    rename_i fs₂ f ha
    obtain ⟨hz, -, hfs₂⟩ := filealloc_some ha
    have hFf : F f := hF f (by rw [← openInode_ftable hi]; exact hz)
    split at h
    · -- no descriptor is free: the file and the inode are given back
      obtain ⟨fs₃, hc, h⟩ := bind_ok h
      simp only [Except.ok.injEq, Prod.mk.injEq] at h
      obtain ⟨rfl, rfl, -⟩ := h
      exact ⟨rfl, ((hopen.snoc (.reserve ha) hFf).snoc (.close hc) hFf).snoc .put trivial⟩
    · rename_i p₁ fd hfd
      obtain ⟨hp, hfiles⟩ := fdalloc_some hfd
      obtain ⟨hOip, hWip⟩ := hO ip ⟨fs₁, hi, by rw [ha]; rfl, fdalloc_room hfd⟩
      simp only [Except.ok.injEq, Prod.mk.injEq] at h
      obtain ⟨rfl, rfl, -⟩ := h
      have href : (fs₂.ftable f).ref = 1 := by
        rw [hfs₂]
        exact congrArg File.ref (Function.update_self f _ fs₁.ftable)
      have htype : (openFile (fs₁.inode ip) ip omode (fs₂.ftable f)).type = .inode ∨
          (openFile (fs₁.inode ip) ip omode (fs₂.ftable f)).type = .device := by
        unfold openFile
        dsimp only
        split
        · exact Or.inr rfl
        · exact Or.inl rfl
      have hinstall : FsRun (Within O W F) ⟨fs, r, p.files + q⟩
          ⟨{ fs₂ with ftable := Function.update fs₂.ftable f (openFile (fs₁.inode ip) ip omode (fs₂.ftable f)) }, r,
            p₁.files + q⟩ := by
        have hstep := FsStep.install (r := r) (q := p.files + q) ha
          (show (openFile (fs₁.inode ip) ip omode (fs₂.ftable f)).ref = 1 from href) htype
          (hvalid ip rfl)
        exact (hopen.snoc hstep ⟨hOip, hFf⟩).to rfl (by rw [hfiles, add_assoc])
      refine ⟨hp, ?_⟩
      split
      · exact hinstall.snoc (.trunc ip) hWip
      · exact hinstall

theorem createPut_run {cwd : Nat} {type : FileType} {major minor : Int} {b : Bool} (htype : type ≠ .free)
    (h : createPut fs cwd path type major minor = .ok (fs', b)) : FsRun (Within O W F) ⟨fs, r, q⟩ ⟨fs', r, q⟩ := by
  obtain ⟨⟨fs₁, o₁⟩, hc, h⟩ := bind_ok h
  have hcreate := create_run (O := O) (W := W) (F := F) (r := r) (q := q) htype hc
  cases o₁ with
  | none =>
    obtain ⟨rfl, rfl⟩ := Prod.mk.inj (Except.ok.inj h)
    exact hcreate.to (zero_add r) rfl
  | some ip =>
    obtain ⟨rfl, rfl⟩ := Prod.mk.inj (Except.ok.inj h)
    exact hcreate.snoc .put trivial

/-- `chdir` gives the old directory for the new one. -/
theorem sysChdir_run {b : Bool} (hcwd : p.cwd.isSome) (h : sysChdir fs p path = .ok (fs', p', b)) :
    p' = { p with cwd := p'.cwd } ∧ p'.cwd.isSome ∧ FsRun (Within O W F) ⟨fs, slot p.cwd + r, q⟩ ⟨fs', slot p'.cwd + r, q⟩ := by
  obtain ⟨c, hc⟩ := Option.isSome_iff_exists.mp hcwd
  rw [sysChdir, hc, Option.getD_some] at h
  obtain ⟨⟨fs₁, o₁⟩, hn, h⟩ := bind_ok h
  have hname := namei_run (O := O) (W := W) (F := F) (r := slot p.cwd + r) (q := q) hn
  cases o₁ with
  | none =>
    simp only [Except.ok.injEq, Prod.mk.injEq] at h
    obtain ⟨rfl, rfl, -⟩ := h
    exact ⟨rfl, hcwd, hname.to (zero_add _) rfl⟩
  | some ip =>
    obtain ⟨fs₂, hl, h⟩ := bind_ok h
    have hlock := hname.snoc (.lock hl) trivial
    split at h
    · simp only [Except.ok.injEq, Prod.mk.injEq] at h
      obtain ⟨rfl, rfl, -⟩ := h
      exact ⟨rfl, hcwd, hlock.snoc .put trivial⟩
    · simp only [Except.ok.injEq, Prod.mk.injEq] at h
      obtain ⟨rfl, rfl, -⟩ := h
      refine ⟨rfl, rfl, ((hlock.to ?_ rfl).snoc (.put (i := c)) trivial).to rfl rfl⟩
      change {ip} + (slot p.cwd + r) = {c} + ({ip} + r)
      rw [hc, slot_some]
      abel

/-! ## Fork and exit -/

/-- The descriptors below `fd`. -/
def fdsBelow (ofile : Nat → Option Nat) (fd : Nat) : Nat → Option Nat := fun k => if k < fd then ofile k else none

/-- The descriptors from `fd` on. -/
def fdsFrom (ofile : Nat → Option Nat) (fd : Nat) : Nat → Option Nat := fun k => if k < fd then none else ofile k

theorem fdsBelow_succ {ofile : Nat → Option Nat} (h : fd < nOFile) :
    content nOFile (fdsBelow ofile (fd + 1)) = content nOFile (fdsBelow ofile fd) + slot (ofile fd) := by
  have hup : fdsBelow ofile (fd + 1) = Function.update (fdsBelow ofile fd) fd (ofile fd) := by
    funext k
    by_cases hk : k = fd
    · rw [hk, Function.update_self, fdsBelow, if_pos (by omega)]
    · rw [Function.update_of_ne hk, fdsBelow, fdsBelow]
      by_cases hlt : k < fd
      · rw [if_pos (by omega), if_pos hlt]
      · rw [if_neg (by omega), if_neg hlt]
  have hc := content_update nOFile (fdsBelow ofile fd) fd (ofile fd) h
  rwa [← hup, show fdsBelow ofile fd fd = none from if_neg (Nat.lt_irrefl fd), slot_none, add_zero] at hc

theorem fdsFrom_succ {ofile : Nat → Option Nat} (h : fd < nOFile) :
    content nOFile (fdsFrom ofile (fd + 1)) + slot (ofile fd) = content nOFile (fdsFrom ofile fd) := by
  have hup : fdsFrom ofile (fd + 1) = Function.update (fdsFrom ofile fd) fd none := by
    funext k
    by_cases hk : k = fd
    · rw [hk, Function.update_self, fdsFrom, if_pos (by omega)]
    · rw [Function.update_of_ne hk, fdsFrom, fdsFrom]
      by_cases hlt : k < fd
      · rw [if_pos (by omega), if_pos hlt]
      · rw [if_neg (by omega), if_neg hlt]
  have hc := content_clear nOFile (fdsFrom ofile fd) fd h
  rwa [← hup, show fdsFrom ofile fd fd = ofile fd from if_neg (Nat.lt_irrefl fd)] at hc

/-- A child takes a reference to everything its parent holds, but for the swap file. -/
theorem forkRefs_run (hcwd : p.cwd.isSome) (h : forkRefs fs p = .ok fs') (hF : ∀ f ∈ p.fds, F f) :
    FsRun (Within O W F) ⟨fs, r, q⟩ ⟨fs', p.inodes + r, content nOFile p.ofile + q⟩ := by
  obtain ⟨c, hc⟩ := Option.isSome_iff_exists.mp hcwd
  rw [forkRefs, hc, Option.getD_some] at h
  obtain ⟨fs₁, hl, h⟩ := bind_ok h
  obtain rfl := Except.ok.inj h
  have hfds := forFrom_inv (fun fd g => FsRun (Within O W F) ⟨fs, r, q⟩
    ⟨g, slot p.execInode + r, content nOFile (fdsBelow p.ofile fd) + q⟩) hl ?_ ?_
  · have hall : content nOFile (fdsBelow p.ofile (0 + nOFile)) = content nOFile p.ofile :=
      content_congr (fun k hk => if_pos (by omega))
    rw [hall] at hfds
    refine (hfds.snoc (.dup c) trivial).to ?_ rfl
    rw [Proc.inodes, hc, slot_some]
    abel
  · have hnone : content nOFile (fdsBelow p.ofile 0) = 0 := content_none (fun k _ => if_neg (Nat.not_lt_zero k))
    rw [hnone, zero_add]
    cases p.execInode with
    | none => exact (FsRun.refl _ _).to (zero_add r).symm rfl
    | some ip => exact FsRun.single (.dup ip) trivial
  · intro fd g g' _ hlt hg hb
    rw [fdsBelow_succ (by omega)]
    unfold dupFd at hb
    split at hb
    · rename_i hnone
      obtain rfl := Except.ok.inj hb
      exact hg.to rfl (by rw [hnone, slot_none, add_zero])
    · rename_i f hsome
      refine (hg.snoc (.share hb) (hF f (mem_fds (by omega) hsome))).to rfl ?_
      rw [hsome, slot_some]
      abel

theorem removeSwapFile_run {cwd : Nat} {pid : Int} (h : removeSwapFile fs cwd pid = .ok fs') :
    FsRun (Within O W F) ⟨fs, r, q⟩ ⟨fs', r, q⟩ := by
  obtain ⟨⟨fs₁, o₁⟩, hn, h⟩ := bind_ok h
  have hname := nameiparent_run (O := O) (W := W) (F := F) (r := r) (q := q) hn
  cases o₁ with
  | none =>
    obtain rfl := Except.ok.inj h
    exact hname.to (zero_add r) rfl
  | some x =>
    obtain ⟨dp, name⟩ := x
    obtain ⟨fs₂, hl, h⟩ := bind_ok h
    have hlock : FsRun (Within O W F) ⟨fs, r, q⟩ ⟨fs₂, {dp} + r, q⟩ := hname.snoc (.lock hl) trivial
    obtain ⟨⟨fs₃, o₃⟩, hd, h⟩ := bind_ok h
    have hlook := hlock.trans (dirlookup_run hd)
    cases o₃ with
    | none =>
      obtain rfl := Except.ok.inj h
      exact (hlook.to (zero_add _) rfl).snoc .put trivial
    | some y =>
      obtain ⟨ip, k⟩ := y
      obtain ⟨fs₄, hl', h⟩ := bind_ok h
      obtain rfl := Except.ok.inj h
      have hlock' : FsRun (Within O W F) ⟨fs, r, q⟩ ⟨fs₄, {ip} + ({dp} + r), q⟩ := hlook.snoc (.lock hl') trivial
      have hnode := hlock'.snoc (.node ip (keepsContent_nlink (fun x => wrap16 (x.nlink - 1)))) trivial
      exact (hnode.snoc .put trivial).snoc .put trivial

/-- A process that exits gives up everything it holds. -/
theorem exitFs_run (hcwd : p.cwd.isSome) (h : exitFs fs p = .ok fs') (hF : ∀ f ∈ p.files, F f) :
    FsRun (Within O W F) ⟨fs, p.inodes + r, p.files + q⟩ ⟨fs', r, q⟩ := by
  obtain ⟨c, hc⟩ := Option.isSome_iff_exists.mp hcwd
  rw [exitFs, hc, Option.getD_some] at h
  obtain ⟨fs₁, hl, h⟩ := bind_ok h
  obtain ⟨fs₂, hs, h⟩ := bind_ok h
  obtain rfl := Except.ok.inj h
  have hfds := forFrom_inv (fun fd g => FsRun (Within O W F) ⟨fs, p.inodes + r, p.files + q⟩
    ⟨g, p.inodes + r, content nOFile (fdsFrom p.ofile fd) + (slot p.swapFile + q)⟩) hl ?_ ?_
  · have hnone : content nOFile (fdsFrom p.ofile (0 + nOFile)) = 0 := content_none (fun k hk => if_pos (by omega))
    rw [hnone, zero_add] at hfds
    -- the current directory, the swap file, the executable
    have hput : FsRun (Within O W F) ⟨fs, p.inodes + r, p.files + q⟩ ⟨iput fs₁ c, slot p.execInode + r, slot p.swapFile + q⟩ := by
      refine (hfds.to ?_ rfl).snoc (.put (i := c)) trivial
      rw [Proc.inodes, hc, slot_some]
      abel
    have hswap : FsRun (Within O W F) ⟨fs, p.inodes + r, p.files + q⟩ ⟨fs₂, slot p.execInode + r, q⟩ := by
      unfold exitSwap at hs
      split at hs
      · rename_i hn
        obtain rfl := Except.ok.inj hs
        exact hput.to rfl (by rw [hn, slot_none, zero_add])
      · rename_i f hf
        obtain ⟨fs₃, hc, hs⟩ := bind_ok hs
        rw [hf, slot_some] at hput
        exact (hput.snoc (.close hc) (hF f (mem_files_of_swap hf))).trans (removeSwapFile_run hs)
    cases hx : p.execInode with
    | none =>
      rw [hx, slot_none] at hswap
      exact hswap.to (zero_add r) rfl
    | some ip =>
      rw [hx, slot_some] at hswap
      exact hswap.snoc .put trivial
  · have hall : content nOFile (fdsFrom p.ofile 0) = content nOFile p.ofile := content_congr (fun k _ => if_neg (Nat.not_lt_zero k))
    exact (FsRun.refl _ _).to rfl (by rw [hall, Proc.files, add_assoc])
  · intro fd g g' _ hlt hg hb
    rw [← fdsFrom_succ (by omega)] at hg
    unfold closeFd at hb
    split at hb
    · rename_i hnone
      obtain rfl := Except.ok.inj hb
      exact hg.to rfl (by rw [hnone, slot_none, add_zero])
    · rename_i f hsome
      refine (hg.to rfl ?_).snoc (.close hb) (hF f (mem_files_of_fds (mem_fds (by omega) hsome)))
      rw [hsome, slot_some]
      abel

/-! ## Paging -/

/-- The file `create_swap_file` fills in for inode `ip`. -/
def swapFileOn (ip : Nat) : File := { type := .inode, ref := 1, readable := true, writable := true, ip := ip, off := 0 }

/-- The file system part of `create_swap_file`. -/
theorem makeSwapFile_cases {cwd : Nat} {pid : Int} {o : Option Nat} (h : makeSwapFile fs cwd pid = .ok (fs', o)) :
    (o = none ∧ create fs cwd (swapname pid) .file 0 0 = .ok (fs', none)) ∨
    ∃ fs₁ ip, create fs cwd (swapname pid) .file 0 0 = .ok (fs₁, some ip) ∧
      ((o = none ∧ fs' = iput fs₁ ip) ∨
        ∃ fs₂ f, filealloc fs₁ = (fs₂, some f) ∧ o = some f ∧ fs' = { fs₂ with ftable := Function.update fs₂.ftable f (swapFileOn ip) }) := by
  obtain ⟨⟨fs₁, o₁⟩, hc, h⟩ := bind_ok h
  cases o₁ with
  | none =>
    obtain ⟨rfl, rfl⟩ := Prod.mk.inj (Except.ok.inj h)
    exact Or.inl ⟨rfl, hc⟩
  | some ip =>
    refine Or.inr ⟨fs₁, ip, hc, ?_⟩
    dsimp only at h
    split at h
    · rename_i fs₂ ha
      obtain rfl := filealloc_none ha
      obtain ⟨rfl, rfl⟩ := Prod.mk.inj (Except.ok.inj h)
      exact Or.inl ⟨rfl, rfl⟩
    · rename_i fs₂ f ha
      obtain ⟨rfl, rfl⟩ := Prod.mk.inj (Except.ok.inj h)
      exact Or.inr ⟨fs₂, f, ha, rfl, rfl⟩

/-- `create` touches no file. -/
theorem create_ftable {cwd : Nat} {type : FileType} {major minor : Int} {o : Option Nat} (htype : type ≠ .free)
    (h : create fs cwd path type major minor = .ok (fs', o)) : fs'.ftable = fs.ftable :=
  FsRun.ftable (create_run (O := fun _ => False) (W := fun _ => False) (r := 0) (q := 0) htype h)

/-- `create_swap_file` opens inode `ip`: `create` gives it, and a file is free. -/
def opensSwap (fs : Fs) (cwd : Nat) (pid : Int) (ip : Nat) : Prop :=
  ∃ fs₁, create fs cwd (swapname pid) .file 0 0 = .ok (fs₁, some ip) ∧ (filealloc fs₁).2.isSome

theorem makeSwapFile_run {cwd : Nat} {pid : Int} {o : Option Nat} (h : makeSwapFile fs cwd pid = .ok (fs', o))
    (hO : ∀ ip, opensSwap fs cwd pid ip → O ip) (hF : ∀ f, (fs.ftable f).ref = 0 → F f) :
    FsRun (Within O W F) ⟨fs, r, q⟩ ⟨fs', r, slot o + q⟩ := by
  rcases makeSwapFile_cases h with ⟨rfl, hc⟩ | ⟨fs₁, ip, hc, hend⟩
  · exact (create_run (by decide) hc).to (zero_add r) (zero_add q).symm
  have hcreate := create_run (O := O) (W := W) (F := F) (r := r) (q := q) (by decide) hc
  rcases hend with ⟨rfl, rfl⟩ | ⟨fs₂, f, ha, rfl, rfl⟩
  · exact (hcreate.snoc .put trivial).to rfl (zero_add q).symm
  · obtain ⟨hz, -, -⟩ := filealloc_some ha
    rw [create_ftable (by decide) hc] at hz
    exact hcreate.snoc (.install ha (show (swapFileOn ip).ref = 1 from rfl) (Or.inl rfl) (create_valid hc))
      ⟨hO ip ⟨fs₁, hc, by rw [ha]; rfl⟩, hF f hz⟩

theorem files_congr (hfd : p'.ofile = p.ofile) (hswap : p'.swapFile = p.swapFile) : p'.files = p.files := by
  rw [Proc.files, hfd, hswap, Proc.files]

/-- An eviction would take a dirty page out and have to make the swap file for it. -/
def Proc.makesSwap (p : Proc) : Prop := p.swapFile = none ∧ ∃ i e pte, Victim p i e pte ∧ e.isDirty = true

section Pages

variable {m m₁ m' : Machine}

/-- Opening the swap file, which only happens when there is none. -/
theorem OpenSwap.run (h : OpenSwap m p m' f)
    (hO : p.swapFile = none → ∀ ip, opensSwap m.fs (p.cwd.getD 0) p.pid ip → O ip)
    (hF : ∀ f, (m.fs.ftable f).ref = 0 → F f) :
    FsRun (Within O W F) ⟨m.fs, r, p.files + q⟩ ⟨m'.fs, r, ({ p with swapFile := some f } : Proc).files + q⟩ := by
  rcases h with ⟨hsome, rfl⟩ | ⟨hnone, fs, hmk, rfl⟩
  · exact (FsRun.refl _ _).to rfl (by rw [← hsome])
  · refine (makeSwapFile_run hmk (hO hnone) hF).to rfl ?_
    rw [Proc.files, Proc.files, hnone, slot_none, slot_some]
    abel

/-- The inode the swap file is open on, once it is. -/
theorem OpenSwap.inode (h : OpenSwap m p m' f) : (p.swapFile = some f ∧ (m'.fs.ftable f).ip = (m.fs.ftable f).ip) ∨
    (p.swapFile = none ∧ opensSwap m.fs (p.cwd.getD 0) p.pid (m'.fs.ftable f).ip) := by
  rcases h with ⟨hsome, rfl⟩ | ⟨hnone, fs, hmk, rfl⟩
  · exact Or.inl ⟨hsome, rfl⟩
  · rcases makeSwapFile_cases hmk with ⟨ho, -⟩ | ⟨fs₁, ip, hc, ⟨ho, -⟩ | ⟨fs₂, g, ha, ho, rfl⟩⟩
    · nomatch ho
    · nomatch ho
    · obtain rfl := Option.some.inj ho
      refine Or.inr ⟨hnone, fs₁, ?_, by rw [ha]; rfl⟩
      change _ = Except.ok (fs₁, some (Function.update fs₂.ftable f (swapFileOn ip) f).ip)
      rw [Function.update_self]
      exact hc

/-- A write to the swap file. -/
theorem SwapWrite.run {pa : Pa} {s : Nat} {done : Bool} (h : SwapWrite m f pa s m' done) (hW : W (m.fs.ftable f).ip) :
    FsRun (Within O W F) ⟨m.fs, r, q⟩ ⟨m'.fs, r, q⟩ := by
  obtain ⟨fs₁, fs₂, tot, hl, hw, rfl, -⟩ := h
  exact (FsRun.single (.lock hl) trivial).snoc (.write hw) hW

/-- A failed eviction changes at most the swap file of the process. -/
theorem evictFail_run (h : EvictFail m p m' p')
    (hO : p.makesSwap → ∀ ip, opensSwap m.fs (p.cwd.getD 0) p.pid ip → O ip ∧ W ip)
    (hW : ∀ f, p.swapFile = some f → W (m.fs.ftable f).ip) (hF : ∀ f, (m.fs.ftable f).ref = 0 → F f) :
    FsRun (Within O W F) ⟨m.fs, r, p.files + q⟩ ⟨m'.fs, r, p'.files + q⟩ := by
  cases h with
  | victim => exact FsRun.refl _ _
  | create hv hd hnone hmk =>
    exact (makeSwapFile_run hmk (fun ip hc => (hO ⟨hnone, _, _, _, hv, hd⟩ ip hc).1) hF).to rfl (zero_add _)
  | write hv hd _ hopen hw =>
    refine (hopen.run (fun hnone ip hc => (hO ⟨hnone, _, _, _, hv, hd⟩ ip hc).1) hF).trans (hw.run ?_)
    rcases hopen.inode with ⟨hsome, hip⟩ | ⟨hnone, hc⟩
    · rw [hip]
      exact hW _ hsome
    · exact (hO ⟨hnone, _, _, _, hv, hd⟩ _ hc).2

/-- Fetching a page at most locks the inode it is read from. -/
theorem Fetched.run {i va : Nat} {src : Source} {page : Page} (h : Fetched m p i va src m' p' page) :
    FsRun (Within O W F) ⟨m.fs, r, q⟩ ⟨m'.fs, r, q⟩ ∧ p'.files = p.files := by
  cases h with
  | zero => exact ⟨FsRun.refl _ _, rfl⟩
  | exec => exact ⟨FsRun.refl _ _, rfl⟩
  | execRead _ hl => exact ⟨FsRun.single (.lock hl) trivial, rfl⟩
  | swap _ _ hl =>
    refine ⟨FsRun.single (.lock hl) trivial, ?_⟩
    unfold freeSwapSlot
    split
    · rfl
    · split <;> rfl

theorem freeSwapSlot_swapFile (p : Proc) (slot : Int) : (freeSwapSlot p slot).swapFile = p.swapFile := by
  unfold freeSwapSlot
  split
  · rfl
  · split <;> rfl

theorem Fetched.swapFile {i va : Nat} {src : Source} {page : Page} (h : Fetched m p i va src m' p' page) : p'.swapFile = p.swapFile := by
  cases h with
  | zero => rfl
  | exec => rfl
  | execRead => rfl
  | swap => exact freeSwapSlot_swapFile p _

/-- A page event leaves the swap file of the process, or makes it and writes to it. -/
theorem PageStep.swapFile {ev : PageEvent} (h : PageStep (m, p) ev (m', p')) : p'.swapFile = p.swapFile ∨
    (ev.swapsOut ∧ p.makesSwap ∧ ∃ f m₁ pa slot m₂ done, p'.swapFile = some f ∧ OpenSwap m p m₁ f ∧ SwapWrite m₁ f pa slot m₂ done ∧
      m'.fs = m₂.fs) := by
  cases h with
  | kill => exact Or.inl rfl
  | track => exact Or.inl rfl
  | evictClean hx =>
    rw [hx.proc]
    exact Or.inl rfl
  | evictDirty hx =>
    rw [hx.proc]
    rcases hx.opened with ⟨hsome, -⟩ | ⟨hnone, -⟩
    · exact Or.inl hsome.symm
    · exact Or.inr ⟨trivial, ⟨hnone, _, _, _, hx.victim, hx.dirty⟩, _, _, _, _, _, _, rfl, hx.opened, hx.written, (kfree_env hx.freed).fs⟩
  | evictFail hx =>
    cases hx with
    | victim => exact Or.inl rfl
    | create => exact Or.inl rfl
    | write hv hd _ hopen hw =>
      rcases hopen with ⟨hsome, -⟩ | ⟨hnone, hmk⟩
      · exact Or.inl hsome.symm
      · exact Or.inr ⟨trivial, ⟨hnone, _, _, _, hv, hd⟩, _, _, _, _, _, _, rfl, Or.inr ⟨hnone, hmk⟩, hw, rfl⟩
  | load _ _ _ _ _ hx =>
    rw [hx.proc]
    exact Or.inl hx.fetched.swapFile
  | loadFail _ _ _ hx =>
    cases hx with
    | read => exact Or.inl rfl
    | map _ hf => exact Or.inl hf.swapFile
  | firstWrite => exact Or.inl rfl
  | store => exact Or.inl rfl
  | copy => exact Or.inl rfl

/-- Every page event is a run of file system events. -/
theorem PageStep.refs {ev : PageEvent} (h : PageStep (m, p) ev (m', p'))
    (hO : ev.swapsOut → p.makesSwap → ∀ ip, opensSwap m.fs (p.cwd.getD 0) p.pid ip → O ip ∧ W ip)
    (hW : ev.swapsOut → ∀ f, p.swapFile = some f → W (m.fs.ftable f).ip) (hF : ∀ f, (m.fs.ftable f).ref = 0 → F f) :
    FsRun (Within O W F) ⟨m.fs, r, p.files + q⟩ ⟨m'.fs, r, p'.files + q⟩ := by
  cases h with
  | kill => exact FsRun.refl _ _
  | track => exact FsRun.refl _ _
  | evictClean hx =>
    rw [(kfree_env hx.freed).fs, hx.proc]
    exact FsRun.refl _ _
  | evictDirty hx =>
    rename_i m₁ m₂ i slot f e pte
    have hO : p.swapFile = none → _ := fun hnone => hO trivial ⟨hnone, _, _, _, hx.victim, hx.dirty⟩
    have hrun := (hx.opened.run (r := r) (q := q) (W := W) (fun hnone ip hc => (hO hnone ip hc).1) hF).trans (hx.written.run ?_)
    · rw [(kfree_env hx.freed).fs, hx.proc]
      exact hrun
    · rcases hx.opened.inode with ⟨hsome, hip⟩ | ⟨hnone, hc⟩
      · rw [hip]
        exact hW trivial _ hsome
      · exact (hO hnone _ hc).2
  | evictFail hx => exact evictFail_run hx (hO trivial) (hW trivial) hF
  | load _ _ _ _ _ hx =>
    rename_i m₁ m₂ p₂ i va src mem page pt e _ _ _ _ _
    obtain ⟨hrun, hfiles⟩ := hx.fetched.run (r := r) (q := p.files + q) (O := O) (W := W) (F := F)
    have hfs : m'.fs = m₂.fs := (mappages_env hx.mapped).fs
    rw [hfs, hx.proc, ← (kalloc_env hx.alloc).fs, ← hfiles]
    rw [← hfiles] at hrun
    exact hrun
  | loadFail _ _ _ hx =>
    cases hx with
    | read hk _ _ _ hl _ hf =>
      rw [(kfree_env hf).fs, ← (kalloc_env hk).fs]
      exact FsRun.single (.lock hl) trivial
    | map hk hfetch hmap hf =>
      rename_i m₁ m₂ m₃ p₂ page pt mem
      obtain ⟨hrun, hfiles⟩ := hfetch.run (r := r) (q := p.files + q) (O := O) (W := W) (F := F)
      have hfs : m₃.fs = m₂.fs := (mappages_env hmap).fs
      rw [(kfree_env hf).fs, hfs, ← (kalloc_env hk).fs, show ({ p₂ with pagetable := pt } : Proc).kill.files = p.files from hfiles]
      exact hrun
  | firstWrite => exact FsRun.refl _ _
  | store => exact FsRun.refl _ _
  | copy => exact FsRun.refl _ _

end Pages

end Xv6SnifferBakery.Kernel
