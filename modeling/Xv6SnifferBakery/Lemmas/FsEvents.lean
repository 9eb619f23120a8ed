import Xv6SnifferBakery.Lemmas.Inodes
import Xv6SnifferBakery.Lib.Counted
import Xv6SnifferBakery.Lib.Transition

/-!
# File system events

What happens to the inodes and to the two tables, as a transition system: every call on the file system is a run of these events.
The state has, with the file system, the references there are: those to inodes that are held outside `ftable` (by a process, or by
an operation that is running), and those to files.
-/

namespace Xv6SnifferBakery.Kernel

open Lib

/-- The file system, the references to inodes outside `ftable`, and the references to files. -/
structure Refs where
  fs : Fs
  inodes : Multiset Nat
  files : Multiset Nat

/-- The events. -/
inductive FsEvent where
  | get (i : Nat)
  | dup (i : Nat)
  | put (i : Nat)
  | lock (i : Nat)
  | alloc (i : Nat)
  | node (i : Nat)
  | entry (dp : Nat)
  | trunc (i : Nat)
  | write (i : Nat)
  | reserve (f : Nat)
  | install (f i : Nat)
  | share (f : Nat)
  | close (f : Nat)

/-- A change of the fields of an inode that are neither its type nor its content nor its blocks. -/
def Inode.KeepsContent (g : Inode → Inode) : Prop :=
  ∀ ip, (g ip).type = ip.type ∧ (g ip).data = ip.data ∧ (g ip).size = ip.size ∧ (g ip).addrs = ip.addrs ∧ (g ip).indirect = ip.indirect

/-- One event. -/
inductive FsStep : Refs → FsEvent → Refs → Prop where
  | get {fs fs' : Fs} {r q : Multiset Nat} {i : Nat} (h : iget fs i = .ok fs') : FsStep ⟨fs, r, q⟩ (.get i) ⟨fs', {i} + r, q⟩
  | dup {fs : Fs} {r q : Multiset Nat} (i : Nat) : FsStep ⟨fs, r, q⟩ (.dup i) ⟨idup fs i, {i} + r, q⟩
  | put {fs : Fs} {r q : Multiset Nat} {i : Nat} : FsStep ⟨fs, {i} + r, q⟩ (.put i) ⟨iput fs i, r, q⟩
  | lock {fs fs' : Fs} {r q : Multiset Nat} {i : Nat} (h : ilock fs i = .ok fs') : FsStep ⟨fs, r, q⟩ (.lock i) ⟨fs', r, q⟩
  | alloc {fs fs' : Fs} {r q : Multiset Nat} {i : Nat} {type : FileType} (free : (fs.inode i).type = .free) (ne : type ≠ .free)
      (h : iget (fs.setInode i (Inode.empty type)) i = .ok fs') : FsStep ⟨fs, r, q⟩ (.alloc i) ⟨fs', {i} + r, q⟩
  | node {fs : Fs} {r q : Multiset Nat} {g : Inode → Inode} (i : Nat) (keeps : Inode.KeepsContent g) :
      FsStep ⟨fs, r, q⟩ (.node i) ⟨fs.modInode i g, r, q⟩
  | entry {fs fs' : Fs} {r q : Multiset Nat} {dp k : Nat} {de : Dirent} {b : Bool} (dir : (fs.inode dp).type = .dir)
      (h : writeDirent fs dp k de = .ok (fs', b)) : FsStep ⟨fs, r, q⟩ (.entry dp) ⟨fs', r, q⟩
  | trunc {fs : Fs} {r q : Multiset Nat} (i : Nat) : FsStep ⟨fs, r, q⟩ (.trunc i) ⟨itrunc fs i, r, q⟩
  | write {fs fs' : Fs} {r q : Multiset Nat} {i off n : Nat} {src : Nat → Byte} {tot : Option Nat}
      (h : writei fs i src off n = .ok (fs', tot)) : FsStep ⟨fs, r, q⟩ (.write i) ⟨fs', r, q⟩
  | reserve {fs fs' : Fs} {r q : Multiset Nat} {f : Nat} (h : filealloc fs = (fs', some f)) :
      FsStep ⟨fs, r, q⟩ (.reserve f) ⟨fs', r, {f} + q⟩
  | install {fs fs' : Fs} {r q : Multiset Nat} {f : Nat} {file : File} (h : filealloc fs = (fs', some f)) (ref : file.ref = 1)
      (type : file.type = .inode ∨ file.type = .device) (valid : fs.valid file.ip = true) :
      FsStep ⟨fs, {file.ip} + r, q⟩ (.install f file.ip) ⟨{ fs' with ftable := Function.update fs'.ftable f file }, r, {f} + q⟩
  | share {fs fs' : Fs} {r q : Multiset Nat} {f : Nat} (h : filedup fs f = .ok fs') : FsStep ⟨fs, r, q⟩ (.share f) ⟨fs', r, {f} + q⟩
  | close {fs fs' : Fs} {r q : Multiset Nat} {f : Nat} (h : fileclose fs f = .ok fs') :
      FsStep ⟨fs, r, {f} + q⟩ (.close f) ⟨fs', r, q⟩

/-! ## The references are counted -/

/-- The references of `ftable` to inodes. -/
def Fs.opened (fs : Fs) : Multiset Nat := content nFile (fun f => (fs.ftable f).opens)

/-- Both tables count their references; `lost` are counted references to inodes that nobody holds any more. An unused file is none,
and a file number is below `nFile`. -/
structure Counted (lost : Multiset Nat) (x : Refs) : Prop where
  inodes : Balanced x.fs.ref (x.inodes + x.fs.opened + lost)
  files : Balanced (fun f => (x.fs.ftable f).ref) x.files
  unused : ∀ f, (x.fs.ftable f).ref = 0 → (x.fs.ftable f).type = .none
  bound : ∀ f, nFile ≤ f → (x.fs.ftable f).ref = 0

variable {fs fs' : Fs} {r q lost : Multiset Nat} {x y : Refs} {i f : Nat} {ev : FsEvent}

theorem opened_congr (h : fs'.ftable = fs.ftable) : fs'.opened = fs.opened := by
  rw [Fs.opened, h, Fs.opened]

/-- Writing a file replaces the inode it is open on. -/
theorem opened_update (file : File) (hf : f < nFile) :
    ({ fs with ftable := Function.update fs.ftable f file } : Fs).opened + slot (fs.ftable f).opens = fs.opened + slot file.opens := by
  have h := content_update nFile (fun g => (fs.ftable g).opens) f file.opens hf
  have hup : (fun g => (Function.update fs.ftable f file g).opens) = Function.update (fun g => (fs.ftable g).opens) f file.opens := by
    funext g
    by_cases hg : g = f
    · rw [hg, Function.update_self, Function.update_self]
    · rw [Function.update_of_ne hg, Function.update_of_ne hg]
  rw [← hup] at h
  exact h

theorem mem_opened : i ∈ fs.opened ↔ ∃ f < nFile, (fs.ftable f).opens = some i := by
  rw [Fs.opened, mem_content]

/-- The counts of the files after one of them was written. -/
theorem update_fileRef (fs : Fs) (f : Nat) (file : File) :
    (fun g => (Function.update fs.ftable f file g).ref) = Function.update (fun g => (fs.ftable g).ref) f file.ref := by
  funext g
  by_cases hg : g = f
  · rw [hg, Function.update_self, Function.update_self]
  · rw [Function.update_of_ne hg, Function.update_of_ne hg]

namespace Counted

/-- An event that changes inodes only. -/
theorem edit (h : Counted lost ⟨fs, r, q⟩) (href : fs'.ref = fs.ref) (hft : fs'.ftable = fs.ftable) : Counted lost ⟨fs', r, q⟩ := by
  refine ⟨?_, ?_, ?_, ?_⟩
  · rw [href, opened_congr hft]
    exact h.inodes
  · rw [hft]
    exact h.files
  · rw [hft]
    exact h.unused
  · rw [hft]
    exact h.bound

/-- An event that takes a reference to an inode. -/
theorem take (h : Counted lost ⟨fs, r, q⟩) (href : fs'.ref = Function.update fs.ref i (fs.ref i + 1)) (hft : fs'.ftable = fs.ftable) :
    Counted lost ⟨fs', {i} + r, q⟩ := by
  refine ⟨?_, ?_, ?_, ?_⟩
  · rw [href, opened_congr hft]
    refine (h.inodes.take i).congr ?_
    change {i} + r + fs.opened + lost = {i} + (r + fs.opened + lost)
    abel
  · rw [hft]
    exact h.files
  · rw [hft]
    exact h.unused
  · rw [hft]
    exact h.bound

theorem put (h : Counted lost ⟨fs, {i} + r, q⟩) : Counted lost ⟨iput fs i, r, q⟩ := by
  refine ⟨?_, ?_, ?_, ?_⟩
  · rw [iput_ref, opened_congr (iput_ftable fs i)]
    refine Balanced.give (h.inodes.congr ?_)
    change {i} + (r + fs.opened + lost) = {i} + r + fs.opened + lost
    abel
  · rw [iput_ftable]
    exact h.files
  · rw [iput_ftable]
    exact h.unused
  · rw [iput_ftable]
    exact h.bound

/-- An event that writes one file. -/
theorem file {r' q' : Multiset Nat} {file : File} (h : Counted lost ⟨fs, r, q⟩) (hf : f < nFile)
    (hin : r' + slot file.opens = r + slot (fs.ftable f).opens)
    (hq : Balanced (Function.update (fun g => (fs.ftable g).ref) f file.ref) q') (hnone : file.ref = 0 → file.type = .none) :
    Counted lost ⟨{ fs with ftable := Function.update fs.ftable f file }, r', q'⟩ := by
  refine ⟨?_, ?_, ?_, ?_⟩
  · refine h.inodes.congr ?_
    have hup : ({ fs with ftable := Function.update fs.ftable f file } : Fs).opened + slot (fs.ftable f).opens = _ := opened_update file hf
    refine congrArg (· + lost) (add_right_cancel (b := slot (fs.ftable f).opens + slot file.opens) ?_)
    calc r' + ({ fs with ftable := Function.update fs.ftable f file } : Fs).opened + (slot (fs.ftable f).opens + slot file.opens)
        = (r' + slot file.opens) + (({ fs with ftable := Function.update fs.ftable f file } : Fs).opened + slot (fs.ftable f).opens) := by
          abel
      _ = r + fs.opened + (slot (fs.ftable f).opens + slot file.opens) := by
          rw [hin, hup]
          abel
  · change Balanced (fun g => (Function.update fs.ftable f file g).ref) q'
    rw [update_fileRef]
    exact hq
  · intro g hg
    change (Function.update fs.ftable f file g).ref = 0 at hg
    change (Function.update fs.ftable f file g).type = .none
    by_cases hgf : g = f
    · rw [hgf, Function.update_self] at hg ⊢
      exact hnone hg
    · rw [Function.update_of_ne hgf] at hg ⊢
      exact h.unused g hg
  · intro g hg
    change (Function.update fs.ftable f file g).ref = 0
    rw [Function.update_of_ne (by omega)]
    exact h.bound g hg

/-- A file that is in use has a number below the bound. -/
theorem lt (h : Counted lost x) (hpos : 0 < (x.fs.ftable f).ref) : f < nFile := by
  by_contra hge
  have hz := h.bound f (by omega)
  omega

/-- An unused file is open on nothing. -/
theorem opens_none (h : Counted lost x) (hz : (x.fs.ftable f).ref = 0 ∨ (x.fs.ftable f).type = .none) : (x.fs.ftable f).opens = none := by
  rw [File.opens, if_neg]
  rintro ⟨hpos, htype⟩
  have hnone : (x.fs.ftable f).type = .none := hz.elim (h.unused f) id
  rcases htype with ht | ht <;> rw [hnone] at ht <;> cases ht

end Counted

/-- A closed file, unless it was the last close, is open on the same inode. -/
theorem closed_opens {file : File} (h : 1 < file.ref) : file.closed.opens = file.opens := by
  rw [File.closed, if_pos h, File.opens, File.opens]
  have h1 : 0 < file.ref - 1 := by omega
  have h2 : 0 < file.ref := by omega
  simp only [h1, h2, true_and]

theorem closed_last {file : File} (h : file.ref = 1) : file.closed = { file with ref := 0, type := .none } := by
  rw [File.closed, if_neg (by omega)]

theorem closed_ref (file : File) : file.closed.ref = file.ref - 1 := by
  unfold File.closed
  split
  · rfl
  · simp only
    omega

/-- Nobody frees an inode that a file is open on, or one of the lost: whoever gives it up does not hold the only reference. -/
theorem Counted.not_frees (h : Counted lost ⟨fs, {i} + r, q⟩) (hi : i ∈ fs.opened + lost) : ¬freesInode fs i := by
  rintro ⟨hone, -⟩
  have hcount : fs.ref i = ({i} + r + fs.opened + lost).count i := h.inodes i
  have hpos := Multiset.count_pos.mpr hi
  rw [add_assoc, Multiset.count_add, Multiset.count_add, Multiset.count_singleton_self] at hcount
  omega

/-- Closing a file. -/
theorem Counted.close (h : Counted lost ⟨fs, r, {f} + q⟩) (hpos : 0 < (fs.ftable f).ref) {r' : Multiset Nat}
    (hin : r' + slot (fs.ftable f).closed.opens = r + slot (fs.ftable f).opens) :
    Counted lost ⟨{ fs with ftable := Function.update fs.ftable f (fs.ftable f).closed }, r', q⟩ := by
  refine h.file (h.lt hpos) hin ?_ ?_
  · rw [closed_ref]
    exact h.files.give
  · intro hz
    rw [closed_ref] at hz
    rw [closed_last (by omega)]

/-- At the last close the reference of the file to its inode goes to whoever closes it. -/
theorem Counted.closing (h : Counted lost ⟨fs, r, {f} + q⟩) (hone : (fs.ftable f).ref = 1) (ho : (fs.ftable f).opens = some i) :
    Counted lost ⟨{ fs with ftable := Function.update fs.ftable f (fs.ftable f).closed }, {i} + r, q⟩ := by
  refine h.close (by omega) ?_
  rw [ho, closed_last hone]
  change {i} + r + 0 = r + {i}
  abel

/-- Every event keeps the counts. -/
theorem FsStep.counted (hx : Counted lost x) (h : FsStep x ev y) : Counted lost y := by
  cases h with
  | get h =>
    obtain ⟨href, -, hft, -⟩ := iget_ok h
    exact hx.take href hft
  | dup i => exact hx.take rfl rfl
  | put => exact hx.put
  | lock h =>
    obtain ⟨href, -, hft, -⟩ := ilock_ok h
    exact hx.edit href hft
  | alloc _ _ h =>
    obtain ⟨href, -, hft, -⟩ := iget_ok h
    exact hx.take href hft
  | node i => exact hx.edit rfl rfl
  | entry _ h => exact hx.edit (writeDirent_edits h).ref (writeDirent_edits h).ftable
  | trunc i => exact hx.edit (itrunc_edits _ i).ref (itrunc_edits _ i).ftable
  | write h => exact hx.edit (writei_edits h).ref (writei_edits h).ftable
  | reserve h =>
    rename_i fs₀ fs₁ r q f
    obtain ⟨hz, hlt, rfl⟩ := filealloc_some h
    have hnone := hx.unused _ hz
    refine hx.file hlt ?_ ?_ (fun h1 => by cases h1)
    · rw [hx.opens_none (Or.inl hz)]
      rw [File.opens, if_neg]
      rintro ⟨-, ht⟩
      rcases ht with ht | ht <;> rw [hnone] at ht <;> cases ht
    · have htake := hx.files.take f
      rwa [hz] at htake
  | install h href htype =>
    rename_i fs₀ fs₁ r q f file hvalid
    obtain ⟨hz, hlt, rfl⟩ := filealloc_some h
    simp only [Function.update_idem]
    refine hx.file hlt ?_ ?_ (fun h1 => by omega)
    · rw [hx.opens_none (Or.inl hz), File.opens, if_pos ⟨by omega, htype⟩]
      change r + {file.ip} = {file.ip} + r + 0
      abel
    · have htake := hx.files.take f
      rw [hz] at htake
      rwa [href]
  | share h =>
    obtain ⟨hpos, rfl⟩ := filedup_ok h
    refine hx.file (hx.lt hpos) ?_ (hx.files.take _) (fun h1 => by cases h1)
    have hsucc : ∀ n : Nat, 0 < n + 1 := Nat.succ_pos
    simp only [File.opens, hsucc, true_and]
    rw [if_congr (and_iff_right hpos) rfl rfl]
  | close h =>
    obtain ⟨hpos, ⟨hmore, rfl⟩ | ⟨hone, hopens, rfl⟩ | ⟨hone, hopens, rfl⟩⟩ := fileclose_ok h
    · exact hx.close hpos (by rw [closed_opens hmore])
    · refine hx.close hpos ?_
      rw [hopens, closed_last hone]
      rfl
    · exact Counted.put (hx.closing hone hopens)

/-- A reference that no process took is lost. -/
theorem Counted.lose {lost' : Multiset Nat} (h : Counted lost ⟨fs, r + lost', q⟩) : Counted (lost + lost') ⟨fs, r, q⟩ := by
  refine ⟨h.inodes.congr ?_, h.files, h.unused, h.bound⟩
  change r + fs.opened + (lost + lost') = r + lost' + fs.opened + lost
  abel

end Xv6SnifferBakery.Kernel
