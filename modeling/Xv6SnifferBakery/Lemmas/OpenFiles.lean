import Xv6SnifferBakery.Lemmas.FsCalls

/-!
# Files that nobody else has open

What one event does to the files that are open and to the inodes they are open on. From it: an inode that only one file is open on
stays so, and its bytes stay, as long as no event opens it, writes it, or takes or closes the file.
-/

namespace Xv6SnifferBakery.Kernel

open Lib

variable {fs fs' : Fs} {r q lost : Multiset Nat} {x y : Refs} {i f g : Nat} {ev : FsEvent} {O W F : Nat → Prop}

/-! ## One event -/

theorem update_opens {file : File} (h : (Function.update fs.ftable f file g).opens = some i) :
    (g = f ∧ file.opens = some i) ∨ (g ≠ f ∧ (fs.ftable g).opens = some i) := by
  by_cases hg : g = f
  · rw [hg, Function.update_self] at h
    exact Or.inl ⟨hg, h⟩
  · rw [Function.update_of_ne hg] at h
    exact Or.inr ⟨hg, h⟩

/-- A file that is open after an event was open before it, unless the event opened it, on an inode that had been read. -/
theorem FsStep.opens (hx : Counted lost x) (h : FsStep x ev y) (hg : (y.fs.ftable g).opens = some i) :
    (x.fs.ftable g).opens = some i ∨ (ev = .install g i ∧ x.fs.valid i = true ∧ y.fs.inode = x.fs.inode) := by
  cases h with
  | get h =>
    rw [(iget_ok h).2.2.1] at hg
    exact Or.inl hg
  | dup => exact Or.inl hg
  | put =>
    rw [iput_ftable] at hg
    exact Or.inl hg
  | lock h =>
    rw [(ilock_ok h).2.2.1] at hg
    exact Or.inl hg
  | alloc _ _ h =>
    rw [(iget_ok h).2.2.1] at hg
    exact Or.inl hg
  | node => exact Or.inl hg
  | entry _ h =>
    rw [(writeDirent_edits h).ftable] at hg
    exact Or.inl hg
  | trunc j =>
    rw [(itrunc_edits _ j).ftable] at hg
    exact Or.inl hg
  | write h =>
    rw [(writei_edits h).ftable] at hg
    exact Or.inl hg
  | reserve h =>
    obtain ⟨hz, -, rfl⟩ := filealloc_some h
    rcases update_opens hg with ⟨rfl, ho⟩ | ⟨-, ho⟩
    · -- a new file is open on nothing yet
      have hnone := hx.unused g hz
      unfold File.opens at ho
      split at ho
      · rename_i hc
        rw [show (_ : File).type = FdType.none from hnone] at hc
        rcases hc.2 with ht | ht <;> cases ht
      · cases ho
    · exact Or.inl ho
  | install h href htype hvalid =>
    obtain ⟨-, -, rfl⟩ := filealloc_some h
    simp only [Function.update_idem] at hg
    rcases update_opens hg with ⟨rfl, ho⟩ | ⟨-, ho⟩
    · unfold File.opens at ho
      split at ho
      · obtain rfl := Option.some.inj ho
        exact Or.inr ⟨rfl, hvalid, rfl⟩
      · cases ho
    · exact Or.inl ho
  | share h =>
    obtain ⟨hpos, rfl⟩ := filedup_ok h
    rcases update_opens hg with ⟨rfl, ho⟩ | ⟨-, ho⟩
    · refine Or.inl ?_
      simp only [File.opens, Nat.succ_pos, hpos, true_and] at ho ⊢
      exact ho
    · exact Or.inl ho
  | close h =>
    rename_i fs₁ fs₂ r q f
    have hclosed : (Function.update fs₁.ftable f (fs₁.ftable f).closed g).opens = some i → (fs₁.ftable g).opens = some i := by
      intro hg
      rcases update_opens hg with ⟨rfl, ho⟩ | ⟨-, ho⟩
      · by_cases hmore : 1 < (fs₁.ftable g).ref
        · rwa [closed_opens hmore] at ho
        · rw [File.closed, if_neg hmore] at ho
          cases ho
      · exact ho
    obtain ⟨-, ⟨-, rfl⟩ | ⟨-, -, rfl⟩ | ⟨-, -, rfl⟩⟩ := fileclose_ok h
    · exact Or.inl (hclosed hg)
    · exact Or.inl (hclosed hg)
    · rw [iput_ftable] at hg
      exact Or.inl (hclosed hg)

/-- The events that do not take or close a file leave it. -/
theorem FsStep.file (h : FsStep x ev y) (hG : Within O W (· ≠ f) ev) : y.fs.ftable f = x.fs.ftable f := by
  cases h with
  | get h => rw [(iget_ok h).2.2.1]
  | dup => rfl
  | put => rw [iput_ftable]
  | lock h => rw [(ilock_ok h).2.2.1]
  | alloc _ _ h => exact congrFun (iget_ok h).2.2.1 f
  | node => rfl
  | entry _ h => rw [(writeDirent_edits h).ftable]
  | trunc j => rw [(itrunc_edits _ j).ftable]
  | write h => rw [(writei_edits h).ftable]
  | reserve h =>
    obtain ⟨-, -, rfl⟩ := filealloc_some h
    exact Function.update_of_ne (Ne.symm hG) ..
  | install h =>
    obtain ⟨-, -, rfl⟩ := filealloc_some h
    simp only [Function.update_idem]
    exact Function.update_of_ne (Ne.symm hG.2) ..
  | share h =>
    obtain ⟨-, rfl⟩ := filedup_ok h
    exact Function.update_of_ne (Ne.symm hG) ..
  | close h =>
    obtain ⟨-, ⟨-, rfl⟩ | ⟨-, -, rfl⟩ | ⟨-, -, rfl⟩⟩ := fileclose_ok h
    · exact Function.update_of_ne (Ne.symm hG) ..
    · exact Function.update_of_ne (Ne.symm hG) ..
    · rw [iput_ftable]
      exact Function.update_of_ne (Ne.symm hG) ..

/-- The content of an inode is what it was. -/
def Inode.SameBytes (ip ip' : Inode) : Prop := ip'.data = ip.data ∧ ip'.size = ip.size

theorem Inode.SameBytes.refl (ip : Inode) : ip.SameBytes ip := ⟨rfl, rfl⟩

theorem Inode.SameBytes.trans {a b c : Inode} (h : a.SameBytes b) (h' : b.SameBytes c) : a.SameBytes c :=
  ⟨h'.1.trans h.1, h'.2.trans h.2⟩

/-- An inode that a file is open on, or one of the lost, keeps its type under every event, and its bytes under those that do not write or
truncate it. -/
theorem FsStep.keeps (hx : Counted lost x) (h : FsStep x ev y) (hi : i ∈ y.fs.opened + lost) (hfree : (x.fs.inode i).type ≠ .free) :
    (y.fs.inode i).type = (x.fs.inode i).type ∧
      (ev ≠ .trunc i → ev ≠ .write i → (x.fs.inode i).type ≠ .dir → (x.fs.inode i).SameBytes (y.fs.inode i)) := by
  -- most events do not write the inode at all
  have hsame : y.fs.inode i = x.fs.inode i → (y.fs.inode i).type = (x.fs.inode i).type ∧
      (ev ≠ .trunc i → ev ≠ .write i → (x.fs.inode i).type ≠ .dir → (x.fs.inode i).SameBytes (y.fs.inode i)) := by
    intro he
    rw [he]
    exact ⟨rfl, fun _ _ _ => .refl _⟩
  -- an `iput` by someone who is not the only holder
  have hput : ∀ {fs : Fs} {j : Nat} {r q : Multiset Nat}, Counted lost ⟨fs, {j} + r, q⟩ → i ∈ fs.opened + lost →
      (iput fs j).inode i = fs.inode i := by
    intro fs j r q hc hi
    by_cases hij : i = j
    · obtain rfl := hij
      rw [iput_of_not (hc.not_frees hi)]
    · exact iput_inode_of_ne fs hij
  cases h with
  | get h => exact hsame (by rw [(iget_ok h).2.1])
  | dup => exact hsame rfl
  | put =>
    refine hsame (hput hx ?_)
    rwa [opened_congr (iput_ftable _ _)] at hi
  | lock h => exact hsame (by rw [(ilock_ok h).2.1])
  | alloc hnew _ h =>
    rename_i fs₁ fs₂ r q j type
    refine hsame ?_
    rw [(iget_ok h).2.1, Fs.setInode_inode, if_neg]
    rintro rfl
    exact hfree hnew
  | node j hkeep =>
    rename_i fs₁ r q g
    by_cases hij : i = j
    · obtain rfl := hij
      obtain ⟨ht, hd, hs, -⟩ := hkeep (fs₁.inode i)
      rw [Fs.modInode_inode, if_pos rfl]
      exact ⟨ht, fun _ _ _ => ⟨hd, hs⟩⟩
    · exact hsame (by rw [Fs.modInode_inode, if_neg hij])
  | entry hdir h =>
    rename_i fs₁ fs₂ r q dp k de b
    have hedit := writeDirent_edits h
    refine ⟨hedit.types i, ?_⟩
    intro _ _ hne
    rw [hedit.other i (by rintro rfl; exact hne hdir)]
    exact .refl _
  | trunc j =>
    rename_i fs₁ r q
    refine ⟨(itrunc_edits fs₁ j).types i, ?_⟩
    intro hne _ _
    rw [(itrunc_edits fs₁ j).other i (by rintro rfl; exact hne rfl)]
    exact .refl _
  | write h =>
    have hedit := writei_edits h
    refine ⟨hedit.types i, ?_⟩
    intro _ hne _
    rw [hedit.other i (by rintro rfl; exact hne rfl)]
    exact .refl _
  | reserve h =>
    obtain ⟨-, -, rfl⟩ := filealloc_some h
    exact hsame rfl
  | install h =>
    obtain ⟨-, -, rfl⟩ := filealloc_some h
    exact hsame rfl
  | share h =>
    obtain ⟨-, rfl⟩ := filedup_ok h
    exact hsame rfl
  | close h =>
    obtain ⟨-, ⟨-, rfl⟩ | ⟨-, -, rfl⟩ | ⟨hone, hopens, rfl⟩⟩ := fileclose_ok h
    · exact hsame rfl
    · exact hsame rfl
    · refine hsame (hput (hx.closing hone hopens) ?_)
      rwa [opened_congr (iput_ftable _ _)] at hi

/-! ## Allocated inodes -/

/-- Inodes that have been read are allocated, and so are those that files are open on. -/
structure Allocated (fs : Fs) : Prop where
  read : ∀ i, fs.valid i = true → (fs.inode i).type ≠ .free
  opened : ∀ i ∈ fs.opened, (fs.inode i).type ≠ .free

/-- What has been read after an event is allocated. -/
theorem FsStep.read (h : FsStep x ev y) (hr : ∀ i, x.fs.valid i = true → (x.fs.inode i).type ≠ .free) (hi : y.fs.valid i = true) :
    (y.fs.inode i).type ≠ .free := by
  cases h with
  | get h =>
    obtain ⟨-, hino, -, hv⟩ := iget_ok h
    rw [hino]
    exact hr i (hv i hi)
  | dup => exact hr i hi
  | put =>
    obtain ⟨hv, hino⟩ := iput_valid hi
    rw [hino]
    exact hr i hv
  | lock h =>
    obtain ⟨-, hino, -, -, hv⟩ := ilock_ok h
    rw [hino]
    rcases hv i hi with hv | ⟨rfl, ht⟩
    · exact hr i hv
    · exact ht
  | alloc _ hne h =>
    rename_i fs₁ fs₂ r q j type
    obtain ⟨-, hino, -, hv⟩ := iget_ok h
    rw [hino, Fs.setInode_inode]
    split
    · exact hne
    · exact hr i (hv i hi)
  | node j hkeep =>
    rename_i fs₁ r q g
    rw [Fs.modInode_inode]
    split
    · rename_i hij
      obtain rfl := hij
      rw [(hkeep _).1]
      exact hr i hi
    · exact hr i hi
  | entry _ h =>
    have hedit := writeDirent_edits h
    rw [hedit.valid] at hi
    rw [hedit.types]
    exact hr i hi
  | trunc j =>
    rename_i fs₁ r q
    have hedit := itrunc_edits fs₁ j
    rw [hedit.valid] at hi
    rw [hedit.types]
    exact hr i hi
  | write h =>
    have hedit := writei_edits h
    rw [hedit.valid] at hi
    rw [hedit.types]
    exact hr i hi
  | reserve h =>
    obtain ⟨-, -, rfl⟩ := filealloc_some h
    exact hr i hi
  | install h =>
    obtain ⟨-, -, rfl⟩ := filealloc_some h
    exact hr i hi
  | share h =>
    obtain ⟨-, rfl⟩ := filedup_ok h
    exact hr i hi
  | close h =>
    obtain ⟨-, ⟨-, rfl⟩ | ⟨-, -, rfl⟩ | ⟨-, -, rfl⟩⟩ := fileclose_ok h
    · exact hr i hi
    · exact hr i hi
    · obtain ⟨hv, hino⟩ := iput_valid hi
      rw [hino]
      exact hr i hv

theorem FsStep.allocated (hx : Counted lost x) (ha : Allocated x.fs) (h : FsStep x ev y) : Allocated y.fs := by
  refine ⟨fun i => h.read ha.read, ?_⟩
  intro i hi
  obtain ⟨g, hlt, hg⟩ := mem_opened.mp hi
  rcases h.opens hx hg with ho | ⟨-, hv, hino⟩
  · have hfree := ha.opened i (mem_opened.mpr ⟨g, hlt, ho⟩)
    rw [(h.keeps hx (Multiset.mem_add.mpr (Or.inl hi)) hfree).1]
    exact hfree
  · rw [hino]
    exact ha.read i hv

/-- The references are counted, and what is read or open is allocated. -/
def Sound (x : Refs) : Prop := (∃ lost, Counted lost x) ∧ Allocated x.fs

theorem FsStep.sound (hx : Sound x) (h : FsStep x ev y) : Sound y := by
  obtain ⟨⟨lost, hc⟩, ha⟩ := hx
  exact ⟨⟨lost, h.counted hc⟩, h.allocated hc ha⟩

theorem FsRun.sound {G : FsEvent → Prop} (hx : Sound x) (h : FsRun G x y) : Sound y :=
  h.invariant Sound (fun _ _ _ hs _ hstep => hstep.sound hs) hx

/-- A run keeps the type of a lost inode that is allocated. -/
theorem FsRun.keeps_lost {G : FsEvent → Prop} (hx : Counted lost x) (h : FsRun G x y) (hi : i ∈ lost) (hfree : (x.fs.inode i).type ≠ .free) :
    (y.fs.inode i).type = (x.fs.inode i).type := by
  refine (h.invariant (fun z => Counted lost z ∧ (z.fs.inode i).type = (x.fs.inode i).type) ?_ ⟨hx, rfl⟩).2
  rintro z ev w ⟨hz, ht⟩ - hs
  exact ⟨hs.counted hz, (hs.keeps hz (Multiset.mem_add.mpr (Or.inr hi)) (by rwa [ht])).1.trans ht⟩

/-! ## Private files -/

/-- File `f` is open once, on a file inode that no other file is open on. -/
structure PrivateFile (fs : Fs) (f i : Nat) : Prop where
  opens : (fs.ftable f).opens = some i
  ref : (fs.ftable f).ref = 1
  type : (fs.inode i).type = .file
  alone : ∀ g, (fs.ftable g).opens = some i → g = f

theorem PrivateFile.mem_opened (h : PrivateFile x.fs f i) (hx : Sound x) : i ∈ x.fs.opened := by
  obtain ⟨⟨lost, hc⟩, -⟩ := hx
  exact Kernel.mem_opened.mpr ⟨f, hc.lt (by rw [h.ref]; exact Nat.one_pos), h.opens⟩

theorem PrivateFile.ip_eq (h : PrivateFile fs f i) : (fs.ftable f).ip = i := by
  have ho := h.opens
  unfold File.opens at ho
  split at ho
  · exact Option.some.inj ho
  · nomatch ho

/-- An event that does not open the inode, nor take or close the file, leaves it private. -/
theorem FsStep.privateFile (hx : Sound x) (hp : PrivateFile x.fs f i) (h : FsStep x ev y) (hG : Within (· ≠ i) W (· ≠ f) ev) :
    PrivateFile y.fs f i := by
  obtain ⟨⟨lost, hc⟩, ha⟩ := hx
  have hfile := h.file hG
  have hopens : (y.fs.ftable f).opens = some i := by rw [hfile, hp.opens]
  have hlt : f < nFile := hc.lt (by rw [hp.ref]; exact Nat.one_pos)
  have hfree : (x.fs.inode i).type ≠ .free := by rw [hp.type]; simp
  refine ⟨hopens, by rw [hfile, hp.ref], ?_, ?_⟩
  · rw [(h.keeps hc (Multiset.mem_add.mpr (Or.inl (Kernel.mem_opened.mpr ⟨f, hlt, hopens⟩))) hfree).1, hp.type]
  · intro g hg
    rcases h.opens hc hg with ho | ⟨rfl, -⟩
    · exact hp.alone g ho
    · exact absurd rfl hG.1

/-- An event that does not write the inode either leaves its bytes. -/
theorem FsStep.bytes (hx : Sound x) (hp : PrivateFile x.fs f i) (h : FsStep x ev y) (hG : Within (· ≠ i) (· ≠ i) (· ≠ f) ev) :
    (x.fs.inode i).SameBytes (y.fs.inode i) := by
  have hp' := h.privateFile hx hp hG
  have hi := hp'.mem_opened (h.sound hx)
  obtain ⟨⟨lost, hc⟩, -⟩ := hx
  refine (h.keeps hc (Multiset.mem_add.mpr (Or.inl hi)) (by rw [hp.type]; simp)).2 ?_ ?_ (by rw [hp.type]; simp)
  · rintro rfl
    exact hG rfl
  · rintro rfl
    exact hG rfl

theorem FsRun.privateFile (hx : Sound x) (hp : PrivateFile x.fs f i) (h : FsRun (Within (· ≠ i) W (· ≠ f)) x y) : PrivateFile y.fs f i := by
  refine (h.invariant (fun z => Sound z ∧ PrivateFile z.fs f i) ?_ ⟨hx, hp⟩).2
  rintro a ev b ⟨ha, hpa⟩ hG hs
  exact ⟨hs.sound ha, hs.privateFile ha hpa hG⟩

theorem FsRun.bytes (hx : Sound x) (hp : PrivateFile x.fs f i) (h : FsRun (Within (· ≠ i) (· ≠ i) (· ≠ f)) x y) :
    (x.fs.inode i).SameBytes (y.fs.inode i) := by
  refine (h.invariant (fun z => Sound z ∧ PrivateFile z.fs f i ∧ (x.fs.inode i).SameBytes (z.fs.inode i)) ?_ ⟨hx, hp, .refl _⟩).2.2
  rintro a ev b ⟨ha, hpa, hb⟩ hG hs
  exact ⟨hs.sound ha, hs.privateFile ha hpa hG, hb.trans (hs.bytes ha hpa hG)⟩

/-! ## The offset of a file -/

/-- A file after its offset has moved. -/
def Fs.setOff (fs : Fs) (f off : Nat) : Fs := { fs with ftable := Function.update fs.ftable f { fs.ftable f with off := off } }

/-- Nothing that is counted depends on the offset. -/
theorem setOff_file (fs : Fs) (f off g : Nat) : ((fs.setOff f off).ftable g).opens = (fs.ftable g).opens ∧
    ((fs.setOff f off).ftable g).ref = (fs.ftable g).ref ∧ ((fs.setOff f off).ftable g).type = (fs.ftable g).type := by
  have hft : (fs.setOff f off).ftable = Function.update fs.ftable f { fs.ftable f with off := off } := rfl
  rw [hft]
  by_cases hg : g = f
  · rw [hg, Function.update_self]
    exact ⟨rfl, rfl, rfl⟩
  · rw [Function.update_of_ne hg]
    exact ⟨rfl, rfl, rfl⟩

theorem setOff_opened (fs : Fs) (f off : Nat) : (fs.setOff f off).opened = fs.opened :=
  content_congr (fun g _ => (setOff_file fs f off g).1)

theorem Sound.setOff (hx : Sound ⟨fs, r, q⟩) (f off : Nat) : Sound ⟨fs.setOff f off, r, q⟩ := by
  obtain ⟨⟨lost, hc⟩, ha⟩ := hx
  refine ⟨⟨lost, ?_, ?_, ?_, ?_⟩, ha.read, ?_⟩
  · change Balanced fs.ref (r + (fs.setOff f off).opened + lost)
    rw [setOff_opened]
    exact hc.inodes
  · intro g
    change ((fs.setOff f off).ftable g).ref = q.count g
    rw [(setOff_file fs f off g).2.1]
    exact hc.files g
  · intro g hg
    change ((fs.setOff f off).ftable g).ref = 0 at hg
    change ((fs.setOff f off).ftable g).type = .none
    rw [(setOff_file fs f off g).2.1] at hg
    rw [(setOff_file fs f off g).2.2]
    exact hc.unused g hg
  · intro g hg
    change ((fs.setOff f off).ftable g).ref = 0
    rw [(setOff_file fs f off g).2.1]
    exact hc.bound g hg
  · rw [setOff_opened]
    exact ha.opened

theorem PrivateFile.setOff (hp : PrivateFile fs f i) (g off : Nat) : PrivateFile (fs.setOff g off) f i := by
  refine ⟨?_, ?_, hp.type, ?_⟩
  · rw [(setOff_file fs g off f).1, hp.opens]
  · rw [(setOff_file fs g off f).2.1, hp.ref]
  · intro k hk
    rw [(setOff_file fs g off k).1] at hk
    exact hp.alone k hk

end Xv6SnifferBakery.Kernel
