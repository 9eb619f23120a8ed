import Xv6SnifferBakery.Kernel.Sysfile

/-!
# What the calls of `fs.c` and `file.c` do to the tables

One lemma for each call on an inode or a file, from which every invariant of the inode table and of `ftable` is proved.
-/

namespace Xv6SnifferBakery.Kernel

open Lib

variable {fs fs' fs'' : Fs} {i j f : Nat}

/-! ## Changes of one inode -/

/-- Only the content of inode `i` has changed, and not its type. -/
structure Fs.Edits (fs : Fs) (i : Nat) (fs' : Fs) : Prop where
  ref : fs'.ref = fs.ref
  valid : fs'.valid = fs.valid
  ftable : fs'.ftable = fs.ftable
  other : ∀ j, j ≠ i → fs'.inode j = fs.inode j
  type : (fs'.inode i).type = (fs.inode i).type

namespace Fs.Edits

theorem refl (fs : Fs) (i : Nat) : fs.Edits i fs := ⟨rfl, rfl, rfl, fun _ _ => rfl, rfl⟩

theorem trans (h : fs.Edits i fs') (h' : fs'.Edits i fs'') : fs.Edits i fs'' :=
  ⟨h'.ref.trans h.ref, h'.valid.trans h.valid, h'.ftable.trans h.ftable, fun j hj => (h'.other j hj).trans (h.other j hj),
    h'.type.trans h.type⟩

theorem modInode (fs : Fs) (i : Nat) {g : Inode → Inode} (hg : (g (fs.inode i)).type = (fs.inode i).type) :
    fs.Edits i (fs.modInode i g) := by
  refine ⟨rfl, rfl, rfl, ?_, ?_⟩
  · intro j hj
    rw [Fs.modInode_inode, if_neg hj]
  · rw [Fs.modInode_inode, if_pos rfl, hg]

/-- The free map is no part of any inode. -/
theorem nfree (h : fs.Edits i fs') (n : Nat) : fs.Edits i { fs' with nfree := n } := ⟨h.ref, h.valid, h.ftable, h.other, h.type⟩

/-- The types of all inodes stay. -/
theorem types (h : fs.Edits i fs') (j : Nat) : (fs'.inode j).type = (fs.inode j).type := by
  by_cases hj : j = i
  · rw [hj, h.type]
  · rw [h.other j hj]

end Fs.Edits

theorem balloc_eq {b : Bool} (h : balloc fs = (fs', b)) : ∃ n, fs' = { fs with nfree := n } := by
  unfold balloc at h
  split at h
  · exact ⟨fs.nfree, (Prod.mk.inj h).1.symm⟩
  · exact ⟨_, (Prod.mk.inj h).1.symm⟩

theorem bmapData_edits {bn : Nat} {b : Bool} (h : bmapData fs i bn = (fs', b)) : fs.Edits i fs' := by
  unfold bmapData at h
  split at h
  · rw [← (Prod.mk.inj h).1]
    exact .refl fs i
  · split at h
    · rename_i fs₁ hb
      obtain ⟨n, rfl⟩ := balloc_eq hb
      rw [← (Prod.mk.inj h).1]
      exact (Fs.Edits.refl fs i).nfree n
    · rename_i fs₁ hb
      obtain ⟨n, rfl⟩ := balloc_eq hb
      rw [← (Prod.mk.inj h).1]
      exact ((Fs.Edits.refl fs i).nfree n).trans (Fs.Edits.modInode _ i rfl)

theorem bmap_edits {bn : Nat} {b : Bool} (h : bmap fs i bn = .ok (fs', b)) : fs.Edits i fs' := by
  unfold bmap at h
  split at h
  · exact bmapData_edits (Except.ok.inj h)
  split at h
  · split at h
    · exact bmapData_edits (Except.ok.inj h)
    · split at h
      · rename_i fs₁ hb
        obtain ⟨n, rfl⟩ := balloc_eq hb
        rw [← (Prod.mk.inj (Except.ok.inj h)).1]
        exact (Fs.Edits.refl fs i).nfree n
      · rename_i fs₁ hb
        obtain ⟨n, rfl⟩ := balloc_eq hb
        exact (((Fs.Edits.refl fs i).nfree n).trans (Fs.Edits.modInode _ i rfl)).trans (bmapData_edits (Except.ok.inj h))
  · nomatch h

theorem writeDirent_edits {k : Nat} {de : Dirent} {b : Bool} (h : writeDirent fs i k de = .ok (fs', b)) : fs.Edits i fs' := by
  unfold writeDirent at h
  split at h
  · rw [← (Prod.mk.inj (Except.ok.inj h)).1]
    exact .refl fs i
  · obtain ⟨⟨fs₁, got⟩, hb, h⟩ := bind_ok h
    have hedit := bmap_edits hb
    cases got with
    | false =>
      rw [← (Prod.mk.inj (Except.ok.inj h)).1]
      exact hedit
    | true =>
      rw [← (Prod.mk.inj (Except.ok.inj h)).1]
      exact hedit.trans (Fs.Edits.modInode fs₁ i rfl)

theorem writeiLoop_edits {off n fuel tot tot' : Nat} (h : writeiLoop i off n fuel tot fs = .ok (fs', tot')) : fs.Edits i fs' := by
  induction fuel generalizing fs tot with
  | zero =>
    rw [← (Prod.mk.inj (Except.ok.inj h)).1]
    exact .refl fs i
  | succ fuel ih =>
    rw [writeiLoop] at h
    split at h
    · obtain ⟨⟨fs₁, got⟩, hb, h⟩ := bind_ok h
      have hedit := bmap_edits hb
      cases got with
      | false =>
        rw [← (Prod.mk.inj (Except.ok.inj h)).1]
        exact hedit
      | true => exact hedit.trans (ih h)
    · rw [← (Prod.mk.inj (Except.ok.inj h)).1]
      exact .refl fs i

theorem writei_edits {src : Nat → Byte} {off n : Nat} {tot : Option Nat} (h : writei fs i src off n = .ok (fs', tot)) : fs.Edits i fs' := by
  unfold writei at h
  split at h
  · rw [← (Prod.mk.inj (Except.ok.inj h)).1]
    exact .refl fs i
  split at h
  · rw [← (Prod.mk.inj (Except.ok.inj h)).1]
    exact .refl fs i
  · obtain ⟨⟨fs₁, n'⟩, hl, h⟩ := bind_ok h
    rw [← (Prod.mk.inj (Except.ok.inj h)).1]
    exact (writeiLoop_edits hl).trans (Fs.Edits.modInode fs₁ i rfl)

theorem itrunc_edits (fs : Fs) (i : Nat) : fs.Edits i (itrunc fs i) := by
  unfold itrunc
  exact ((Fs.Edits.refl fs i).nfree _).trans (Fs.Edits.modInode _ i rfl)

/-! ## The inode table -/

/-- `iget` takes a reference; an inode that had none has not been read. -/
theorem iget_ok (h : iget fs i = .ok fs') : fs'.ref = Function.update fs.ref i (fs.ref i + 1) ∧ fs'.inode = fs.inode ∧
    fs'.ftable = fs.ftable ∧ ∀ j, fs'.valid j = true → fs.valid j = true := by
  unfold iget at h
  split at h
  · obtain rfl := Except.ok.inj h
    exact ⟨rfl, rfl, rfl, fun _ hv => hv⟩
  rename_i hzero
  split at h
  · nomatch h
  · obtain rfl := Except.ok.inj h
    refine ⟨?_, rfl, rfl, ?_⟩
    · rw [show fs.ref i + 1 = 1 by omega]
    · intro j hv
      change Function.update fs.valid i false j = true at hv
      by_cases hj : j = i
      · rw [hj, Function.update_self] at hv
        nomatch hv
      · rwa [Function.update_of_ne hj] at hv

/-- `ilock` reads the inode at its first lock. -/
theorem ilock_ok (h : ilock fs i = .ok fs') : fs'.ref = fs.ref ∧ fs'.inode = fs.inode ∧ fs'.ftable = fs.ftable ∧
    fs'.valid i = true ∧ ∀ j, fs'.valid j = true → fs.valid j = true ∨ (j = i ∧ (fs.inode i).type ≠ .free) := by
  unfold ilock at h
  split at h
  · nomatch h
  split at h
  · rename_i hv
    obtain rfl := Except.ok.inj h
    exact ⟨rfl, rfl, rfl, hv, fun _ hj => Or.inl hj⟩
  split at h
  · nomatch h
  · rename_i htype
    obtain rfl := Except.ok.inj h
    refine ⟨rfl, rfl, rfl, Function.update_self .., ?_⟩
    intro j hj
    change Function.update fs.valid i true j = true at hj
    by_cases hji : j = i
    · exact Or.inr ⟨hji, htype⟩
    · rw [Function.update_of_ne hji] at hj
      exact Or.inl hj

theorem ilock_pos (h : ilock fs i = .ok fs') : 0 < fs.ref i := by
  unfold ilock at h
  split at h
  · cases h
  · omega

/-- `iput` frees the inode. -/
def freesInode (fs : Fs) (i : Nat) : Prop := fs.ref i = 1 ∧ fs.valid i = true ∧ (fs.inode i).nlink = 0

instance (fs : Fs) (i : Nat) : Decidable (freesInode fs i) := inferInstanceAs (Decidable (_ ∧ _ ∧ _))

/-- An `iput` that frees nothing only drops the reference. -/
theorem iput_of_not (h : ¬freesInode fs i) : iput fs i = { fs with ref := Function.update fs.ref i (fs.ref i - 1) } := by
  unfold iput
  split
  · rename_i hc
    exact absurd hc h
  · rfl

@[simp] theorem iput_ref (fs : Fs) (i : Nat) : (iput fs i).ref = Function.update fs.ref i (fs.ref i - 1) := by
  unfold iput
  split <;> rfl

@[simp] theorem iput_ftable (fs : Fs) (i : Nat) : (iput fs i).ftable = fs.ftable := by
  unfold iput
  split <;> rfl

theorem iput_inode_of_ne (fs : Fs) (h : j ≠ i) : (iput fs i).inode j = fs.inode j := by
  unfold iput
  split
  · simp only [Fs.modInode_inode, if_neg h]
    exact (itrunc_edits fs i).other j h
  · rfl

theorem iput_valid_of_ne (fs : Fs) (h : j ≠ i) : (iput fs i).valid j = fs.valid j := by
  unfold iput
  split
  · exact Function.update_of_ne h ..
  · rfl

/-- An `iput` frees the inode, or keeps its type. -/
theorem iput_type (fs : Fs) (i : Nat) : ((iput fs i).inode i).type = .free ∨ ((iput fs i).inode i).type = (fs.inode i).type := by
  unfold iput
  split
  · refine Or.inl ?_
    simp only [Fs.modInode_inode, if_true]
  · exact Or.inr rfl

/-- An inode that is still read after an `iput` was not freed by it. -/
theorem iput_valid (h : (iput fs i).valid j = true) : fs.valid j = true ∧ (iput fs i).inode j = fs.inode j := by
  by_cases hj : j = i
  · by_cases hf : freesInode fs i
    · unfold iput at h
      split at h
      · change Function.update fs.valid i false j = true at h
        rw [hj, Function.update_self] at h
        nomatch h
      · rename_i hc
        exact absurd hf hc
    · rw [iput_of_not hf] at h ⊢
      exact ⟨h, rfl⟩
  · rw [iput_valid_of_ne fs hj] at h
    exact ⟨h, iput_inode_of_ne fs hj⟩

/-! ## The file table -/

theorem firstFile_some {n : Nat} (h : firstFile fs j n = some f) : (fs.ftable f).ref = 0 ∧ j ≤ f ∧ f < j + n := by
  induction n generalizing j with
  | zero => nomatch h
  | succ n ih =>
    rw [firstFile] at h
    split at h
    · rename_i hz
      obtain rfl := Option.some.inj h
      exact ⟨hz, le_refl _, by omega⟩
    · obtain ⟨h1, h2, h3⟩ := ih h
      exact ⟨h1, by omega, by omega⟩

/-- `filealloc` takes an unused file. -/
theorem filealloc_some (h : filealloc fs = (fs', some f)) : (fs.ftable f).ref = 0 ∧ f < nFile ∧
    fs' = { fs with ftable := Function.update fs.ftable f { fs.ftable f with ref := 1 } } := by
  unfold filealloc at h
  split at h
  · nomatch h
  · rename_i g hg
    obtain ⟨rfl, hf⟩ := Prod.mk.inj h
    obtain rfl := Option.some.inj hf
    obtain ⟨hz, -, hlt⟩ := firstFile_some hg
    exact ⟨hz, by omega, rfl⟩

theorem filealloc_none (h : filealloc fs = (fs', none)) : fs' = fs := by
  unfold filealloc at h
  split at h
  · exact (Prod.mk.inj h).1.symm
  · nomatch h

theorem filedup_ok (h : filedup fs f = .ok fs') : 0 < (fs.ftable f).ref ∧
    fs' = { fs with ftable := Function.update fs.ftable f { fs.ftable f with ref := (fs.ftable f).ref + 1 } } := by
  unfold filedup at h
  split at h
  · nomatch h
  · rename_i hpos
    exact ⟨by omega, (Except.ok.inj h).symm⟩

/-- What `fileclose` leaves in the file. -/
def File.closed (file : File) : File := if 1 < file.ref then { file with ref := file.ref - 1 } else { file with ref := 0, type := .none }

/-- The inode a file is open on. -/
def File.opens (file : File) : Option Nat := if 0 < file.ref ∧ (file.type = .inode ∨ file.type = .device) then some file.ip else none

/-- `fileclose` of a file that is still open elsewhere, or the last one, which gives the inode up. -/
theorem fileclose_ok (h : fileclose fs f = .ok fs') : 0 < (fs.ftable f).ref ∧
    ((1 < (fs.ftable f).ref ∧ fs' = { fs with ftable := Function.update fs.ftable f (fs.ftable f).closed }) ∨
      ((fs.ftable f).ref = 1 ∧ (fs.ftable f).opens = none ∧ fs' = { fs with ftable := Function.update fs.ftable f (fs.ftable f).closed }) ∨
      ((fs.ftable f).ref = 1 ∧ (fs.ftable f).opens = some (fs.ftable f).ip ∧
        fs' = iput { fs with ftable := Function.update fs.ftable f (fs.ftable f).closed } (fs.ftable f).ip)) := by
  unfold fileclose at h
  dsimp only at h
  split at h
  · nomatch h
  rename_i hpos
  refine ⟨by omega, ?_⟩
  split at h
  · rename_i hmore
    refine Or.inl ⟨by omega, ?_⟩
    rw [File.closed, if_pos (by omega)]
    exact (Except.ok.inj h).symm
  rename_i hmore
  have hclosed : (fs.ftable f).closed = { fs.ftable f with ref := 0, type := .none } := by
    rw [File.closed, if_neg (by omega)]
  rw [hclosed]
  split at h
  · rename_i htype
    refine Or.inr (Or.inr ⟨by omega, ?_, (Except.ok.inj h).symm⟩)
    rw [File.opens, if_pos ⟨by omega, htype⟩]
  · rename_i htype
    refine Or.inr (Or.inl ⟨by omega, ?_, (Except.ok.inj h).symm⟩)
    rw [File.opens, if_neg]
    rintro ⟨-, ht⟩
    exact htype ht

end Xv6SnifferBakery.Kernel
