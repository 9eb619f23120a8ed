import Xv6SnifferBakery.Theorems.InodeRefs

/-!
# Files have no holes

A write begins within the file and takes the blocks of all bytes that it writes, so every byte below the size of a file is in a block
that is there, in every run from a disk of such files. Then no `bmap` of a read allocates a block or finds none: what is read is the
file up to its size, and nothing is changed.
-/

namespace Xv6SnifferBakery.Kernel

open Lib

/-- Block `bn` of a file is there, with the indirect block if its address is in it. -/
structure Inode.Holds (ip : Inode) (bn : Nat) : Prop where
  addr : ip.addrs bn = true
  indirect : nDirect ≤ bn → ip.indirect = true
  lt : bn < maxFile

/-- Every byte below the size is in a block that is there. -/
def Inode.Filled (ip : Inode) : Prop := ∀ k < ip.size, ip.Holds (k / bSize)

/-- No file has a hole. -/
def Fs.NoHoles (fs : Fs) : Prop := ∀ i, (fs.inode i).type ≠ .dir → (fs.inode i).Filled

variable {fs fs' : Fs} {i bn off n tot : Nat}

/-! ## Blocks -/

/-- `bmap` of a block that is there finds it and changes nothing. -/
theorem bmap_holds (h : (fs.inode i).Holds bn) : bmap fs i bn = .ok (fs, true) := by
  have hdata : bmapData fs i bn = (fs, true) := by rw [bmapData, if_pos h.addr]
  unfold bmap
  by_cases hd : bn < nDirect
  · rw [if_pos hd, hdata]
  · rw [if_neg hd, if_pos h.lt, if_pos (h.indirect (Nat.le_of_not_lt hd)), hdata]

/-- What `bmap` does to the blocks of the inode: all that are there stay, and the one it has found is there. -/
structure Mapped (fs : Fs) (i bn : Nat) (fs' : Fs) (got : Bool) : Prop where
  keeps : ∀ k, (fs.inode i).Holds k → (fs'.inode i).Holds k
  size : (fs'.inode i).size = (fs.inode i).size
  addr : got = true → (fs'.inode i).addrs bn = true
  indirect : (fs.inode i).indirect = true → (fs'.inode i).indirect = true

theorem bmapData_mapped {got : Bool} (h : bmapData fs i bn = (fs', got)) : Mapped fs i bn fs' got := by
  unfold bmapData at h
  split at h
  · rename_i haddr
    obtain ⟨rfl, rfl⟩ := Prod.mk.inj h
    exact ⟨fun _ hk => hk, rfl, fun _ => haddr, id⟩
  · split at h
    · rename_i fs₁ hb
      obtain ⟨m, rfl⟩ := balloc_eq hb
      obtain ⟨rfl, rfl⟩ := Prod.mk.inj h
      exact ⟨fun _ hk => hk, rfl, fun hf => (by cases hf), id⟩
    · rename_i fs₁ hb
      obtain ⟨m, rfl⟩ := balloc_eq hb
      obtain ⟨rfl, rfl⟩ := Prod.mk.inj h
      refine ⟨fun k hk => ⟨?_, ?_, hk.lt⟩, ?_, fun _ => ?_, ?_⟩
      · by_cases hkn : k = bn
        · simp [hkn]
        · simpa [hkn] using hk.addr
      · simpa using hk.indirect
      · simp
      · simp
      · simp

/-- `bmap` of a block within the largest file. -/
theorem bmap_mapped {got : Bool} (h : bmap fs i bn = .ok (fs', got)) :
    Mapped fs i bn fs' got ∧ (got = true → (fs'.inode i).Holds bn) := by
  unfold bmap at h
  split at h
  · rename_i hd
    have hm := bmapData_mapped (Except.ok.inj h)
    have hlt : bn < maxFile := Nat.lt_of_lt_of_le hd (by decide)
    exact ⟨hm, fun hg => ⟨hm.addr hg, fun hle => absurd hd (Nat.not_lt.mpr hle), hlt⟩⟩
  split at h
  · rename_i hlt
    split at h
    · rename_i hind
      have hm := bmapData_mapped (Except.ok.inj h)
      exact ⟨hm, fun hg => ⟨hm.addr hg, fun _ => hm.indirect hind, hlt⟩⟩
    · split at h
      · rename_i fs₁ hb
        obtain ⟨m, rfl⟩ := balloc_eq hb
        obtain ⟨rfl, rfl⟩ := Prod.mk.inj (Except.ok.inj h)
        exact ⟨⟨fun _ hk => hk, rfl, fun hf => (by cases hf), id⟩, fun hf => (by cases hf)⟩
      · rename_i fs₁ hb
        obtain ⟨m, rfl⟩ := balloc_eq hb
        have hm := bmapData_mapped (Except.ok.inj h)
        have hind := hm.indirect (by simp)
        refine ⟨⟨fun k hk => hm.keeps k ⟨?_, ?_, hk.lt⟩, ?_, hm.addr, fun _ => hind⟩, fun hg => ⟨hm.addr hg, fun _ => hind, hlt⟩⟩
        · simpa using hk.addr
        · simp
        · simpa using hm.size
  · cases h

/-! ## Reading -/

/-- The loop of `readi` within the size of a file without holes. -/
theorem readiLoop_filled (h : (fs.inode i).Filled) (hle : off + n ≤ (fs.inode i).size) {fuel : Nat} (hfuel : n ≤ tot + fuel)
    (htot : tot ≤ n) : readiLoop i off n fuel tot fs = .ok (fs, n) := by
  induction fuel generalizing tot with
  | zero =>
    rw [readiLoop, Nat.le_antisymm htot hfuel]
  | succ fuel ih =>
    rw [readiLoop]
    by_cases hlt : tot < n
    · have hmod : (off + tot) % bSize < bSize := Nat.mod_lt _ (by decide)
      rw [if_pos hlt, bmap_holds (h (off + tot) (by omega))]
      exact ih (by omega) (by omega)
    · rw [if_neg hlt, Nat.le_antisymm htot (Nat.le_of_not_lt hlt)]

/-- `readi` of a file without holes finds every block that it asks `bmap` for: it changes nothing and reads what `readi` says. -/
theorem readi_filled (h : (fs.inode i).Filled) (off n : Nat) :
    readiLoop i off (readi (fs.inode i) off n) (readi (fs.inode i) off n) 0 fs = .ok (fs, readi (fs.inode i) off n) := by
  by_cases hpos : readi (fs.inode i) off n = 0
  · rw [hpos]
    rfl
  · refine readiLoop_filled h ?_ (Nat.le_add_left ..) (Nat.zero_le _)
    unfold readi at hpos ⊢
    split
    · rename_i hout
      rw [if_pos hout] at hpos
      exact absurd rfl hpos
    · rename_i hin
      split <;> omega

/-! ## Writing -/

/-- The loop of `writei` makes the blocks of all bytes that it counts. -/
theorem writeiLoop_mapped {fuel tot' : Nat} (h : writeiLoop i off n fuel tot fs = .ok (fs', tot'))
    (hdone : ∀ k < tot, (fs.inode i).Holds ((off + k) / bSize)) :
    (∀ k, (fs.inode i).Holds k → (fs'.inode i).Holds k) ∧ (fs'.inode i).size = (fs.inode i).size ∧
      ∀ k < tot', (fs'.inode i).Holds ((off + k) / bSize) := by
  induction fuel generalizing fs tot with
  | zero =>
    obtain ⟨rfl, rfl⟩ := Prod.mk.inj (Except.ok.inj h)
    exact ⟨fun _ hk => hk, rfl, hdone⟩
  | succ fuel ih =>
    rw [writeiLoop] at h
    split at h
    · obtain ⟨⟨fs₁, got⟩, hb, h⟩ := bind_ok h
      obtain ⟨hm, hholds⟩ := bmap_mapped hb
      cases got with
      | false =>
        obtain ⟨rfl, rfl⟩ := Prod.mk.inj (Except.ok.inj h)
        exact ⟨hm.keeps, hm.size, fun k hk => hm.keeps _ (hdone k hk)⟩
      | true =>
        have hnext : ∀ k < tot + min (n - tot) (bSize - (off + tot) % bSize), (fs₁.inode i).Holds ((off + k) / bSize) := by
          intro k hk
          by_cases hold : k < tot
          · exact hm.keeps _ (hdone k hold)
          · -- the bytes of this pass are all in the block that it has asked for
            have hblock : (off + k) / bSize = (off + tot) / bSize := by
              unfold bSize at hk ⊢
              omega
            rw [hblock]
            exact hholds rfl
        obtain ⟨hkeeps, hsize, hall⟩ := ih h hnext
        exact ⟨fun k hk => hkeeps k (hm.keeps k hk), hsize.trans hm.size, hall⟩
    · obtain ⟨rfl, rfl⟩ := Prod.mk.inj (Except.ok.inj h)
      exact ⟨fun _ hk => hk, rfl, hdone⟩

/-- A write leaves no hole. -/
theorem writei_filled {src : Nat → Byte} {o : Option Nat} (hf : (fs.inode i).Filled) (h : writei fs i src off n = .ok (fs', o)) :
    (fs'.inode i).Filled := by
  unfold writei at h
  split at h
  · obtain ⟨rfl, -⟩ := Prod.mk.inj (Except.ok.inj h)
    exact hf
  rename_i hoff
  split at h
  · obtain ⟨rfl, -⟩ := Prod.mk.inj (Except.ok.inj h)
    exact hf
  obtain ⟨⟨fs₁, tot'⟩, hl, h⟩ := bind_ok h
  obtain ⟨hkeeps, hsize, hall⟩ := writeiLoop_mapped hl (fun k hk => absurd hk (Nat.not_lt_zero k))
  obtain ⟨rfl, -⟩ := Prod.mk.inj (Except.ok.inj h)
  intro k hk
  have hholds : (fs₁.inode i).Holds (k / bSize) := by
    simp only [Fs.modInode_inode, if_true, hsize] at hk
    by_cases hold : k < (fs.inode i).size
    · exact hkeeps _ (hf k hold)
    · obtain ⟨d, rfl⟩ := Nat.exists_eq_add_of_le (show off ≤ k by omega)
      exact hall d (by omega)
  simp only [Fs.modInode_inode, if_true]
  exact ⟨hholds.addr, hholds.indirect, hholds.lt⟩

/-! ## Runs -/

/-- Only inode `i` is changed, and it is a directory or without holes again. -/
theorem Fs.NoHoles.edit (h : fs.NoHoles) (hother : ∀ j, j ≠ i → fs'.inode j = fs.inode j)
    (hi : (fs'.inode i).type ≠ .dir → (fs'.inode i).Filled) : fs'.NoHoles := by
  intro j hj
  by_cases hji : j = i
  · rw [hji] at hj ⊢
    exact hi hj
  · rw [hother j hji] at hj ⊢
    exact h j hj

theorem Fs.NoHoles.congr (h : fs.NoHoles) (hinode : fs'.inode = fs.inode) : fs'.NoHoles := by
  intro j
  rw [hinode]
  exact h j

/-- A file without bytes has no hole. -/
theorem Inode.Filled.empty {ip : Inode} (h : ip.size = 0) : ip.Filled := fun k hk => by
  rw [h] at hk
  exact absurd hk (Nat.not_lt_zero k)

theorem iput_noHoles (h : fs.NoHoles) (i : Nat) : (iput fs i).NoHoles := by
  unfold iput
  split
  · refine h.edit (i := i) (fun j hj => ?_) (fun _ => .empty ?_)
    · simp only [Fs.modInode_inode, if_neg hj]
      exact (itrunc_edits fs i).other j hj
    · simp [itrunc]
  · exact h.congr rfl

theorem FsStep.noHoles {x y : Refs} {ev : FsEvent} (h : FsStep x ev y) (hx : x.fs.NoHoles) : y.fs.NoHoles := by
  cases h with
  | get h => exact hx.congr (iget_ok h).2.1
  | dup i => exact hx.congr rfl
  | put => exact iput_noHoles hx _
  | lock h => exact hx.congr (ilock_ok h).2.1
  | @alloc fs fs' r q i type free ne h =>
    have hempty : (fs.setInode i (Inode.empty type)).NoHoles := by
      refine Fs.NoHoles.edit (i := i) hx (fun j hj => by simp [hj]) (fun _ => .empty ?_)
      simp [Inode.empty]
    exact hempty.congr (iget_ok h).2.1
  | @node fs r q g i keeps =>
    obtain ⟨htype, -, hsize, haddrs, hindirect⟩ := keeps (fs.inode i)
    refine Fs.NoHoles.edit (i := i) hx (fun j hj => by simp [hj]) (fun hdir k hk => ?_)
    simp only [Fs.modInode_inode, if_true, htype, hsize] at hdir hk ⊢
    obtain ⟨haddr, hind, hlt⟩ := hx i hdir k hk
    exact ⟨by rwa [haddrs], by rwa [hindirect], hlt⟩
  | entry dir h =>
    have hedit := writeDirent_edits h
    exact hx.edit hedit.other (fun hdir => absurd (hedit.type.trans dir) hdir)
  | trunc i => exact hx.edit (itrunc_edits _ i).other (fun _ => .empty (by simp [itrunc]))
  | write h => exact hx.edit (writei_edits h).other (fun hdir => writei_filled (hx _ (by rwa [(writei_edits h).type] at hdir)) h)
  | reserve h => exact hx.congr (by rw [(filealloc_some h).2.2])
  | install h => exact hx.congr (by simp [(filealloc_some h).2.2])
  | share h => exact hx.congr (by rw [(filedup_ok h).2])
  | close h =>
    obtain ⟨-, ⟨-, rfl⟩ | ⟨-, -, rfl⟩ | ⟨-, -, rfl⟩⟩ := fileclose_ok h
    · exact hx.congr rfl
    · exact hx.congr rfl
    · refine iput_noHoles (Fs.NoHoles.congr hx ?_) _
      rfl

/-- In every run from a disk of files without holes no file has a hole, and reading one asks only for blocks that are there. -/
theorem reads_allocate_nothing {s₀ s t : Sys} {as : List Action} (hpre : PreBoot s₀) (hu : userinit s₀ = .ok s) (hfs : s₀.m.fs.NoHoles)
    (h : Run Step s as t) : t.m.fs.NoHoles ∧ ∀ i, (t.m.fs.inode i).type ≠ .dir → ∀ off n,
      readiLoop i off (readi (t.m.fs.inode i) off n) (readi (t.m.fs.inode i) off n) 0 t.m.fs = .ok (t.m.fs, readi (t.m.fs.inode i) off n) := by
  have hkeeps : ∀ {x y : Refs}, FsRun (fun _ => True) x y → x.fs.NoHoles → y.fs.NoHoles := fun hr =>
    hr.invariant (fun x => x.fs.NoHoles) (fun _ _ _ hx _ hev => hev.noHoles hx)
  obtain ⟨j, m₁, tf, pt, fs, ip, m, p, argc, hb⟩ := hpre.booted hu
  have hrun : t.HoldsOk ∧ t.m.fs.NoHoles := by
    induction h with
    | nil => exact ⟨hb.holdsOk, hkeeps hb.refs hfs⟩
    | snoc hr ha ih =>
      obtain ⟨hok', lost, hrun, -⟩ := Step.refs ih.1 ha
      exact ⟨hok', hkeeps (hrun.mono (fun _ _ => trivial)) ih.2⟩
  exact ⟨hrun.2, fun i hi off n => readi_filled (hrun.2 i hi) off n⟩

theorem fileOf_filled {bytes : List Byte} (h : bytes.length ≤ maxFile * bSize) : (fileOf bytes).Filled := by
  intro k hk
  have hk : k < bytes.length := hk
  have hle := Nat.div_mul_le_self k bSize
  have hblock : k / bSize * bSize < bytes.length := Nat.lt_of_le_of_lt hle hk
  refine ⟨decide_eq_true hblock, fun hind => decide_eq_true ?_, ?_⟩
  · exact Nat.lt_of_le_of_lt (Nat.mul_le_mul_right bSize hind) hblock
  · exact Nat.lt_of_mul_lt_mul_right (Nat.lt_of_lt_of_le hblock h)

theorem reads_allocate_nothing_init : ∀ as t, Run Step (smallBoot smallFiles 32) as t → t.m.fs.NoHoles := by
  intro as t h
  have hfs : (smallFs smallFiles).NoHoles := by
    intro i hi
    by_cases hroot : i = rootIno
    · subst hroot
      exact absurd rfl hi
    · by_cases htwo : i - 2 = 0
      · have hinode : (smallFs smallFiles).inode i = smallInit := by simp [smallFs, smallFiles, hroot, htwo]
        rw [hinode]
        exact fileOf_filled (by decide +kernel)
      · have hinode : (smallFs smallFiles).inode i = Inode.empty .free := by
          simp only [smallFs, if_neg hroot]
          rw [List.getElem?_eq_none]
          · rfl
          · simp [smallFiles]
            omega
        rw [hinode]
        exact .empty rfl
  exact (reads_allocate_nothing (smallSys_preBoot smallFiles (by decide)) (smallBoot_userinit (by decide +kernel)) hfs h).1

end Xv6SnifferBakery.Kernel
