import Xv6SnifferBakery.Lemmas.FsCalls
import Xv6SnifferBakery.Lemmas.OpenFiles
import Xv6SnifferBakery.Lemmas.Slots
import Xv6SnifferBakery.Lemmas.SwapFiles

/-!
# Room for a slot

What the file system has to have for a page to be written to a slot: the blocks of the slot, when the swap file is open; and when it is
not, what `create_swap_file` needs to make it. All of it is said of the state before.
-/

namespace Xv6SnifferBakery.Kernel

open Lib

variable {fs fs' : Fs} {i slot : Nat}

/-! ## Blocks -/

@[simp] theorem Fs.modInode_nfree (fs : Fs) (i : Nat) (f : Inode → Inode) : (fs.modInode i f).nfree = fs.nfree := rfl

/-- The disk blocks that `bmap` takes for block `bn` of an inode: its own, and the indirect block. -/
def Inode.blockCost (ip : Inode) (bn : Nat) : Nat :=
  (if ip.addrs bn then 0 else 1) + if nDirect ≤ bn ∧ ip.indirect = false then 1 else 0

/-- An inode after `bmap` got block `bn`. -/
def Inode.withBlock (ip : Inode) (bn : Nat) : Inode :=
  { ip with addrs := Function.update ip.addrs bn true, indirect := ip.indirect || decide (nDirect ≤ bn) }

/-- The disk blocks that writing `k` blocks from block `bn` on takes. -/
def Inode.blocksCost (ip : Inode) : Nat → Nat → Nat
  | _, 0 => 0
  | bn, k + 1 => ip.blockCost bn + (ip.withBlock bn).blocksCost (bn + 1) k

theorem bmapData_cost (bn : Nat) : ∃ fs', bmapData fs i bn = (fs', decide ((if (fs.inode i).addrs bn then 0 else 1) ≤ fs.nfree)) ∧
    ((if (fs.inode i).addrs bn then 0 else 1) ≤ fs.nfree →
      fs'.nfree + (if (fs.inode i).addrs bn then 0 else 1) = fs.nfree ∧
        fs'.inode i = { fs.inode i with addrs := Function.update (fs.inode i).addrs bn true }) := by
  unfold bmapData
  by_cases ha : (fs.inode i).addrs bn = true
  · have hsame : Function.update (fs.inode i).addrs bn true = (fs.inode i).addrs := by rw [← ha, Function.update_eq_self]
    simp only [ha, if_true, Nat.zero_le, decide_true, forall_const]
    refine ⟨fs, rfl, rfl, ?_⟩
    rw [hsame]
  · by_cases hfree : fs.nfree = 0
    · simp [ha, balloc, hfree]
    · have hle : 1 ≤ fs.nfree := by omega
      simp only [ha, Bool.false_eq_true, if_false, balloc, hfree, hle, decide_true, forall_const]
      refine ⟨_, rfl, ?_, ?_⟩
      · change fs.nfree - 1 + 1 = fs.nfree
        omega
      · simp

/-- `bmap` gets a block exactly when the disk has what it takes. -/
theorem bmap_cost {bn : Nat} (hlt : bn < maxFile) : ∃ fs', bmap fs i bn = .ok (fs', decide ((fs.inode i).blockCost bn ≤ fs.nfree)) ∧
    ((fs.inode i).blockCost bn ≤ fs.nfree →
      fs'.nfree + (fs.inode i).blockCost bn = fs.nfree ∧ fs'.inode i = (fs.inode i).withBlock bn) := by
  obtain ⟨fs₁, hb, hgot⟩ := @bmapData_cost fs i bn
  have hsame : ∀ (ip : Inode) (a : Nat → Bool), ip.indirect = true →
      ({ ip with addrs := a } : Inode) = { ip with addrs := a, indirect := true } := by
    rintro ⟨⟩ a rfl
    rfl
  unfold bmap Inode.blockCost Inode.withBlock
  by_cases hdirect : bn < nDirect
  · have hnot : ¬nDirect ≤ bn := Nat.not_le.mpr hdirect
    simp only [hdirect, if_true, hnot, false_and, if_false, Nat.add_zero, decide_false, Bool.or_false]
    exact ⟨fs₁, by rw [hb], hgot⟩
  have hge : nDirect ≤ bn := Nat.not_lt.mp hdirect
  simp only [hdirect, if_false, hlt, if_true, hge, true_and, decide_true, Bool.or_true]
  by_cases hind : (fs.inode i).indirect = true
  · simp only [hind, if_true, Bool.true_eq_false, if_false, Nat.add_zero]
    exact ⟨fs₁, by rw [hb], fun h => ⟨(hgot h).1, (hgot h).2.trans (hsame _ _ hind)⟩⟩
  simp only [hind, Bool.false_eq_true, if_false, if_true]
  by_cases hfree : fs.nfree = 0
  · -- not even the indirect block
    have hno : ¬((if (fs.inode i).addrs bn = true then 0 else 1) + 1 ≤ fs.nfree) := by omega
    simp only [balloc, hfree, if_true]
    rw [hfree] at hno
    exact ⟨fs, by simp [hno], fun h => absurd h hno⟩
  simp only [balloc, hfree, if_false]
  obtain ⟨fs₂, hb₂, hgot₂⟩ := @bmapData_cost
    (({ fs with nfree := fs.nfree - 1 } : Fs).modInode i (fun ip => { ip with indirect := true })) i bn
  simp only [Fs.modInode_inode, if_true, Fs.modInode_nfree] at hb₂ hgot₂
  have hiff : (if (fs.inode i).addrs bn = true then 0 else 1) ≤ fs.nfree - 1 ↔
      (if (fs.inode i).addrs bn = true then 0 else 1) + 1 ≤ fs.nfree := by omega
  rw [hb₂]
  refine ⟨fs₂, by simp only [hiff], fun h => ?_⟩
  obtain ⟨h₁, h₂⟩ := hgot₂ (hiff.mpr h)
  exact ⟨by omega, h₂⟩

/-- Setting a bit that was clear adds one to the set bits below a bound. -/
theorem length_filter_update {f : Nat → Bool} {a n : Nat} (ha : f a = false) (hlt : a < n) :
    ((List.range n).filter (Function.update f a true)).length = ((List.range n).filter f).length + 1 := by
  induction n with
  | zero => omega
  | succ n ih =>
    rw [List.range_succ, List.filter_append, List.filter_append, List.length_append, List.length_append]
    by_cases hn : a = n
    · subst hn
      have hbelow : (List.range a).filter (Function.update f a true) = (List.range a).filter f := by
        refine List.filter_congr (fun k hk => ?_)
        rw [Function.update_of_ne (by have := List.mem_range.mp hk; omega)]
      simp [hbelow, ha]
    · have hlast : Function.update f a true n = f n := Function.update_of_ne (Ne.symm hn) _ _
      rw [ih (by omega), List.filter_singleton, List.filter_singleton, hlast, Nat.add_right_comm]

theorem Inode.blocks_withBlock {bn : Nat} (ip : Inode) (hlt : bn < maxFile) : (ip.withBlock bn).blocks = ip.blocks + ip.blockCost bn := by
  unfold Inode.blocks Inode.blockCost Inode.withBlock
  have haddrs : ((List.range maxFile).filter (fun k => Function.update ip.addrs bn true k)).length =
      ((List.range maxFile).filter (fun k => ip.addrs k)).length + if ip.addrs bn then 0 else 1 := by
    by_cases ha : ip.addrs bn = true
    · rw [if_pos ha, ← ha, Function.update_eq_self, Nat.add_zero]
    · rw [if_neg ha]
      exact length_filter_update (by simpa using ha) hlt
  dsimp only
  rw [haddrs]
  by_cases hind : ip.indirect = true
  · simp [hind]
    omega
  · by_cases hge : nDirect ≤ bn
    · simp [hind, hge]
      omega
    · simp [hind, hge]

/-- The loop of `writei` over `k` whole blocks writes them all exactly when the disk has what they take. -/
theorem writeiLoop_cost {off n k fuel tot : Nat} (hk : tot + k * 1024 = n) (hfuel : k ≤ fuel) (hoff : off % 1024 = 0)
    (htot : tot % 1024 = 0) (hend : off + n ≤ 268 * 1024) :
    ∃ fs' tot', writeiLoop i off n fuel tot fs = .ok (fs', tot') ∧
      (tot' = n ↔ (fs.inode i).blocksCost ((off + tot) / 1024) k ≤ fs.nfree) := by
  induction k generalizing fuel tot fs with
  | zero =>
    obtain rfl : tot = n := by omega
    refine ⟨fs, tot, ?_, by simp [Inode.blocksCost]⟩
    cases fuel with
    | zero => rfl
    | succ fuel => rw [writeiLoop, if_neg (lt_irrefl _)]
  | succ k ih =>
    cases fuel with
    | zero => omega
    | succ fuel =>
      have hblock : (off + tot) / 1024 < maxFile := by
        change _ < 268
        omega
      obtain ⟨fs₁, hmap, hgot⟩ := @bmap_cost fs i _ hblock
      rw [writeiLoop, if_pos (by omega)]
      change ∃ fs' tot', (bmap fs i ((off + tot) / 1024) >>= _) = _ ∧ _
      rw [bind_of_ok hmap]
      simp only [decide_eq_true_eq, Inode.blocksCost]
      by_cases hcost : (fs.inode i).blockCost ((off + tot) / 1024) ≤ fs.nfree
      · obtain ⟨hfree, hino⟩ := hgot hcost
        have hnext : tot + min (n - tot) (bSize - (off + tot) % bSize) = tot + 1024 := by
          change tot + min (n - tot) (1024 - (off + tot) % 1024) = _
          omega
        rw [if_pos hcost, hnext]
        obtain ⟨fs', tot', hloop, hiff⟩ := @ih fs₁ fuel (tot + 1024) (by omega) (by omega) (by omega)
        refine ⟨fs', tot', hloop, ?_⟩
        rw [hiff, hino, show (off + (tot + 1024)) / 1024 = (off + tot) / 1024 + 1 by omega]
        omega
      · rw [if_neg hcost]
        refine ⟨fs₁, tot, rfl, iff_of_false (by omega) (by omega)⟩

/-- A page can be written to slot `slot` of a file, with so many free blocks: the slot starts within the file and ends within the largest
one, and the blocks suffice. -/
def Inode.Takes (ip : Inode) (slot nfree : Nat) : Prop :=
  slot * pgSize ≤ ip.size ∧ slot * pgSize + pgSize ≤ maxFile * bSize ∧ ip.blocksCost (4 * slot) 4 ≤ nfree

/-- `writei` of a page to a slot. -/
theorem writei_slot {src : Nat → Byte} (hslot : slot < maxSwapSlots) :
    ∃ fs' o, writei fs i src (slotOff slot) pgSize = .ok (fs', o) ∧ (o = some pgSize ↔ (fs.inode i).Takes slot fs.nfree) := by
  have hlt : slot < 1024 := hslot
  have hp : pgSize = 4096 := rfl
  have hend : maxFile * bSize = 274432 := rfl
  rw [slotOff_natCast hslot, hp]
  unfold writei Inode.Takes
  rw [hend, hp]
  by_cases hbefore : (fs.inode i).size < slot * 4096 ∨ (slot * 4096 + 4096) % 2 ^ 32 < slot * 4096
  · rw [if_pos hbefore]
    exact ⟨fs, none, rfl, iff_of_false nofun (fun h => by omega)⟩
  by_cases hafter : 274432 < slot * 4096 + 4096
  · rw [if_neg hbefore, if_pos hafter]
    exact ⟨fs, none, rfl, iff_of_false nofun (fun h => by omega)⟩
  rw [if_neg hbefore, if_neg hafter]
  obtain ⟨fs₁, tot, hloop, hiff⟩ : ∃ fs' tot', writeiLoop i (slot * 4096) 4096 4096 0 fs = .ok (fs', tot') ∧
      (tot' = 4096 ↔ (fs.inode i).blocksCost ((slot * 4096 + 0) / 1024) 4 ≤ fs.nfree) :=
    writeiLoop_cost rfl (by decide) (by omega) rfl (by omega)
  rw [bind_of_ok hloop]
  refine ⟨_, some tot, rfl, ?_⟩
  rw [Option.some.injEq, hiff, show (slot * 4096 + 0) / 1024 = 4 * slot by omega]
  constructor
  · exact fun h => ⟨by omega, by omega, h⟩
  · exact fun h => h.2.2

/-! ## Names -/

/-- `iget` has an entry of `itable` for an inode. -/
def Fs.Gettable (fs : Fs) (i : Nat) : Prop := 0 < fs.ref i ∨ fs.active < nInode

instance (fs : Fs) (i : Nat) : Decidable (fs.Gettable i) := inferInstanceAs (Decidable (_ ∨ _))

/-- The inode of entry `k` of a directory. -/
def Fs.entryInode (fs : Fs) (dp k : Nat) : Nat := ((fs.inode dp).ents.getD k ⟨0, []⟩).inum

/-- The offset of a new entry of a directory: the first empty one, or the end. -/
def Inode.entryAt (ip : Inode) : Nat := (ip.ents.findIdx? (fun de => de.inum = 0)).getD ip.ents.length

/-- The disk blocks that a new entry of a directory takes. -/
def Inode.entryCost (ip : Inode) : Nat := ip.blockCost (16 * ip.entryAt / bSize)

/-- A new entry fits in a directory, with so many free blocks. -/
def Inode.TakesEntry (ip : Inode) (nfree : Nat) : Prop := 16 * ip.entryAt + 16 ≤ maxFile * bSize ∧ ip.entryCost ≤ nfree

instance (ip : Inode) (nfree : Nat) : Decidable (ip.TakesEntry nfree) := inferInstanceAs (Decidable (_ ∧ _))

/-- An inode without links that nobody else holds: its blocks come back when the reference to it is given up. -/
def Fs.unlinked (fs : Fs) (i : Nat) : Prop := fs.ref i = 1 ∧ (fs.inode i).nlink = 0

instance (fs : Fs) (i : Nat) : Decidable (fs.unlinked i) := inferInstanceAs (Decidable (_ ∧ _))

variable {fs₁ : Fs} {cwd dp j k : Nat} {name : Name} {path : List Char} {pid : Int}

theorem iget_gettable (h : fs.Gettable i) : ∃ fs', iget fs i = .ok fs' ∧ fs'.nfree = fs.nfree ∧
    ∀ j, j ≠ i ∨ 0 < fs.ref i → fs'.valid j = fs.valid j := by
  unfold iget
  by_cases hpos : 0 < fs.ref i
  · rw [if_pos hpos]
    exact ⟨_, rfl, rfl, fun _ _ => rfl⟩
  · have hroom : ¬nInode ≤ fs.active := Nat.not_le.mpr (h.resolve_left hpos)
    rw [if_neg hpos, if_neg hroom]
    exact ⟨_, rfl, rfl, fun _ hj => Function.update_of_ne (hj.resolve_right hpos) _ _⟩

theorem iget_full (h : ¬fs.Gettable i) : iget fs i = .error .igetNoInodes := by
  unfold Fs.Gettable at h
  rw [iget, if_neg (fun hp => h (Or.inl hp)), if_pos (Nat.not_lt.mp (fun hp => h (Or.inr hp)))]

/-- `iget` reads nothing: an inode that has been read after it was held, and read, before. -/
theorem iget_read {fs' : Fs} (h : iget fs i = .ok fs') (hv : fs'.valid i = true) : 0 < fs.ref i ∧ fs.valid i = true := by
  unfold iget at h
  split at h
  · rename_i hpos
    obtain rfl := Except.ok.inj h
    exact ⟨hpos, hv⟩
  split at h
  · cases h
  · obtain rfl := Except.ok.inj h
    simp only [Function.update_self] at hv
    cases hv

/-- The directory that the walk for `nameiparent` ends in is a directory, held and read. -/
theorem namexLoop_dir {n ip : Nat} {last : Name} (h : namexLoop true n fs ip path last = .ok (fs₁, some (dp, name))) :
    (fs₁.inode dp).type = .dir ∧ fs₁.valid dp = true ∧ 0 < fs₁.ref dp := by
  induction n generalizing fs ip path last with
  | zero => cases h
  | succ n ih =>
    rw [namexLoop] at h
    split at h
    · cases h
    · obtain ⟨fs₂, hl, h⟩ := bind_ok h
      split at h
      · cases h
      rename_i hdir
      split at h
      · obtain ⟨rfl, ho⟩ := Prod.mk.inj (Except.ok.inj h)
        obtain ⟨rfl, rfl⟩ := Prod.mk.inj (Option.some.inj ho)
        obtain ⟨href, -, -, hvalid, -⟩ := ilock_ok hl
        refine ⟨not_not.mp hdir, hvalid, ?_⟩
        rw [href]
        exact (ilock_pos hl)
      · obtain ⟨⟨fs₃, o⟩, -, h⟩ := bind_ok h
        cases o with
        | none => cases h
        | some x => exact ih h

theorem nameiparent_dir (h : nameiparent fs cwd path = .ok (fs₁, some (dp, name))) :
    (fs₁.inode dp).type = .dir ∧ fs₁.valid dp = true ∧ 0 < fs₁.ref dp := by
  unfold nameiparent namex at h
  split at h
  · obtain ⟨fs₂, -, h⟩ := bind_ok h
    exact namexLoop_dir h
  · exact namexLoop_dir h

theorem ilock_read (hv : fs.valid i = true) (hr : 0 < fs.ref i) : ilock fs i = .ok fs := by
  rw [ilock, if_neg (by omega), if_pos hv]

/-- What comes back with the reference to a directory. -/
theorem iput_nfree (hv : fs.valid i = true) :
    (iput fs i).nfree = if fs.unlinked i then fs.nfree + (fs.inode i).blocks else fs.nfree := by
  unfold iput
  by_cases h : fs.unlinked i
  · rw [if_pos ⟨h.1, hv, h.2⟩, if_pos h]
    rfl
  · rw [if_neg (fun hc => h ⟨hc.1, hc.2.2⟩), if_neg h]

/-- `create` where the name is there. -/
theorem create_found (hdir : nameiparent fs cwd path = .ok (fs₁, some (dp, name))) (hk : entIndex (fs₁.inode dp).ents name = some k)
    (hj : fs₁.entryInode dp k = j) : create fs cwd path .file 0 0 = (do
      let fs₂ ← iget fs₁ j
      let fs₃ ← ilock (iput fs₂ dp) j
      if (fs₃.inode j).type = .file ∨ (fs₃.inode j).type = .device then .ok (fs₃, some j) else .ok (iput fs₃ j, none)) := by
  obtain ⟨htype, hvalid, href⟩ := nameiparent_dir hdir
  subst hj
  rw [create, bind_of_ok hdir]
  dsimp only
  rw [bind_of_ok (ilock_read hvalid href), dirlookup, if_neg (not_not_intro htype), hk]
  change ((iget fs₁ (fs₁.entryInode dp k) >>= _) >>= _) = _
  cases iget fs₁ (fs₁.entryInode dp k) with
  | error e => rfl
  | ok fs₂ =>
    change (ilock (iput fs₂ dp) (fs₁.entryInode dp k) >>= _) = (ilock (iput fs₂ dp) (fs₁.entryInode dp k) >>= _)
    simp only [true_and]
    rfl

/-- `create` where the name is not there. -/
theorem create_missing (hdir : nameiparent fs cwd path = .ok (fs₁, some (dp, name))) (hk : entIndex (fs₁.inode dp).ents name = none) :
    create fs cwd path .file 0 0 = match firstFree fs₁ 1 (fs₁.ninodes - 1) with
      | none => .ok (iput fs₁ dp, none)
      | some j => iget (fs₁.setInode j (Inode.empty .file)) j >>= fun fs₂ => createLink fs₂ dp j name .file 0 0 := by
  obtain ⟨htype, hvalid, href⟩ := nameiparent_dir hdir
  rw [create, bind_of_ok hdir]
  dsimp only
  rw [bind_of_ok (ilock_read hvalid href), dirlookup, if_neg (not_not_intro htype), hk]
  change (ialloc fs₁ .file >>= _) = _
  unfold ialloc
  cases firstFree fs₁ 1 (fs₁.ninodes - 1) with
  | none => rfl
  | some j =>
    dsimp only
    cases iget (fs₁.setInode j (Inode.empty .file)) j with
    | error e => rfl
    | ok fs₂ => rfl

/-- Locking an inode reads it from disk, and changes nothing else. -/
theorem ilock_room (h : ilock fs i = .ok fs') : fs'.nfree = fs.nfree ∧ fs'.inode = fs.inode := by
  unfold ilock at h
  split at h
  · cases h
  split at h
  · obtain rfl := Except.ok.inj h
    exact ⟨rfl, rfl⟩
  split at h
  · cases h
  · obtain rfl := Except.ok.inj h
    exact ⟨rfl, rfl⟩

/-- `ilock` of an inode does not panic: it is held, and has been read or is allocated. -/
def Fs.Lockable (fs : Fs) (i : Nat) : Prop := 0 < fs.ref i ∧ (fs.valid i = true ∨ (fs.inode i).type ≠ .free)

instance (fs : Fs) (i : Nat) : Decidable (fs.Lockable i) := inferInstanceAs (Decidable (_ ∧ _))

theorem ilock_iff : (∃ fs', ilock fs i = .ok fs') ↔ fs.Lockable i := by
  unfold ilock Fs.Lockable
  by_cases href : fs.ref i < 1
  · rw [if_pos href]
    exact iff_of_false nofun (fun h => by omega)
  rw [if_neg href]
  have hpos : 0 < fs.ref i := by omega
  by_cases hv : fs.valid i = true
  · rw [if_pos hv]
    exact iff_of_true ⟨_, rfl⟩ ⟨hpos, Or.inl hv⟩
  rw [if_neg hv]
  by_cases hfree : (fs.inode i).type = .free
  · rw [if_pos hfree]
    exact iff_of_false nofun (fun h => h.2.elim hv (fun hn => hn hfree))
  · rw [if_neg hfree]
    exact iff_of_true ⟨_, rfl⟩ ⟨hpos, Or.inr hfree⟩

/-- An inode that is held and allocated can be locked. -/
theorem ilock_held (href : 0 < fs.ref i) (htype : (fs.inode i).type ≠ .free) : ∃ fs', ilock fs i = .ok fs' :=
  ilock_iff.mpr ⟨href, Or.inr htype⟩

theorem ilock_valid_of_ne (h : ilock fs i = .ok fs') (hne : k ≠ i) : fs'.valid k = fs.valid k := by
  unfold ilock at h
  split at h
  · cases h
  split at h
  · obtain rfl := Except.ok.inj h
    rfl
  split at h
  · cases h
  · obtain rfl := Except.ok.inj h
    exact Function.update_of_ne hne _ _

/-- `dirlink` of a name that is not in the directory. -/
theorem dirlink_missing {n : Nat} (hdir : (fs.inode dp).type = .dir) (hk : entIndex (fs.inode dp).ents name = none) :
    ∃ fs', dirlink fs dp name n = .ok (fs', decide ((fs.inode dp).TakesEntry fs.nfree)) ∧ ((fs.inode dp).TakesEntry fs.nfree →
      fs'.nfree = fs.nfree - (fs.inode dp).entryCost ∧ (fs'.inode dp).nlink = (fs.inode dp).nlink ∧
        (fs'.inode dp).blocks = (fs.inode dp).blocks + (fs.inode dp).entryCost) := by
  have hlook : dirlookup fs dp name = .ok (fs, none) := by rw [dirlookup, if_neg (not_not_intro hdir), hk]
  rw [dirlink, bind_of_ok hlook]
  dsimp only
  unfold writeDirent
  change ∃ fs', (if maxFile * bSize < 16 * (fs.inode dp).entryAt + 16 then _ else _) = _ ∧ _
  by_cases hend : maxFile * bSize < 16 * (fs.inode dp).entryAt + 16
  · have hno : ¬(fs.inode dp).TakesEntry fs.nfree := fun h => absurd h.1 (Nat.not_le.mpr hend)
    rw [if_pos hend]
    exact ⟨fs, by simp [hno], fun h => absurd h hno⟩
  rw [if_neg hend]
  have hlt : 16 * (fs.inode dp).entryAt / bSize < maxFile := by
    have : maxFile * bSize = 274432 := rfl
    change _ / 1024 < 268
    omega
  obtain ⟨fs₁, hmap, hgot⟩ := @bmap_cost fs dp _ hlt
  change ∃ fs', (bmap fs dp (16 * (fs.inode dp).entryAt / bSize) >>= _) = _ ∧ _
  rw [bind_of_ok hmap]
  have hiff : (fs.inode dp).TakesEntry fs.nfree ↔ (fs.inode dp).blockCost (16 * (fs.inode dp).entryAt / bSize) ≤ fs.nfree :=
    and_iff_right (Nat.not_lt.mp hend)
  simp only [decide_eq_true_eq, hiff]
  by_cases hcost : (fs.inode dp).blockCost (16 * (fs.inode dp).entryAt / bSize) ≤ fs.nfree
  · obtain ⟨hfree, hino⟩ := hgot hcost
    rw [if_pos hcost]
    simp only [hcost, decide_true]
    refine ⟨_, rfl, fun _ => ⟨?_, ?_, ?_⟩⟩
    · rw [Fs.modInode_nfree, Inode.entryCost]
      omega
    · rw [Fs.modInode_inode, if_pos rfl, hino]
      rfl
    · rw [Fs.modInode_inode, if_pos rfl, hino]
      exact Inode.blocks_withBlock _ hlt
  · rw [if_neg hcost]
    exact ⟨fs₁, by simp [hcost], fun h => absurd h hcost⟩

/-- `createLink` of a new file, in a directory in which the name is not: the entry is written when it fits. -/
theorem createLink_file {fs₂ : Fs} (hdir : (fs₂.inode dp).type = .dir) (hvalid : fs₂.valid dp = true)
    (hk : entIndex (fs₂.inode dp).ents name = none) (hj : fs₂.inode j = Inode.empty .file) (href : 0 < fs₂.ref j) :
    ∃ fs₃ o, createLink fs₂ dp j name .file 0 0 = .ok (fs₃, o) ∧
      (o = none ∧ ¬(fs₂.inode dp).TakesEntry fs₂.nfree ∨
        o = some j ∧ (fs₂.inode dp).TakesEntry fs₂.nfree ∧ 0 < fs₃.ref j ∧ fs₃.inode j = { Inode.empty .file with nlink := 1 } ∧
          fs₃.nfree = if fs₂.unlinked dp then fs₂.nfree + (fs₂.inode dp).blocks else fs₂.nfree - (fs₂.inode dp).entryCost) := by
  have hne : dp ≠ j := by
    rintro rfl
    rw [hj] at hdir
    cases hdir
  obtain ⟨fs₃, hl⟩ := ilock_held href (i := j) (by rw [hj]; exact nofun)
  obtain ⟨hfree, hino⟩ := ilock_room hl
  obtain ⟨hr, -, -, -, -⟩ := ilock_ok hl
  rw [createLink, bind_of_ok hl]
  dsimp only
  rw [if_neg nofun]
  generalize hg : fs₃.modInode j (fun x => { x with major := wrap16 0, minor := wrap16 0, nlink := 1 }) = fs₄
  have hdp : fs₄.inode dp = fs₂.inode dp := by rw [← hg, Fs.modInode_inode, if_neg hne, hino]
  have hnew : fs₄.inode j = { Inode.empty .file with nlink := 1 } := by
    rw [← hg, Fs.modInode_inode, if_pos rfl, hino, hj]
    rfl
  have hnfree : fs₄.nfree = fs₂.nfree := by rw [← hg, Fs.modInode_nfree, hfree]
  obtain ⟨fs₅, hlink, hgot⟩ := @dirlink_missing fs₄ dp name j (hdp ▸ hdir) (hdp ▸ hk)
  rw [hdp, hnfree] at hlink hgot
  rw [bind_of_ok hlink]
  by_cases hroom : (fs₂.inode dp).TakesEntry fs₂.nfree
  · obtain ⟨h1, h2, h3⟩ := hgot hroom
    have hedit : fs₄.Edits dp fs₅ := by
      obtain ⟨-, ⟨hb, -⟩ | ⟨k, de, hw⟩⟩ := dirlink_cases hlink
      · rw [decide_eq_false_iff_not] at hb
        exact absurd hroom hb
      · exact writeDirent_edits hw
    simp only [hroom, decide_true]
    refine ⟨_, _, rfl, Or.inr ⟨rfl, trivial, ?_, ?_, ?_⟩⟩
    · rw [iput_ref, Function.update_of_ne hne.symm, hedit.ref, ← hg, Fs.modInode_ref, hr]
      exact href
    · rw [iput_inode_of_ne _ hne.symm, hedit.other j hne.symm, hnew]
    · have hv : fs₅.valid dp = true := by
        rw [hedit.valid, ← hg]
        exact (ilock_valid_of_ne hl hne).trans hvalid
      have hun : fs₅.unlinked dp ↔ fs₂.unlinked dp := by
        unfold Fs.unlinked
        rw [hedit.ref, h2, ← hg, Fs.modInode_ref, hr]
      rw [iput_nfree hv, if_congr hun rfl rfl, h1, h3]
      have hle := hroom.2
      split <;> omega
  · simp only [hroom, decide_false]
    exact ⟨_, _, rfl, Or.inl ⟨rfl, not_false⟩⟩

/-! ## The swap file -/

/-- `create_swap_file` opens a file like this inode, and leaves so many free blocks. The directory of its name is found, `itable` has an
entry for the inode, and `ftable` one for the file. Either the name is that of a file or a device, or it is not there, an inode is free and
the directory has room for the name. -/
inductive NewSwap (fs : Fs) (cwd : Nat) (pid : Int) : Inode → Nat → Prop where
  | found {fs₁ : Fs} {dp k : Nat} {name : Name} (dir : nameiparent fs cwd (swapname pid) = .ok (fs₁, some (dp, name)))
      (entry : entIndex (fs₁.inode dp).ents name = some k) (table : fs₁.Gettable (fs₁.entryInode dp k))
      (type : (fs₁.inode (fs₁.entryInode dp k)).type = .file ∨ (fs₁.inode (fs₁.entryInode dp k)).type = .device)
      (file : (filealloc fs).2.isSome) :
      NewSwap fs cwd pid (fs₁.inode (fs₁.entryInode dp k))
        (if fs₁.unlinked dp then fs₁.nfree + (fs₁.inode dp).blocks else fs₁.nfree)
  | made {fs₁ : Fs} {dp j : Nat} {name : Name} (dir : nameiparent fs cwd (swapname pid) = .ok (fs₁, some (dp, name)))
      (entry : entIndex (fs₁.inode dp).ents name = none) (free : firstFree fs₁ 1 (fs₁.ninodes - 1) = some j) (table : fs₁.Gettable j)
      (room : (fs₁.inode dp).TakesEntry fs₁.nfree) (file : (filealloc fs).2.isSome) :
      NewSwap fs cwd pid { Inode.empty .file with nlink := 1 }
        (if fs₁.unlinked dp then fs₁.nfree + (fs₁.inode dp).blocks else fs₁.nfree - (fs₁.inode dp).entryCost)

/-- `create_swap_file` panics: the lookup of the name does, or the name is that of a free inode that nobody has read, or `itable` has no
entry for the inode. -/
inductive SwapPanics (fs : Fs) (cwd : Nat) (pid : Int) : Prop where
  | lookup {e : Panic} (dir : nameiparent fs cwd (swapname pid) = .error e)
  | dangling {fs₁ : Fs} {dp k : Nat} {name : Name} (dir : nameiparent fs cwd (swapname pid) = .ok (fs₁, some (dp, name)))
      (entry : entIndex (fs₁.inode dp).ents name = some k) (free : (fs₁.inode (fs₁.entryInode dp k)).type = .free)
      (unread : ¬fs₁.Lockable (fs₁.entryInode dp k))
  | found {fs₁ : Fs} {dp k : Nat} {name : Name} (dir : nameiparent fs cwd (swapname pid) = .ok (fs₁, some (dp, name)))
      (entry : entIndex (fs₁.inode dp).ents name = some k) (full : ¬fs₁.Gettable (fs₁.entryInode dp k))
  | made {fs₁ : Fs} {dp j : Nat} {name : Name} (dir : nameiparent fs cwd (swapname pid) = .ok (fs₁, some (dp, name)))
      (entry : entIndex (fs₁.inode dp).ents name = none) (free : firstFree fs₁ 1 (fs₁.ninodes - 1) = some j) (full : ¬fs₁.Gettable j)

section Make

variable {ip : Inode} {n f : Nat}

/-- `create_swap_file` after `create` gave it an inode. -/
theorem makeSwapFile_create (hc : create fs cwd (swapname pid) .file 0 0 = .ok (fs₁, some j)) (hheld : 0 < fs₁.ref j)
    (hfile : (filealloc fs).2.isSome) : ∃ fs' f, makeSwapFile fs cwd pid = .ok (fs', some f) ∧ fs'.Lockable (fs'.ftable f).ip ∧
      fs'.openInode f = fs₁.inode j ∧ fs'.nfree = fs₁.nfree := by
  have hlock : fs₁.Lockable j := ⟨hheld, Or.inl (create_valid hc)⟩
  rw [← filealloc_congr (create_ftable (by decide) hc)] at hfile
  obtain ⟨f, hf⟩ := Option.isSome_iff_exists.mp hfile
  obtain ⟨fs₂, ha⟩ : ∃ fs₂, filealloc fs₁ = (fs₂, some f) := ⟨(filealloc fs₁).1, by rw [← hf]⟩
  obtain ⟨-, -, rfl⟩ := filealloc_some ha
  rw [makeSwapFile, bind_of_ok hc]
  dsimp only
  rw [ha]
  refine ⟨_, f, rfl, ?_, ?_, rfl⟩
  · simp only [Function.update_self]
    exact hlock
  · simp only [Fs.openInode, Function.update_self]

/-- `create` of a name that is there: it returns the inode when it is a file or a device. -/
theorem create_finds (hdir : nameiparent fs cwd path = .ok (fs₁, some (dp, name))) (hk : entIndex (fs₁.inode dp).ents name = some k)
    (hj : fs₁.entryInode dp k = j) (htable : fs₁.Gettable j) (hread : (fs₁.inode j).type ≠ .free ∨ fs₁.Lockable j) :
    ∃ fs₂ o, create fs cwd path .file 0 0 = .ok (fs₂, o) ∧
      (o = none ∧ ¬((fs₁.inode j).type = .file ∨ (fs₁.inode j).type = .device) ∨
        o = some j ∧ ((fs₁.inode j).type = .file ∨ (fs₁.inode j).type = .device) ∧ 0 < fs₂.ref j ∧ fs₂.inode j = fs₁.inode j ∧
          fs₂.nfree = if fs₁.unlinked dp then fs₁.nfree + (fs₁.inode dp).blocks else fs₁.nfree) := by
  obtain ⟨hisdir, hvalid, hheld⟩ := nameiparent_dir hdir
  obtain ⟨fs₂, hg, hfree, hv⟩ := iget_gettable htable
  obtain ⟨hr, hino, -, -⟩ := iget_ok hg
  -- the name may be that of the directory itself, which is then held twice
  have hkept : (iput fs₂ dp).inode j = fs₁.inode j ∧ 0 < (iput fs₂ dp).ref j := by
    by_cases hne : j = dp
    · subst hne
      have hnot : ¬freesInode fs₂ j := by
        rintro ⟨hone, -⟩
        rw [hr, Function.update_self] at hone
        omega
      rw [iput_of_not hnot, hino]
      refine ⟨rfl, ?_⟩
      simp only [hr, Function.update_self]
      exact hheld
    · rw [iput_inode_of_ne _ hne, hino, iput_ref, Function.update_of_ne hne, hr, Function.update_self]
      exact ⟨rfl, by omega⟩
  obtain ⟨fs₃, hl⟩ : ∃ fs₃, ilock (iput fs₂ dp) j = .ok fs₃ := by
    by_cases halloc : (fs₁.inode j).type = .free
    · obtain ⟨hheld, hfree⟩ := hread.resolve_left (not_not.mpr halloc)
      have hne : j ≠ dp := by
        rintro rfl
        rw [hisdir] at halloc
        cases halloc
      refine ilock_iff.mpr ⟨hkept.2, Or.inl ?_⟩
      rw [iput_valid_of_ne _ hne, hv j (Or.inr hheld)]
      exact hfree.resolve_right (not_not.mpr halloc)
    · exact ilock_held hkept.2 (by rw [hkept.1]; exact halloc)
  obtain ⟨hfree₃, hino₃⟩ := ilock_room hl
  rw [create_found hdir hk hj, bind_of_ok hg, bind_of_ok hl, hino₃, hkept.1]
  by_cases htype : (fs₁.inode j).type = .file ∨ (fs₁.inode j).type = .device
  · have hne : dp ≠ j := by
      rintro rfl
      rw [hisdir] at htype
      rcases htype with ht | ht <;> cases ht
    have hun : fs₂.unlinked dp ↔ fs₁.unlinked dp := by
      unfold Fs.unlinked
      rw [hr, hino, Function.update_of_ne hne]
    rw [if_pos htype]
    refine ⟨fs₃, _, rfl, Or.inr ⟨rfl, htype, ?_, ?_, ?_⟩⟩
    · rw [(ilock_ok hl).1]
      exact hkept.2
    · rw [hino₃, hkept.1]
    · rw [hfree₃, iput_nfree ((hv dp (Or.inl hne)).trans hvalid), if_congr hun rfl rfl, hfree, hino]
  · rw [if_neg htype]
    exact ⟨_, _, rfl, Or.inl ⟨rfl, htype⟩⟩

/-- `create` of a name that is not there, with a free inode: it makes the file when the directory has room. -/
theorem create_makes (hdir : nameiparent fs cwd path = .ok (fs₁, some (dp, name))) (hk : entIndex (fs₁.inode dp).ents name = none)
    (hfirst : firstFree fs₁ 1 (fs₁.ninodes - 1) = some j) (htable : fs₁.Gettable j) :
    ∃ fs₂ o, create fs cwd path .file 0 0 = .ok (fs₂, o) ∧
      (o = none ∧ ¬(fs₁.inode dp).TakesEntry fs₁.nfree ∨
        o = some j ∧ (fs₁.inode dp).TakesEntry fs₁.nfree ∧ 0 < fs₂.ref j ∧ fs₂.inode j = { Inode.empty .file with nlink := 1 } ∧
          fs₂.nfree = if fs₁.unlinked dp then fs₁.nfree + (fs₁.inode dp).blocks else fs₁.nfree - (fs₁.inode dp).entryCost) := by
  obtain ⟨hisdir, hvalid, -⟩ := nameiparent_dir hdir
  have hne : dp ≠ j := by
    rintro rfl
    rw [firstFree_some hfirst] at hisdir
    cases hisdir
  obtain ⟨fs₂, hg, hfree, hv⟩ := @iget_gettable (fs₁.setInode j (Inode.empty .file)) j htable
  obtain ⟨hr, hino, -, -⟩ := iget_ok hg
  have hdp : fs₂.inode dp = fs₁.inode dp := by rw [hino, Fs.setInode_inode, if_neg hne]
  have hnfree : fs₂.nfree = fs₁.nfree := hfree
  have hun : fs₂.unlinked dp ↔ fs₁.unlinked dp := by
    unfold Fs.unlinked
    rw [hdp, hr, Function.update_of_ne hne]
    rfl
  obtain ⟨fs₃, o, hlink, hend⟩ := @createLink_file dp j name fs₂ (by rw [hdp]; exact hisdir)
    ((hv dp (Or.inl hne)).trans hvalid) (by rw [hdp]; exact hk) (by rw [hino, Fs.setInode_inode, if_pos rfl])
    (by rw [hr, Function.update_self]; omega)
  rw [hdp, hnfree, if_congr hun rfl rfl] at hend
  refine ⟨fs₃, o, ?_, hend⟩
  rw [create_missing hdir hk, hfirst]
  exact (bind_of_ok hg _).trans hlink

theorem NewSwap.eq (h : NewSwap fs cwd pid ip n) :
    ∃ fs' f, makeSwapFile fs cwd pid = .ok (fs', some f) ∧ fs'.Lockable (fs'.ftable f).ip ∧ fs'.openInode f = ip ∧ fs'.nfree = n := by
  cases h with
  | found hdir hk htable htype hfile =>
    obtain ⟨fs₂, o, hc, ⟨-, hno⟩ | ⟨rfl, -, hheld, hino, hfree⟩⟩ :=
      create_finds hdir hk rfl htable (Or.inl (by rcases htype with ht | ht <;> rw [ht] <;> exact nofun))
    · exact absurd htype hno
    · obtain ⟨fs', f, hm, hlock, hopen, hn⟩ := makeSwapFile_create hc hheld hfile
      exact ⟨fs', f, hm, hlock, hopen.trans hino, hn.trans hfree⟩
  | made hdir hk hfirst htable hroom hfile =>
    obtain ⟨fs₂, o, hc, ⟨-, hno⟩ | ⟨rfl, -, hheld, hino, hfree⟩⟩ := create_makes hdir hk hfirst htable
    · exact absurd hroom hno
    · obtain ⟨fs', f, hm, hlock, hopen, hn⟩ := makeSwapFile_create hc hheld hfile
      exact ⟨fs', f, hm, hlock, hopen.trans hino, hn.trans hfree⟩

theorem makeSwapFile_error {e : Panic} (hc : create fs cwd (swapname pid) .file 0 0 = .error e) : makeSwapFile fs cwd pid = .error e := by
  rw [makeSwapFile, hc]
  rfl

theorem SwapPanics.eq (h : SwapPanics fs cwd pid) : ∃ e, makeSwapFile fs cwd pid = .error e := by
  have hget : ∀ {fs₁ : Fs} {dp k : Nat} {name : Name}, nameiparent fs cwd (swapname pid) = .ok (fs₁, some (dp, name)) →
      entIndex (fs₁.inode dp).ents name = some k → ¬fs₁.Gettable (fs₁.entryInode dp k) → ∃ e, makeSwapFile fs cwd pid = .error e := by
    intro fs₁ dp k name hdir hk hfull
    refine ⟨.igetNoInodes, makeSwapFile_error ?_⟩
    rw [create_found hdir hk rfl, iget_full hfull]
    rfl
  cases h with
  | lookup hdir =>
    rename_i e
    refine ⟨e, makeSwapFile_error ?_⟩
    rw [create, hdir]
    rfl
  | found hdir hk hfull => exact hget hdir hk hfull
  | made hdir hk hfirst hfull =>
    refine ⟨.igetNoInodes, makeSwapFile_error ?_⟩
    rw [create_missing hdir hk, hfirst]
    dsimp only
    rw [@iget_full (Fs.setInode _ _ _) _ hfull]
    rfl
  | dangling hdir hk hfree hunread =>
    rename_i fs₁ dp k name
    by_cases htable : fs₁.Gettable (fs₁.entryInode dp k)
    swap
    · exact hget hdir hk htable
    generalize hj : fs₁.entryInode dp k = j at htable hfree hunread
    obtain ⟨hisdir, hvalid, -⟩ := nameiparent_dir hdir
    have hne : j ≠ dp := by
      rintro rfl
      rw [hisdir] at hfree
      cases hfree
    obtain ⟨fs₂, hg, -⟩ := iget_gettable htable
    obtain ⟨hr, hino, -, hv⟩ := iget_ok hg
    have hread : (iput fs₂ dp).valid j ≠ true := by
      rw [iput_valid_of_ne _ hne]
      intro h
      obtain ⟨hpos, hvalid⟩ := iget_read hg h
      exact hunread ⟨hpos, Or.inl hvalid⟩
    refine ⟨.ilockNoType, makeSwapFile_error ?_⟩
    rw [create_found hdir hk hj, bind_of_ok hg]
    have hl : ilock (iput fs₂ dp) j = .error .ilockNoType := by
      rw [ilock, if_neg, if_neg hread, if_pos]
      · rw [iput_inode_of_ne _ hne, hino]
        exact hfree
      · rw [iput_ref, Function.update_of_ne hne, hr, Function.update_self]
        omega
    rw [hl]
    rfl

/-- `create_swap_file` panics, or opens a file, or gives up. -/
theorem makeSwapFile_total (fs : Fs) (cwd : Nat) (pid : Int) :
    SwapPanics fs cwd pid ∨ (∃ ip n, NewSwap fs cwd pid ip n) ∨ ∃ fs', makeSwapFile fs cwd pid = .ok (fs', none) := by
  have hnone : ∀ {fs₁ : Fs}, create fs cwd (swapname pid) .file 0 0 = .ok (fs₁, none) → ∃ fs', makeSwapFile fs cwd pid = .ok (fs', none) := by
    intro fs₁ hc
    refine ⟨fs₁, ?_⟩
    rw [makeSwapFile, bind_of_ok hc]
  have hnofile : ∀ {fs₁ : Fs} {j : Nat}, create fs cwd (swapname pid) .file 0 0 = .ok (fs₁, some j) → ¬(filealloc fs).2.isSome →
      ∃ fs', makeSwapFile fs cwd pid = .ok (fs', none) := by
    intro fs₁ j hc hno
    rw [← filealloc_congr (create_ftable (by decide) hc), Bool.not_eq_true, Option.isSome_eq_false_iff, Option.isNone_iff_eq_none] at hno
    obtain ⟨fs₂, ha⟩ : ∃ fs₂, filealloc fs₁ = (fs₂, none) := ⟨(filealloc fs₁).1, by rw [← hno]⟩
    refine ⟨iput fs₂ j, ?_⟩
    rw [makeSwapFile, bind_of_ok hc]
    dsimp only
    rw [ha]
  cases hdir : nameiparent fs cwd (swapname pid) with
  | error e => exact Or.inl (.lookup hdir)
  | ok x =>
    obtain ⟨fs₁, o⟩ := x
    cases o with
    | none =>
      refine Or.inr (Or.inr (@hnone fs₁ ?_))
      rw [create, bind_of_ok hdir]
    | some y =>
      obtain ⟨dp, name⟩ := y
      cases hk : entIndex (fs₁.inode dp).ents name with
      | some k =>
        by_cases htable : fs₁.Gettable (fs₁.entryInode dp k)
        swap
        · exact Or.inl (.found hdir hk htable)
        by_cases hread : (fs₁.inode (fs₁.entryInode dp k)).type ≠ .free ∨ fs₁.Lockable (fs₁.entryInode dp k)
        swap
        · rw [not_or, not_not] at hread
          exact Or.inl (.dangling hdir hk hread.1 hread.2)
        obtain ⟨fs₂, o, hc, ⟨rfl, -⟩ | ⟨rfl, htype, -⟩⟩ := create_finds hdir hk rfl htable hread
        · exact Or.inr (Or.inr (hnone hc))
        · by_cases hfile : (filealloc fs).2.isSome
          · exact Or.inr (Or.inl ⟨_, _, .found hdir hk htable htype hfile⟩)
          · exact Or.inr (Or.inr (hnofile hc hfile))
      | none =>
        cases hfirst : firstFree fs₁ 1 (fs₁.ninodes - 1) with
        | none =>
          refine Or.inr (Or.inr (@hnone (iput fs₁ dp) ?_))
          rw [create_missing hdir hk, hfirst]
        | some j =>
          by_cases htable : fs₁.Gettable j
          swap
          · exact Or.inl (.made hdir hk hfirst htable)
          obtain ⟨fs₂, o, hc, ⟨rfl, -⟩ | ⟨rfl, hroom, -⟩⟩ := create_makes hdir hk hfirst htable
          · exact Or.inr (Or.inr (hnone hc))
          · by_cases hfile : (filealloc fs).2.isSome
            · exact Or.inr (Or.inl ⟨_, _, .made hdir hk hfirst htable hroom hfile⟩)
            · exact Or.inr (Or.inr (hnofile hc hfile))

theorem makeSwapFile_new (h : makeSwapFile fs cwd pid = .ok (fs', some f)) :
    NewSwap fs cwd pid (fs'.openInode f) fs'.nfree ∧ fs'.Lockable (fs'.ftable f).ip := by
  rcases makeSwapFile_total fs cwd pid with hp | ⟨ip, n, hn⟩ | ⟨fs₁, hnone⟩
  · obtain ⟨e, he⟩ := hp.eq
    rw [he] at h
    cases h
  · obtain ⟨fs₁, g, hm, hlock, rfl, rfl⟩ := hn.eq
    rw [hm] at h
    obtain ⟨rfl, hf⟩ := Prod.mk.inj (Except.ok.inj h)
    obtain rfl := Option.some.inj hf
    exact ⟨hn, hlock⟩
  · rw [hnone] at h
    cases h

end Make

end Xv6SnifferBakery.Kernel
