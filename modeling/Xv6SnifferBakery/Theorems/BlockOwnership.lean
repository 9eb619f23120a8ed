import Xv6SnifferBakery.Lemmas.Blocks
import Xv6SnifferBakery.Lib.Transition

/-!
# Every block has one owner

No two places of the inodes refer to one block, on disk or in memory, and what they refer to is marked in the free map. So `bfree` never
finds a clear bit, and `balloc` never hands out a block in use: in every run of the calls on any inodes, with their loops interrupted
anywhere, and with the disk full or a copy failing in the middle of a write.
-/

namespace Xv6SnifferBakery.Kernel

open Lib

namespace Disk

variable {first i : Nat} {d d' : Disk}

/-- A disk that `mkfs` has made, when the machine is switched on: no inode is in memory. The blocks below `first` are the boot block, the
superblock, the log, the inodes and the free map. -/
structure Formatted (first : Nat) (d : Disk) : Prop where
  exclusive : Exclusive (· < first) (fun b => d.bit b = true) d.holdsOnDisk
  boot : 0 < first
  small : d.size ≤ 2 ^ 32
  unused : ∀ i, d.ref i = 0

theorem Formatted.owned (h : Formatted first d) : Owned first d := by
  have hc : ∀ i, d.cached i = false := by
    intro i
    rw [cached, h.unused i]
    rfl
  have hholds : d.holds = d.holdsOnDisk := by
    funext x
    rw [holds, view, hc x.1]
    rfl
  refine ⟨hholds ▸ h.exclusive, h.boot, h.small, ?_⟩
  intro i hci
  rw [hc] at hci
  cases hci

/-! ## The inode table -/

/-- A change of the table by which the inodes keep their addresses, or lose some. -/
theorem Owned.table (h : Owned first d) (hbit : d'.bit = d.bit) (hblock : d'.block = d.block) (hsize : d'.size = d.size)
    (hview : ∀ j, ∀ k ≤ nDirect, (d'.view j).addrs k = 0 ∨ (d'.view j).addrs k = (d.view j).addrs k)
    (hagree : ∀ j, d'.cached j → ∀ k ≤ nDirect, (d'.dinode j).addrs k = 0 ∨ (d'.dinode j).addrs k = (d'.inode j).addrs k) :
    Owned first d' := by
  have hslot : ∀ ip s, d'.slot ip s = d.slot ip s := fun ip s => slot_congr (fun _ _ => rfl) (fun _ => by rw [hblock]) s
  refine ⟨h.exclusive.drop ?_ (fun b hb hb' => absurd (hbit ▸ hb) hb'), h.boot, hsize ▸ h.small, hagree⟩
  intro x b hx
  rw [holds, hslot] at hx
  exact slot_of_sub (hview x.1) hx

theorem view_eq_of (hc : d'.cached i = d.cached i) (hd : d'.dinode i = d.dinode i) (hm : d'.inode i = d.inode i) :
    d'.view i = d.view i := by
  rw [view, view, hc, hd, hm]

/-- On disk an inode has the addresses that it has in memory, or fewer. -/
theorem Owned.dinode_sub (h : Owned first d) (j : Nat) :
    ∀ k ≤ nDirect, (d.dinode j).addrs k = 0 ∨ (d.dinode j).addrs k = (d.view j).addrs k := by
  intro k hk
  by_cases hc : d.cached j
  · rw [view_of_cached hc]
    exact h.agree j hc k hk
  · rw [view, if_neg hc]
    exact .inr rfl

theorem Owned.iget (h : Owned first d) (hs : d.iget i = .ok d') : Owned first d' := by
  have hcached : ∀ j, d'.cached j = d.cached j ∧ d'.dinode = d.dinode ∧ d'.inode = d.inode ∧ d'.bit = d.bit ∧ d'.block = d.block ∧
      d'.size = d.size := by
    intro j
    unfold Disk.iget at hs
    split at hs
    · rename_i hpos
      obtain rfl := Except.ok.inj hs
      refine ⟨?_, rfl, rfl, rfl, rfl, rfl⟩
      by_cases hj : j = i
      · simp only [cached, hj, Function.update_self, hpos, Nat.succ_pos, decide_true]
      · simp only [cached, Function.update_of_ne hj]
    · split at hs
      · cases hs
      · rename_i hzero _
        obtain rfl := Except.ok.inj hs
        refine ⟨?_, rfl, rfl, rfl, rfl, rfl⟩
        by_cases hj : j = i
        · simp only [cached, hj, Function.update_self, hzero, Bool.and_false, decide_false, Bool.false_and]
        · simp only [cached, Function.update_of_ne hj]
  obtain ⟨-, hdin, hin, hbit, hblock, hsize⟩ := hcached i
  refine h.table hbit hblock hsize ?_ ?_
  · intro j k _
    rw [view_eq_of (hcached j).1 (congrFun hdin j) (congrFun hin j)]
    exact .inr rfl
  · intro j hcj
    rw [(hcached j).1] at hcj
    rw [hdin, hin]
    exact h.agree j hcj

theorem Owned.idup (h : Owned first d) (hi : 0 < d.ref i) : Owned first (d.idup i) :=
  h.iget (by rw [Disk.iget, if_pos hi]; rfl)

theorem Owned.ilock (h : Owned first d) (hs : d.ilock i = .ok d') : Owned first d' := by
  unfold Disk.ilock at hs
  split at hs
  · nomatch hs
  · split at hs
    · obtain rfl := Except.ok.inj hs
      exact h
    · rename_i hvalid
      split at hs
      · nomatch hs
      · obtain rfl := Except.ok.inj hs
        have hc : d.cached i = false := by
          rw [cached, Bool.eq_false_iff.mpr hvalid, Bool.and_false]
        refine h.table rfl rfl rfl ?_ ?_
        · intro j k _
          right
          by_cases hj : j = i
          · subst hj
            simp only [view, hc, Function.update_self, ite_self]
            rfl
          · rw [view_eq_of (d := d)]
            · simp only [cached, Function.update_of_ne hj]
            · rfl
            · exact Function.update_of_ne hj _ _
        · intro j hcj k hk
          by_cases hj : j = i
          · subst hj
            simp only [Function.update_self, or_true]
          · simp only [cached, Function.update_of_ne hj] at hcj ⊢
            exact h.agree j hcj k hk

theorem Owned.dropRef (h : Owned first d) (i : Nat) : Owned first (d.dropRef i) := by
  have hcached : ∀ j, (d.dropRef i).cached j → d.cached j := by
    intro j hcj
    by_cases hj : j = i
    · subst hj
      simp only [Disk.dropRef, cached, Function.update_self, Bool.and_eq_true, decide_eq_true_eq] at hcj ⊢
      exact ⟨by omega, hcj.2⟩
    · simpa only [Disk.dropRef, cached, Function.update_of_ne hj] using hcj
  refine h.table rfl rfl rfl ?_ (fun j hcj => h.agree j (hcached j hcj))
  intro j k hk
  by_cases hcj : (d.dropRef i).cached j
  · rw [view_of_cached hcj, view_of_cached (hcached j hcj)]
    exact .inr rfl
  · rw [view, if_neg hcj]
    exact h.dinode_sub j k hk

theorem Owned.invalidate (h : Owned first d) (i : Nat) : Owned first (d.invalidate i) := by
  have hcached : ∀ j, (d.invalidate i).cached j → d.cached j := by
    intro j hcj
    by_cases hj : j = i
    · subst hj
      simp only [Disk.invalidate, cached, Function.update_self, Bool.and_false] at hcj
      cases hcj
    · have hval : (d.invalidate i).valid j = d.valid j := by
        change Function.update d.valid i false j = d.valid j
        rw [Function.update_of_ne hj]
      rw [cached, hval] at hcj
      exact hcj
  refine h.table rfl rfl rfl ?_ (fun j hcj => h.agree j (hcached j hcj))
  intro j k hk
  by_cases hcj : (d.invalidate i).cached j
  · rw [view_of_cached hcj, view_of_cached (hcached j hcj)]
    exact .inr rfl
  · rw [view, if_neg hcj]
    exact h.dinode_sub j k hk

theorem Owned.iput (h : Owned first d) (hs : d.iput i = .ok d') : Owned first d' := by
  unfold Disk.iput at hs
  split at hs
  · rename_i hlast
    have hc : d.cached i := by
      rw [cached, hlast.1, hlast.2.1]
      rfl
    rw [bind_of_ok (h.itrunc_eq hc)] at hs
    obtain rfl := Except.ok.inj hs
    have hfree := ((h.itrunc hc).modInode (i := i) (f := fun ip => { ip with type := .free }) hc (fun _ => rfl)).iupdate (i := i) hc
    exact (hfree.invalidate i).dropRef i
  · obtain rfl := Except.ok.inj hs
    exact h.dropRef i

/-- An inode is wiped on disk. -/
theorem Owned.setDinode {ip : Dinode} (h : Owned first d) (hip : ∀ k, ip.addrs k = 0) : Owned first (d.setDinode i ip) := by
  have hset : (d.setDinode i ip).dinode = Function.update d.dinode i ip := rfl
  have hself : (d.setDinode i ip).dinode i = ip := by rw [hset, Function.update_self]
  have hother : ∀ j, j ≠ i → (d.setDinode i ip).dinode j = d.dinode j := by
    intro j hj
    rw [hset, Function.update_of_ne hj]
  have hcached : ∀ j, (d.setDinode i ip).cached j = d.cached j := fun _ => rfl
  refine h.table rfl rfl rfl ?_ ?_
  · intro j k _
    by_cases hj : j = i
    · subst hj
      by_cases hc : d.cached j
      · right
        rw [view_of_cached (d := d) hc, view_of_cached (d := d.setDinode j ip) hc]
        rfl
      · left
        rw [view, hcached, if_neg hc, hself, hip]
    · right
      rw [view_eq_of (hcached j) (hother j hj) rfl]
  · intro j hcj k hk
    by_cases hj : j = i
    · rw [hj, hself, hip]
      exact .inl rfl
    · rw [hother j hj]
      exact h.agree j hcj k hk

theorem Owned.ialloc {type : FileType} {o : Option Nat} (h : Owned first d) (hs : d.ialloc type = .ok (d', o)) : Owned first d' := by
  unfold Disk.ialloc at hs
  split at hs
  · obtain ⟨rfl, -⟩ := Prod.mk.inj (Except.ok.inj hs)
    exact h
  · obtain ⟨e, he, hs⟩ := bind_ok hs
    obtain ⟨rfl, -⟩ := Prod.mk.inj (Except.ok.inj hs)
    exact Owned.iget (h.setDinode (fun _ => rfl)) he

/-! ## Reading and writing -/

theorem Owned.readiTurn {off m : Nat} {o : Option (List Byte)} (h : Owned first d) (hc : d.cached i)
    (hs : d.readiTurn i off m = .ok (d', o)) : Owned first d' ∧ d'.cached i := by
  obtain ⟨⟨e, addr⟩, he, hs⟩ := bind_ok hs
  obtain ⟨h', hsame, -⟩ := h.bmap hc he
  dsimp only at hs
  split at hs
  · obtain ⟨rfl, -⟩ := Prod.mk.inj (Except.ok.inj hs)
    exact ⟨h', (hsame.cached i).trans hc⟩
  · obtain ⟨rfl, -⟩ := Prod.mk.inj (Except.ok.inj hs)
    exact ⟨h', (hsame.cached i).trans hc⟩

theorem Owned.readiLoop {off n fuel tot : Nat} {copyout : Nat → Bool} {out : List Byte} {r : Int × List Byte} (h : Owned first d)
    (hc : d.cached i) (hs : readiLoop i off n copyout fuel tot out d = .ok (d', r)) : Owned first d' := by
  induction fuel generalizing d tot out with
  | zero =>
    obtain ⟨rfl, -⟩ := Prod.mk.inj (Except.ok.inj hs)
    exact h
  | succ fuel ih =>
    unfold Disk.readiLoop at hs
    split at hs
    · obtain ⟨⟨e, o⟩, he, hs⟩ := bind_ok hs
      obtain ⟨h', hc'⟩ := h.readiTurn hc he
      cases o with
      | none =>
        obtain ⟨rfl, -⟩ := Prod.mk.inj (Except.ok.inj hs)
        exact h'
      | some bytes =>
        dsimp only at hs
        split at hs
        · exact ih h' hc' hs
        · obtain ⟨rfl, -⟩ := Prod.mk.inj (Except.ok.inj hs)
          exact h'
    · obtain ⟨rfl, -⟩ := Prod.mk.inj (Except.ok.inj hs)
      exact h

theorem Owned.writeiTurn {off m : Nat} {src : Option (Nat → Byte)} {b : Bool} (h : Owned first d) (hc : d.cached i)
    (hs : d.writeiTurn i off m src = .ok (d', b)) : Owned first d' ∧ d'.cached i := by
  obtain ⟨⟨e, addr⟩, he, hs⟩ := bind_ok hs
  obtain ⟨h', hsame, hslot⟩ := h.bmap hc he
  dsimp only at hs
  split at hs
  · obtain ⟨rfl, -⟩ := Prod.mk.inj (Except.ok.inj hs)
    exact ⟨h', (hsame.cached i).trans hc⟩
  · rename_i hne
    obtain ⟨s, hind, hheld⟩ := hslot hne
    cases src with
    | none =>
      obtain ⟨rfl, -⟩ := Prod.mk.inj (Except.ok.inj hs)
      exact ⟨h', (hsame.cached i).trans hc⟩
    | some src =>
      obtain ⟨rfl, -⟩ := Prod.mk.inj (Except.ok.inj hs)
      exact ⟨h'.setData hheld hind _, (hsame.cached i).trans hc⟩

theorem Owned.writeiEnd (h : Owned first d) (hc : d.cached i) (off : Nat) : Owned first (d.writeiEnd i off) :=
  (h.modInode (i := i) (f := fun ip => { ip with size := max ip.size off }) hc (fun _ => rfl)).iupdate (i := i) hc

theorem Owned.writeiLoop {off n fuel tot tot' : Nat} {copyin : Nat → Option (Nat → Byte)} (h : Owned first d) (hc : d.cached i)
    (hs : writeiLoop i off n copyin fuel tot d = .ok (d', tot')) : Owned first d' ∧ d'.cached i := by
  induction fuel generalizing d tot with
  | zero =>
    obtain ⟨rfl, -⟩ := Prod.mk.inj (Except.ok.inj hs)
    exact ⟨h, hc⟩
  | succ fuel ih =>
    unfold Disk.writeiLoop at hs
    split at hs
    · obtain ⟨⟨e, b⟩, he, hs⟩ := bind_ok hs
      obtain ⟨h', hc'⟩ := h.writeiTurn hc he
      cases b with
      | false =>
        obtain ⟨rfl, -⟩ := Prod.mk.inj (Except.ok.inj hs)
        exact ⟨h', hc'⟩
      | true => exact ih h' hc' hs
    · obtain ⟨rfl, -⟩ := Prod.mk.inj (Except.ok.inj hs)
      exact ⟨h, hc⟩

theorem Owned.writei {off n : Nat} {copyin : Nat → Option (Nat → Byte)} {o : Option Nat} (h : Owned first d) (hc : d.cached i)
    (hs : d.writei i off n copyin = .ok (d', o)) : Owned first d' := by
  unfold Disk.writei at hs
  split at hs
  · obtain ⟨rfl, -⟩ := Prod.mk.inj (Except.ok.inj hs)
    exact h
  · split at hs
    · obtain ⟨rfl, -⟩ := Prod.mk.inj (Except.ok.inj hs)
      exact h
    · obtain ⟨⟨e, tot⟩, he, hs⟩ := bind_ok hs
      obtain ⟨rfl, -⟩ := Prod.mk.inj (Except.ok.inj hs)
      obtain ⟨h', hc'⟩ := h.writeiLoop hc he
      exact h'.writeiEnd hc' _

theorem Owned.readi {off n : Nat} {copyout : Nat → Bool} {r : Int × List Byte} (h : Owned first d) (hc : d.cached i)
    (hs : d.readi i off n copyout = .ok (d', r)) : Owned first d' := by
  unfold Disk.readi at hs
  split at hs
  · obtain ⟨rfl, -⟩ := Prod.mk.inj (Except.ok.inj hs)
    exact h
  · exact h.readiLoop hc hs

/-! ## Steps -/

theorem Owned.step {op : DiskOp} (h : Owned first d) (hs : Disk.Step d op d') : Owned first d' := by
  obtain ⟨hadm, hs⟩ := hs
  cases op with
  | ialloc type =>
    obtain ⟨o, ho⟩ := fst_ok hs
    exact h.ialloc ho
  | iget i => exact h.iget hs
  | idup i =>
    obtain rfl := Except.ok.inj hs
    exact h.idup hadm
  | ilock i => exact h.ilock hs
  | iput i => exact h.iput hs
  | itrunc i =>
    rw [exec, h.itrunc_eq hadm] at hs
    obtain rfl := Except.ok.inj hs
    exact h.itrunc hadm
  | readi i off n copyout =>
    obtain ⟨r, hr⟩ := fst_ok hs
    exact h.readi hadm hr
  | writei i off n copyin =>
    obtain ⟨o, ho⟩ := fst_ok hs
    exact h.writei hadm ho
  | update i major minor nlink =>
    obtain rfl := Except.ok.inj hs
    exact (h.modInode (i := i) (f := fun ip => { ip with major, minor, nlink }) hadm (fun _ => rfl)).iupdate (i := i) hadm
  | bmapAddr i k =>
    obtain rfl := Except.ok.inj hs
    exact (h.bmapAddr hadm.1 hadm.2 rfl).1
  | readiTurn i off m =>
    obtain ⟨o, ho⟩ := fst_ok hs
    exact (h.readiTurn hadm ho).1
  | writeiTurn i off m src =>
    obtain ⟨b, hb⟩ := fst_ok hs
    exact (h.writeiTurn hadm hb).1
  | writeiEnd i off =>
    obtain rfl := Except.ok.inj hs
    exact h.writeiEnd hadm off

/-- The panic of `bfree`. -/
def IsFreeingFree (e : DiskPanic) : Prop := e = .freeingFreeBlock

theorem avoids_bmap (d : Disk) (i bn : Nat) : Avoids IsFreeingFree (d.bmap i bn) := by
  unfold Disk.bmap
  refine .ite (fun _ => .ok _) (fun _ => .ite (fun _ => ?_) (fun _ => .error nofun))
  dsimp only
  exact .ite (fun _ => .ok _) (fun _ => .ok _)

theorem avoids_readiTurn (d : Disk) (i off m : Nat) : Avoids IsFreeingFree (d.readiTurn i off m) := by
  refine (avoids_bmap d i _).bind ?_
  intro p _
  exact .ite (fun _ => .ok _) (fun _ => .ok _)

theorem avoids_writeiTurn (d : Disk) (i off m : Nat) (src : Option (Nat → Byte)) : Avoids IsFreeingFree (d.writeiTurn i off m src) := by
  refine (avoids_bmap d i _).bind ?_
  intro p _
  refine .ite (fun _ => .ok _) (fun _ => ?_)
  cases src with
  | none => exact .ok _
  | some src => exact .ok _

theorem avoids_readiLoop (i off n fuel tot : Nat) (copyout : Nat → Bool) (out : List Byte) (d : Disk) :
    Avoids IsFreeingFree (Disk.readiLoop i off n copyout fuel tot out d) := by
  induction fuel generalizing d tot out with
  | zero => exact .ok _
  | succ fuel ih =>
    unfold Disk.readiLoop
    refine .ite (fun _ => ?_) (fun _ => .ok _)
    refine (avoids_readiTurn d i _ _).bind ?_
    rintro ⟨e, o⟩ _
    cases o with
    | none => exact .ok _
    | some bytes => exact .ite (fun _ => ih _ _ _) (fun _ => .ok _)

theorem avoids_writeiLoop (i off n fuel tot : Nat) (copyin : Nat → Option (Nat → Byte)) (d : Disk) :
    Avoids IsFreeingFree (Disk.writeiLoop i off n copyin fuel tot d) := by
  induction fuel generalizing d tot with
  | zero => exact .ok _
  | succ fuel ih =>
    unfold Disk.writeiLoop
    refine .ite (fun _ => ?_) (fun _ => .ok _)
    refine (avoids_writeiTurn d i _ _ _).bind ?_
    rintro ⟨e, b⟩ _
    cases b with
    | false => exact .ok _
    | true => exact ih _ _

theorem avoids_iget (d : Disk) (i : Nat) : Avoids IsFreeingFree (d.iget i) :=
  .ite (fun _ => .ok _) (fun _ => .ite (fun _ => .error nofun) (fun _ => .ok _))

/-- No call that its caller may make frees a free block. -/
theorem Owned.avoids {op : DiskOp} (h : Owned first d) (hadm : d.Admits op) : Avoids IsFreeingFree (d.exec op) := by
  cases op with
  | ialloc type =>
    refine .map _ ?_
    unfold Disk.ialloc
    split
    · exact .ok _
    · exact (avoids_iget _ _).bind (fun _ _ => .ok _)
  | iget i => exact avoids_iget d i
  | ilock i => exact .ite (fun _ => .error nofun) (fun _ => .ite (fun _ => .ok _) (fun _ => .ite (fun _ => .error nofun) (fun _ => .ok _)))
  | iput i =>
    refine .ite (fun hlast => ?_) (fun _ => .ok _)
    have hc : d.cached i := by
      rw [cached, hlast.1, hlast.2.1]
      rfl
    rw [bind_of_ok (h.itrunc_eq hc)]
    exact .ok _
  | itrunc i =>
    rw [exec, h.itrunc_eq hadm]
    exact .ok _
  | readi i off n copyout => exact .map _ (.ite (fun _ => .ok _) (fun _ => avoids_readiLoop _ _ _ _ _ _ _ _))
  | writei i off n copyin =>
    refine .map _ (.ite (fun _ => .ok _) (fun _ => .ite (fun _ => .ok _) (fun _ => ?_)))
    exact (avoids_writeiLoop _ _ _ _ _ _ _).bind (fun _ _ => .ok _)
  | readiTurn i off m => exact .map _ (avoids_readiTurn _ _ _ _)
  | writeiTurn i off m src => exact .map _ (avoids_writeiTurn _ _ _ _ _)
  | idup | update | bmapAddr | writeiEnd => exact .ok _

/-- What is on disk refers to nothing that memory does not refer to. -/
theorem Owned.onDisk (h : Owned first d) {x : Nat × Slot} {b : Nat} (hx : d.holdsOnDisk x = some b) : d.holds x = some b :=
  slot_of_sub (h.dinode_sub x.1) hx

theorem Owned.balloc (h : Owned first d) (hne : d.balloc.2 ≠ 0) :
    first ≤ d.balloc.2 ∧ d.bit d.balloc.2 = false ∧ ∀ x, d.holds x ≠ some d.balloc.2 := by
  rcases d.balloc_cases with hnone | ⟨b, hbit, hlt, hsome⟩
  · rw [hnone] at hne
    exact absurd rfl hne
  · have hfresh := (h.fill hbit hlt).2.1
    rw [hsome]
    exact ⟨Nat.le_of_not_lt hfresh.data, hbit, h.exclusive.fresh (by rw [hbit]; exact Bool.false_ne_true)⟩

/-- In every run, no two places refer to one block, and every block referred to is a marked data block; what the inodes on disk refer to,
they refer to in memory as well. Truncating an inode succeeds, and clears the bits of its blocks and no other; no call finds that a block
it frees is free; and `balloc` finds no block that is in use. -/
theorem blocks_owned {start : Disk} {ops : List DiskOp} (h0 : Formatted first start) (h : Run Disk.Step start ops d) :
    (∀ x y b, d.holds x = some b → d.holds y = some b → x = y) ∧
      (∀ x b, d.holds x = some b → d.bit b = true ∧ first ≤ b) ∧
      (∀ x b, d.holdsOnDisk x = some b → d.holds x = some b) ∧
      (∀ i, d.cached i → ∃ d', d.itrunc i = .ok d' ∧ ∀ b, d'.bit b = true ↔ d.bit b = true ∧ ¬d.Owns i b) ∧
      (∀ op, d.Admits op → d.exec op ≠ .error .freeingFreeBlock) ∧
      (d.balloc.2 ≠ 0 → first ≤ d.balloc.2 ∧ d.bit d.balloc.2 = false ∧ ∀ x, d.holds x ≠ some d.balloc.2) := by
  have hr : Owned first d := h.invariant (Owned first) (fun _ _ _ hI hs => hI.step hs) h0.owned
  refine ⟨hr.exclusive.unique, ?_, fun x b => hr.onDisk, ?_, ?_, hr.balloc⟩
  · intro x b hx
    refine ⟨hr.exclusive.used_of x b hx, ?_⟩
    by_contra hlt
    exact (hr.exclusive.apart b (Nat.lt_of_not_le hlt)).2 x hx
  · intro i hc
    exact ⟨d.truncated i, hr.itrunc_eq hc, truncated_bit hc⟩
  · intro op hadm he
    exact hr.avoids hadm _ he rfl

/-- A small disk: three blocks for the file system itself, and a root directory with one block. -/
def small : Disk :=
  { size := 8, ninodes := 4, bit := fun b => b < 4, block := fun _ _ => 0,
    dinode := fun i =>
      if i = 1 then { type := .dir, major := 0, minor := 0, nlink := 1, size := 32, addrs := fun k => if k = 0 then 3 else 0 }
      else { type := .free, major := 0, minor := 0, nlink := 0, size := 0, addrs := fun _ => 0 }
    inode := fun _ => { type := .free, major := 0, minor := 0, nlink := 0, size := 0, addrs := fun _ => 0 }
    ref := fun _ => 0, valid := fun _ => false }

theorem small_formatted : Formatted 3 small := by
  have hholds : ∀ x b, small.holdsOnDisk x = some b → x = (1, .direct 0) ∧ b = 3 := by
    rintro ⟨i, s⟩ b hs
    by_cases hi : i = 1
    · subst hi
      cases s with
      | direct k =>
        by_cases hk : k = 0
        · subst hk
          exact ⟨rfl, (Option.some.inj hs).symm⟩
        · simp [holdsOnDisk, slot, small, hk] at hs
      | indirect => simp [holdsOnDisk, slot, small, nDirect] at hs
      | entry j => simp [holdsOnDisk, slot, small, nDirect] at hs
    · have hnone : small.holdsOnDisk (i, s) = none := slot_eq_none (fun k _ => by simp [small, hi]) s
      rw [hnone] at hs
      cases hs
  refine ⟨⟨?_, ?_, ?_⟩, by decide, by decide, fun _ => rfl⟩
  · intro x b hx
    rw [(hholds x b hx).2]
    rfl
  · intro x y b hx hy
    rw [(hholds x b hx).1, (hholds y b hy).1]
  · intro b hb
    refine ⟨decide_eq_true (by omega), ?_⟩
    intro x hx
    have heq := (hholds x b hx).2
    omega

/-- A new file of the small disk is written, until a copy fails. -/
theorem blocks_owned_small : ∃ ops d, Run Disk.Step small ops d ∧ d.holds (2, .direct 0) = some 4 ∧
    (∀ x y b, d.holds x = some b → d.holds y = some b → x = y) ∧
      (∀ x b, d.holds x = some b → d.bit b = true ∧ 3 ≤ b) ∧
      (∀ x b, d.holdsOnDisk x = some b → d.holds x = some b) ∧
      (∀ i, d.cached i → ∃ d', d.itrunc i = .ok d' ∧ ∀ b, d'.bit b = true ↔ d.bit b = true ∧ ¬d.Owns i b) ∧
      (∀ op, d.Admits op → d.exec op ≠ .error .freeingFreeBlock) ∧
      (d.balloc.2 ≠ 0 → 3 ≤ d.balloc.2 ∧ d.bit d.balloc.2 = false ∧ ∀ x, d.holds x ≠ some d.balloc.2) := by
  have hall : ([.ialloc .file, .ilock 2, .writei 2 0 3000 (fun tot => if tot < 2048 then some (fun _ => 7) else none)].foldlM Disk.next
      small).any (fun d => d.holds (2, .direct 0) = some 4) = true := by rfl
  obtain ⟨d, hd, hslot⟩ := (Option.any_eq_true _ _).mp hall
  have hrun := (Run.of_foldlM hd).mono (fun _ _ _ hs => next_eq_some.mp hs)
  exact ⟨_, d, hrun, of_decide_eq_true hslot, blocks_owned small_formatted hrun⟩

end Disk

end Xv6SnifferBakery.Kernel
