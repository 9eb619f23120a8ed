import Xv6SnifferBakery.Kernel.Fs.Block
import Xv6SnifferBakery.Lib.Exclusive

/-!
# Who refers to which block

The invariant of the free map, and what each primitive of `fs.c` does to the references: `balloc` marks a block that nobody refers to,
one slot then gets it, and writing a block changes references only where the block is an indirect one.
-/

namespace Xv6SnifferBakery.Kernel

open Lib

namespace Disk

variable {first i k : Nat} {d d' : Disk}

/-- The invariant. The blocks below `first` are the boot block, the superblock, the log, the inodes and the free map. -/
structure Owned (first : Nat) (d : Disk) : Prop where
  exclusive : Exclusive (· < first) (fun b => d.bit b = true) d.holds
  boot : 0 < first
  small : d.size ≤ 2 ^ 32
  /-- An address on disk is that of the copy in memory, or has not been written yet. -/
  agree : ∀ i, d.cached i → ∀ k ≤ nDirect, (d.dinode i).addrs k = 0 ∨ (d.dinode i).addrs k = (d.inode i).addrs k

/-- What `balloc` has just handed out. -/
structure Fresh (first : Nat) (d : Disk) (b : Nat) : Prop where
  data : ¬b < first
  marked : d.bit b = true
  free : ∀ x, d.holds x ≠ some b
  zero : d.block b = fun _ => 0
  small : b < 2 ^ 32

/-! ## Views -/

theorem view_of_cached (hc : d.cached i) : d.view i = d.inode i := by
  rw [view, if_pos hc]

theorem view_modInode (hc : d.cached i) (f : Dinode → Dinode) (j : Nat) :
    (d.modInode i f).view j = if j = i then f (d.view i) else d.view j := by
  have hcached : (d.modInode i f).cached j = d.cached j := rfl
  unfold view
  rw [hcached, hc, if_pos rfl]
  by_cases hj : j = i
  · rw [if_pos hj, hj, hc, if_pos rfl]
    exact Function.update_self i _ d.inode
  · rw [if_neg hj]
    have hne : (d.modInode i f).inode j = d.inode j := Function.update_of_ne hj _ _
    rw [hne]
    rfl

theorem view_setAddr (hc : d.cached i) (k b j : Nat) :
    (d.setAddr i k b).view j = if j = i then { d.view i with addrs := Function.update (d.view i).addrs k b } else d.view j :=
  view_modInode hc (fun ip => { ip with addrs := Function.update ip.addrs k b }) j

theorem view_iupdate (hc : d.cached i) (j : Nat) : (d.iupdate i).view j = d.view j := by
  have hcached : (d.iupdate i).cached j = d.cached j := rfl
  unfold view
  rw [hcached]
  by_cases hj : j = i
  · rw [hj, hc, if_pos rfl, if_pos rfl]
    rfl
  · have hne : (d.iupdate i).dinode j = d.dinode j := Function.update_of_ne hj _ _
    rw [hne]
    rfl

/-! ## References -/

theorem slot_congr {ip ip' : Dinode} (hip : ∀ k ≤ nDirect, ip'.addrs k = ip.addrs k)
    (hblock : ip.addrs nDirect ≠ 0 → d'.block (ip.addrs nDirect) = d.block (ip.addrs nDirect)) (s : Slot) : d'.slot ip' s = d.slot ip s := by
  have hind := hip nDirect (Nat.le_refl _)
  cases s with
  | direct k =>
    by_cases hk : k < nDirect
    · simp only [slot, hip k (Nat.le_of_lt hk)]
    · simp only [slot, hk, false_and, if_false]
  | indirect => simp only [slot, hind]
  | entry j =>
    by_cases hz : ip.addrs nDirect = 0
    · simp only [slot, hind, hz, ne_eq, not_true_eq_false, false_and, if_false]
    · simp only [slot, hind, hblock hz]

/-- An inode without addresses refers to nothing. -/
theorem slot_eq_none {ip : Dinode} (hip : ∀ k ≤ nDirect, ip.addrs k = 0) (s : Slot) : d.slot ip s = none := by
  have hind := hip nDirect (Nat.le_refl _)
  cases s with
  | direct k =>
    refine if_neg ?_
    rintro ⟨hk, hne⟩
    exact hne (hip k (Nat.le_of_lt hk))
  | indirect => exact if_neg (not_not.mpr hind)
  | entry j =>
    refine if_neg ?_
    rintro ⟨hne, -⟩
    exact hne hind

/-- References stay when the addresses do, and the contents of the indirect blocks. -/
theorem holds_congr (hview : ∀ i, ∀ k ≤ nDirect, (d'.view i).addrs k = (d.view i).addrs k)
    (hblock : ∀ i, (d.view i).addrs nDirect ≠ 0 → d'.block ((d.view i).addrs nDirect) = d.block ((d.view i).addrs nDirect))
    (x : Nat × Slot) : d'.holds x = d.holds x :=
  slot_congr (hview x.1) (hblock x.1) x.2

/-- An inode with some of the addresses of another refers to some of its blocks. -/
theorem slot_of_sub {ip ip' : Dinode} (h : ∀ k ≤ nDirect, ip'.addrs k = 0 ∨ ip'.addrs k = ip.addrs k) {s : Slot} {b : Nat}
    (hs : d.slot ip' s = some b) : d.slot ip s = some b := by
  cases s with
  | direct k =>
    simp only [slot] at hs ⊢
    split at hs
    · rename_i hk
      rcases h k (Nat.le_of_lt hk.1) with h0 | heq
      · exact absurd h0 hk.2
      · rw [← heq, if_pos hk]
        exact hs
    · nomatch hs
  | indirect =>
    simp only [slot] at hs ⊢
    split at hs
    · rename_i hz
      rcases h nDirect (Nat.le_refl _) with h0 | heq
      · exact absurd h0 hz
      · rw [← heq, if_pos hz]
        exact hs
    · nomatch hs
  | entry j =>
    simp only [slot] at hs ⊢
    split at hs
    · rename_i hz
      rcases h nDirect (Nat.le_refl _) with h0 | heq
      · exact absurd h0 hz.1
      · rw [← heq, if_pos hz]
        exact hs
    · nomatch hs

theorem holds_direct (hk : k < nDirect) (hz : (d.view i).addrs k ≠ 0) : d.holds (i, .direct k) = some ((d.view i).addrs k) := by
  simp only [holds, slot]
  exact if_pos ⟨hk, hz⟩

theorem holds_indirect (hz : (d.view i).addrs nDirect ≠ 0) : d.holds (i, .indirect) = some ((d.view i).addrs nDirect) := by
  simp only [holds, slot]
  exact if_pos hz

theorem holds_entry {j : Nat} (hz : (d.view i).addrs nDirect ≠ 0) (hj : j < nIndirect)
    (hu : (d.block ((d.view i).addrs nDirect)).uint j ≠ 0) :
    d.holds (i, .entry j) = some ((d.block ((d.view i).addrs nDirect)).uint j) := by
  simp only [holds, slot]
  exact if_pos ⟨hz, hj, hu⟩

/-- Writing a block that is nobody's indirect block changes no reference. -/
theorem holds_setBlock {b : Nat} (hb : ∀ i, d.holds (i, .indirect) ≠ some b) (a : Block) (x : Nat × Slot) :
    (d.setBlock b a).holds x = d.holds x := by
  have hblock : ∀ i, (d.view i).addrs nDirect ≠ 0 →
      (d.setBlock b a).block ((d.view i).addrs nDirect) = d.block ((d.view i).addrs nDirect) := by
    intro i hz
    refine Function.update_of_ne ?_ a d.block
    intro heq
    exact hb i (heq ▸ holds_indirect hz)
  have hview : ∀ i, ∀ k ≤ nDirect, ((d.setBlock b a).view i).addrs k = (d.view i).addrs k := fun _ _ _ => rfl
  exact holds_congr hview hblock x

/-! ## Primitives -/

/-- The disk after `balloc` has found a block. -/
def fill (d : Disk) (b : Nat) : Disk := { d with bit := Function.update d.bit b true }.setBlock b (fun _ => 0)

theorem firstClear_some {n b : Nat} (h : d.firstClear k n = some b) : d.bit b = false ∧ b < k + n := by
  induction n generalizing k with
  | zero => nomatch h
  | succ n ih =>
    rw [firstClear] at h
    split at h
    · obtain ⟨hbit, hlt⟩ := ih h
      exact ⟨hbit, by omega⟩
    · rename_i hbit
      obtain rfl := Option.some.inj h
      exact ⟨by simpa using hbit, by omega⟩

theorem balloc_cases (d : Disk) :
    d.balloc = (d, 0) ∨ ∃ b, d.bit b = false ∧ b < d.size ∧ d.balloc = (d.fill b, b) := by
  unfold balloc
  cases hb : d.firstClear 0 d.size with
  | none => exact .inl rfl
  | some b =>
    obtain ⟨hbit, hlt⟩ := firstClear_some hb
    exact .inr ⟨b, hbit, by omega, rfl⟩

/-- What is handed out was free, and no reference changes. -/
theorem Owned.fill {b : Nat} (h : Owned first d) (hbit : d.bit b = false) (hb : b < d.size) :
    Owned first (d.fill b) ∧ Fresh first (d.fill b) b ∧ ∀ x, (d.fill b).holds x = d.holds x := by
  have hfree : ∀ x, d.holds x ≠ some b := h.exclusive.fresh (by rw [hbit]; exact Bool.false_ne_true)
  have hself : (d.fill b).bit b = true := by
    change Function.update d.bit b true b = true
    exact Function.update_self ..
  have hmark : ∀ c, d.bit c = true → (d.fill b).bit c = true := by
    intro c hc
    change Function.update d.bit b true c = true
    rw [Function.update_apply]
    split
    · rfl
    · exact hc
  have hholds : ∀ x, (d.fill b).holds x = d.holds x := holds_setBlock (d := { d with bit := _ }) (fun i => hfree (i, .indirect)) _
  refine ⟨⟨h.exclusive.mark hmark hholds, h.boot, h.small, h.agree⟩, ⟨?_, hself, ?_, ?_, Nat.lt_of_lt_of_le hb h.small⟩, hholds⟩
  · intro hlt
    have hused := (h.exclusive.apart b hlt).1
    rw [hbit] at hused
    exact Bool.false_ne_true hused
  · intro x hx
    rw [hholds] at hx
    exact hfree x hx
  · exact Function.update_self b _ d.block

theorem Fresh.ne_zero {b : Nat} (hf : Fresh first d b) (h : Owned first d) : b ≠ 0 := by
  rintro rfl
  exact hf.data h.boot

/-- A fresh block becomes an address of an inode. -/
theorem Owned.setAddr {b : Nat} (h : Owned first d) (hc : d.cached i) (hk : k ≤ nDirect) (hz : (d.inode i).addrs k = 0)
    (hf : Fresh first d b) : Owned first (d.setAddr i k b) := by
  have hview := view_setAddr hc k b
  refine ⟨h.exclusive.grant (i, if k = nDirect then .indirect else .direct k) hf.marked hf.data hf.free ?_, h.boot, h.small, ?_⟩
  · rintro ⟨j, s⟩ c hs
    by_cases hj : j = i
    · subst hj
      have hself : (d.setAddr j k b).view j = { d.view j with addrs := Function.update (d.view j).addrs k b } := by
        rw [hview, if_pos rfl]
      simp only [holds, hself] at hs ⊢
      cases s with
      | direct l =>
        simp only [slot] at hs ⊢
        by_cases hl : l = k
        · subst hl
          rw [Function.update_self] at hs
          split at hs
          · rename_i hlt
            rw [if_neg (Nat.ne_of_lt hlt.1)]
            exact .inr ⟨rfl, (Option.some.inj hs).symm⟩
          · nomatch hs
        · rw [Function.update_of_ne hl] at hs
          exact .inl hs
      | indirect =>
        simp only [slot] at hs ⊢
        by_cases hl : nDirect = k
        · subst hl
          rw [Function.update_self] at hs
          rw [if_pos rfl]
          split at hs
          · exact .inr ⟨rfl, (Option.some.inj hs).symm⟩
          · nomatch hs
        · rw [Function.update_of_ne hl] at hs
          exact .inl hs
      | entry l =>
        simp only [slot] at hs ⊢
        by_cases hl : nDirect = k
        · -- a new indirect block has no entries
          subst hl
          have hzero : (d.setAddr j nDirect b).block b = fun _ => 0 := hf.zero
          rw [Function.update_self, hzero, Block.uint_zero] at hs
          simp at hs
        · rw [Function.update_of_ne hl] at hs
          exact .inl hs
    · left
      simp only [holds, hview, if_neg hj] at hs ⊢
      exact hs
  · intro j hcj l hl
    change (d.dinode j).addrs l = 0 ∨ (d.dinode j).addrs l = ((d.setAddr i k b).inode j).addrs l
    by_cases hj : j = i
    · subst hj
      have hin : ((d.setAddr j k b).inode j).addrs l = Function.update (d.inode j).addrs k b l := by
        simp only [setAddr, modInode, Function.update_self]
      rw [hin]
      by_cases hlk : l = k
      · subst hlk
        rcases h.agree j hcj l hl with h0 | heq
        · exact .inl h0
        · exact .inl (heq.trans hz)
      · rw [Function.update_of_ne hlk]
        exact h.agree j hcj l hl
    · have hin : (d.setAddr i k b).inode j = d.inode j := Function.update_of_ne hj _ _
      rw [hin]
      exact h.agree j hcj l hl

/-- A fresh block becomes an entry of an inode's indirect block. -/
theorem Owned.setEntry {b c j : Nat} (h : Owned first d) (hb : d.holds (i, .indirect) = some b) (hf : Fresh first d c) :
    Owned first (d.setBlock b ((d.block b).setUint j c)) := by
  refine ⟨h.exclusive.grant (i, .entry j) hf.marked hf.data hf.free ?_, h.boot, h.small, h.agree⟩
  rintro ⟨i', s⟩ e hs
  change d.slot (d.view i') s = some e ∨ _
  change (d.setBlock b ((d.block b).setUint j c)).slot (d.view i') s = some e at hs
  cases s with
  | direct l => exact .inl hs
  | indirect => exact .inl hs
  | entry l =>
    simp only [slot] at hs ⊢
    split at hs
    · rename_i hz
      obtain ⟨hz, hl, hu⟩ := hz
      have hes := Option.some.inj hs
      by_cases hbi : (d.view i').addrs nDirect = b
      · -- the indirect block is the one of `i`
        have hii : (i', Slot.indirect) = (i, Slot.indirect) := h.exclusive.unique _ _ b (hbi ▸ holds_indirect hz) hb
        obtain rfl := (Prod.mk.inj hii).1
        have hblock : (d.setBlock b ((d.block b).setUint j c)).block b = (d.block b).setUint j c := Function.update_self b _ d.block
        rw [hbi, hblock, Block.uint_setUint _ hf.small] at hes hu
        by_cases hlj : l = j
        · subst hlj
          rw [if_pos rfl] at hes
          exact .inr ⟨rfl, hes.symm⟩
        · rw [if_neg hlj] at hes hu
          rw [hbi, if_pos ⟨hbi ▸ hz, hl, hu⟩, hes]
          exact .inl rfl
      · have hblock : (d.setBlock b ((d.block b).setUint j c)).block ((d.view i').addrs nDirect) = d.block ((d.view i').addrs nDirect) :=
          Function.update_of_ne hbi _ _
        rw [hblock] at hes hu
        rw [if_pos ⟨hz, hl, hu⟩, hes]
        exact .inl rfl
    · nomatch hs

/-- The bytes of a file's block change. -/
theorem Owned.setData {b : Nat} {s : Slot} (h : Owned first d) (hb : d.holds (i, s) = some b) (hs : s ≠ .indirect) (a : Block) :
    Owned first (d.setBlock b a) := by
  refine ⟨h.exclusive.mark (fun _ hb => hb) (holds_setBlock ?_ a), h.boot, h.small, h.agree⟩
  intro j hj
  exact hs (Prod.mk.inj (h.exclusive.unique _ _ b hb hj)).2

/-- Other fields of an inode change. -/
theorem Owned.modInode {f : Dinode → Dinode} (h : Owned first d) (hc : d.cached i) (hf : ∀ ip, (f ip).addrs = ip.addrs) :
    Owned first (d.modInode i f) := by
  have hview : ∀ j, ((d.modInode i f).view j).addrs = (d.view j).addrs := by
    intro j
    rw [view_modInode hc]
    split
    · rename_i hj
      rw [hf, hj]
    · rfl
  refine ⟨h.exclusive.mark (fun _ hb => hb) (holds_congr (fun j l _ => by rw [hview]) (fun _ _ => rfl)), h.boot, h.small, ?_⟩
  intro j hcj l hl
  have hin : ((d.modInode i f).inode j).addrs = (d.inode j).addrs := by
    have hj := hview j
    rwa [view_of_cached (d := d) hcj, view_of_cached (d := d.modInode i f) hcj] at hj
  rw [hin]
  exact h.agree j hcj l hl

theorem Owned.iupdate (h : Owned first d) (hc : d.cached i) : Owned first (d.iupdate i) := by
  have hview := view_iupdate hc
  refine ⟨h.exclusive.mark (fun _ hb => hb) (holds_congr (fun j l _ => by rw [hview]) (fun _ _ => rfl)), h.boot, h.small, ?_⟩
  intro j hcj l hl
  change ((Function.update d.dinode i (d.inode i)) j).addrs l = 0 ∨ ((Function.update d.dinode i (d.inode i)) j).addrs l = (d.inode j).addrs l
  by_cases hj : j = i
  · rw [hj, Function.update_self]
    exact .inr rfl
  · rw [Function.update_of_ne hj]
    exact h.agree j hcj l hl

/-! ## `bmap` -/

/-- What `bmap` leaves alone. -/
structure SameTable (d d' : Disk) : Prop where
  ref : d'.ref = d.ref
  valid : d'.valid = d.valid

theorem SameTable.cached (h : SameTable d d') (i : Nat) : d'.cached i = d.cached i := by
  rw [Disk.cached, Disk.cached, h.ref, h.valid]

theorem SameTable.trans {e : Disk} (h : SameTable d d') (h' : SameTable d' e) : SameTable d e :=
  ⟨h'.ref.trans h.ref, h'.valid.trans h.valid⟩

theorem Owned.bmapAddr {addr : Nat} (h : Owned first d) (hc : d.cached i) (hk : k ≤ nDirect) (hb : d.bmapAddr i k = (d', addr)) :
    Owned first d' ∧ SameTable d d' ∧ (d'.inode i).addrs k = addr := by
  unfold Disk.bmapAddr at hb
  split at hb
  · obtain ⟨rfl, rfl⟩ := Prod.mk.inj hb
    exact ⟨h, ⟨rfl, rfl⟩, rfl⟩
  · rename_i hz
    have hz : (d.inode i).addrs k = 0 := not_not.mp hz
    rcases d.balloc_cases with hnone | ⟨b, hbit, hlt, hsome⟩
    · rw [hnone] at hb
      obtain ⟨rfl, rfl⟩ := Prod.mk.inj hb
      exact ⟨h, ⟨rfl, rfl⟩, hz⟩
    · obtain ⟨hfill, hfresh, -⟩ := h.fill hbit hlt
      rw [hsome] at hb
      dsimp only at hb
      rw [if_neg (hfresh.ne_zero hfill)] at hb
      obtain ⟨rfl, rfl⟩ := Prod.mk.inj hb
      refine ⟨hfill.setAddr hc hk hz hfresh, ⟨rfl, rfl⟩, ?_⟩
      simp only [Disk.setAddr, Disk.modInode, Function.update_self]

theorem Owned.bmapEntry {b j addr : Nat} (h : Owned first d) (hind : d.holds (i, .indirect) = some b)
    (hb : d.bmapEntry b j = (d', addr)) :
    Owned first d' ∧ SameTable d d' ∧ d'.inode = d.inode ∧ (d'.block b).uint j = addr := by
  unfold Disk.bmapEntry at hb
  split at hb
  · obtain ⟨rfl, rfl⟩ := Prod.mk.inj hb
    exact ⟨h, ⟨rfl, rfl⟩, rfl, rfl⟩
  · rename_i hz
    have hz : (d.block b).uint j = 0 := not_not.mp hz
    rcases d.balloc_cases with hnone | ⟨c, hbit, hlt, hsome⟩
    · rw [hnone] at hb
      obtain ⟨rfl, rfl⟩ := Prod.mk.inj hb
      exact ⟨h, ⟨rfl, rfl⟩, rfl, hz⟩
    · obtain ⟨hfill, hfresh, hholds⟩ := h.fill hbit hlt
      rw [hsome] at hb
      dsimp only at hb
      rw [if_neg (hfresh.ne_zero hfill)] at hb
      obtain ⟨rfl, rfl⟩ := Prod.mk.inj hb
      refine ⟨hfill.setEntry (by rw [hholds]; exact hind) hfresh, ⟨rfl, rfl⟩, rfl, ?_⟩
      change Block.uint (Function.update (d.fill c).block b (((d.fill c).block b).setUint j c) b) j = c
      rw [Function.update_self, Block.uint_setUint _ hfresh.small, if_pos rfl]

/-- `bmap` keeps the invariant, and the address it returns is that of a block of the file. -/
theorem Owned.bmap {bn addr : Nat} (h : Owned first d) (hc : d.cached i) (hb : d.bmap i bn = .ok (d', addr)) :
    Owned first d' ∧ SameTable d d' ∧ (addr ≠ 0 → ∃ s, s ≠ Slot.indirect ∧ d'.holds (i, s) = some addr) := by
  unfold Disk.bmap at hb
  split at hb
  · rename_i hbn
    obtain ⟨h', hsame, haddr⟩ := h.bmapAddr hc (Nat.le_of_lt hbn) (Except.ok.inj hb)
    refine ⟨h', hsame, ?_⟩
    intro hne
    have hview : (d'.view i).addrs bn = addr := by rw [view_of_cached (d := d') (by rw [hsame.cached]; exact hc), haddr]
    exact ⟨.direct bn, by simp, hview ▸ holds_direct hbn (by rw [hview]; exact hne)⟩
  · split at hb
    · rename_i hbn
      obtain ⟨⟨d₁, b⟩, hd₁⟩ : ∃ p, p = d.bmapAddr i nDirect := ⟨_, rfl⟩
      obtain ⟨h₁, hsame₁, hb₁⟩ := h.bmapAddr hc (Nat.le_refl _) hd₁.symm
      rw [← hd₁] at hb
      dsimp only at hb
      split at hb
      · obtain ⟨rfl, rfl⟩ := Prod.mk.inj (Except.ok.inj hb)
        exact ⟨h₁, hsame₁, fun hne => absurd rfl hne⟩
      · rename_i hne
        have hc₁ : d₁.cached i := by
          rw [hsame₁.cached]
          exact hc
        have hview₁ : (d₁.view i).addrs nDirect = b := by rw [view_of_cached hc₁, hb₁]
        have hind : d₁.holds (i, .indirect) = some b := hview₁ ▸ holds_indirect (by rw [hview₁]; exact hne)
        obtain ⟨h', hsame, hinode, hentry⟩ := h₁.bmapEntry hind (Except.ok.inj hb)
        refine ⟨h', hsame₁.trans hsame, ?_⟩
        intro haddr
        have hview : (d'.view i).addrs nDirect = b := by
          rw [view_of_cached (d := d') (by rw [hsame.cached]; exact hc₁), hinode, hb₁]
        refine ⟨.entry (bn - nDirect), by simp, ?_⟩
        have hslot := holds_entry (d := d') (i := i) (by rw [hview]; exact hne) hbn (by rw [hview, hentry]; exact haddr)
        rwa [hview, hentry] at hslot
    · nomatch hb

/-! ## `itrunc` -/

/-- The disk without the marks of some blocks. -/
def clear (d : Disk) (bs : List Nat) : Disk := { d with bit := fun b => d.bit b && !bs.contains b }

/-- The numbers that an array has below an index, without the zeros. -/
def named (f : Nat → Nat) (k : Nat) : List Nat := ((List.range k).map f).filter (· ≠ 0)

/-- The blocks of an inode. -/
def blocks (d : Disk) (ip : Dinode) : List Nat :=
  named ip.addrs nDirect ++
    if ip.addrs nDirect ≠ 0 then named (d.block (ip.addrs nDirect)).uint nIndirect ++ [ip.addrs nDirect] else []

/-- The first `k` addresses of an inode are gone. -/
def dropped (ip : Dinode) (k : Nat) : Dinode := { ip with addrs := fun l => if l < k then 0 else ip.addrs l }

theorem mem_named {f : Nat → Nat} {b : Nat} : b ∈ named f k ↔ b ≠ 0 ∧ ∃ l, l < k ∧ f l = b := by
  simp only [named, List.mem_filter, List.mem_map, List.mem_range, decide_eq_true_eq]
  exact and_comm

theorem named_succ (f : Nat → Nat) (k : Nat) : named f (k + 1) = named f k ++ if f k ≠ 0 then [f k] else [] := by
  rw [named, named, List.range_succ, List.map_append, List.filter_append, List.map_singleton]
  by_cases hz : f k = 0
  · simp [hz]
  · simp [hz]

theorem mem_blocks {ip : Dinode} {b : Nat} : b ∈ d.blocks ip ↔ ∃ s, d.slot ip s = some b := by
  rw [blocks, List.mem_append, mem_named]
  constructor
  · rintro (⟨hb, l, hl, rfl⟩ | hb)
    · exact ⟨.direct l, if_pos ⟨hl, hb⟩⟩
    · split at hb
      · rename_i hz
        rw [List.mem_append, mem_named, List.mem_singleton] at hb
        rcases hb with ⟨hb, l, hl, rfl⟩ | rfl
        · exact ⟨.entry l, if_pos ⟨hz, hl, hb⟩⟩
        · exact ⟨.indirect, if_pos hz⟩
      · nomatch hb
  · rintro ⟨s, hs⟩
    cases s with
    | direct l =>
      simp only [slot] at hs
      split at hs
      · rename_i hl
        obtain rfl := Option.some.inj hs
        exact .inl ⟨hl.2, l, hl.1, rfl⟩
      · nomatch hs
    | indirect =>
      simp only [slot] at hs
      split at hs
      · rename_i hz
        obtain rfl := Option.some.inj hs
        rw [if_pos hz]
        exact .inr (List.mem_append_right _ (List.mem_singleton_self _))
      · nomatch hs
    | entry l =>
      simp only [slot] at hs
      split at hs
      · rename_i hz
        obtain rfl := Option.some.inj hs
        rw [if_pos hz.1]
        exact .inr (List.mem_append_left _ (mem_named.mpr ⟨hz.2.2, l, hz.2.1, rfl⟩))
      · nomatch hs

theorem clear_nil (d : Disk) : d.clear [] = d := by
  simp only [clear, List.contains_nil, Bool.not_false, Bool.and_true]

/-- `bfree` of a block that is marked and has not been freed. -/
theorem bfree_clear {bs : List Nat} {b : Nat} (hbit : d.bit b = true) (hb : b ∉ bs) :
    (d.clear bs).bfree b = .ok (d.clear (bs ++ [b])) := by
  have hset : (d.clear bs).bit b = true := by
    change (d.bit b && !bs.contains b) = true
    rw [hbit, List.contains_eq_mem, decide_eq_false hb]
    rfl
  rw [bfree, hset, if_pos rfl]
  refine congrArg Except.ok ?_
  have hbits : Function.update (d.clear bs).bit b false = (d.clear (bs ++ [b])).bit := by
    funext c
    change Function.update (fun c => d.bit c && !bs.contains c) b false c = (d.bit c && !(bs ++ [b]).contains c)
    rw [Function.update_apply]
    by_cases hc : c = b
    · rw [if_pos hc, hc]
      simp
    · rw [if_neg hc]
      simp [hc]
  rw [hbits]
  rfl

theorem dropped_addrs (ip : Dinode) (k l : Nat) : (dropped ip k).addrs l = if l < k then 0 else ip.addrs l := rfl

theorem dropped_zero (ip : Dinode) : dropped ip 0 = ip := rfl

theorem dropped_succ (ip : Dinode) (k : Nat) :
    dropped ip (k + 1) = { dropped ip k with addrs := Function.update (dropped ip k).addrs k 0 } := by
  refine congrArg (fun a => { ip with addrs := a }) ?_
  funext l
  rw [Function.update_apply]
  by_cases hl : l = k
  · rw [if_pos hl, if_pos (by omega)]
  · rw [if_neg hl]
    exact if_congr (by omega) rfl rfl

/-- The disk with the first `k` addresses of an inode gone from memory. -/
def drop (d : Disk) (i k : Nat) : Disk := { d with inode := Function.update d.inode i (dropped (d.inode i) k) }

theorem drop_zero (d : Disk) (i : Nat) : d.drop i 0 = d := by
  rw [drop, dropped_zero, Function.update_eq_self]

theorem drop_succ (d : Disk) (i k : Nat) : (d.drop i k).setAddr i k 0 = d.drop i (k + 1) := by
  simp only [drop, setAddr, modInode, Function.update_self, Function.update_idem, dropped_succ]

/-- An address that is not set needs no freeing. -/
theorem drop_succ_of_zero (hz : (d.inode i).addrs k = 0) : d.drop i (k + 1) = d.drop i k := by
  have heq : dropped (d.inode i) (k + 1) = dropped (d.inode i) k := by
    rw [dropped_succ]
    have hself : Function.update (dropped (d.inode i) k).addrs k 0 = (dropped (d.inode i) k).addrs := by
      rw [Function.update_eq_self_iff]
      exact ((if_neg (Nat.lt_irrefl k)).trans hz).symm
    rw [hself]
  rw [drop, drop, heq]

/-- A turn of the first loop of `itrunc`: the block is still marked, for no address before it named it. -/
theorem Owned.itruncDirect (h : Owned first d) (hc : d.cached i) (hk : k < nDirect) :
    Disk.itruncDirect i k ((d.drop i k).clear (named (d.inode i).addrs k)) =
      .ok ((d.drop i (k + 1)).clear (named (d.inode i).addrs (k + 1))) := by
  have haddr : (((d.drop i k).clear (named (d.inode i).addrs k)).inode i).addrs k = (d.inode i).addrs k := by
    change ((Function.update d.inode i (dropped (d.inode i) k)) i).addrs k = _
    rw [Function.update_self, dropped_addrs, if_neg (Nat.lt_irrefl k)]
  rw [Disk.itruncDirect, haddr, named_succ]
  by_cases hz : (d.inode i).addrs k = 0
  · rw [if_neg (not_not.mpr hz), if_neg (not_not.mpr hz), List.append_nil, drop_succ_of_zero hz]
  · have hview : (d.view i).addrs = (d.inode i).addrs := by rw [view_of_cached hc]
    have hheld : ∀ l, l < nDirect → (d.inode i).addrs l ≠ 0 → d.holds (i, .direct l) = some ((d.inode i).addrs l) := by
      intro l hl hne
      rw [← hview] at hne ⊢
      exact holds_direct hl hne
    have hbit : (d.drop i k).bit ((d.inode i).addrs k) = true := h.exclusive.used_of _ _ (hheld k hk hz)
    have hnew : (d.inode i).addrs k ∉ named (d.inode i).addrs k := by
      intro hmem
      obtain ⟨-, l, hl, heq⟩ := mem_named.mp hmem
      have hslot := h.exclusive.unique _ _ _ (hheld k hk hz) (heq ▸ hheld l (by omega) (by rw [heq]; exact hz))
      obtain rfl := Slot.direct.inj (Prod.mk.inj hslot).2
      exact Nat.lt_irrefl _ hl
    rw [if_pos hz, if_pos hz, bfree_clear hbit hnew]
    exact congrArg (fun e => Except.ok (clear e (named (d.inode i).addrs k ++ [(d.inode i).addrs k]))) (drop_succ d i k)

theorem Owned.itruncDirects (h : Owned first d) (hc : d.cached i) :
    forFrom (Disk.itruncDirect i) 0 nDirect d = .ok ((d.drop i nDirect).clear (named (d.inode i).addrs nDirect)) := by
  have hloop := forFrom_eq (a := 0) (n := nDirect) (fun k => (d.drop i k).clear (named (d.inode i).addrs k))
    (fun k _ hk => h.itruncDirect hc (by omega))
  rw [Nat.zero_add, drop_zero] at hloop
  have hstart : d.clear (named (d.inode i).addrs 0) = d := clear_nil d
  rwa [hstart] at hloop

/-- A turn of the second loop, when `bs` have been freed before it. -/
theorem itruncEntry_eq {b j : Nat} {bs : List Nat} (hu : (d.block b).uint j ≠ 0 → d.bit ((d.block b).uint j) = true)
    (hnew : (d.block b).uint j ≠ 0 → (d.block b).uint j ∉ bs ++ named (d.block b).uint j) :
    itruncEntry b j (d.clear (bs ++ named (d.block b).uint j)) = .ok (d.clear (bs ++ named (d.block b).uint (j + 1))) := by
  have hblock : (d.clear (bs ++ named (d.block b).uint j)).block = d.block := rfl
  rw [itruncEntry, hblock, named_succ]
  by_cases hz : (d.block b).uint j = 0
  · rw [if_neg (not_not.mpr hz), if_neg (not_not.mpr hz), List.append_nil]
  · rw [if_pos hz, if_pos hz, bfree_clear (hu hz) (hnew hz), List.append_assoc]

/-- What an inode's places refer to, once it is in memory. -/
theorem holds_cached (hc : d.cached i) (s : Slot) : d.holds (i, s) = d.slot (d.inode i) s := by
  rw [holds, view_of_cached hc]

/-- The second loop of `itrunc`. -/
theorem Owned.itruncEntries (h : Owned first d) (hc : d.cached i) {b : Nat} (hb : (d.inode i).addrs nDirect = b) (hz : b ≠ 0) :
    forFrom (itruncEntry b) 0 nIndirect ((d.drop i nDirect).clear (named (d.inode i).addrs nDirect)) =
      .ok ((d.drop i nDirect).clear (named (d.inode i).addrs nDirect ++ named (d.block b).uint nIndirect)) := by
  have hentry : ∀ j, j < nIndirect → (d.block b).uint j ≠ 0 → d.holds (i, .entry j) = some ((d.block b).uint j) := by
    intro j hj hu
    rw [holds_cached hc, slot, hb, if_pos ⟨hz, hj, hu⟩]
  have hturn : ∀ j, 0 ≤ j → j < 0 + nIndirect →
      itruncEntry b j ((d.drop i nDirect).clear (named (d.inode i).addrs nDirect ++ named (d.block b).uint j)) =
        .ok ((d.drop i nDirect).clear (named (d.inode i).addrs nDirect ++ named (d.block b).uint (j + 1))) := by
    intro j _ hj
    rw [Nat.zero_add] at hj
    refine itruncEntry_eq (d := d.drop i nDirect) (fun hu => h.exclusive.used_of _ _ (hentry j hj hu)) ?_
    intro hu hmem
    rcases List.mem_append.mp hmem with hmem | hmem
    · obtain ⟨-, l, hl, heq⟩ := mem_named.mp hmem
      have hdirect : d.holds (i, .direct l) = some ((d.inode i).addrs l) := by
        rw [holds_cached hc, slot, if_pos ⟨hl, by rw [heq]; exact hu⟩]
      rw [heq] at hdirect
      nomatch h.exclusive.unique _ _ _ hdirect (hentry j hj hu)
    · obtain ⟨-, l, hl, heq⟩ := mem_named.mp hmem
      change (d.block b).uint l = (d.block b).uint j at heq
      have hslot := h.exclusive.unique _ _ _ (hentry j hj hu) (heq ▸ hentry l (by omega) (by rw [heq]; exact hu))
      obtain rfl := Slot.entry.inj (Prod.mk.inj hslot).2
      exact Nat.lt_irrefl _ hl
  have hloop := forFrom_eq (a := 0) (n := nIndirect) _ hturn
  have hstart : named (d.inode i).addrs nDirect ++ named (d.block b).uint 0 = named (d.inode i).addrs nDirect := List.append_nil _
  rwa [Nat.zero_add, hstart] at hloop

/-- The second part of `itrunc`, after the first. -/
theorem Owned.itruncIndirect (h : Owned first d) (hc : d.cached i) :
    Disk.itruncIndirect i ((d.drop i nDirect).clear (named (d.inode i).addrs nDirect)) =
      .ok ((d.drop i (nDirect + 1)).clear (d.blocks (d.inode i))) := by
  obtain ⟨b, hb⟩ : ∃ b, b = (d.inode i).addrs nDirect := ⟨_, rfl⟩
  have haddr : (((d.drop i nDirect).clear (named (d.inode i).addrs nDirect)).inode i).addrs nDirect = b := by
    change ((Function.update d.inode i (dropped (d.inode i) nDirect)) i).addrs nDirect = _
    rw [Function.update_self, dropped_addrs, if_neg (Nat.lt_irrefl nDirect), hb]
  rw [Disk.itruncIndirect, haddr, blocks, ← hb]
  by_cases hz : b = 0
  · rw [if_neg (not_not.mpr hz), if_neg (not_not.mpr hz), List.append_nil, drop_succ_of_zero (hb ▸ hz)]
  · have hind : d.holds (i, .indirect) = some b := by
      rw [holds_cached hc, slot, ← hb, if_pos hz]
    have hbit : (d.drop i nDirect).bit b = true := h.exclusive.used_of _ _ hind
    have hnew : b ∉ named (d.inode i).addrs nDirect ++ named (d.block b).uint nIndirect := by
      intro hmem
      obtain ⟨s, hs, hne⟩ : ∃ s, d.slot (d.inode i) s = some b ∧ s ≠ .indirect := by
        rcases List.mem_append.mp hmem with hmem | hmem
        · obtain ⟨-, l, hl, heq⟩ := mem_named.mp hmem
          exact ⟨.direct l, by rw [slot, heq, if_pos ⟨hl, hz⟩], by simp⟩
        · obtain ⟨-, l, hl, heq⟩ := mem_named.mp hmem
          exact ⟨.entry l, by rw [slot, ← hb, heq, if_pos ⟨hz, hl, hz⟩], by simp⟩
      rw [← holds_cached hc] at hs
      exact hne (Prod.mk.inj (h.exclusive.unique _ _ _ hs hind)).2
    rw [if_pos hz, if_pos hz, bind_of_ok (h.itruncEntries hc hb.symm hz), bind_of_ok (bfree_clear hbit hnew), ← List.append_assoc]
    exact congrArg (fun e => Except.ok (clear e _)) (drop_succ d i nDirect)

/-- The disk after `itrunc`. -/
def truncated (d : Disk) (i : Nat) : Disk :=
  (((d.drop i (nDirect + 1)).clear (d.blocks (d.inode i))).modInode i (fun ip => { ip with size := 0 })).iupdate i

/-- `itrunc` gives all blocks of the inode back, and does not panic. -/
theorem Owned.itrunc_eq (h : Owned first d) (hc : d.cached i) : d.itrunc i = .ok (d.truncated i) := by
  rw [itrunc, bind_of_ok (h.itruncDirects hc), bind_of_ok (h.itruncIndirect hc)]
  rfl

theorem view_truncated (hc : d.cached i) (j : Nat) :
    (d.truncated i).view j = if j = i then { dropped (d.view i) (nDirect + 1) with size := 0 } else d.view j := by
  have hmod := view_modInode hc (fun ip => { dropped ip (nDirect + 1) with size := 0 }) j
  rw [← hmod]
  have hview := view_iupdate (d := ((d.drop i (nDirect + 1)).clear (d.blocks (d.inode i))).modInode i (fun ip => { ip with size := 0 })) hc j
  rw [truncated, hview]
  simp only [Disk.drop, modInode, clear, Function.update_self, Function.update_idem]
  rfl

/-- The bits that `itrunc` clears. -/
theorem truncated_bit (hc : d.cached i) (b : Nat) : (d.truncated i).bit b = true ↔ d.bit b = true ∧ ¬d.Owns i b := by
  have hmem : b ∈ d.blocks (d.inode i) ↔ d.Owns i b := by
    rw [mem_blocks]
    exact exists_congr (fun s => by rw [holds_cached hc])
  rw [← hmem]
  change (d.bit b && !(d.blocks (d.inode i)).contains b) = true ↔ _
  simp

/-- The inode refers to nothing afterwards, and the others refer to what they did. -/
theorem holds_truncated (hc : d.cached i) (x : Nat × Slot) : (d.truncated i).holds x = if x.1 = i then none else d.holds x := by
  obtain ⟨j, s⟩ := x
  rw [holds, view_truncated hc]
  by_cases hj : j = i
  · rw [if_pos hj, if_pos hj]
    refine slot_eq_none ?_ s
    intro k hk
    exact if_pos (Nat.lt_succ_of_le hk)
  · rw [if_neg hj, if_neg hj]
    rfl

theorem Owned.itrunc (h : Owned first d) (hc : d.cached i) : Owned first (d.truncated i) := by
  have hholds := holds_truncated hc
  have hsub : ∀ x b, (d.truncated i).holds x = some b → d.holds x = some b ∧ x.1 ≠ i := by
    intro x b hx
    rw [hholds] at hx
    split at hx
    · nomatch hx
    · rename_i hne
      exact ⟨hx, hne⟩
  refine ⟨h.exclusive.drop (fun x b hx => (hsub x b hx).1) ?_, h.boot, h.small, ?_⟩
  · intro b hb hb'
    obtain ⟨s, hs⟩ : d.Owns i b := by
      by_contra hno
      exact hb' ((truncated_bit hc b).mpr ⟨hb, hno⟩)
    refine ⟨fun hr => (h.exclusive.apart b hr).2 _ hs, ?_⟩
    intro x hx
    obtain ⟨hx, hne⟩ := hsub x b hx
    exact hne (congrArg Prod.fst (h.exclusive.unique _ _ b hx hs))
  · intro j hcj l hl
    by_cases hj : j = i
    · subst hj
      right
      simp only [truncated, Disk.iupdate, setDinode, Function.update_self]
    · have hdin : (d.truncated i).dinode j = d.dinode j := Function.update_of_ne hj _ _
      have hin : (d.truncated i).inode j = d.inode j := by
        change Function.update (Function.update d.inode i _) i _ j = d.inode j
        rw [Function.update_of_ne hj, Function.update_of_ne hj]
      rw [hdin, hin]
      exact h.agree j hcj l hl

end Disk

end Xv6SnifferBakery.Kernel
