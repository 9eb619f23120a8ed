import Xv6SnifferBakery.Lemmas.View

/-!
# Program files

The loadable program headers of an ELF file, what the scan makes of them, and the byte of an address as loading every segment at
once would give it.
-/

namespace Xv6SnifferBakery.Kernel

open Lib

/-! ## Program headers -/

/-- The loadable headers among the `n` at offset `off` of a file, in the order of the file. -/
def loadHdrs (ip : Inode) : Nat → Nat → List ProgHdr
  | 0, _ => []
  | n + 1, off =>
    let ph := progHdr ip.data off
    let rest := loadHdrs ip n ((off + progHdrSize) % 2 ^ 32)
    if ph.type ≠ elfProgLoad then rest else ph :: rest

/-- The loadable headers of a file. -/
def fileHdrs (ip : Inode) : List ProgHdr := loadHdrs ip (elfHdr ip.data).phnum ((elfHdr ip.data).phoff % 2 ^ 32)

/-- A scan that accepts the file adds up its loadable headers, and each passes the checks. -/
theorem scanLoop_good {ip : Inode} {n off : Nat} {st st' : Scan} (h : scanLoop ip n off st = (st', true)) :
    st' = (loadHdrs ip n off).foldl Scan.add st ∧ ∀ ph ∈ loadHdrs ip n off, ph.ok := by
  induction n generalizing off st with
  | zero =>
    obtain ⟨rfl, -⟩ := Prod.mk.inj h
    exact ⟨rfl, by simp [loadHdrs]⟩
  | succ n ih =>
    rw [scanLoop] at h
    split at h
    · nomatch h
    simp only at h
    rw [loadHdrs]
    split at h
    · rename_i ht
      rw [if_pos ht]
      exact ih h
    rename_i ht
    rw [if_neg ht]
    split at h
    · rename_i hok
      obtain ⟨h1, h2⟩ := ih h
      exact ⟨h1, List.forall_mem_cons.mpr ⟨hok, h2⟩⟩
    · nomatch h

theorem scanFile_good {ip : Inode} (h : (scanFile ip).2 = true) :
    (scanFile ip).1 = (fileHdrs ip).foldl Scan.add Scan.init ∧ ∀ ph ∈ fileHdrs ip, ph.ok :=
  scanLoop_good (Prod.ext rfl h)

/-- The scan records the first segments only. -/
theorem foldl_segs {phs : List ProgHdr} {st : Scan} :
    (phs.foldl Scan.add st).segs = st.segs ++ (phs.map ProgHdr.segment).take (maxSegments - st.segs.length) := by
  induction phs generalizing st with
  | nil => simp
  | cons ph phs ih =>
    rw [List.foldl_cons, ih, List.map_cons]
    by_cases hlt : st.segs.length < maxSegments
    · have hsegs : (st.add ph).segs = st.segs ++ [ph.segment] := if_pos hlt
      rw [hsegs, List.append_assoc, List.length_append, List.length_singleton,
        show maxSegments - st.segs.length = (maxSegments - (st.segs.length + 1)) + 1 by omega]
      rfl
    · have hsegs : (st.add ph).segs = st.segs := if_neg hlt
      rw [hsegs, show maxSegments - st.segs.length = 0 by omega, List.take_zero, List.take_zero]

theorem scanFile_segs {ip : Inode} (h : (scanFile ip).2 = true) :
    (scanFile ip).1.segs = ((fileHdrs ip).map ProgHdr.segment).take maxSegments := by
  rw [(scanFile_good h).1, foldl_segs]
  rfl

/-! ## Segments -/

/-- Two segments do not overlap. -/
def ProgHdr.disjoint (ph ph' : ProgHdr) : Prop := ph.vend ≤ ph'.vaddr ∨ ph'.vend ≤ ph.vaddr

instance (ph ph' : ProgHdr) : Decidable (ph.disjoint ph') := inferInstanceAs (Decidable (_ ∨ _))

instance : Std.Symm ProgHdr.disjoint := ⟨fun _ _ h => h.symm⟩

/-- An address in a segment. -/
def ProgHdr.contains (ph : ProgHdr) (va : Nat) : Prop := ph.vaddr ≤ va ∧ va < ph.vend

/-- The byte of an address in a segment, as loading the whole segment gives it. -/
def eagerByte (ip : Inode) (ph : ProgHdr) (va : Nat) : Byte :=
  if va - ph.vaddr < ph.filesz then ip.data (ph.off + (va - ph.vaddr)) else 0

/-- The page of an address in a segment lies in the segment from its first byte on. -/
theorem ProgHdr.contains.page {ph : ProgHdr} {va : Nat} (h : ph.contains va) (hok : ph.ok) : ph.contains (pgRoundDown va) := by
  obtain ⟨h1, h2⟩ := h
  have hal : ph.vaddr % 4096 = 0 := hok.2.2
  unfold ProgHdr.contains pgRoundDown
  omega

/-- Segments that do not overlap share no address. -/
theorem eq_of_contains {phs : List ProgHdr} {ph ph' : ProgHdr} {va : Nat} (hd : phs.Pairwise ProgHdr.disjoint) (h : ph ∈ phs)
    (h' : ph' ∈ phs) (hc : ph.contains va) (hc' : ph'.contains va) : ph = ph' := by
  by_contra hne
  rcases hd.forall h h' hne with hle | hle
  · have := hc.2
    have := hc'.1
    omega
  · have := hc'.2
    have := hc.1
    omega

/-- The segment a page is loaded from: its own, when that was recorded, and none otherwise. -/
theorem findSegment_of_contains {p : Proc} {ip : Inode} {ph : ProgHdr} {va : Nat} (hgood : (scanFile ip).2 = true)
    (hsegs : p.segments = (scanFile ip).1.segs) (hd : (fileHdrs ip).Pairwise ProgHdr.disjoint) (hph : ph ∈ fileHdrs ip)
    (hc : ph.contains va) : findSegment p va = if ph.segment ∈ (scanFile ip).1.segs then some ph.segment else none := by
  have hown : ∀ s ∈ (scanFile ip).1.segs, s.vaStart ≤ va ∧ va < s.vaEnd → s = ph.segment := by
    intro s hs hin
    rw [scanFile_segs hgood] at hs
    obtain ⟨ph', hph', rfl⟩ := List.mem_map.mp (List.mem_of_mem_take hs)
    rw [eq_of_contains hd hph hph' hc hin]
  unfold findSegment
  rw [hsegs]
  split
  · rename_i hmem
    cases hf : (scanFile ip).1.segs.find? (fun s => decide (s.vaStart ≤ va ∧ va < s.vaEnd)) with
    | none =>
      have := List.find?_eq_none.mp hf _ hmem
      exact absurd hc (by simpa using this : ¬(ph.segment.vaStart ≤ va ∧ va < ph.segment.vaEnd))
    | some s =>
      have hin : s.vaStart ≤ va ∧ va < s.vaEnd := by simpa using List.find?_some hf
      rw [hown s (List.mem_of_find?_eq_some hf) hin]
  · rename_i hmem
    refine List.find?_eq_none.mpr (fun s hs hin => hmem ?_)
    rwa [← hown s hs (by simpa using hin)]

/-- `readi` reads at most what it is asked for. -/
theorem readi_le (ip : Inode) (off n : Nat) : readi ip off n ≤ n := by
  unfold readi
  split
  · exact Nat.zero_le _
  · split <;> omega

/-- The byte that a page of the executable has for an address of a recorded segment, when the file is not too large and has the
bytes of the segment that it should. -/
theorem execPage_recorded {fs : Fs} {p : Proc} {ip : Nat} {ph : ProgHdr} {va : Nat} (hino : p.execInode = some ip)
    (hfind : findSegment p (pgRoundDown va) = some ph.segment) (hok : ph.ok) (hc : ph.contains va)
    (hsize : (fs.inode ip).size ≤ maxFile * bSize)
    (hbyte : va - ph.vaddr < ph.filesz → ph.off + (va - ph.vaddr) < (fs.inode ip).size) :
    execPage fs p (pgRoundDown va) (va % 4096) = eagerByte (fs.inode ip) ph va := by
  have hpage := (hc.page hok).1
  have hsize : (fs.inode ip).size ≤ 274432 := hsize
  have hva : va = pgRoundDown va + va % 4096 := by
    unfold pgRoundDown
    omega
  have hk : va % 4096 < 4096 := Nat.mod_lt _ (by decide)
  generalize hbase : pgRoundDown va = base at *
  generalize hoff : va % 4096 = k at *
  have hread : k < readSize ph.segment base ↔ va - ph.vaddr < ph.filesz := by
    unfold readSize
    change k < (if ph.filesz ≤ base - ph.vaddr then 0 else if ph.filesz < base - ph.vaddr + 4096 then
      ph.filesz - (base - ph.vaddr) else 4096) ↔ _
    split
    · omega
    · split <;> omega
  have hle : readSize ph.segment base ≤ 4096 := by
    unfold readSize
    change (if ph.filesz ≤ base - ph.vaddr then 0 else if ph.filesz < base - ph.vaddr + 4096 then
      ph.filesz - (base - ph.vaddr) else 4096) ≤ 4096
    split
    · omega
    · split <;> omega
  unfold execPage eagerByte
  rw [hino, hfind]
  simp only
  by_cases hin : va - ph.vaddr < ph.filesz
  · have hlt := hbyte hin
    have hfo : fileOffset ph.segment base = ph.off + (base - ph.vaddr) := by
      unfold fileOffset add64
      change (ph.off + (base - ph.vaddr)) % 2 ^ 64 % 2 ^ 32 = _
      omega
    have hcount : k < readi (fs.inode ip) (fileOffset ph.segment base) (readSize ph.segment base) := by
      have := hread.mpr hin
      unfold readi
      rw [hfo]
      split
      · omega
      · split <;> omega
    rw [if_pos hcount, if_pos hin, hfo]
    congr 1
    omega
  · have hcount : ¬k < readi (fs.inode ip) (fileOffset ph.segment base) (readSize ph.segment base) := by
      have h1 := readi_le (fs.inode ip) (fileOffset ph.segment base) (readSize ph.segment base)
      have h2 := hread.not.mpr hin
      omega
    rw [if_neg hcount, if_neg hin]

/-- The byte that a page of the executable has where no segment was recorded. -/
theorem execPage_unrecorded {fs : Fs} {p : Proc} {va k : Nat} (hfind : findSegment p va = none) : execPage fs p va k = 0 := by
  unfold execPage
  rw [hfind]
  cases p.execInode <;> rfl

end Xv6SnifferBakery.Kernel
