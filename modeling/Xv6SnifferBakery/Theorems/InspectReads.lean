import Mathlib.Data.List.Nodup
import Mathlib.Data.List.Pairwise
import Xv6SnifferBakery.Sniffer.Extent
import Xv6SnifferBakery.Sniffer.Session

/-!
# The inspector against the stored bytes

A packet is stored with `caplen` bytes. The inspector goes by the lengths the headers announce, and dumps `len` bytes, the length of the
frame on the wire, under the heading of the captured length. It stays within the copies exactly when every line of the summary does and
the extent of the details, the dump included, is at most `caplen`.
-/

namespace Xv6SnifferBakery.Sniffer

open Lib

namespace State

/-- Where the copies lie: the first `caplen` bytes of the block of a stored packet. -/
def InCopies (s : State) (a : Ptr) : Prop := ∃ sp ∈ s.packetStorage, a.block = sp.data.block ∧ a.off < sp.header.caplen.toNat

/-- Two stored packets do not share a block. -/
theorem Sound.data_inj {s : State} (hs : s.Sound) {sp sp' : StoredPacket} (hsp : sp ∈ s.packetStorage) (hsp' : sp' ∈ s.packetStorage)
    (h_block : sp.data.block = sp'.data.block) : sp = sp' := by
  by_contra h_ne
  have h_apart := (List.nodup_flatMap.mp (List.Nodup.of_append_left hs.nodup)).2
  have h_symm : Std.Symm (Function.onFun List.Disjoint fun sp : StoredPacket => [sp.data.block, sp.self]) :=
    ⟨fun _ _ h _ ha hb => h hb ha⟩
  have h_disjoint := h_apart.forall hsp hsp' h_ne
  exact h_disjoint (List.mem_cons_self ..) (h_block ▸ List.mem_cons_self ..)

/-- Code that reads at a stored packet alone stays within the copies when it stays within that packet's. -/
theorem Sound.keeps_inCopies {s : State} (hs : s.Sound) {sp : StoredPacket} (hsp : sp ∈ s.packetStorage) {m : Mem} {α : Type}
    {code : Code α} {extent : Nat}
    (h : ∀ n, code.Keeps (Below sp.data.block n) m ↔ sp.data.block = sp.data.block ∧ sp.data.off + extent ≤ n) :
    code.Keeps s.InCopies m ↔ extent ≤ sp.header.caplen.toNat := by
  have h_iff := h sp.header.caplen.toNat
  rw [hs.base sp hsp, Nat.zero_add] at h_iff
  have h_all : code.Keeps (Below sp.data.block (sp.data.off + extent)) m := (h _).mpr ⟨rfl, Nat.le_refl _⟩
  refine Iff.trans (Prog.Keeps.congr (h_all.mono ?_)) (h_iff.trans (and_iff_right rfl))
  rintro a ⟨h_block, -⟩
  constructor
  · rintro ⟨sp', hsp', h_block', h_off⟩
    obtain rfl := hs.data_inj hsp' hsp (h_block'.symm.trans h_block)
    exact ⟨h_block', h_off⟩
  · rintro ⟨-, h_off⟩
    exact ⟨sp, hsp, h_block, h_off⟩

theorem Sound.keeps_printSessionSummary {s : State} (hs : s.Sound) (m : Mem) :
    s.printSessionSummary.Keeps s.InCopies m ↔ ∀ sp ∈ s.packetStorage, summaryExtent m sp.data ≤ sp.header.caplen.toNat := by
  have h_line (sp : StoredPacket) (hsp : sp ∈ s.packetStorage) :
      (getSummaryInfo sp.data).Keeps s.InCopies m ↔ summaryExtent m sp.data ≤ sp.header.caplen.toNat :=
    hs.keeps_inCopies hsp fun n => keeps_getSummaryInfo m sp.data.block n sp.data
  simp only [printSessionSummary, Prog.keeps_each, Prog.keeps_bind, keeps_print, and_true]
  constructor
  · intro h sp hsp
    obtain ⟨i, hi, rfl⟩ := List.mem_iff_getElem.mp hsp
    exact (h_line _ hsp).mp (h (s.packetStorage[i], i) (List.mk_mem_zipIdx_iff_getElem?.mpr (List.getElem?_eq_getElem hi)))
  · rintro h ⟨sp, i⟩ h_entry
    have hsp : sp ∈ s.packetStorage := (List.mem_zipIdx' h_entry).2 ▸ List.getElem_mem _
    exact (h_line sp hsp).mpr (h sp hsp)

end State

/-- After any sessions, and for every id that is accepted: inspecting reads within the copies exactly when each stored packet is long
enough for its line of the summary, and the packet looked at for its headers and for a dump of `len` bytes. -/
theorem inspection_within_iff (mem : Mem) (history : List (List Capture))
    (k : Fin (State.sessions mem history).packetStorage.length) :
    let s := State.sessions mem history
    (∀ a ∈ (s.inspectSession (some (k + 1))).reads s.mem, s.InCopies a) ↔
      (∀ sp ∈ s.packetStorage, summaryExtent s.mem sp.data ≤ sp.header.caplen.toNat) ∧
        detailsExtent s.mem (s.packetStorage.get k) ≤ (s.packetStorage.get k).header.caplen.toNat := by
  intro s
  have hs : s.Sound := State.sound_sessions mem history
  have h_get : s.packetStorage[(k : Nat)]? = some (s.packetStorage.get k) := List.getElem?_eq_getElem k.isLt
  have h_mem : s.packetStorage.get k ∈ s.packetStorage := List.get_mem _ _
  have h_count : s.storedPacketCount ≠ 0 := fun h => absurd (h ▸ k.isLt : (k : Nat) < 0) (Nat.not_lt_zero _)
  have h_id : ¬ ((k : Int) + 1 < 1 ∨ (s.storedPacketCount : Int) < (k : Int) + 1) := by
    have h_lt : (k : Nat) < s.storedPacketCount := k.isLt
    omega
  have h_details := hs.keeps_inCopies h_mem fun n =>
    keeps_packetDetails s.mem (s.packetStorage.get k).data.block n (k + 1) (s.packetStorage.get k)
  have h_nat : ((k : Int) + 1).toNat = k + 1 := by omega
  change (s.inspectSession (some (k + 1))).Keeps s.InCopies s.mem ↔ _
  simp only [State.inspectSession, if_neg h_count, Prog.keeps_bind, hs.keeps_printSessionSummary]
  rw [if_neg (show ¬ (k : Int) + 1 = 0 by omega), if_neg h_id]
  simp only [State.printPacketDetails, h_nat, Nat.add_sub_cancel, h_get, h_details]

/-- A frame of 60 bytes, captured whole: IPv4 and a TCP header of 60 bytes. -/
def optionsFrame : Capture :=
  ⟨⟨0, 0, 60, 60⟩, fun i => (([0, 0, 0, 0, 0, 0, 0, 0, 0, 0, 0, 0, 0x08, 0x00, 0x45, 0x00, 0x00, 0x2e, 0, 0, 0, 0, 64, 6] : List UInt8) ++
    List.replicate 22 0 ++ [0xf0])[i]?.getD 0, ⟨true, true⟩⟩

/-- The TCP header is printed past the end of the copy. -/
theorem inspection_past_copy :
    ¬ ∀ (mem : Mem) (history : List (List Capture)) (k : Fin (State.sessions mem history).packetStorage.length),
      ∀ a ∈ ((State.sessions mem history).inspectSession (some (k + 1))).reads (State.sessions mem history).mem,
        (State.sessions mem history).InCopies a := by
  intro h
  have h_count : 0 < (State.sessions (fun _ => 0) [[optionsFrame]]).packetStorage.length := by decide +kernel
  have h_read : (⟨2, 93⟩ : Ptr) ∈ ((State.sessions (fun _ => 0) [[optionsFrame]]).inspectSession (some 1)).reads
      (State.sessions (fun _ => 0) [[optionsFrame]]).mem := by
    decide +kernel
  have h_caplen : ∀ sp ∈ (State.sessions (fun _ => 0) [[optionsFrame]]).packetStorage, sp.header.caplen.toNat = 60 := by
    decide +kernel
  obtain ⟨sp, hsp, -, h_off⟩ := h (fun _ => 0) [[optionsFrame]] ⟨0, h_count⟩ _ h_read
  rw [h_caplen sp hsp] at h_off
  exact absurd h_off (by decide)

end Xv6SnifferBakery.Sniffer
