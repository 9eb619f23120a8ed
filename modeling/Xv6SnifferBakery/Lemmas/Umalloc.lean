import Mathlib.Algebra.BigOperators.Group.List.Lemmas
import Mathlib.Algebra.GroupWithZero.Nat
import Mathlib.Data.Finset.Max
import Xv6SnifferBakery.User.Umalloc

/-!
# The free list

The free blocks are a ring in the order of their addresses, `base` among them. Every change of `free` and `malloc` is one of four: a block
is linked in, two neighbours are joined, a block is linked out, or its tail is cut off.
-/

namespace Xv6SnifferBakery.Umalloc

open Lib

namespace Heap

variable {h h' : Heap} {p q b c f bp n nu : Nat} {xs live : List Nat}

@[simp] theorem ptr_setPtr (h : Heap) (p q x : Nat) : (h.setPtr p q).ptr x = if x = p then q else h.ptr x := by
  by_cases hx : x = p <;> simp [ptr, setPtr, hx]

@[simp] theorem size_setPtr (h : Heap) (p q x : Nat) : (h.setPtr p q).size x = h.size x := by
  by_cases hx : x = p <;> simp [size, setPtr, hx]

@[simp] theorem ptr_setSize (h : Heap) (p n x : Nat) : (h.setSize p n).ptr x = h.ptr x := by
  by_cases hx : x = p <;> simp [ptr, setSize, hx]

@[simp] theorem size_setSize (h : Heap) (p n x : Nat) : (h.setSize p n).size x = if x = p then n % 2 ^ 32 else h.size x := by
  by_cases hx : x = p <;> simp [size, setSize, hx]

/-- The blocks of the heap: `fs` are on the free list, `live` are the program's. -/
structure Blocks (h : Heap) (fs live : List Nat) : Prop where
  base : h.base ∈ fs
  baseSize : h.size h.base = 0
  nodup : (fs ++ live).Nodup
  bound : ∀ b ∈ fs ++ live, b ≠ h.base → 0 < h.size b ∧ h.base + headerSize ≤ b ∧ h.fin b ≤ h.brk
  apart : ∀ b ∈ fs ++ live, ∀ c ∈ fs ++ live, b ≠ h.base → b < c → h.fin b ≤ c
  total : ((fs ++ live).map h.size).sum = h.obtained
  word : h.obtained < 2 ^ 32

/-- The links of the free blocks go up, and from the last one back to `base`. -/
def Ordered (h : Heap) (fs : List Nat) : Prop :=
  ∀ p ∈ fs, (p < h.ptr p ∧ ∀ r ∈ fs, r ≤ p ∨ h.ptr p ≤ r) ∨ (h.ptr p = h.base ∧ ∀ r ∈ fs, r ≤ p)

/-- No two free blocks but those that are excepted lie side by side. -/
def Joined (h : Heap) (fs : List Nat) (except : Nat → Prop) : Prop := ∀ p ∈ fs, p ≠ h.base → h.fin p = h.ptr p → except p

/-- A free list that begins at `f`. -/
structure Ok (h : Heap) (f : Nat) (xs live : List Nat) (except : Nat → Prop) : Prop where
  blocks : h.Blocks (f :: xs) live
  cycle : IsCycle h.ptr f xs
  ordered : h.Ordered (f :: xs)
  joined : h.Joined (f :: xs) except

theorem Blocks.perm {fs gs : List Nat} (hb : h.Blocks fs live) (hp : gs.Perm fs) : h.Blocks gs live := by
  have hall : (gs ++ live).Perm (fs ++ live) := hp.append_right live
  refine ⟨hp.mem_iff.mpr hb.base, hb.baseSize, hall.nodup_iff.mpr hb.nodup, ?_, ?_, ?_, hb.word⟩
  · intro b hm
    exact hb.bound b (hall.mem_iff.mp hm)
  · intro b hm c hm'
    exact hb.apart b (hall.mem_iff.mp hm) c (hall.mem_iff.mp hm')
  · rw [(hall.map h.size).sum_eq]
    exact hb.total

theorem Ordered.perm {fs gs : List Nat} (ho : h.Ordered fs) (hp : gs.Perm fs) : h.Ordered gs := by
  intro p hm
  rcases ho p (hp.mem_iff.mp hm) with ⟨hlt, hnone⟩ | ⟨hbase, hmax⟩
  · exact Or.inl ⟨hlt, fun r hr => hnone r (hp.mem_iff.mp hr)⟩
  · exact Or.inr ⟨hbase, fun r hr => hmax r (hp.mem_iff.mp hr)⟩

/-- The free list read from another block on. -/
theorem Ok.rotate {except : Nat → Prop} (hok : h.Ok f xs live except) (hp : p ∈ f :: xs) :
    ∃ ys, h.Ok p ys live except ∧ (p :: ys).Perm (f :: xs) := by
  obtain ⟨ys, hcycle, hperm⟩ := hok.cycle.rotate hp
  exact ⟨ys, ⟨hok.blocks.perm hperm, hcycle, hok.ordered.perm hperm, fun r hr => hok.joined r (hperm.mem_iff.mp hr)⟩, hperm⟩

/-- What the free list does not depend on. -/
theorem Ok.frame {except : Nat → Prop} (hok : h.Ok f xs live except) (hbase : h'.base = h.base) (hbrk : h.brk ≤ h'.brk)
    (hobt : h'.obtained = h.obtained) (hhdr : ∀ b ∈ f :: xs ++ live, h'.hdr b = h.hdr b) : h'.Ok f xs live except := by
  have hsize : ∀ b ∈ f :: xs ++ live, h'.size b = h.size b := fun b hb => congrArg Header.size (hhdr b hb)
  have hfin : ∀ b ∈ f :: xs ++ live, h'.fin b = h.fin b := fun b hb => by rw [fin, fin, hsize b hb]
  have hptr : ∀ b ∈ f :: xs, h'.ptr b = h.ptr b := fun b hb => congrArg Header.ptr (hhdr b (List.mem_append_left _ hb))
  obtain ⟨⟨hm, hz, hn, hbound, hapart, htotal, hword⟩, hcycle, hord, hjoin⟩ := hok
  refine ⟨⟨hbase ▸ hm, ?_, hn, ?_, ?_, ?_, by rw [hobt]; exact hword⟩, hcycle.congr hptr, ?_, ?_⟩
  · rw [hbase, hsize _ (List.mem_append_left _ hm)]
    exact hz
  · intro b hb hne
    rw [hbase] at hne ⊢
    rw [hsize b hb, hfin b hb]
    exact ⟨(hbound b hb hne).1, (hbound b hb hne).2.1, Nat.le_trans (hbound b hb hne).2.2 hbrk⟩
  · intro b hb c hc hne hlt
    rw [hbase] at hne
    rw [hfin b hb]
    exact hapart b hb c hc hne hlt
  · rw [List.map_congr_left hsize, hobt]
    exact htotal
  · intro p hp
    rw [hptr p hp, hbase]
    exact hord p hp
  · intro p hp hne
    rw [hbase] at hne
    rw [hptr p hp, hfin p (List.mem_append_left _ hp)]
    exact hjoin p hp hne

theorem Blocks.size_le {fs : List Nat} (hb : h.Blocks fs live) (hm : b ∈ fs ++ live) : h.size b ≤ h.obtained := by
  rw [← hb.total, ((List.perm_cons_erase hm).map h.size).sum_eq, List.map_cons, List.sum_cons]
  exact Nat.le_add_right _ _

/-- Fewer blocks than units. -/
theorem Blocks.length_le {fs : List Nat} (hb : h.Blocks fs live) : fs.length ≤ h.obtained + 1 := by
  have hperm := List.perm_cons_erase hb.base
  have hnodup : (h.base :: fs.erase h.base).Nodup := hperm.nodup_iff.mp (List.nodup_append.mp hb.nodup).1
  have hone : ∀ n ∈ (fs.erase h.base).map h.size, 1 ≤ n := by
    intro n hn
    obtain ⟨b, hm, rfl⟩ := List.mem_map.mp hn
    refine (hb.bound b (List.mem_append_left _ (List.mem_of_mem_erase hm)) ?_).1
    rintro rfl
    exact (List.nodup_cons.mp hnodup).1 hm
  have hle := List.length_le_sum_of_one_le _ hone
  have htotal := hb.total
  rw [List.map_append, List.sum_append, (hperm.map h.size).sum_eq, List.map_cons, List.sum_cons, hb.baseSize] at htotal
  rw [hperm.length_eq, List.length_cons]
  rw [List.length_map] at hle
  omega

/-! ## Linking in -/

/-- `free` begins: the block goes behind `p`. -/
def link (h : Heap) (p bp : Nat) : Heap := (h.setPtr bp (h.ptr p)).setPtr p bp

/-- The place that `free` looks for is the last block below. -/
theorem Ok.stops_iff {except : Nat → Prop} (hok : h.Ok f xs live except) (hbase : h.base < bp) (hout : bp ∉ f :: xs) (hp : p ∈ f :: xs) :
    h.Stops bp p ↔ p < bp ∧ ∀ r ∈ f :: xs, r < bp → r ≤ p := by
  have hnext := hok.cycle.next_mem hp
  have hne : ∀ {r}, r ∈ f :: xs → r ≠ bp := fun hr he => hout (he ▸ hr)
  have hbp := hok.blocks.base
  rcases hok.ordered p hp with ⟨hlt, hnone⟩ | ⟨hb, hmax⟩
  · constructor
    · rintro (⟨hpb, hbq⟩ | ⟨hle, -⟩)
      · refine ⟨hpb, fun r hr hrb => ?_⟩
        rcases hnone r hr with hrp | hqr
        · exact hrp
        · omega
      · omega
    · rintro ⟨hpb, hlast⟩
      left
      refine ⟨hpb, ?_⟩
      by_contra hq
      have := hlast _ hnext (Nat.lt_of_le_of_ne (Nat.le_of_not_lt hq) (hne hnext))
      omega
  · have hle := hmax _ hbp
    constructor
    · rintro (⟨hpb, hbq⟩ | ⟨-, hpb | hbq⟩)
      · omega
      · exact ⟨hpb, fun r hr _ => hmax r hr⟩
      · omega
    · rintro ⟨hpb, -⟩
      right
      rw [hb]
      exact ⟨hle, Or.inl hpb⟩

/-- There is a last block below. -/
theorem exists_last {fs : List Nat} (hm : c ∈ fs) (hlt : c < bp) : ∃ p ∈ fs, p < bp ∧ ∀ r ∈ fs, r < bp → r ≤ p := by
  obtain ⟨p, hp, hmax⟩ := (fs.toFinset.filter (· < bp)).exists_max_image id ⟨c, by simp [hm, hlt]⟩
  simp only [Finset.mem_filter, List.mem_toFinset, id] at hp hmax
  exact ⟨p, hp.1, hp.2, fun r hr hrb => hmax r ⟨hr, hrb⟩⟩

theorem link_ptr : (h.link p bp).ptr = Function.update (Function.update h.ptr bp (h.ptr p)) p bp := by
  funext x
  simp [Heap.link, Function.update_apply]

theorem link_ptr_below : (h.link p bp).ptr p = bp := by
  rw [link_ptr, Function.update_self]

theorem link_ptr_new (hne : bp ≠ p) : (h.link p bp).ptr bp = h.ptr p := by
  rw [link_ptr, Function.update_of_ne hne, Function.update_self]

theorem link_ptr_of_ne (hp : c ≠ p) (hbp : c ≠ bp) : (h.link p bp).ptr c = h.ptr c := by
  rw [link_ptr, Function.update_of_ne hp, Function.update_of_ne hbp]

/-- A block is linked in behind the last one below it. -/
theorem Ordered.link (hord : h.Ordered (p :: xs)) (hcycle : IsCycle h.ptr p xs) (hout : bp ∉ p :: xs) (hlt : p < bp)
    (hlast : ∀ r ∈ p :: xs, r < bp → r ≤ p) : (h.link p bp).Ordered (p :: bp :: xs) := by
  have hne : bp ≠ p := Nat.ne_of_gt hlt
  intro x hx
  have hx' : x = bp ∨ x ∈ p :: xs := by
    simp only [List.mem_cons] at hx ⊢
    tauto
  have hcases : ∀ r, r ∈ p :: bp :: xs → r = bp ∨ r ∈ p :: xs := by
    intro r hr
    simp only [List.mem_cons] at hr ⊢
    tauto
  rcases hx' with rfl | hx'
  · -- the block itself is linked where its neighbour below was
    rw [link_ptr_new hne]
    rcases hord p (List.mem_cons_self ..) with ⟨hpq, hnone⟩ | ⟨hb, hmax⟩
    · left
      have hq := hcycle.next_mem (List.mem_cons_self ..)
      have hxq : x < h.ptr p := by
        by_contra hle
        have := hlast _ hq (Nat.lt_of_le_of_ne (Nat.le_of_not_lt hle) (fun he => hout (he ▸ hq)))
        omega
      refine ⟨hxq, fun r hr => ?_⟩
      rcases hcases r hr with rfl | hr
      · exact Or.inl (Nat.le_refl _)
      · rcases hnone r hr with hr | hr
        · exact Or.inl (by omega)
        · exact Or.inr hr
    · right
      refine ⟨hb, fun r hr => ?_⟩
      rcases hcases r hr with rfl | hr
      · exact Nat.le_refl _
      · have := hmax r hr
        omega
  · by_cases hxp : x = p
    · subst hxp
      rw [link_ptr_below]
      left
      refine ⟨hlt, fun r hr => ?_⟩
      rcases hcases r hr with rfl | hr
      · exact Or.inr (Nat.le_refl _)
      · rcases Nat.lt_or_ge r bp with hrb | hrb
        · exact Or.inl (hlast r hr hrb)
        · exact Or.inr hrb
    · have hxb : x ≠ bp := fun he => hout (he ▸ hx')
      rw [link_ptr_of_ne hxp hxb]
      rcases hord x hx' with ⟨hxq, hnone⟩ | ⟨hb, hmax⟩
      · left
        refine ⟨hxq, fun r hr => ?_⟩
        rcases hcases r hr with rfl | hr
        · rcases Nat.lt_or_ge r x with hrx | hrx
          · exact Or.inl (Nat.le_of_lt hrx)
          · -- `x` is below the block, so it is below `p` too
            have hxr := hlast x hx' (Nat.lt_of_le_of_ne hrx hxb)
            rcases hnone p (List.mem_cons_self ..) with hp | hp
            · omega
            · exact Or.inr (by omega)
        · exact hnone r hr
      · right
        refine ⟨hb, fun r hr => ?_⟩
        rcases hcases r hr with rfl | hr
        · have hpx := hmax p (List.mem_cons_self ..)
          rcases Nat.lt_or_ge x r with hxr | hxr
          · have := hlast x hx' hxr
            omega
          · exact hxr
        · exact hmax r hr

theorem Ok.link {except : Nat → Prop} (hok : h.Ok p xs live except) (hbp : bp ∈ live) (hlt : p < bp)
    (hlast : ∀ r ∈ p :: xs, r < bp → r ≤ p) : (h.link p bp).Ok p (bp :: xs) (live.erase bp) (fun x => except x ∨ x = p ∨ x = bp) := by
  obtain ⟨⟨hm, hz, hn, hbound, hapart, htotal, hword⟩, hcycle, hord, hjoin⟩ := hok
  have hout : bp ∉ p :: xs := fun hm' => (List.nodup_append.mp hn).2.2 bp hm' bp hbp rfl
  have hsize : ∀ x, (h.link p bp).size x = h.size x := fun x => by simp [Heap.link]
  have hfin : ∀ x, (h.link p bp).fin x = h.fin x := fun x => by rw [fin, fin, hsize]
  have hperm : (p :: bp :: xs ++ live.erase bp).Perm (p :: xs ++ live) := by
    have h1 : (bp :: (p :: xs ++ live.erase bp)).Perm (p :: xs ++ bp :: live.erase bp) := List.perm_middle.symm
    exact ((List.Perm.swap bp p (xs ++ live.erase bp)).trans h1).trans ((List.perm_cons_erase hbp).symm.append_left (p :: xs))
  refine ⟨⟨?_, (hsize _).trans hz, hperm.nodup_iff.mpr hn, ?_, ?_, ?_, hword⟩, ?_, ?_, ?_⟩
  · rcases List.mem_cons.mp hm with he | hm
    · exact List.mem_cons.mpr (Or.inl he)
    · exact List.mem_cons_of_mem _ (List.mem_cons_of_mem _ hm)
  · intro b hb hne'
    rw [hsize, hfin]
    exact hbound b (hperm.mem_iff.mp hb) hne'
  · intro b hb c hc hne' hlt'
    rw [hfin]
    exact hapart b (hperm.mem_iff.mp hb) c (hperm.mem_iff.mp hc) hne' hlt'
  · rw [List.map_congr_left (fun x _ => hsize x), (hperm.map h.size).sum_eq]
    exact htotal
  · have := hcycle.insert hout (List.nodup_append.mp hn).1
    rwa [← link_ptr] at this
  · exact hord.link hcycle hout hlt hlast
  · intro x hx hxb he
    rw [hfin] at he
    by_cases hxp : x = p
    · exact Or.inr (Or.inl hxp)
    · by_cases hxb' : x = bp
      · exact Or.inr (Or.inr hxb')
      · rw [link_ptr_of_ne hxp hxb'] at he
        refine Or.inl (hjoin x ?_ hxb he)
        simp only [List.mem_cons] at hx ⊢
        tauto

/-! ## Linking out and joining -/

/-- The block behind `p` is taken out of the ring. -/
theorem Ok.unlinked {except : Nat → Prop} (hok : h.Ok p (b :: xs) live except) (hb : b ≠ h.base) :
    IsCycle (Function.update h.ptr p (h.ptr b)) p xs ∧
    (∀ x ∈ p :: xs, (x < Function.update h.ptr p (h.ptr b) x ∧ ∀ r ∈ p :: xs, r ≤ x ∨ Function.update h.ptr p (h.ptr b) x ≤ r) ∨
      (Function.update h.ptr p (h.ptr b) x = h.base ∧ ∀ r ∈ p :: xs, r ≤ x)) := by
  obtain ⟨⟨hm, -, hn, -, -, -, -⟩, hcycle, hord, -⟩ := hok
  have hnodup : (p :: b :: xs).Nodup := (List.nodup_append.mp hn).1
  have hpb : h.ptr p = b := hcycle.1
  have hsub : ∀ {r}, r ∈ p :: xs → r ∈ p :: b :: xs := by
    intro r hr
    simp only [List.mem_cons] at hr ⊢
    tauto
  refine ⟨hcycle.remove hnodup, fun x hx => ?_⟩
  by_cases hxp : x = p
  · subst hxp
    rw [Function.update_self]
    have hxb : x < b ∧ ∀ r ∈ x :: b :: xs, r ≤ x ∨ b ≤ r := by
      rcases hord x (List.mem_cons_self ..) with hlt | ⟨hbase, -⟩
      · rwa [hpb] at hlt
      · exact absurd (hpb.symm.trans hbase) hb
    have hne : ∀ {r}, r ∈ x :: xs → r ≠ b := by
      rintro r hr rfl
      have := (List.nodup_cons.mp hnodup)
      rcases List.mem_cons.mp hr with rfl | hr
      · exact this.1 (List.mem_cons_self ..)
      · exact (List.nodup_cons.mp this.2).1 hr
    have hbelow : ∀ {r}, r ∈ x :: xs → r ≤ b → r ≤ x := by
      intro r hr hrb
      rcases hxb.2 r (hsub hr) with h' | h'
      · exact h'
      · exact absurd (Nat.le_antisymm hrb h') (hne hr)
    rcases hord b (List.mem_cons_of_mem _ (List.mem_cons_self ..)) with ⟨hbq, hnone⟩ | ⟨hq, hmax⟩
    · left
      refine ⟨Nat.lt_trans hxb.1 hbq, fun r hr => ?_⟩
      rcases hnone r (hsub hr) with h' | h'
      · exact Or.inl (hbelow hr h')
      · exact Or.inr h'
    · right
      exact ⟨hq, fun r hr => hbelow hr (hmax r (hsub hr))⟩
  · rw [Function.update_of_ne hxp]
    rcases hord x (hsub hx) with ⟨hlt, hnone⟩ | ⟨hbase, hmax⟩
    · exact Or.inl ⟨hlt, fun r hr => hnone r (hsub hr)⟩
    · exact Or.inr ⟨hbase, fun r hr => hmax r (hsub hr)⟩

/-- A block and the one behind it become one. -/
def join (h : Heap) (p b : Nat) : Heap := (h.setSize p (h.size p + h.size b)).setPtr p (h.ptr b)

theorem Ok.join {except : Nat → Prop} (hok : h.Ok p (b :: xs) live except) (hp : p ≠ h.base) (hb : b ≠ h.base) (hfin : h.fin p = b) :
    (h.join p b).Ok p xs live (fun x => if x = p then except b else except x) := by
  obtain ⟨hcycle, hord⟩ := hok.unlinked hb
  obtain ⟨⟨hm, hz, hn, hbound, hapart, htotal, hword⟩, -, -, hjoin⟩ := hok
  have hpm : p ∈ p :: b :: xs ++ live := by simp
  have hbm : b ∈ p :: b :: xs ++ live := by simp
  have hsub : ∀ {r}, r ∈ p :: xs ++ live → r ∈ p :: b :: xs ++ live := by
    intro r hr
    simp only [List.cons_append, List.mem_cons, List.mem_append] at hr ⊢
    tauto
  have hne : ∀ {r}, r ∈ p :: xs ++ live → r ≠ b := by
    rintro r hr rfl
    rw [List.cons_append, List.cons_append, (List.Perm.swap r p _).nodup_iff] at hn
    exact (List.nodup_cons.mp hn).1 (by simpa using hr)
  have hsum : h.size p + h.size b ≤ h.obtained := by
    rw [← htotal]
    simp only [List.cons_append, List.map_cons, List.sum_cons]
    omega
  have hmod : (h.size p + h.size b) % 2 ^ 32 = h.size p + h.size b := Nat.mod_eq_of_lt (by omega)
  have hsize : ∀ x, (h.join p b).size x = if x = p then h.size p + h.size b else h.size x := by
    intro x
    simp only [Heap.join, size_setPtr, size_setSize, hmod]
  have hptr : (h.join p b).ptr = Function.update h.ptr p (h.ptr b) := by
    funext x
    simp [Heap.join, Function.update_apply]
  have hfinp : (h.join p b).fin p = h.fin b := by
    rw [fin, hsize, if_pos rfl, fin, ← hfin, fin, Nat.mul_add, Nat.add_assoc]
  have hfinx : ∀ x, x ≠ p → (h.join p b).fin x = h.fin x := fun x hx => by rw [fin, hsize, if_neg hx, fin]
  refine ⟨⟨?_, ?_, ?_, ?_, ?_, ?_, hword⟩, ?_, ?_, ?_⟩
  · rcases List.mem_cons.mp hm with he | hm
    · exact absurd he.symm hp
    · exact List.mem_cons_of_mem _ ((List.mem_cons.mp hm).resolve_left (Ne.symm hb))
  · exact (hsize _).trans ((if_neg (Ne.symm hp)).trans hz)
  · rw [List.cons_append, List.cons_append, (List.Perm.swap b p _).nodup_iff] at hn
    exact (List.nodup_cons.mp hn).2
  · intro x hx hxb
    have hbx := hbound x (hsub hx) hxb
    by_cases hxp : x = p
    · rw [hxp, hfinp, hsize, if_pos rfl]
      rw [hxp] at hbx
      exact ⟨by omega, hbx.2.1, (hbound b hbm hb).2.2⟩
    · rw [hsize, if_neg hxp, hfinx x hxp]
      exact hbx
  · intro x hx y hy hxb hlt
    by_cases hxp : x = p
    · rw [hxp, hfinp]
      rw [hxp] at hlt
      have hfy := hapart p hpm y (hsub hy) hp hlt
      rw [hfin] at hfy
      exact hapart b hbm y (hsub hy) hb (Nat.lt_of_le_of_ne hfy (Ne.symm (hne hy)))
    · rw [hfinx x hxp]
      exact hapart x (hsub hx) y (hsub hy) hxb hlt
  · have hrest : (xs ++ live).map (h.join p b).size = (xs ++ live).map h.size := by
      refine List.map_congr_left (fun x hx => ?_)
      rw [hsize, if_neg]
      rintro rfl
      exact (List.nodup_cons.mp hn).1 (List.mem_cons_of_mem _ hx)
    rw [List.cons_append, List.map_cons, List.sum_cons, hrest, hsize, if_pos rfl]
    simp only [List.cons_append, List.map_cons, List.sum_cons] at htotal
    exact (Nat.add_assoc _ _ _).trans htotal
  · rw [hptr]
    exact hcycle
  · intro x hx
    rw [hptr]
    exact hord x hx
  · intro x hx hxb he
    by_cases hxp : x = p
    · rw [if_pos hxp]
      rw [hxp, hfinp, hptr, Function.update_self] at he
      exact hjoin b (by simp) hb he
    · rw [if_neg hxp]
      rw [hfinx x hxp, hptr, Function.update_of_ne hxp] at he
      refine hjoin x ?_ hxb he
      simp only [List.mem_cons] at hx ⊢
      tauto

theorem Ok.join_size {except : Nat → Prop} (hok : h.Ok p (b :: xs) live except) : (h.join p b).size p = h.size p + h.size b := by
  have htotal := hok.blocks.total
  have hword := hok.blocks.word
  simp only [List.cons_append, List.map_cons, List.sum_cons] at htotal
  rw [Heap.join, size_setPtr, size_setSize, if_pos rfl]
  exact Nat.mod_eq_of_lt (by omega)

/-- The block behind `p` is handed out. -/
theorem Ok.unlink {except : Nat → Prop} (hok : h.Ok p (b :: xs) live except) (hb : b ≠ h.base) :
    (h.setPtr p (h.ptr b)).Ok p xs (b :: live) except := by
  obtain ⟨hcycle, hord⟩ := hok.unlinked hb
  obtain ⟨⟨hm, hz, hn, hbound, hapart, htotal, hword⟩, hcyc, hord', hjoin⟩ := hok
  have hperm : (p :: xs ++ b :: live).Perm (p :: b :: xs ++ live) :=
    (@List.perm_middle _ b (p :: xs) live).trans (List.Perm.swap p b _)
  have hptr : (h.setPtr p (h.ptr b)).ptr = Function.update h.ptr p (h.ptr b) := by
    funext x
    simp [Function.update_apply]
  have hfin : ∀ x, (h.setPtr p (h.ptr b)).fin x = h.fin x := fun x => by rw [fin, fin, size_setPtr]
  refine ⟨⟨?_, ?_, hperm.nodup_iff.mpr hn, ?_, ?_, ?_, hword⟩, ?_, ?_, ?_⟩
  · change h.base ∈ p :: xs
    simp only [List.mem_cons] at hm ⊢
    tauto
  · rw [size_setPtr]
    exact hz
  · intro x hx hxb
    rw [size_setPtr, hfin]
    exact hbound x (hperm.mem_iff.mp hx) hxb
  · intro x hx y hy hxb hlt
    rw [hfin]
    exact hapart x (hperm.mem_iff.mp hx) y (hperm.mem_iff.mp hy) hxb hlt
  · rw [List.map_congr_left (fun x _ => size_setPtr h p (h.ptr b) x), (hperm.map h.size).sum_eq]
    exact htotal
  · rw [hptr]
    exact hcycle
  · intro x hx
    rw [hptr]
    exact hord x hx
  · intro x hx hxb he
    rw [hfin] at he
    have hxm : x ∈ p :: b :: xs := by
      simp only [List.mem_cons] at hx ⊢
      tauto
    by_cases hxp : x = p
    · -- the gap that the block leaves
      subst hxp
      rw [hptr, Function.update_self] at he
      have hb1 := (hbound b (by simp) hb)
      have hx1 := (hbound x (by simp) hxb)
      have hxb' : x < b := by
        rcases hord' x (List.mem_cons_self ..) with ⟨hlt, -⟩ | ⟨hbase, -⟩
        · rwa [hcyc.1] at hlt
        · exact absurd (hcyc.1.symm.trans hbase) hb
      have hfx := hapart x (by simp) b (by simp) hxb hxb'
      unfold fin headerSize at hfx hb1 hx1 he
      rcases hord' b (by simp) with ⟨hlt, -⟩ | ⟨hbase, -⟩
      · omega
      · omega
    · rw [hptr, Function.update_of_ne hxp] at he
      exact hjoin x hxm hxb he

/-- What changes when the last `nu` units of the block `b` become the block `c`. -/
structure Cut (h t : Heap) (b c nu : Nat) : Prop where
  place : c = b + headerSize * (h.size b - nu)
  pos : 0 < nu
  lt : nu < h.size b
  size : ∀ x, t.size x = if x = c then nu else if x = b then h.size b - nu else h.size x
  ptr : t.ptr = h.ptr
  base : t.base = h.base
  brk : t.brk = h.brk
  obtained : t.obtained = h.obtained

theorem cut_spec (hword : h.size b < 2 ^ 32) (hpos : 0 < nu) (hlt : nu < h.size b) :
    Cut h ((h.setSize b (h.size b - nu)).setSize (b + headerSize * (h.size b - nu)) nu) b (b + headerSize * (h.size b - nu)) nu := by
  have hnew : nu % 2 ^ 32 = nu := Nat.mod_eq_of_lt (by omega)
  have hold : (h.size b - nu) % 2 ^ 32 = h.size b - nu := Nat.mod_eq_of_lt (by omega)
  refine ⟨rfl, hpos, hlt, fun x => ?_, funext (fun x => ?_), rfl, rfl, rfl⟩
  · rw [size_setSize, size_setSize, hnew, hold]
  · rw [ptr_setSize, ptr_setSize]

theorem Cut.below (hcut : Cut h h' b c nu) : b < c := by
  have := hcut.lt
  rw [hcut.place]
  unfold headerSize
  omega

theorem Cut.end_eq (hcut : Cut h h' b c nu) : c + headerSize * nu = h.fin b := by
  rw [hcut.place, fin, Nat.add_assoc, ← Nat.mul_add, Nat.sub_add_cancel (Nat.le_of_lt hcut.lt)]

theorem Cut.lt_end (hcut : Cut h h' b c nu) : c < h.fin b := by
  have := hcut.pos
  rw [← hcut.end_eq]
  unfold headerSize
  omega

theorem Cut.fin_new (hcut : Cut h h' b c nu) : h'.fin c = h.fin b := by
  rw [fin, hcut.size, if_pos rfl, hcut.end_eq]

theorem Cut.fin_old (hcut : Cut h h' b c nu) : h'.fin b = c := by
  rw [fin, hcut.size, if_neg (Nat.ne_of_lt hcut.below), if_pos rfl, hcut.place]

theorem Cut.fin_of_ne (hcut : Cut h h' b c nu) {x : Nat} (hc : x ≠ c) (hb : x ≠ b) : h'.fin x = h.fin x := by
  rw [fin, hcut.size, if_neg hc, if_neg hb, fin]

/-- The new block is none of the old ones. -/
theorem Cut.fresh {fs : List Nat} (hcut : Cut h h' b c nu) (hok : h.Blocks fs live) (hb : b ∈ fs ++ live) (hne : b ≠ h.base) {x : Nat}
    (hx : x ∈ fs ++ live) : x ≠ c := by
  rintro rfl
  have hle := hok.apart b hb _ hx hne hcut.below
  have hlt := hcut.lt_end
  omega

theorem Cut.blocks {fs : List Nat} (hcut : Cut h h' b c nu) (hok : h.Blocks fs live) (hb : b ∈ fs ++ live) (hne : b ≠ h.base) :
    h'.Blocks fs (c :: live) := by
  have hbc := hcut.below
  have hout : ∀ {y}, y ∈ fs ++ live → y ≠ c := fun hy => hcut.fresh hok hb hne hy
  have hcases : ∀ {x}, x ∈ fs ++ c :: live → x = c ∨ x ∈ fs ++ live := by
    intro x hx
    simp only [List.mem_append, List.mem_cons] at hx ⊢
    tauto
  have hperm : (fs ++ c :: live).Perm (c :: (fs ++ live)) := List.perm_middle
  refine ⟨hcut.base ▸ hok.base, ?_, ?_, ?_, ?_, ?_, ?_⟩
  · rw [hcut.base, hcut.size, if_neg (hout (List.mem_append_left _ hok.base)), if_neg (Ne.symm hne)]
    exact hok.baseSize
  · exact hperm.nodup_iff.mpr (List.nodup_cons.mpr ⟨fun hmem => hout hmem rfl, hok.nodup⟩)
  · intro x hx hxb
    rw [hcut.base] at hxb ⊢
    rw [hcut.brk]
    have hbb := hok.bound b hb hne
    have hlt := hcut.lt
    rcases hcases hx with rfl | hx
    · rw [hcut.fin_new, hcut.size, if_pos rfl]
      exact ⟨hcut.pos, by omega, hbb.2.2⟩
    · by_cases hxe : x = b
      · rw [hxe, hcut.fin_old, hcut.size, if_neg (Nat.ne_of_lt hbc), if_pos rfl]
        exact ⟨by omega, hbb.2.1, Nat.le_trans (Nat.le_of_lt hcut.lt_end) hbb.2.2⟩
      · rw [hcut.fin_of_ne (hout hx) hxe, hcut.size, if_neg (hout hx), if_neg hxe]
        exact hok.bound x hx hxb
  · intro x hx y hy hxb hxy
    rw [hcut.base] at hxb
    rcases hcases hx with hxc | hx'
    · rw [hxc, hcut.fin_new]
      rw [hxc] at hxy
      rcases hcases hy with hyc | hy'
      · exact absurd hxy (hyc ▸ Nat.lt_irrefl _)
      · exact hok.apart b hb y hy' hne (Nat.lt_trans hbc hxy)
    · by_cases hxe : x = b
      · rw [hxe, hcut.fin_old]
        rw [hxe] at hxy
        rcases hcases hy with hyc | hy'
        · exact Nat.le_of_eq hyc.symm
        · have hle := hok.apart b hb y hy' hne hxy
          exact Nat.le_trans (Nat.le_of_lt hcut.lt_end) hle
      · rw [hcut.fin_of_ne (hout hx') hxe]
        rcases hcases hy with hyc | hy'
        · rcases Nat.lt_or_ge b x with hbx | hbx
          · have hle := hok.apart b hb x hx' hne hbx
            have hlt := hcut.lt_end
            omega
          · have hle := hok.apart x hx' b hb hxb (Nat.lt_of_le_of_ne hbx hxe)
            omega
        · exact hok.apart x hx' y hy' hxb hxy
  · have htotal := hok.total
    have hpb := List.perm_cons_erase hb
    have hnb : b ∉ (fs ++ live).erase b := (List.nodup_cons.mp (hpb.nodup_iff.mp hok.nodup)).1
    have hrest : ((fs ++ live).erase b).map h'.size = ((fs ++ live).erase b).map h.size := by
      refine List.map_congr_left (fun x hx => ?_)
      have hxb : x ≠ b := fun he => hnb (he ▸ hx)
      rw [hcut.size, if_neg (hout (List.mem_of_mem_erase hx)), if_neg hxb]
    have hlt := hcut.lt
    rw [(hpb.map h.size).sum_eq, List.map_cons, List.sum_cons] at htotal
    rw [hcut.obtained, (hperm.map h'.size).sum_eq, List.map_cons, List.sum_cons, (hpb.map h'.size).sum_eq, List.map_cons, List.sum_cons,
      hrest, hcut.size c, if_pos rfl, hcut.size b, if_neg (Nat.ne_of_lt hbc), if_pos rfl]
    omega
  · rw [hcut.obtained]
    exact hok.word

/-- The tail of a free block is cut off. -/
theorem Ok.cut {except : Nat → Prop} (hok : h.Ok f xs live except) (hb : b ∈ f :: xs) (hne : b ≠ h.base) (hnu : 0 < nu) (hlt : nu < h.size b) :
    ((h.setSize b (h.size b - nu)).setSize (b + headerSize * (h.size b - nu)) nu).Ok f xs ((b + headerSize * (h.size b - nu)) :: live) except := by
  have hbm : b ∈ f :: xs ++ live := List.mem_append_left _ hb
  have hcut := cut_spec (Nat.lt_of_le_of_lt (hok.blocks.size_le hbm) hok.blocks.word) hnu hlt
  refine ⟨hcut.blocks hok.blocks hbm hne, ?_, ?_, ?_⟩
  · rw [hcut.ptr]
    exact hok.cycle
  · intro x hx
    rw [hcut.ptr, hcut.base]
    exact hok.ordered x hx
  · intro x hx hxb he
    rw [hcut.base] at hxb
    have hxm : x ∈ f :: xs ++ live := List.mem_append_left _ hx
    by_cases hxe : x = b
    · rw [hxe, hcut.fin_old, hcut.ptr] at he
      exact absurd he.symm (hcut.fresh hok.blocks hbm hne (List.mem_append_left _ (hok.cycle.next_mem hb)))
    · rw [hcut.fin_of_ne (hcut.fresh hok.blocks hbm hne hxm) hxe, hcut.ptr] at he
      exact hok.joined x hx hxb he

/-! ## `free` -/

/-- The ring read from the next block on. -/
theorem ok_turn {except : Nat → Prop} : h.Ok p (b :: xs) live except ↔ h.Ok b (xs ++ [p]) live except := by
  have hperm : (b :: (xs ++ [p])).Perm (p :: b :: xs) := (List.perm_append_singleton p (b :: xs))
  have hcycle : IsCycle h.ptr p (b :: xs) ↔ IsCycle h.ptr b (xs ++ [p]) := by
    rw [IsCycle, IsCycle, path_append]
    exact and_comm
  constructor
  · rintro ⟨hb, hc, ho, hj⟩
    exact ⟨hb.perm hperm, hcycle.mp hc, ho.perm hperm, fun r hr => hj r (hperm.mem_iff.mp hr)⟩
  · rintro ⟨hb, hc, ho, hj⟩
    exact ⟨hb.perm hperm.symm, hcycle.mpr hc, ho.perm hperm.symm, fun r hr => hj r (hperm.mem_iff.mpr hr)⟩

theorem Ok.except {except except' : Nat → Prop} (hok : h.Ok f xs live except)
    (himp : ∀ x ∈ f :: xs, h.fin x = h.ptr x → except x → except' x) : h.Ok f xs live except' :=
  ⟨hok.blocks, hok.cycle, hok.ordered, fun x hx hne he => himp x hx he (hok.joined x hx hne he)⟩

theorem setPtr_joined (hne : bp ≠ p) (n r q : Nat) :
    (((h.setPtr bp q).setPtr p bp).setSize bp n).setPtr bp r = ((h.setSize bp n).setPtr bp r).setPtr p bp := by
  simp only [setPtr, setSize, Function.update_self, Function.update_of_ne hne, Function.update_of_ne (Ne.symm hne), Function.update_idem]
  rw [Function.update_comm (Ne.symm hne)]
  simp only [Function.update_idem]

theorem setPtr_again (h : Heap) (p q n r : Nat) : ((h.setPtr p q).setSize p n).setPtr p r = (h.setSize p n).setPtr p r := by
  simp [setPtr, setSize]

/-- The loop of `free` ends at the last free block below. -/
theorem Ok.search_below {except : Nat → Prop} (hok : h.Ok f xs live except) (hbase : h.base < bp) (hout : bp ∉ f :: xs) :
    ∃ p ∈ f :: xs, h.Stops bp p ∧ search (h.Stops bp) h.ptr h.turns f = some p := by
  obtain ⟨l, hl, hlast⟩ := exists_last hok.blocks.base hbase
  have hlen := hok.blocks.length_le
  rw [List.length_cons] at hlen
  obtain ⟨p, pre, post, hs, hsplit, -⟩ := hok.cycle.search ⟨l, hl, (hok.stops_iff hbase hout hl).mpr hlast⟩
    (show xs.length < h.turns by unfold turns; omega)
  refine ⟨p, ?_, search_stop hs, hs⟩
  rw [hsplit]
  exact List.mem_append_right _ (List.mem_cons_self ..)

/-- The block is linked in, and joined with the one above. -/
theorem Ok.joinUp (hok : h.Ok p xs live (fun _ => False)) (hbp : bp ∈ live) (hbase : h.base < bp) (hlt : p < bp)
    (hlast : ∀ r ∈ p :: xs, r < bp → r ≤ p) :
    ∃ zs, ((h.joinUp bp p).setPtr p bp).Ok p (bp :: zs) (live.erase bp) (fun x => x = p) ∧
      ((h.joinUp bp p).setPtr p bp).fin p = h.fin p ∧ h.size bp ≤ ((h.joinUp bp p).setPtr p bp).size bp := by
  have hout : bp ∉ p :: xs := fun hm => (List.nodup_append.mp hok.blocks.nodup).2.2 bp hm bp hbp rfl
  have hbbase : bp ≠ h.base := Nat.ne_of_gt hbase
  have hne : bp ≠ p := Nat.ne_of_gt hlt
  have hl := hok.link hbp hlt hlast
  by_cases hjoin : h.fin bp = h.ptr p
  · have hqb : h.ptr p ≠ h.base := by
      intro he
      have : bp ≤ h.fin bp := Nat.le_add_right _ _
      omega
    rcases xs with _ | ⟨q, zs⟩
    · have hmem : h.base ∈ [p] := hok.blocks.base
      have hnext : h.ptr p = p := hok.cycle
      rw [hnext, ← List.mem_singleton.mp hmem] at hqb
      exact absurd rfl hqb
    · have hq : h.ptr p = q := hok.cycle.1
      have hqp : q ≠ p := fun he => (List.nodup_cons.mp (List.nodup_append.mp hok.blocks.nodup).1).1 (he ▸ List.mem_cons_self ..)
      have hqbp : q ≠ bp := fun he => hout (he ▸ List.mem_cons_of_mem _ (List.mem_cons_self ..))
      have hlfin : (h.link p bp).fin bp = q := by
        rw [← hq, ← hjoin]
        simp [fin, Heap.link]
      have hj := (ok_turn.mp hl).join hbbase (hq ▸ hqb) hlfin
      have heq : (h.link p bp).join bp q = (h.joinUp bp p).setPtr p bp := by
        rw [Heap.join, show (h.link p bp).size bp = h.size bp by simp [Heap.link], show (h.link p bp).size q = h.size q by simp [Heap.link],
          show (h.link p bp).ptr q = h.ptr q by simp [Heap.link, hqp, hqbp], Heap.link, setPtr_joined hne, Heap.joinUp, if_pos hjoin, hq]
      rw [← heq]
      refine ⟨zs, (ok_turn.mpr hj).except ?_, ?_, ?_⟩
      · intro x _ _ hx
        by_cases hxb : x = bp
        · rw [if_pos hxb] at hx
          rcases hx with hx | hx | hx
          · exact hx.elim
          · exact absurd hx hqp
          · exact absurd hx hqbp
        · rw [if_neg hxb] at hx
          rcases hx with hx | hx | hx
          · exact hx.elim
          · exact hx
          · exact absurd hx hxb
      · simp [fin, Heap.join, Heap.link, Ne.symm hne]
      · rw [(ok_turn.mp hl).join_size]
        simp [Heap.link]
  · have heq : h.link p bp = (h.joinUp bp p).setPtr p bp := by rw [Heap.joinUp, if_neg hjoin, Heap.link]
    rw [← heq]
    refine ⟨xs, hl.except ?_, by simp [fin, Heap.link], by simp [Heap.link]⟩
    intro x _ he hx
    rcases hx with hx | hx | hx
    · exact hx.elim
    · exact hx
    · rw [hx] at he
      refine absurd ?_ hjoin
      simpa [fin, Heap.link, hne] using he

/-- It is joined with the one below. -/
theorem Ok.joinDown {zs : List Nat} (hne : bp ≠ p) (hbase : h.base ≠ bp) (hzero : h.size h.base = 0)
    (hok : ((h.joinUp bp p).setPtr p bp).Ok p (bp :: zs) live (fun x => x = p)) (hup : ((h.joinUp bp p).setPtr p bp).fin p = h.fin p) :
    ∃ ws, ((h.joinUp bp p).joinDown bp p).Ok p ws live (fun _ => False) ∧
      ∃ b ∈ p :: ws, ((h.joinUp bp p).setPtr p bp).size bp ≤ ((h.joinUp bp p).joinDown bp p).size b := by
  obtain ⟨u, hu⟩ : ∃ u, u = (h.joinUp bp p).setPtr p bp := ⟨_, rfl⟩
  rw [← hu] at hok hup ⊢
  have hubase : u.base = h.base := by
    rw [hu, Heap.joinUp]
    split <;> rfl
  have hfin : (h.joinUp bp p).fin p = h.fin p := by rw [← hup, hu, fin, fin, size_setPtr]
  by_cases hjoin : h.fin p = bp
  · have hpb : p ≠ u.base := by
      rw [hubase]
      rintro rfl
      rw [fin, hzero] at hjoin
      omega
    have heq : u.join p bp = (h.joinUp bp p).joinDown bp p := by
      rw [Heap.joinDown, if_pos (hfin.trans hjoin), Heap.join, hu, setPtr_again, size_setPtr, size_setPtr, ptr_setPtr, if_neg hne]
    rw [← heq]
    refine ⟨zs, (hok.join hpb (hubase ▸ Ne.symm hbase) (hup.trans hjoin)).except ?_, p, List.mem_cons_self .., ?_⟩
    · intro x _ _ hx
      by_cases hxp : x = p
      · rw [if_pos hxp] at hx
        exact hne hx
      · rw [if_neg hxp] at hx
        exact hxp hx
    · rw [hok.join_size]
      exact Nat.le_add_left _ _
  · have heq : u = (h.joinUp bp p).joinDown bp p := by rw [Heap.joinDown, if_neg (fun he => hjoin (hfin.symm.trans he)), hu]
    rw [← heq]
    refine ⟨bp :: zs, hok.except ?_, bp, by simp, Nat.le_refl _⟩
    rintro x - he rfl
    rw [hok.cycle.1, hup] at he
    exact hjoin he

/-- `free` puts the block back, joined with its free neighbours. -/
theorem free_spec (hok : h.Ok f xs live (fun _ => False)) (hf : h.freep = some f) (hbp : bp ∈ live) :
    ∃ h' p ys, h.free bp = some h' ∧ h'.freep = some p ∧ h'.Ok p ys (live.erase bp) (fun _ => False) ∧
      h'.base = h.base ∧ h'.brk = h.brk ∧ h'.obtained = h.obtained ∧ (∀ x, x ∉ f :: xs → x ≠ bp → h'.hdr x = h.hdr x) ∧
      ∃ b ∈ p :: ys, h.size bp ≤ h'.size b := by
  have hn := hok.blocks.nodup
  have hout : bp ∉ f :: xs := fun hm => (List.nodup_append.mp hn).2.2 bp hm bp hbp rfl
  have hbbase : bp ≠ h.base := fun he => hout (he ▸ hok.blocks.base)
  have hlow := (hok.blocks.bound bp (List.mem_append_right _ hbp) hbbase).2.1
  have hbaselt : h.base < bp := by
    unfold headerSize at hlow
    omega
  obtain ⟨p, hp, hstop, hsearch⟩ := hok.search_below hbaselt hout
  obtain ⟨hlt, hlast⟩ := (hok.stops_iff hbaselt hout hp).mp hstop
  obtain ⟨ys, hok', hperm⟩ := hok.rotate hp
  obtain ⟨zs, huok, hup, hule⟩ := hok'.joinUp hbp hbaselt hlt (fun r hr => hlast r (hperm.mem_iff.mp hr))
  obtain ⟨ws, hvok, b, hb, hvle⟩ := Ok.joinDown (Nat.ne_of_gt hlt) (Ne.symm hbbase) hok.blocks.baseSize huok hup
  obtain ⟨v, hv⟩ : ∃ v, v = (h.joinUp bp p).joinDown bp p := ⟨_, rfl⟩
  rw [← hv] at hvok hvle
  have hvbase : v.base = h.base ∧ v.brk = h.brk ∧ v.obtained = h.obtained := by
    rw [hv, joinDown, joinUp]
    split <;> split <;> exact ⟨rfl, rfl, rfl⟩
  refine ⟨{ v with freep := some p }, p, ws, ?_, rfl, hvok.frame rfl (Nat.le_refl _) rfl (fun _ _ => rfl), hvbase.1, hvbase.2.1,
    hvbase.2.2, ?_, b, hb, Nat.le_trans hule hvle⟩
  · rw [free, hf, Option.bind_eq_bind, Option.bind_some, hsearch, hv]
    rfl
  · intro x hx hxb
    have hxp : x ≠ p := fun he => hx (he ▸ hp)
    change v.hdr x = h.hdr x
    rw [hv, joinDown, joinUp]
    split <;> split <;> simp [setPtr, setSize, hxp, hxb]

/-! ## `malloc` -/

theorem start_ok (hfree : h.freep = none) (hobt : h.obtained = 0) :
    h.start.freep = some h.base ∧ h.start.Ok h.base [] [] (fun _ => False) := by
  have hsize : h.start.size h.base = 0 := by
    simp [start, hfree, size, setSize]
  have hptr : h.start.ptr h.base = h.base := by
    simp [start, hfree, ptr, setPtr, setSize]
  have hbase : h.start.base = h.base := by
    simp [start, hfree, setPtr, setSize]
  have hobt' : h.start.obtained = 0 := by
    simpa [start, hfree, setPtr, setSize] using hobt
  refine ⟨by simp [start, hfree], ⟨?_, ?_, by simp, ?_, ?_, ?_, ?_⟩, hptr, ?_, ?_⟩
  · rw [hbase]
    exact List.mem_singleton_self _
  · rw [hbase]
    exact hsize
  · intro b hb hne
    rw [hbase] at hne
    exact absurd (List.mem_singleton.mp hb) hne
  · intro b hb c _ hne
    rw [hbase] at hne
    exact absurd (List.mem_singleton.mp hb) hne
  · simp [hsize, hobt']
  · rw [hobt']
    decide
  · intro p hp
    obtain rfl := List.mem_singleton.mp hp
    right
    refine ⟨hptr.trans hbase.symm, fun r hr => ?_⟩
    rw [List.mem_singleton.mp hr]
  · intro p hp hne
    rw [hbase] at hne
    exact absurd (List.mem_singleton.mp hp) hne

/-- The loop of `malloc` finds a block that is big enough, or has seen that there is none. -/
theorem Ok.fit {except : Nat → Prop} (hok : h.Ok f xs live except) (hf : h.freep = some f) (nu : Nat) :
    ∃ prevp ∈ f :: xs, search (h.Fits nu) h.ptr h.turns f = some prevp ∧ (nu ≤ h.size (h.ptr prevp) ∨ ∀ b ∈ f :: xs, h.size b < nu) := by
  have hnodup := (List.nodup_append.mp hok.blocks.nodup).1
  have hlen := hok.blocks.length_le
  rw [List.length_cons] at hlen
  obtain ⟨l, hl, hlast⟩ := hok.cycle.exists_prev (List.mem_cons_self ..)
  have hround : h.Fits nu l := Or.inr (hf.trans (congrArg some hlast.symm))
  obtain ⟨prevp, pre, post, hs, hsplit, hpre⟩ := hok.cycle.search ⟨l, hl, hround⟩
    (show xs.length < h.turns by unfold turns; omega)
  refine ⟨prevp, ?_, hs, ?_⟩
  · rw [hsplit]
    exact List.mem_append_right _ (List.mem_cons_self ..)
  · rcases search_stop hs with hfit | hround
    · exact Or.inl hfit
    · by_cases hfit : nu ≤ h.size (h.ptr prevp)
      · exact Or.inl hfit
      · right
        rw [hf] at hround
        obtain rfl := hok.cycle.last_of_next hnodup hsplit (Option.some.inj hround).symm
        intro b hb
        obtain ⟨x, hx, rfl⟩ := hok.cycle.exists_prev hb
        rw [hsplit] at hx
        rcases List.mem_append.mp hx with hx | hx
        · exact Nat.lt_of_not_le (fun hle => hpre x hx (Or.inl hle))
        · rw [List.mem_singleton.mp hx]
          exact Nat.lt_of_not_le hfit

/-- The block that is found is handed out. -/
theorem Ok.carve {except : Nat → Prop} (hok : h.Ok f xs live except) (hp : p ∈ f :: xs) (hfit : nu ≤ h.size (h.ptr p)) (hnu : 0 < nu) :
    ∃ ys, (h.carve nu p).1.freep = some p ∧ (h.carve nu p).1.Ok p ys ((h.carve nu p).2 :: live) except ∧
      (h.carve nu p).1.size (h.carve nu p).2 = nu ∧ (h.carve nu p).1.base = h.base ∧ (h.carve nu p).1.brk = h.brk ∧
      (h.carve nu p).1.obtained = h.obtained ∧ ∀ x, x ∉ f :: xs → x ≠ (h.carve nu p).2 → (h.carve nu p).1.hdr x = h.hdr x := by
  obtain ⟨ys, hok', hperm⟩ := hok.rotate hp
  have hbase : h.ptr p ≠ h.base := by
    intro he
    rw [he, hok.blocks.baseSize] at hfit
    omega
  have hptrm : h.ptr p ∈ f :: xs := hok.cycle.next_mem hp
  have hle := hok.blocks.size_le (List.mem_append_left live hptrm)
  have hword := hok.blocks.word
  unfold Heap.carve
  by_cases hexact : h.size (h.ptr p) = nu
  · simp only [if_pos hexact]
    rcases ys with _ | ⟨b, zs⟩
    · have hb : h.base ∈ [p] := hok'.blocks.base
      have hnext : h.ptr p = p := hok'.cycle
      rw [hnext, ← List.mem_singleton.mp hb] at hbase
      exact absurd rfl hbase
    · have hb : h.ptr p = b := hok'.cycle.1
      rw [hb] at hbase hexact ⊢
      refine ⟨zs, by simp, (hok'.unlink hbase).frame rfl (Nat.le_refl _) rfl (fun _ _ => rfl), ?_, rfl, rfl, rfl, ?_⟩
      · exact (size_setPtr h p (h.ptr b) b).trans hexact
      · intro x hx _
        have hxp : x ≠ p := fun he => hx (he ▸ hp)
        simp [setPtr, hxp]
  · simp only [if_neg hexact]
    have hlt : nu < h.size (h.ptr p) := Nat.lt_of_le_of_ne hfit (Ne.symm hexact)
    have hmod : (h.size (h.ptr p) - nu) % 2 ^ 32 = h.size (h.ptr p) - nu := Nat.mod_eq_of_lt (by omega)
    have hfin : (h.setSize (h.ptr p) (h.size (h.ptr p) - nu)).fin (h.ptr p) = h.ptr p + headerSize * (h.size (h.ptr p) - nu) := by
      rw [fin, size_setSize, if_pos rfl, hmod]
    rw [hfin]
    have hcut := hok'.cut (hperm.mem_iff.mpr hptrm) hbase hnu hlt
    refine ⟨ys, trivial, hcut.frame rfl (Nat.le_refl _) rfl (fun _ _ => rfl), ?_, rfl, rfl, rfl, ?_⟩
    · refine (size_setSize _ _ _ _).trans ?_
      rw [if_pos rfl]
      exact Nat.mod_eq_of_lt (by omega)
    · intro x hx hxc
      have hxp : x ≠ h.ptr p := fun he => hx (he ▸ hptrm)
      simp [setSize, hxp, hxc]

/-- New memory is a block of the program at first. -/
theorem Ok.obtain {except : Nat → Prop} (hok : h.Ok f xs live except) {n : Nat} (hlow : h.base + headerSize ≤ h.brk) (hp : h.brk ≤ p)
    (hn : 0 < n) (hword : h.obtained + n < 2 ^ 32) {brk : Nat} (hbrk : p + headerSize * n ≤ brk) :
    (({ h with brk := brk, obtained := h.obtained + n } : Heap).setSize p n).Ok f xs (p :: live) except := by
  obtain ⟨t, ht⟩ : ∃ t, t = ({ h with brk := brk, obtained := h.obtained + n } : Heap).setSize p n := ⟨_, rfl⟩
  rw [← ht]
  obtain ⟨⟨hm, hz, hnd, hbound, hapart, htotal, -⟩, hcycle, hord, hjoin⟩ := hok
  have hlt : ∀ {b}, b ∈ f :: xs ++ live → b < p ∧ (b ≠ h.base → h.fin b ≤ p) := by
    intro b hb
    by_cases hbb : b = h.base
    · unfold headerSize at hlow
      exact ⟨by omega, fun hne => absurd hbb hne⟩
    · have hbd := hbound b hb hbb
      refine ⟨?_, fun _ => by omega⟩
      have := hbd.2.2
      unfold fin headerSize at this
      omega
  have hsize : ∀ x, t.size x = if x = p then n else h.size x := by
    intro x
    rw [ht, size_setSize, Nat.mod_eq_of_lt (by omega)]
    rfl
  have hsame : ∀ {x}, x ∈ f :: xs ++ live → t.size x = h.size x := by
    intro x hx
    rw [hsize, if_neg (Nat.ne_of_lt (hlt hx).1)]
  have hfin : ∀ {x}, x ∈ f :: xs ++ live → t.fin x = h.fin x := fun hx => by rw [fin, fin, hsame hx]
  have hfinp : t.fin p = p + headerSize * n := by rw [fin, hsize, if_pos rfl]
  have hptr : t.ptr = h.ptr := by
    funext x
    rw [ht, ptr_setSize]
    rfl
  have hbase : t.base = h.base := by rw [ht]; rfl
  have hperm : (f :: xs ++ p :: live).Perm (p :: (f :: xs ++ live)) := List.perm_middle
  have hcases : ∀ {x}, x ∈ f :: xs ++ p :: live → x = p ∨ x ∈ f :: xs ++ live := fun hx => List.mem_cons.mp (hperm.mem_iff.mp hx)
  refine ⟨⟨hbase ▸ hm, ?_, ?_, ?_, ?_, ?_, ?_⟩, ?_, ?_, ?_⟩
  · rw [hbase, hsame (List.mem_append_left _ hm)]
    exact hz
  · exact hperm.nodup_iff.mpr (List.nodup_cons.mpr ⟨fun hmem => Nat.lt_irrefl _ (hlt hmem).1, hnd⟩)
  · have hbrk' : t.brk = brk := by rw [ht]; rfl
    intro x hx hxb
    rw [hbase] at hxb ⊢
    rw [hbrk']
    rcases hcases hx with hxp | hx
    · rw [hxp, hfinp, hsize, if_pos rfl]
      exact ⟨hn, by omega, hbrk⟩
    · rw [hsame hx, hfin hx]
      obtain ⟨h1, h2, h3⟩ := hbound x hx hxb
      exact ⟨h1, h2, by omega⟩
  · intro x hx y hy hxb hxy
    rw [hbase] at hxb
    rcases hcases hx with hxp | hx
    · rcases hcases hy with hyp | hy
      · omega
      · have := (hlt hy).1
        omega
    · rw [hfin hx]
      rcases hcases hy with hyp | hy
      · rw [hyp]
        exact (hlt hx).2 hxb
      · exact hapart x hx y hy hxb hxy
  · have hobt : t.obtained = h.obtained + n := by rw [ht]; rfl
    rw [hobt, (hperm.map t.size).sum_eq, List.map_cons, List.sum_cons, List.map_congr_left (fun x hx => hsame hx), htotal, hsize, if_pos rfl]
    exact Nat.add_comm _ _
  · rw [ht]
    exact hword
  · rw [hptr]
    exact hcycle
  · intro x hx
    rw [hptr, hbase]
    exact hord x hx
  · intro x hx hxb he
    rw [hbase] at hxb
    rw [hfin (List.mem_append_left _ hx), hptr] at he
    exact hjoin x hx hxb he

end Heap

end Xv6SnifferBakery.Umalloc
