import Xv6SnifferBakery.Kernel.Bcache
import Xv6SnifferBakery.Lib.Counted

/-!
# What the buffer cache keeps

The list holds every buffer once, a reference count is the number of uses and pins, the sleep lock of a buffer is held by the use that
stands inside it, and a valid buffer has what was last put into its block.
-/

namespace Xv6SnifferBakery.Kernel

open Lib Bcache

variable {α : Type} {n u b dev blockno : Nat} {s t : BioSys α} {last last' : Nat → α} {a : BioAction α} {c : Bcache α} {xs : List Nat}
  {x : BioUse} {f : Buf α → Buf α}

/-! ## The operations -/

namespace Bcache

@[simp] theorem modBuf_links (c : Bcache α) (b : Nat) (f : Buf α → Buf α) : (c.modBuf b f).links = c.links := rfl

@[simp] theorem modBuf_self (c : Bcache α) (b : Nat) (f : Buf α → Buf α) : (c.modBuf b f).buf b = f (c.buf b) :=
  Function.update_self ..

theorem modBuf_of_ne (c : Bcache α) (f : Buf α → Buf α) {b d : Nat} (h : d ≠ b) : (c.modBuf b f).buf d = c.buf d :=
  Function.update_of_ne h ..

/-- A field that the change of a buffer leaves alone. -/
theorem modBuf_field {β : Type} (g : Buf α → β) (h : g (f (c.buf b)) = g (c.buf b)) (d : Nat) : g ((c.modBuf b f).buf d) = g (c.buf d) := by
  by_cases hd : d = b
  · rw [hd, modBuf_self, h]
  · rw [modBuf_of_ne c f hd]

/-- The list of the buffers, most recently used first. -/
structure Listed (c : Bcache α) (xs : List Nat) : Prop where
  ring : c.links.Ring head xs
  perm : xs.Perm (List.range nBuf)

theorem Listed.mem (h : c.Listed xs) : b ∈ xs ↔ b < nBuf := by
  rw [h.perm.mem_iff, List.mem_range]

theorem Listed.length (h : c.Listed xs) : xs.length < nBuf + 1 := by
  rw [h.perm.length_eq, List.length_range]
  omega

/-- The buffer that `bget` recycles: no buffer behind it in the list is free of references. -/
def Recycles (c : Bcache α) (xs : List Nat) (b : Nat) : Prop :=
  ∃ ys zs, xs = ys ++ b :: zs ∧ (c.buf b).refcnt = 0 ∧ ∀ z ∈ zs, (c.buf z).refcnt ≠ 0

theorem Recycles.mem (h : c.Recycles xs b) : b ∈ xs := by
  obtain ⟨ys, zs, rfl, -, -⟩ := h
  simp

/-- The buffer of the block, if there is one; or a buffer without references, if there is one. -/
inductive Got (c : Bcache α) (xs : List Nat) (dev blockno : Nat) : Option (Bcache α × Nat) → Prop where
  | cached {b : Nat} : b ∈ xs → c.isFor dev blockno b = true →
      Got c xs dev blockno (some (c.modBuf b (fun x => { x with refcnt := x.refcnt + 1 }), b))
  | recycled {b : Nat} : (∀ d ∈ xs, c.isFor dev blockno d = false) → c.Recycles xs b →
      Got c xs dev blockno (some (c.modBuf b (·.recycle dev blockno), b))
  | full : (∀ d ∈ xs, c.isFor dev blockno d = false) → (∀ d ∈ xs, (c.buf d).refcnt ≠ 0) → Got c xs dev blockno none

theorem Listed.got (h : c.Listed xs) (dev blockno : Nat) : c.Got xs dev blockno (c.bget dev blockno) := by
  unfold bget
  rw [h.ring.walk_next h.length, h.ring.walk_prev h.length]
  cases hfind : xs.find? (c.isFor dev blockno) with
  | some b => exact .cached (List.mem_of_find?_eq_some hfind) (List.find?_some hfind)
  | none =>
    have hnone : ∀ d ∈ xs, c.isFor dev blockno d = false := by
      intro d hd
      exact Bool.eq_false_iff.mpr (List.find?_eq_none.mp hfind d hd)
    cases hfree : xs.reverse.find? (fun b => decide ((c.buf b).refcnt = 0)) with
    | some b =>
      obtain ⟨hb, as, bs, hsplit, has⟩ := List.find?_eq_some_iff_append.mp hfree
      refine .recycled hnone ⟨bs.reverse, as.reverse, ?_, of_decide_eq_true hb, ?_⟩
      · rw [← List.reverse_reverse xs, hsplit]
        simp
      · intro z hz
        simpa using has z (List.mem_reverse.mp hz)
    | none =>
      refine .full hnone ?_
      intro d hd
      simpa using List.find?_eq_none.mp hfree d (List.mem_reverse.mpr hd)

@[simp] theorem giveUp_buf (c : Bcache α) (b : Nat) : (c.giveUp b).buf = (c.modBuf b (fun x => { x with refcnt := x.refcnt - 1 })).buf := by
  unfold giveUp
  simp only []
  split <;> rfl

/-- A buffer that is given up by its last user goes to the front of the list. -/
theorem Listed.giveUp (h : c.Listed xs) (hb : b < nBuf) :
    (c.giveUp b).Listed (if (c.buf b).refcnt - 1 = 0 then b :: xs.erase b else xs) := by
  unfold Bcache.giveUp
  simp only [modBuf_self, modBuf_links]
  split
  · obtain ⟨ys, zs, hno, hsplit, herase⟩ := List.exists_erase_eq (h.mem.mpr hb)
    have hring : (c.links.unlink b).Ring head (ys ++ zs) := (hsplit ▸ h.ring).unlink
    have hnd : (head :: (b :: (ys ++ zs))).Nodup := by
      refine (List.Perm.nodup_iff ?_).mp h.ring.nodup
      rw [hsplit]
      exact List.Perm.cons _ List.perm_middle
    rw [herase]
    refine ⟨hring.linkAfter ?_, ?_⟩
    · intro hm
      rcases List.mem_cons.mp hm with rfl | hm
      · exact (List.nodup_cons.mp hnd).1 (List.mem_cons_self ..)
      · exact (List.nodup_cons.mp (List.nodup_cons.mp hnd).2).1 hm
    · refine List.Perm.trans ?_ h.perm
      rw [hsplit]
      exact List.perm_middle.symm
  · exact ⟨h.ring, h.perm⟩

/-- The list after `binit`. -/
theorem binit_listed (zero : α) : (binit zero).Listed (List.range nBuf).reverse := by
  refine ⟨?_, List.reverse_perm _⟩
  have hlink : ∀ k ≤ nBuf, ((List.range k).foldl (fun l b => l.linkAfter head b) ⟨fun _ => head, fun _ => head⟩ : Links Nat).Ring head
      (List.range k).reverse := by
    intro k hk
    induction k with
    | zero => exact Links.Ring.empty rfl rfl
    | succ k ih =>
      rw [List.range_succ, List.foldl_append, List.reverse_append]
      refine (ih (by omega)).linkAfter ?_
      intro hm
      rcases List.mem_cons.mp hm with hm | hm
      · exact absurd hm (by unfold head; omega)
      · simp at hm
  exact hlink nBuf (Nat.le_refl _)

end Bcache

/-! ## The steps -/

namespace BioSys

@[simp] theorem setUse_cache (s : BioSys α) (u : Nat) (o : Option BioUse) : (s.setUse u o).cache = s.cache := rfl
@[simp] theorem setUse_self (s : BioSys α) (u : Nat) (o : Option BioUse) : (s.setUse u o).use u = o := Function.update_self ..

theorem setUse_of_ne (s : BioSys α) (o : Option BioUse) {u v : Nat} (h : v ≠ u) : (s.setUse u o).use v = s.use v :=
  Function.update_of_ne h ..

theorem at?_some {stage : BioStage} (h : s.at? u stage = some x) : s.use u = some x ∧ x.stage = stage := by
  obtain ⟨hu, hst⟩ := Option.filter_eq_some_iff.mp h
  exact ⟨hu, of_decide_eq_true hst⟩

/-- What a step can do. -/
inductive Steps (s : BioSys α) : BioAction α → BioSys α → Prop where
  | bget {u dev blockno b : Nat} {c : Bcache α} : s.use u = none → s.cache.bget dev blockno = some (c, b) →
      Steps s (.bget u dev blockno) ({ s with cache := c }.setUse u (some ⟨dev, blockno, b, .waiting⟩))
  | acquire {u : Nat} {x : BioUse} : s.use u = some x → x.stage = .waiting → (s.cache.buf x.buf).lock = none →
      Steps s (.acquire u)
        ({ s with cache := s.cache.modBuf x.buf (fun b => { b with lock := some u }) }.setUse u (some { x with stage := .locked }))
  | hit {u : Nat} {x : BioUse} : s.use u = some x → x.stage = .locked → (s.cache.buf x.buf).valid = true →
      Steps s (.bread u) (s.setUse u (some { x with stage := .ready }))
  | miss {u : Nat} {x : BioUse} : s.use u = some x → x.stage = .locked → (s.cache.buf x.buf).valid = false →
      Steps s (.bread u) ({ s with cache := s.cache.modBuf x.buf (fun b => { b with data := s.disk b.blockno, valid := true }) }.setUse u
        (some { x with stage := .ready }))
  | edit {u : Nat} {d : α} {x : BioUse} : s.use u = some x → x.stage = .ready →
      Steps s (.edit u d) { s with cache := s.cache.modBuf x.buf (fun b => { b with data := d }) }
  | bwrite {u : Nat} {x : BioUse} : s.use u = some x → x.stage = .ready → s.holding u x = true →
      Steps s (.bwrite u) { s with disk := Function.update s.disk (s.cache.buf x.buf).blockno (s.cache.buf x.buf).data }
  | bpin {u : Nat} {x : BioUse} : s.use u = some x → x.stage = .ready →
      Steps s (.bpin u) { s with cache := s.cache.bpin x.buf, pins := x.buf :: s.pins }
  | bunpin {u : Nat} {x : BioUse} : s.use u = some x → x.stage = .ready →
      Steps s (.bunpin u) { s with cache := s.cache.bunpin x.buf, pins := s.pins.erase x.buf }
  | release {u : Nat} {x : BioUse} : s.use u = some x → x.stage = .ready → s.holding u x = true →
      Steps s (.release u)
        ({ s with cache := s.cache.modBuf x.buf (fun b => { b with lock := none }) }.setUse u (some { x with stage := .leaving }))
  | brelse {u : Nat} {x : BioUse} : s.use u = some x → x.stage = .leaving →
      Steps s (.brelse u) ({ s with cache := s.cache.giveUp x.buf }.setUse u none)

theorem step_cases (h : s.step a = some t) : s.Steps a t := by
  cases a with
  | bget u dev blockno =>
    simp only [step] at h
    split at h
    · cases h
    · rename_i hnone
      obtain ⟨⟨c, b⟩, hget, rfl⟩ := Option.map_eq_some_iff.mp h
      exact .bget (by simpa using hnone) hget
  | acquire u =>
    obtain ⟨x, hx, h⟩ := Option.bind_eq_some_iff.mp h
    obtain ⟨hu, hst⟩ := at?_some hx
    split at h
    · cases h
    · rename_i hnone
      obtain rfl := Option.some.inj h
      exact .acquire hu hst (by simpa using hnone)
  | bread u =>
    obtain ⟨x, hx, rfl⟩ := Option.map_eq_some_iff.mp h
    obtain ⟨hu, hst⟩ := at?_some hx
    cases hv : (s.cache.buf x.buf).valid with
    | true =>
      rw [if_pos rfl]
      exact .hit hu hst hv
    | false =>
      rw [if_neg Bool.false_ne_true]
      exact .miss hu hst hv
  | edit u d =>
    obtain ⟨x, hx, rfl⟩ := Option.map_eq_some_iff.mp h
    obtain ⟨hu, hst⟩ := at?_some hx
    exact .edit hu hst
  | bwrite u =>
    obtain ⟨x, hx, h⟩ := Option.bind_eq_some_iff.mp h
    obtain ⟨hu, hst⟩ := at?_some hx
    split at h
    · rename_i hh
      obtain rfl := Option.some.inj h
      exact .bwrite hu hst hh
    · cases h
  | bpin u =>
    obtain ⟨x, hx, rfl⟩ := Option.map_eq_some_iff.mp h
    obtain ⟨hu, hst⟩ := at?_some hx
    exact .bpin hu hst
  | bunpin u =>
    obtain ⟨x, hx, rfl⟩ := Option.map_eq_some_iff.mp h
    obtain ⟨hu, hst⟩ := at?_some hx
    exact .bunpin hu hst
  | release u =>
    obtain ⟨x, hx, h⟩ := Option.bind_eq_some_iff.mp h
    obtain ⟨hu, hst⟩ := at?_some hx
    split at h
    · rename_i hh
      obtain rfl := Option.some.inj h
      exact .release hu hst hh
    · cases h
  | brelse u =>
    obtain ⟨x, hx, rfl⟩ := Option.map_eq_some_iff.mp h
    obtain ⟨hu, hst⟩ := at?_some hx
    exact .brelse hu hst

end BioSys

/-! ## References -/

/-- The buffers that uses and pins refer to. -/
def bioRefs (n : Nat) (use : Nat → Option BioUse) (pins : List Nat) : Multiset Nat :=
  content n (fun u => (use u).map BioUse.buf) + (pins : Multiset Nat)

variable {use : Nat → Option BioUse} {pins : List Nat} {x' : BioUse}

/-- A use begins. -/
theorem bioRefs_begin (hu : u < n) (hnone : use u = none) :
    bioRefs n (Function.update use u (some x)) pins = {x.buf} + bioRefs n use pins := by
  have hf : (fun v => (Function.update use u (some x) v).map BioUse.buf) =
      Function.update (fun v => (use v).map BioUse.buf) u (some x.buf) := by
    funext v
    by_cases hv : v = u
    · rw [hv, Function.update_self, Function.update_self]
      rfl
    · rw [Function.update_of_ne hv, Function.update_of_ne hv]
  rw [bioRefs, hf, content_fill n _ u x.buf hu (by simp [hnone]), bioRefs]
  abel

/-- A use goes on with its buffer. -/
theorem bioRefs_same (hx : use u = some x) (hb : x'.buf = x.buf) : bioRefs n (Function.update use u (some x')) pins = bioRefs n use pins := by
  have hf : (fun v => (Function.update use u (some x') v).map BioUse.buf) = fun v => (use v).map BioUse.buf := by
    funext v
    by_cases hv : v = u
    · rw [hv, Function.update_self, hx, Option.map_some, Option.map_some, hb]
    · rw [Function.update_of_ne hv]
  rw [bioRefs, hf, bioRefs]

/-- A use ends. -/
theorem bioRefs_end (hu : u < n) (hx : use u = some x) : bioRefs n use pins = {x.buf} + bioRefs n (Function.update use u none) pins := by
  have hf : (fun v => (Function.update use u none v).map BioUse.buf) = Function.update (fun v => (use v).map BioUse.buf) u none := by
    funext v
    by_cases hv : v = u
    · rw [hv, Function.update_self, Function.update_self]
      rfl
    · rw [Function.update_of_ne hv, Function.update_of_ne hv]
  have hclear := content_clear n (fun v => (use v).map BioUse.buf) u hu
  rw [hx, Option.map_some, slot_some] at hclear
  rw [bioRefs, bioRefs, hf, ← hclear]
  abel

theorem bioRefs_pin : bioRefs n use (b :: pins) = {b} + bioRefs n use pins := by
  rw [bioRefs, bioRefs, ← Multiset.cons_coe, ← Multiset.singleton_add]
  abel

theorem bioRefs_unpin (hb : b ∈ pins) : bioRefs n use pins = {b} + bioRefs n use (pins.erase b) := by
  rw [← bioRefs_pin, bioRefs, bioRefs]
  congr 1
  exact Multiset.coe_eq_coe.mpr (List.perm_cons_erase hb)

def Bcache.refcnts (c : Bcache α) (b : Nat) : Nat := (c.buf b).refcnt

theorem Bcache.modBuf_refcnts : (c.modBuf b f).refcnts = Function.update c.refcnts b (f (c.buf b)).refcnt := by
  funext d
  by_cases hd : d = b
  · rw [hd, Function.update_self, refcnts, modBuf_self]
  · rw [Function.update_of_ne hd, refcnts, refcnts, modBuf_of_ne c f hd]

theorem Bcache.modBuf_refcnts_same (h : (f (c.buf b)).refcnt = (c.buf b).refcnt) : (c.modBuf b f).refcnts = c.refcnts := by
  rw [modBuf_refcnts, h]
  exact Function.update_eq_self b c.refcnts

theorem Bcache.giveUp_refcnts : (c.giveUp b).refcnts = Function.update c.refcnts b (c.refcnts b - 1) := by
  have hbuf : (c.giveUp b).refcnts = (c.modBuf b (fun x => { x with refcnt := x.refcnt - 1 })).refcnts := by
    funext d
    rw [refcnts, refcnts, giveUp_buf]
  rw [hbuf, modBuf_refcnts]
  rfl

/-! ## The books -/

/-- What a caller does not do: it opens blocks of the one device, and unpins only what is pinned. -/
def BioAction.orderly (n : Nat) (s : BioSys α) : BioAction α → Prop
  | .bget u dev _ => u < n ∧ dev = rootDev
  | .bunpin u => ∀ x, s.use u = some x → x.buf ∈ s.pins
  | _ => True

/-- A use inside the sleep lock of its buffer. -/
def BioUse.inside (x : BioUse) : Prop := x.stage = .locked ∨ x.stage = .ready

structure BioInv (n : Nat) (s : BioSys α) : Prop where
  listed : ∃ xs, s.cache.Listed xs
  counts : Balanced s.cache.refcnts (bioRefs n s.use s.pins)
  slot : ∀ u x, s.use u = some x → u < n ∧ x.buf < nBuf ∧ s.cache.isFor rootDev x.blockno x.buf = true
  readied : ∀ u x, s.use u = some x → x.stage = .ready → (s.cache.buf x.buf).valid = true
  holder : ∀ b u, (s.cache.buf b).lock = some u ↔ ∃ x, s.use u = some x ∧ x.buf = b ∧ x.inside
  pinned : ∀ b ∈ s.pins, b < nBuf
  unique : ∀ b < nBuf, ∀ d < nBuf, ∀ k, s.cache.isFor rootDev k b = true → s.cache.isFor rootDev k d = true → b = d
  unused : ∀ b, (s.cache.buf b).valid = true → (s.cache.buf b).dev = rootDev

/-- A buffer that a use or a pin refers to has a reference count. -/
theorem BioInv.referenced (h : BioInv n s) (hx : s.use u = some x) : s.cache.refcnts x.buf ≠ 0 := by
  have hmem : x.buf ∈ bioRefs n s.use s.pins := by
    rw [bioRefs_end (h.slot u x hx).1 hx]
    exact Multiset.mem_add.mpr (Or.inl (Multiset.mem_singleton_self _))
  exact Nat.pos_iff_ne_zero.mp (h.counts.pos_iff.mpr hmem)

theorem Bcache.isFor_dev (h : c.isFor dev blockno b = true) : (c.buf b).dev = dev := by
  rw [isFor, Bool.and_eq_true] at h
  exact of_decide_eq_true h.1

theorem Bcache.isFor_blockno (h : c.isFor dev blockno b = true) : (c.buf b).blockno = blockno := by
  rw [isFor, Bool.and_eq_true] at h
  exact of_decide_eq_true h.2

/-- A use that is inside holds the lock of its buffer, and no other buffer's. -/
theorem BioInv.holder_self (h : BioInv n s) (hx : s.use u = some x) (hin : x.inside) (d : Nat) :
    (s.cache.buf d).lock = some u ↔ x.buf = d := by
  rw [h.holder]
  constructor
  · rintro ⟨y, hy, rfl, -⟩
    rw [Option.some.inj (hx.symm.trans hy)]
  · rintro rfl
    exact ⟨x, hx, rfl, hin⟩

/-- A use that stays inside. -/
theorem BioInv.stays {stage : BioStage} (h : BioInv n s) (hx : s.use u = some x) (hin : x.inside) (hst : stage = .locked ∨ stage = .ready)
    (d v : Nat) : (s.cache.buf d).lock = some v ↔ if v = u then x.buf = d ∧ (stage = .locked ∨ stage = .ready)
      else (s.cache.buf d).lock = some v := by
  by_cases hv : v = u
  · rw [if_pos hv, hv, h.holder_self hx hin]
    exact (and_iff_left hst).symm
  · rw [if_neg hv]

theorem BioInv.free (h : BioInv n s) (hb : s.cache.refcnts b = 0) : b ∉ s.pins ∧ ∀ u x, s.use u = some x → x.buf ≠ b := by
  refine ⟨?_, fun u x hx he => h.referenced hx (he ▸ hb)⟩
  intro hm
  have hmem : b ∈ bioRefs n s.use s.pins := Multiset.mem_add.mpr (Or.inr (Multiset.mem_coe.mpr hm))
  exact Nat.pos_iff_ne_zero.mp (h.counts.pos_iff.mpr hmem) hb

/-- A change of one buffer that keeps its block. -/
theorem Bcache.isFor_modBuf (hdev : (f (c.buf b)).dev = (c.buf b).dev) (hno : (f (c.buf b)).blockno = (c.buf b).blockno) (dev k d : Nat) :
    (c.modBuf b f).isFor dev k d = c.isFor dev k d := by
  rw [isFor, isFor, modBuf_field Buf.dev hdev, modBuf_field Buf.blockno hno]

/-- A step of a use that keeps the blocks of all buffers. -/
theorem BioInv.go {stage : BioStage} (h : BioInv n s) (hx : s.use u = some x) (hbuf : c.links = s.cache.links)
    (hcounts : c.refcnts = s.cache.refcnts) (hfor : ∀ dev k d, c.isFor dev k d = s.cache.isFor dev k d)
    (hvalid : ∀ d, (s.cache.buf d).valid = true → (c.buf d).valid = true) (hready : stage = .ready → (c.buf x.buf).valid = true)
    (hunused : ∀ d, (c.buf d).valid = true → (c.buf d).dev = rootDev)
    (hholder : ∀ d v, (c.buf d).lock = some v ↔ if v = u then x.buf = d ∧ (stage = .locked ∨ stage = .ready)
      else (s.cache.buf d).lock = some v) :
    BioInv n ({ s with cache := c }.setUse u (some { x with stage := stage })) := by
  refine ⟨?_, ?_, ?_, ?_, ?_, h.pinned, ?_, hunused⟩
  · obtain ⟨xs, hring, hperm⟩ := h.listed
    exact ⟨xs, by rw [BioSys.setUse, hbuf]; exact hring, hperm⟩
  · change Balanced c.refcnts (bioRefs n (Function.update s.use u (some { x with stage := stage })) s.pins)
    rw [hcounts]
    exact h.counts.congr (bioRefs_same hx rfl)
  · intro v y hy
    rw [BioSys.setUse_cache, hfor]
    by_cases hv : v = u
    · subst hv
      rw [BioSys.setUse_self] at hy
      obtain rfl := Option.some.inj hy
      exact h.slot v x hx
    · rw [BioSys.setUse_of_ne _ _ hv] at hy
      exact h.slot v y hy
  · intro v y hy hst
    by_cases hv : v = u
    · subst hv
      rw [BioSys.setUse_self] at hy
      obtain rfl := Option.some.inj hy
      exact hready hst
    · rw [BioSys.setUse_of_ne _ _ hv] at hy
      exact hvalid _ (h.readied v y hy hst)
  · intro d v
    refine (hholder d v).trans ?_
    by_cases hv : v = u
    · subst hv
      rw [if_pos rfl, BioSys.setUse_self]
      constructor
      · rintro ⟨rfl, hst⟩
        exact ⟨_, rfl, rfl, hst⟩
      · rintro ⟨y, hy, rfl, hin⟩
        obtain rfl := Option.some.inj hy
        exact ⟨rfl, hin⟩
    · rw [if_neg hv, BioSys.setUse_of_ne _ _ hv]
      exact h.holder d v
  · intro b hb d hd k hkb hkd
    change c.isFor rootDev k b = true at hkb
    change c.isFor rootDev k d = true at hkd
    rw [hfor] at hkb hkd
    exact h.unique b hb d hd k hkb hkd

theorem BioSys.setUse_eq (hx : s.use u = some x) : s.setUse u (some x) = s := by
  rw [setUse, ← hx, Function.update_eq_self]

/-- Counts change, uses begin or end outside the sleep locks, and the list is put in another order. -/
theorem BioInv.recount {use : Nat → Option BioUse} {pins : List Nat} (h : BioInv n s) (hlisted : ∃ xs, c.Listed xs)
    (hbuf : ∀ d, c.buf d = { s.cache.buf d with refcnt := c.refcnts d }) (hcounts : Balanced c.refcnts (bioRefs n use pins))
    (huse : ∀ v y, use v = some y →
      s.use v = some y ∨ (v < n ∧ y.buf < nBuf ∧ s.cache.isFor rootDev y.blockno y.buf = true ∧ y.stage = .waiting))
    (hkeep : ∀ v y, s.use v = some y → y.inside → use v = some y) (hpins : ∀ b ∈ pins, b < nBuf) : BioInv n ⟨c, s.disk, use, pins⟩ := by
  have hfor : ∀ dev k d, c.isFor dev k d = s.cache.isFor dev k d := by
    intro dev k d
    rw [isFor, isFor, hbuf d]
  have hlock : ∀ d, (c.buf d).lock = (s.cache.buf d).lock := fun d => by rw [hbuf d]
  have hvalid : ∀ d, (c.buf d).valid = (s.cache.buf d).valid := fun d => by rw [hbuf d]
  refine ⟨hlisted, hcounts, ?_, ?_, ?_, hpins, ?_, ?_⟩
  · intro v y hy
    rw [hfor]
    rcases huse v y hy with hy | ⟨hv, hb, hf, -⟩
    · exact h.slot v y hy
    · exact ⟨hv, hb, hf⟩
  · intro v y hy hst
    rw [hvalid]
    rcases huse v y hy with hy | ⟨-, -, -, hw⟩
    · exact h.readied v y hy hst
    · rw [hst] at hw
      cases hw
  · intro d v
    rw [hlock, h.holder d v]
    refine exists_congr (fun y => ?_)
    constructor
    · rintro ⟨hy, hb, hin⟩
      exact ⟨hkeep v y hy hin, hb, hin⟩
    · rintro ⟨hy, hb, hin⟩
      rcases huse v y hy with hy | ⟨-, -, -, hw⟩
      · exact ⟨hy, hb, hin⟩
      · rcases hin with hin | hin <;> rw [hin] at hw <;> cases hw
  · intro b hb d hd k hkb hkd
    rw [hfor] at hkb hkd
    exact h.unique b hb d hd k hkb hkd
  · intro d hd
    rw [hbuf d] at hd ⊢
    exact h.unused d hd

/-- A change of the count of one buffer. -/
theorem Bcache.recounted (hf : ∀ x : Buf α, f x = { x with refcnt := (f x).refcnt }) (d : Nat) :
    (c.modBuf b f).buf d = { c.buf d with refcnt := (c.modBuf b f).refcnts d } := by
  by_cases hd : d = b
  · rw [hd, refcnts, modBuf_self]
    exact hf _
  · rw [refcnts, modBuf_of_ne _ _ hd]

/-- A buffer without references gets another block. -/
theorem BioInv.recycle (h : BioInv n s) {b k : Nat} {xs : List Nat} (hu : u < n) (hnone : s.use u = none) (hl : s.cache.Listed xs)
    (hno : ∀ d ∈ xs, s.cache.isFor rootDev k d = false) (hb : s.cache.Recycles xs b) :
    BioInv n ({ s with cache := s.cache.modBuf b (·.recycle rootDev k) }.setUse u (some ⟨rootDev, k, b, .waiting⟩)) := by
  have hlt : b < nBuf := hl.mem.mp hb.mem
  obtain ⟨-, -, -, hzero, -⟩ := hb
  obtain ⟨hpins, huses⟩ := h.free hzero
  have hother : ∀ {v : Nat} {y : BioUse}, v ≠ u → s.use v = some y → y.buf ≠ b := fun _ hy => huses _ _ hy
  refine ⟨⟨xs, hl.ring, hl.perm⟩, ?_, ?_, ?_, ?_, h.pinned, ?_, ?_⟩
  · have hone := h.counts.take b
    rw [show s.cache.refcnts b = 0 from hzero] at hone
    rw [BioSys.setUse_cache, modBuf_refcnts]
    refine hone.congr ?_
    exact bioRefs_begin hu hnone
  · intro v y hy
    rw [BioSys.setUse_cache]
    by_cases hv : v = u
    · subst hv
      rw [BioSys.setUse_self] at hy
      obtain rfl := Option.some.inj hy
      refine ⟨hu, hlt, ?_⟩
      simp [isFor, Buf.recycle]
    · rw [BioSys.setUse_of_ne _ _ hv] at hy
      rw [isFor, modBuf_of_ne _ _ (hother hv hy)]
      exact h.slot v y hy
  · intro v y hy hst
    rw [BioSys.setUse_cache]
    by_cases hv : v = u
    · subst hv
      rw [BioSys.setUse_self] at hy
      obtain rfl := Option.some.inj hy
      cases hst
    · rw [BioSys.setUse_of_ne _ _ hv] at hy
      rw [modBuf_of_ne _ _ (hother hv hy)]
      exact h.readied v y hy hst
  · intro d v
    rw [BioSys.setUse_cache, modBuf_field Buf.lock rfl, h.holder d v]
    by_cases hv : v = u
    · subst hv
      rw [BioSys.setUse_self, hnone]
      constructor
      · rintro ⟨y, hy, -⟩
        cases hy
      · rintro ⟨y, hy, -, hin⟩
        obtain rfl := Option.some.inj hy
        rcases hin with hin | hin <;> cases hin
    · rw [BioSys.setUse_of_ne _ _ hv]
  · -- the block had no buffer before
    have hold : ∀ d < nBuf, d ≠ b → ∀ j, (s.cache.modBuf b (·.recycle rootDev k)).isFor rootDev j d = true →
        s.cache.isFor rootDev j d = true ∧ j ≠ k := by
      intro d hd hdb j hj
      rw [isFor, modBuf_of_ne _ _ hdb] at hj
      refine ⟨hj, ?_⟩
      rintro rfl
      exact Bool.false_ne_true ((hno d (hl.mem.mpr hd)).symm.trans hj)
    have hnew : ∀ j, (s.cache.modBuf b (·.recycle rootDev k)).isFor rootDev j b = true → j = k := by
      intro j hj
      simpa [isFor, Buf.recycle, eq_comm] using hj
    intro d hd e he j hjd hje
    by_cases hdb : d = b <;> by_cases heb : e = b
    · rw [hdb, heb]
    · exact absurd (hnew j (hdb ▸ hjd)) (hold e he heb j hje).2
    · exact absurd (hnew j (heb ▸ hje)) (hold d hd hdb j hjd).2
    · exact h.unique d hd e he j (hold d hd hdb j hjd).1 (hold e he heb j hje).1
  · intro d hd
    rw [BioSys.setUse_cache] at hd ⊢
    by_cases hdb : d = b
    · rw [hdb, modBuf_self] at hd
      cases hd
    · rw [modBuf_of_ne _ _ hdb] at hd ⊢
      exact h.unused d hd

theorem BioInv.step (h : BioInv n s) (ho : a.orderly n s) (hs : s.step a = some t) : BioInv n t := by
  cases BioSys.step_cases hs with
  | @bget u dev k b c hnone hget =>
    obtain ⟨hu, rfl⟩ := ho
    obtain ⟨xs, hl⟩ := h.listed
    have hgot := hl.got rootDev k
    rw [hget] at hgot
    cases hgot with
    | cached hb hf =>
      refine h.recount ⟨xs, hl.ring, hl.perm⟩ (recounted (f := fun x => { x with refcnt := x.refcnt + 1 }) (fun _ => rfl)) ?_ ?_ ?_ h.pinned
      · rw [modBuf_refcnts]
        exact (h.counts.take b).congr (bioRefs_begin hu hnone)
      · intro v y hy
        by_cases hv : v = u
        · subst hv
          rw [Function.update_self] at hy
          obtain rfl := Option.some.inj hy
          exact Or.inr ⟨hu, hl.mem.mp hb, hf, rfl⟩
        · rw [Function.update_of_ne hv] at hy
          exact Or.inl hy
      · intro v y hy hin
        have hv : v ≠ u := by
          rintro rfl
          rw [hnone] at hy
          cases hy
        rwa [Function.update_of_ne hv]
    | recycled hno hb => exact h.recycle hu hnone hl hno hb
  | @acquire u x hx hst hnone =>
    refine h.go hx rfl (modBuf_refcnts_same rfl) (isFor_modBuf rfl rfl) ?_ (by simp) ?_ ?_
    · exact fun d hd => (modBuf_field Buf.valid rfl d).trans hd
    · intro d hd
      rw [modBuf_field Buf.valid rfl] at hd
      exact (modBuf_field Buf.dev rfl d).trans (h.unused d hd)
    · intro d v
      by_cases hd : d = x.buf
      · rw [hd, modBuf_self, hnone]
        by_cases hv : v = u
        · simp [hv]
        · simp [hv, Ne.symm hv]
      · rw [modBuf_of_ne _ _ hd]
        by_cases hv : v = u
        · rw [if_pos hv, hv, h.holder]
          constructor
          · rintro ⟨y, hy, rfl, -⟩
            obtain rfl := Option.some.inj (hx.symm.trans hy)
            exact absurd rfl hd
          · rintro ⟨rfl, -⟩
            exact absurd rfl hd
        · rw [if_neg hv]
  | @hit u x hx hst hv =>
    refine h.go hx rfl rfl (fun _ _ _ => rfl) (fun _ => id) (fun _ => hv) h.unused ?_
    exact h.stays hx (Or.inl hst) (Or.inr rfl)
  | @miss u x hx hst hv =>
    refine h.go hx rfl (modBuf_refcnts_same rfl) (isFor_modBuf rfl rfl) ?_ (fun _ => by rw [modBuf_self]) ?_ ?_
    · intro d hd
      by_cases hdx : d = x.buf
      · rw [hdx, modBuf_self]
      · rwa [modBuf_of_ne _ _ hdx]
    · intro d hd
      by_cases hdx : d = x.buf
      · rw [hdx, modBuf_self]
        exact (isFor_dev (h.slot u x hx).2.2)
      · rw [modBuf_of_ne _ _ hdx] at hd ⊢
        exact h.unused d hd
    · intro d v
      rw [modBuf_field Buf.lock rfl]
      exact h.stays hx (Or.inl hst) (Or.inr rfl) d v
  | @edit u d x hx hst =>
    have hgo : BioInv n ({ s with cache := s.cache.modBuf x.buf (fun b => { b with data := d }) }.setUse u (some { x with stage := x.stage })) := by
      refine h.go hx rfl (modBuf_refcnts_same rfl) (isFor_modBuf rfl rfl) (fun d hd => (modBuf_field Buf.valid rfl d).trans hd)
        (fun _ => (modBuf_field Buf.valid rfl _).trans (h.readied u x hx hst)) ?_ ?_
      · intro d hd
        rw [modBuf_field Buf.valid rfl] at hd
        exact (modBuf_field Buf.dev rfl d).trans (h.unused d hd)
      · intro d v
        rw [modBuf_field Buf.lock rfl]
        exact h.stays hx (Or.inr hst) (Or.inr hst) d v
    rwa [BioSys.setUse_eq] at hgo
    exact hx
  | bwrite hx hst hh => exact ⟨h.listed, h.counts, h.slot, h.readied, h.holder, h.pinned, h.unique, h.unused⟩
  | @bpin u x hx hst =>
    obtain ⟨xs, hl⟩ := h.listed
    refine h.recount ⟨xs, hl.ring, hl.perm⟩ (recounted (fun _ => rfl)) ?_ (fun _ _ hy => Or.inl hy) (fun _ _ hy _ => hy) ?_
    · rw [bpin, modBuf_refcnts]
      exact (h.counts.take x.buf).congr bioRefs_pin
    · intro b hb
      rcases List.mem_cons.mp hb with rfl | hb
      · exact (h.slot u x hx).2.1
      · exact h.pinned b hb
  | @bunpin u x hx hst =>
    obtain ⟨xs, hl⟩ := h.listed
    refine h.recount ⟨xs, hl.ring, hl.perm⟩ (recounted (fun _ => rfl)) ?_ (fun _ _ hy => Or.inl hy) (fun _ _ hy _ => hy) ?_
    · rw [bunpin, modBuf_refcnts]
      exact (h.counts.congr (bioRefs_unpin (ho x hx)).symm).give
    · exact fun b hb => h.pinned b (List.mem_of_mem_erase hb)
  | @release u x hx hst hh =>
    refine h.go hx rfl (modBuf_refcnts_same rfl) (isFor_modBuf rfl rfl) ?_ (by simp) ?_ ?_
    · exact fun d hd => (modBuf_field Buf.valid rfl d).trans hd
    · intro d hd
      rw [modBuf_field Buf.valid rfl] at hd
      exact (modBuf_field Buf.dev rfl d).trans (h.unused d hd)
    · intro d v
      by_cases hd : d = x.buf
      · rw [hd, modBuf_self]
        by_cases hv : v = u
        · simp [hv]
        · have hother : (s.cache.buf x.buf).lock ≠ some v := by
            rw [(h.holder_self hx (Or.inr hst) x.buf).mpr rfl]
            exact fun he => hv (Option.some.inj he).symm
          simp [hv, hother]
      · rw [modBuf_of_ne _ _ hd]
        by_cases hv : v = u
        · rw [if_pos hv, hv, h.holder_self hx (Or.inr hst)]
          simp [Ne.symm hd]
        · rw [if_neg hv]
  | @brelse u x hx hst =>
    obtain ⟨xs, hl⟩ := h.listed
    have hlt := (h.slot u x hx).2.1
    refine h.recount ⟨_, hl.giveUp hlt⟩ ?_ ?_ ?_ ?_ h.pinned
    · intro d
      rw [giveUp_buf, recounted (fun _ => rfl), refcnts, refcnts, giveUp_buf]
    · rw [giveUp_refcnts]
      refine (h.counts.congr ?_).give
      exact (bioRefs_end (h.slot u x hx).1 hx).symm
    · intro v y hy
      by_cases hv : v = u
      · rw [hv, Function.update_self] at hy
        cases hy
      · rw [Function.update_of_ne hv] at hy
        exact Or.inl hy
    · intro v y hy hin
      have hv : v ≠ u := by
        rintro rfl
        obtain rfl := Option.some.inj (hx.symm.trans hy)
        rcases hin with hin | hin <;> rw [hst] at hin <;> cases hin
      rwa [Function.update_of_ne hv]

end Xv6SnifferBakery.Kernel
