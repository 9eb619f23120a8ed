import Xv6SnifferBakery.Lemmas.Bcache

/-!
# The buffer cache is transparent

Whoever gets a block from `bread` finds what was last put into it, by whichever process, and nobody else has it meanwhile, as long as a
caller that changes a buffer writes it or pins it before it gives it up. The buffer that `bget` recycles is the one that was given up
longest ago, and `bget` panics only when every buffer is in use or pinned.
-/

namespace Xv6SnifferBakery.Kernel

open Lib Bcache

variable {α : Type} {n u b : Nat} {s t : BioSys α} {last last' : Nat → α} {a : BioAction α} {c : Bcache α} {xs : List Nat} {x : BioUse}
  {as : List (BioAction α)}

/-! ## What was last put into a block -/

/-- What the blocks hold after an action, as the processes see it. -/
def BioAction.puts (s : BioSys α) (last : Nat → α) : BioAction α → Nat → α
  | .edit u d => (s.use u).elim last (fun x => Function.update last x.blockno d)
  | _ => last

/-- A caller gives a buffer up only when it is written or pinned. -/
def BioAction.careful (n : Nat) (s : BioSys α) (a : BioAction α) : Prop :=
  a.orderly n s ∧ match a with
    | .release u => ∀ x ∈ s.use u, x.buf ∈ s.pins ∨ (s.cache.buf x.buf).data = s.disk (s.cache.buf x.buf).blockno
    | _ => True

/-- A step, with what was last put into each block beside it. -/
def BioStep (n : Nat) (y : BioSys α × (Nat → α)) (a : BioAction α) (z : BioSys α × (Nat → α)) : Prop :=
  a.careful n y.1 ∧ y.1.step a = some z.1 ∧ z.2 = a.puts y.1 y.2

/-- A buffer that may differ from its block on disk: it is pinned, or somebody is at it. -/
def BioSys.Held (s : BioSys α) (b : Nat) : Prop := b ∈ s.pins ∨ ∃ u x, s.use u = some x ∧ x.buf = b ∧ x.stage = .ready

structure Coherent (s : BioSys α) (last : Nat → α) : Prop where
  cached : ∀ b < nBuf, (s.cache.buf b).valid = true → (s.cache.buf b).data = last (s.cache.buf b).blockno
  stored : ∀ k, (∀ b < nBuf, (s.cache.buf b).valid = true → (s.cache.buf b).blockno ≠ k) → s.disk k = last k
  clean : ∀ b < nBuf, (s.cache.buf b).valid = true → (s.cache.buf b).data = s.disk (s.cache.buf b).blockno ∨ s.Held b

/-- Two valid buffers of one block are one. -/
theorem BioInv.valid_unique (h : BioInv n s) {b d : Nat} (hb : b < nBuf) (hd : d < nBuf) (hvb : (s.cache.buf b).valid = true)
    (hvd : (s.cache.buf d).valid = true) (hk : (s.cache.buf b).blockno = (s.cache.buf d).blockno) : b = d := by
  refine h.unique b hb d hd (s.cache.buf b).blockno ?_ ?_
  · simp [isFor, h.unused b hvb]
  · simp [isFor, h.unused d hvd, hk]

/-- A step that leaves the contents alone. -/
theorem Coherent.frame (h : Coherent s last) (hvalid : ∀ b, (t.cache.buf b).valid = (s.cache.buf b).valid)
    (hno : ∀ b, (t.cache.buf b).blockno = (s.cache.buf b).blockno) (hdata : ∀ b, (t.cache.buf b).data = (s.cache.buf b).data)
    (hdisk : t.disk = s.disk) (hheld : ∀ b, s.Held b → (s.cache.buf b).data = s.disk (s.cache.buf b).blockno ∨ t.Held b) :
    Coherent t last := by
  refine ⟨?_, ?_, ?_⟩
  · intro b hb hv
    rw [hdata, hno]
    rw [hvalid] at hv
    exact h.cached b hb hv
  · intro k hk
    rw [hdisk]
    refine h.stored k (fun b hb hv => ?_)
    rw [← hno]
    exact hk b hb (by rw [hvalid, hv])
  · intro b hb hv
    rw [hdata, hno, hdisk]
    rw [hvalid] at hv
    rcases h.clean b hb hv with hc | hh
    · exact Or.inl hc
    · exact hheld b hh

/-- A change of one buffer that leaves the contents alone. -/
theorem Coherent.touch {f : Buf α → Buf α} (h : Coherent s last) (ht : t.cache = s.cache.modBuf b f) (hdisk : t.disk = s.disk)
    (hf : ∀ x, (f x).valid = x.valid ∧ (f x).blockno = x.blockno ∧ (f x).data = x.data)
    (hheld : ∀ d, s.Held d → (s.cache.buf d).data = s.disk (s.cache.buf d).blockno ∨ t.Held d) : Coherent t last := by
  refine h.frame ?_ ?_ ?_ hdisk hheld <;> rw [ht]
  · exact modBuf_field Buf.valid (hf _).1
  · exact modBuf_field Buf.blockno (hf _).2.1
  · exact modBuf_field Buf.data (hf _).2.2

/-- Uses that stay at their buffers keep them held. -/
theorem BioSys.Held.of_use {b : Nat} (h : s.Held b) (hpins : ∀ b ∈ s.pins, b ∈ t.pins)
    (huse : ∀ v y, s.use v = some y → y.stage = .ready → ∃ y', t.use v = some y' ∧ y'.buf = y.buf ∧ y'.stage = .ready) : t.Held b := by
  rcases h with hp | ⟨v, y, hy, rfl, hst⟩
  · exact Or.inl (hpins _ hp)
  · obtain ⟨y', hy', hbuf, hst'⟩ := huse v y hy hst
    exact Or.inr ⟨v, y', hy', hbuf, hst'⟩

/-- A use that changes is none that is at its buffer. -/
theorem keeps_ready {o : Option BioUse} (hnot : ∀ x, s.use u = some x → x.stage ≠ .ready) (v : Nat) (y : BioUse) (hy : s.use v = some y)
    (hst : y.stage = .ready) : ∃ y', (s.setUse u o).use v = some y' ∧ y'.buf = y.buf ∧ y'.stage = .ready := by
  have hv : v ≠ u := by
    rintro rfl
    exact hnot y hy hst
  exact ⟨y, by rwa [BioSys.setUse_of_ne _ _ hv], rfl, hst⟩

/-- The buffer of a block is recycled: nobody refers to it, so it has what is on disk. -/
theorem Coherent.recycle {k : Nat} (h : Coherent s last) (hinv : BioInv n s) (hb : b < nBuf) (hzero : s.cache.refcnts b = 0)
    (hnone : s.use u = none) :
    Coherent ({ s with cache := s.cache.modBuf b (·.recycle rootDev k) }.setUse u (some ⟨rootDev, k, b, .waiting⟩)) last := by
  obtain ⟨hpins, huses⟩ := hinv.free hzero
  have hother : ∀ {d : Nat}, d ≠ b → (s.cache.modBuf b (·.recycle rootDev k)).buf d = s.cache.buf d := fun hd => modBuf_of_ne _ _ hd
  have hself : ((s.cache.modBuf b (·.recycle rootDev k)).buf b).valid = false := by
    rw [modBuf_self]
    rfl
  have hne : ∀ {d : Nat}, ((s.cache.modBuf b (·.recycle rootDev k)).buf d).valid = true → d ≠ b := by
    rintro d hv rfl
    rw [hself] at hv
    cases hv
  refine ⟨?_, ?_, ?_⟩
  · intro d hd hv
    have hdb : d ≠ b := hne hv
    rw [BioSys.setUse_cache, hother hdb] at hv ⊢
    exact h.cached d hd hv
  · intro j hj
    by_cases hold : (s.cache.buf b).valid = true ∧ (s.cache.buf b).blockno = j
    · obtain ⟨hv, rfl⟩ := hold
      have hclean : (s.cache.buf b).data = s.disk (s.cache.buf b).blockno := by
        rcases h.clean b hb hv with hc | hp | ⟨v, y, hy, hbuf, -⟩
        · exact hc
        · exact absurd hp hpins
        · exact absurd hbuf (huses v y hy)
      exact hclean.symm.trans (h.cached b hb hv)
    · refine h.stored j (fun d hd hv => ?_)
      by_cases hdb : d = b
      · subst hdb
        exact fun he => hold ⟨hv, he⟩
      · have := hj d hd
        rw [BioSys.setUse_cache, hother hdb] at this
        exact this hv
  · intro d hd hv
    have hdb : d ≠ b := hne hv
    rw [BioSys.setUse_cache, hother hdb] at hv ⊢
    rcases h.clean d hd hv with hc | hh
    · exact Or.inl hc
    · refine Or.inr (hh.of_use (fun _ => id) (keeps_ready (fun x hx => ?_)))
      rw [show s.use u = some x from hx] at hnone
      cases hnone

theorem not_ready {stage : BioStage} (hx : s.use u = some x) (hst : x.stage = stage) (hne : stage ≠ .ready) :
    ∀ y, s.use u = some y → y.stage ≠ .ready := by
  intro y hy
  rw [← Option.some.inj (hx.symm.trans hy), hst]
  exact hne

/-- `bread` reads the block into a buffer of its own. -/
theorem Coherent.miss (h : Coherent s last) (hinv : BioInv n s) (hx : s.use u = some x) (hst : x.stage = .locked)
    (hv : (s.cache.buf x.buf).valid = false) :
    Coherent ({ s with cache := s.cache.modBuf x.buf (fun b => { b with data := s.disk b.blockno, valid := true }) }.setUse u
      (some { x with stage := .ready })) last := by
  obtain ⟨-, hb, hf⟩ := hinv.slot u x hx
  have hblock : (s.cache.buf x.buf).blockno = x.blockno := isFor_blockno hf
  have hother : ∀ {d : Nat}, d < nBuf → (s.cache.buf d).valid = true → (s.cache.buf d).blockno ≠ x.blockno := by
    intro d hd hvd he
    have hdx : d = x.buf := hinv.unique d hd x.buf hb x.blockno (by simp [isFor, hinv.unused d hvd, he]) hf
    rw [hdx, hv] at hvd
    cases hvd
  refine ⟨?_, ?_, ?_⟩
  · intro d hd hvd
    by_cases hdx : d = x.buf
    · rw [BioSys.setUse_cache, hdx, modBuf_self]
      exact h.stored _ (fun e he hve => hblock ▸ hother he hve)
    · rw [BioSys.setUse_cache, modBuf_of_ne _ _ hdx] at hvd ⊢
      exact h.cached d hd hvd
  · intro k hk
    refine h.stored k (fun d hd hvd => ?_)
    have hdx : d ≠ x.buf := by
      rintro rfl
      rw [hv] at hvd
      cases hvd
    have := hk d hd
    rw [BioSys.setUse_cache, modBuf_of_ne _ _ hdx] at this
    exact this hvd
  · intro d hd hvd
    by_cases hdx : d = x.buf
    · rw [BioSys.setUse_cache, hdx, modBuf_self]
      exact Or.inl rfl
    · rw [BioSys.setUse_cache, modBuf_of_ne _ _ hdx] at hvd ⊢
      rcases h.clean d hd hvd with hc | hh
      · exact Or.inl hc
      · exact Or.inr (hh.of_use (fun _ => id) (keeps_ready (s := { s with cache := _ }) (not_ready hx hst (by decide))))

/-- The process that has the buffer changes it. -/
theorem Coherent.edit (h : Coherent s last) (hinv : BioInv n s) (hx : s.use u = some x) (hst : x.stage = .ready) (d : α) :
    Coherent { s with cache := s.cache.modBuf x.buf (fun b => { b with data := d }) } (Function.update last x.blockno d) := by
  obtain ⟨-, hb, hf⟩ := hinv.slot u x hx
  have hv : (s.cache.buf x.buf).valid = true := hinv.readied u x hx hst
  have hblock : (s.cache.buf x.buf).blockno = x.blockno := isFor_blockno hf
  have hother : ∀ {e : Nat}, e < nBuf → e ≠ x.buf → (s.cache.buf e).valid = true → (s.cache.buf e).blockno ≠ x.blockno :=
    fun he hne hve hk => hne (hinv.valid_unique he hb hve hv (hk.trans hblock.symm))
  refine ⟨?_, ?_, ?_⟩
  · intro e he hve
    by_cases hex : e = x.buf
    · rw [hex, modBuf_self, hblock, Function.update_self]
    · rw [modBuf_of_ne _ _ hex] at hve ⊢
      rw [Function.update_of_ne (hother he hex hve)]
      exact h.cached e he hve
  · intro k hk
    have hkx : k ≠ x.blockno := by
      rintro rfl
      refine hk x.buf hb ?_ ?_
      · rw [modBuf_self]
        exact hv
      · rw [modBuf_self]
        exact hblock
    rw [Function.update_of_ne hkx]
    refine h.stored k (fun e he hve => ?_)
    rw [← modBuf_field (c := s.cache) (b := x.buf) (f := fun b => { b with data := d }) Buf.blockno rfl]
    refine hk e he ?_
    rwa [modBuf_field Buf.valid rfl]
  · intro e he hve
    by_cases hex : e = x.buf
    · exact Or.inr (Or.inr ⟨u, x, hx, hex.symm, hst⟩)
    · rw [modBuf_of_ne _ _ hex] at hve ⊢
      exact h.clean e he hve

theorem Coherent.bwrite (h : Coherent s last) (hinv : BioInv n s) (hx : s.use u = some x) (hst : x.stage = .ready) :
    Coherent { s with disk := Function.update s.disk (s.cache.buf x.buf).blockno (s.cache.buf x.buf).data } last := by
  obtain ⟨-, hb, hf⟩ := hinv.slot u x hx
  have hv : (s.cache.buf x.buf).valid = true := hinv.readied u x hx hst
  refine ⟨h.cached, ?_, ?_⟩
  · intro k hk
    have hkx : k ≠ (s.cache.buf x.buf).blockno := Ne.symm (hk x.buf hb hv)
    exact (Function.update_of_ne hkx ..).trans (h.stored k hk)
  · intro e he hve
    by_cases hex : e = x.buf
    · subst hex
      exact Or.inl (Function.update_self (s.cache.buf x.buf).blockno (s.cache.buf x.buf).data s.disk).symm
    · have hne : (s.cache.buf e).blockno ≠ (s.cache.buf x.buf).blockno := fun hk => hex (hinv.valid_unique he hb hve hv hk)
      rcases h.clean e he hve with hcl | hh
      · exact Or.inl (hcl.trans (Function.update_of_ne hne ..).symm)
      · exact Or.inr hh

theorem Coherent.step (h : Coherent s last) (hinv : BioInv n s) (hc : a.careful n s) (hs : s.step a = some t) :
    Coherent t (a.puts s last) := by
  obtain ⟨ho, hc⟩ := hc
  cases BioSys.step_cases hs with
  | @bget u dev k b c hnone hget =>
    obtain ⟨hu, rfl⟩ := ho
    obtain ⟨xs, hl⟩ := hinv.listed
    have hgot := hl.got rootDev k
    rw [hget] at hgot
    cases hgot with
    | cached hb hf =>
      refine h.touch (f := fun x => { x with refcnt := x.refcnt + 1 }) rfl rfl ?_ (fun d hd => ?_)
      · exact fun _ => ⟨rfl, rfl, rfl⟩
      · refine Or.inr (hd.of_use (fun _ => id) (keeps_ready (s := { s with cache := _ }) (fun x hx => ?_)))
        rw [show s.use u = some x from hx] at hnone
        cases hnone
    | recycled _ hb =>
      have hzero : s.cache.refcnts b = 0 := by
        obtain ⟨-, -, -, hzero, -⟩ := hb
        exact hzero
      exact h.recycle hinv (hl.mem.mp hb.mem) hzero hnone
  | @acquire u x hx hst hnone =>
    refine h.touch (f := fun b => { b with lock := some u }) rfl rfl ?_ (fun d hd => ?_)
    · exact fun _ => ⟨rfl, rfl, rfl⟩
    · exact Or.inr (hd.of_use (fun _ => id) (keeps_ready (s := { s with cache := _ }) (not_ready hx hst (by decide))))
  | @hit u x hx hst hv =>
    refine h.frame (fun _ => rfl) (fun _ => rfl) (fun _ => rfl) rfl ?_
    intro d hd
    exact Or.inr (hd.of_use (fun _ => id) (keeps_ready (not_ready hx hst (by decide))))
  | @miss u x hx hst hv =>
    exact h.miss hinv hx hst hv
  | @edit u d x hx hst =>
    have hputs : (BioAction.edit u d).puts s last = Function.update last x.blockno d := by
      simp [BioAction.puts, hx]
    rw [hputs]
    exact h.edit hinv hx hst d
  | @bwrite u x hx hst hh =>
    exact h.bwrite hinv hx hst
  | @bpin u x hx hst =>
    refine h.touch (f := fun x => { x with refcnt := x.refcnt + 1 }) rfl rfl ?_ (fun d hd => ?_)
    · exact fun _ => ⟨rfl, rfl, rfl⟩
    · exact Or.inr (hd.of_use (fun _ hp => List.mem_cons_of_mem _ hp) (fun v y hy hst => ⟨y, hy, rfl, hst⟩))
  | @bunpin u x hx hst =>
    refine h.touch (f := fun x => { x with refcnt := x.refcnt - 1 }) rfl rfl ?_ (fun d hd => ?_)
    · exact fun _ => ⟨rfl, rfl, rfl⟩
    · by_cases hdx : d = x.buf
      · exact Or.inr (Or.inr ⟨u, x, hx, hdx.symm, hst⟩)
      · rcases hd with hp | hr
        · exact Or.inr (Or.inl ((List.mem_erase_of_ne hdx).mpr hp))
        · exact Or.inr (Or.inr hr)
  | @release u x hx hst hh =>
    refine h.touch (f := fun b => { b with lock := none }) rfl rfl ?_ (fun d hd => ?_)
    · exact fun _ => ⟨rfl, rfl, rfl⟩
    · rcases hd with hp | ⟨v, y, hy, rfl, hsty⟩
      · exact Or.inr (Or.inl hp)
      · by_cases hvu : v = u
        · -- the one that gives it up
          subst hvu
          obtain rfl := Option.some.inj (hx.symm.trans hy)
          rcases hc x hx with hp | hclean
          · exact Or.inr (Or.inl hp)
          · exact Or.inl hclean
        · exact Or.inr (Or.inr ⟨v, y, (Function.update_of_ne hvu ..).trans hy, rfl, hsty⟩)
  | @brelse u x hx hst =>
    refine h.frame ?_ ?_ ?_ rfl ?_
    · intro d
      rw [BioSys.setUse_cache, giveUp_buf]
      exact modBuf_field Buf.valid rfl d
    · intro d
      rw [BioSys.setUse_cache, giveUp_buf]
      exact modBuf_field Buf.blockno rfl d
    · intro d
      rw [BioSys.setUse_cache, giveUp_buf]
      exact modBuf_field Buf.data rfl d
    · intro d hd
      exact Or.inr (hd.of_use (fun _ => id) (keeps_ready (s := { s with cache := _ }) (not_ready hx hst (by decide))))

/-! ## Runs -/

theorem boot_inv (zero : α) (disk : Nat → α) : BioInv n (BioSys.boot zero disk) := by
  have hused : ∀ {u : Nat} {x : BioUse}, (BioSys.boot zero disk).use u = some x → False := fun hx => by cases hx
  refine ⟨⟨_, binit_listed zero⟩, ?_, ?_, ?_, ?_, ?_, ?_, ?_⟩
  · intro b
    have hnone : bioRefs n (BioSys.boot zero disk).use (BioSys.boot zero disk).pins = 0 := by
      have hzero : content n (fun u => ((BioSys.boot zero disk).use u).map BioUse.buf) = 0 := content_none (fun _ _ => rfl)
      rw [bioRefs, hzero]
      rfl
    rw [hnone, Multiset.count_zero]
    rfl
  · exact fun u x hx => (hused hx).elim
  · exact fun u x hx => (hused hx).elim
  · intro b u
    constructor
    · intro hl
      cases hl
    · rintro ⟨x, hx, -⟩
      exact (hused hx).elim
  · intro b hb
    cases hb
  · intro b _ d _ k hb _
    simp [isFor, BioSys.boot, binit, rootDev] at hb
  · intro b hv
    cases hv

theorem boot_coherent (zero : α) (disk : Nat → α) : Coherent (BioSys.boot zero disk) disk := by
  refine ⟨?_, fun _ _ => rfl, ?_⟩
  · intro b _ hv
    cases hv
  · intro b _ hv
    cases hv

theorem bioRun_inv {zero : α} {disk : Nat → α} (h : Run (BioStep n) (BioSys.boot zero disk, disk) as (s, last)) :
    BioInv n s ∧ Coherent s last := by
  refine h.invariant (fun y => BioInv n y.1 ∧ Coherent y.1 y.2) ?_ ⟨boot_inv zero disk, boot_coherent zero disk⟩
  rintro y a z ⟨hinv, hcoh⟩ ⟨hc, hs, hz⟩
  exact ⟨hinv.step hc.1 hs, hz ▸ hcoh.step hinv hc hs⟩

/-- A use that stands at its buffer has its sleep lock: `bwrite` and `brelse` do not panic. -/
theorem BioInv.holding (h : BioInv n s) (hx : s.use u = some x) (hst : x.stage = .ready) : s.holding u x = true :=
  decide_eq_true ((h.holder_self hx (Or.inr hst) x.buf).mpr rfl)

/-- In every run in which callers give up a changed buffer only when it is written or pinned: a use that `bread` has returned to has the
buffer of its block, with what was last put into the block, under the sleep lock, and it is the only one for the block; and a block that
nobody is at and that is not pinned is on disk as it was last put. -/
theorem buffer_cache_transparent {zero : α} {disk : Nat → α} (h : Run (BioStep n) (BioSys.boot zero disk, disk) as (s, last)) :
    (∀ u x, s.use u = some x → x.stage = .ready →
      (s.cache.buf x.buf).blockno = x.blockno ∧ (s.cache.buf x.buf).data = last x.blockno ∧ s.holding u x = true ∧
        ∀ v y, s.use v = some y → y.stage = .ready → y.blockno = x.blockno → v = u) ∧
    ∀ k, (∀ u x, s.use u = some x → x.stage = .ready → x.blockno ≠ k) → (∀ b ∈ s.pins, (s.cache.buf b).blockno ≠ k) →
      s.disk k = last k := by
  obtain ⟨hinv, hcoh⟩ := bioRun_inv h
  refine ⟨?_, ?_⟩
  · intro u x hx hst
    obtain ⟨-, hb, hf⟩ := hinv.slot u x hx
    have hblock : (s.cache.buf x.buf).blockno = x.blockno := isFor_blockno hf
    refine ⟨hblock, ?_, hinv.holding hx hst, ?_⟩
    · rw [← hblock]
      exact hcoh.cached x.buf hb (hinv.readied u x hx hst)
    · intro v y hy hsty hk
      obtain ⟨-, hb', hf'⟩ := hinv.slot v y hy
      have hsame : y.buf = x.buf := hinv.unique y.buf hb' x.buf hb x.blockno (hk ▸ hf') hf
      have hlock : (s.cache.buf x.buf).lock = some v := (hinv.holder_self hy (Or.inr hsty) x.buf).mpr hsame
      rw [(hinv.holder_self hx (Or.inr hst) x.buf).mpr rfl] at hlock
      exact (Option.some.inj hlock).symm
  · intro k huses hpins
    by_cases hk : ∃ b < nBuf, (s.cache.buf b).valid = true ∧ (s.cache.buf b).blockno = k
    · obtain ⟨b, hb, hv, rfl⟩ := hk
      rcases hcoh.clean b hb hv with hc | hp | ⟨u, x, hx, rfl, hst⟩
      · rw [← hc]
        exact hcoh.cached b hb hv
      · exact absurd rfl (hpins b hp)
      · exact absurd (isFor_blockno (hinv.slot u x hx).2.2).symm (huses u x hx hst)
    · exact hcoh.stored k (fun b hb hv he => hk ⟨b, hb, hv, he⟩)

instance (n : Nat) (s : BioSys α) (a : BioAction α) : Decidable (a.orderly n s) := by
  cases a <;> unfold BioAction.orderly <;> infer_instance

instance [DecidableEq α] (n : Nat) (s : BioSys α) (a : BioAction α) : Decidable (a.careful n s) := by
  cases a <;> unfold BioAction.careful <;> infer_instance

/-- The steps of a careful caller, one after the other. -/
def bioReplay [DecidableEq α] (n : Nat) (y : BioSys α × (Nat → α)) (a : BioAction α) : Option (BioSys α × (Nat → α)) :=
  if a.careful n y.1 then (y.1.step a).map (fun t => (t, a.puts y.1 y.2)) else none

theorem bioReplay_step [DecidableEq α] {y z : BioSys α × (Nat → α)} (h : bioReplay n y a = some z) : BioStep n y a z := by
  unfold bioReplay at h
  split at h
  · rename_i hc
    obtain ⟨t, ht, rfl⟩ := Option.map_eq_some_iff.mp h
    exact ⟨hc, ht, rfl⟩
  · cases h

/-- Two processes at one block: the second waits for the sleep lock and finds what the first wrote. -/
theorem buffer_cache_transparent_two : ∃ as s last x, Run (BioStep 2) (BioSys.boot 0 id, id) as (s, last) ∧ s.use 1 = some x ∧
    last 5 = 70 ∧ (s.cache.buf x.buf).data = last 5 := by
  have hex : ([.bget 0 rootDev 5, .acquire 0, .bget 1 rootDev 5, .bread 0, .edit 0 70, .bwrite 0, .release 0, .acquire 1, .brelse 0,
      .bread 1].foldlM (bioReplay 2) (BioSys.boot 0 id, id)).any (fun y =>
        (y.1.use 1).any (fun x => x.stage = .ready ∧ x.blockno = 5) ∧ y.2 5 = 70) = true := by
    decide +kernel
  obtain ⟨⟨s, last⟩, hy, hx⟩ := (Option.any_eq_true _ _).mp hex
  obtain ⟨hx, hlast⟩ := of_decide_eq_true hx
  obtain ⟨x, hx, hst⟩ := (Option.any_eq_true _ _).mp hx
  obtain ⟨hst, hk⟩ := of_decide_eq_true hst
  have hrun : Run (BioStep 2) (BioSys.boot 0 id, id) _ (s, last) := (Run.of_foldlM hy).mono (fun _ _ _ h => bioReplay_step h)
  obtain ⟨-, hdata, -, -⟩ := (buffer_cache_transparent hrun).1 1 x hx hst
  exact ⟨_, s, last, x, hrun, hx, hlast, hk ▸ hdata⟩

/-! ## Which buffer is recycled -/

/-- The buffer that an action gives up as its last user. -/
def BioAction.gives (s : BioSys α) : BioAction α → Option Nat
  | .brelse u => (s.use u).bind (fun x => if s.cache.refcnts x.buf = 1 then some x.buf else none)
  | _ => none

/-- A step, with the number of steps so far and the step in which each buffer was last given up by its last user. -/
def LruStep (n : Nat) (y : BioSys α × Nat × (Nat → Nat)) (a : BioAction α) (z : BioSys α × Nat × (Nat → Nat)) : Prop :=
  a.orderly n y.1 ∧ y.1.step a = some z.1 ∧ z.2.1 = y.2.1 + 1 ∧
    z.2.2 = (a.gives y.1).elim y.2.2 (fun b => Function.update y.2.2 b (y.2.1 + 1))

/-- Of two buffers without references, the one further back in the list was given up earlier. -/
structure Aged (c : Bcache α) (now : Nat) (given : Nat → Nat) (xs : List Nat) : Prop where
  listed : c.Listed xs
  sorted : xs.Pairwise (fun b d => c.refcnts b = 0 → c.refcnts d = 0 → given d ≤ given b)
  past : ∀ b, given b ≤ now

theorem Aged.frame {now : Nat} {given : Nat → Nat} {c' : Bcache α} (h : Aged c now given xs) (hlinks : c'.links = c.links)
    (hfree : ∀ b, c'.refcnts b = 0 → c.refcnts b = 0) : Aged c' (now + 1) given xs := by
  refine ⟨⟨hlinks ▸ h.listed.ring, h.listed.perm⟩, ?_, fun b => Nat.le_succ_of_le (h.past b)⟩
  exact h.sorted.imp (fun hbd hb hd => hbd (hfree _ hb) (hfree _ hd))

/-- A buffer that its last user gives up goes before all others. -/
theorem Aged.give {now : Nat} {given : Nat → Nat} (h : Aged c now given xs) (hb : b < nBuf) (hone : c.refcnts b = 1) :
    Aged (c.giveUp b) (now + 1) (Function.update given b (now + 1)) (b :: xs.erase b) := by
  have hlisted := h.listed.giveUp hb
  rw [if_pos (by rw [show (c.buf b).refcnt = 1 from hone])] at hlisted
  have hnd := (List.nodup_cons.mp hlisted.ring.nodup).2
  refine ⟨hlisted, List.pairwise_cons.mpr ⟨?_, ?_⟩, ?_⟩
  · intro d hd _ _
    have hne : d ≠ b := fun he => (List.nodup_cons.mp hnd).1 (he ▸ hd)
    rw [Function.update_self, Function.update_of_ne hne]
    exact Nat.le_succ_of_le (h.past d)
  · have hrest := h.sorted.sublist (List.erase_sublist (a := b) (l := xs))
    refine hrest.imp_of_mem ?_
    intro d e hd he hde hzd hze
    have hdb : d ≠ b := fun hc => (List.nodup_cons.mp hnd).1 (hc ▸ hd)
    have heb : e ≠ b := fun hc => (List.nodup_cons.mp hnd).1 (hc ▸ he)
    rw [giveUp_refcnts, Function.update_of_ne hdb] at hzd
    rw [giveUp_refcnts, Function.update_of_ne heb] at hze
    rw [Function.update_of_ne hdb, Function.update_of_ne heb]
    exact hde hzd hze
  · intro d
    by_cases hd : d = b
    · rw [hd, Function.update_self]
    · rw [Function.update_of_ne hd]
      exact Nat.le_succ_of_le (h.past d)

/-- A buffer in use that is pinned has two references. -/
theorem BioInv.two_refs (h : BioInv n s) (hx : s.use u = some x) (hp : x.buf ∈ s.pins) : 2 ≤ s.cache.refcnts x.buf := by
  have hcount := h.counts x.buf
  rw [bioRefs_end (h.slot u x hx).1 hx, bioRefs_unpin hp, Multiset.count_add, Multiset.count_add, Multiset.count_singleton_self] at hcount
  omega

/-- A buffer has references when it is in use or pinned, and only then. -/
theorem BioInv.refcnt_iff (h : BioInv n s) : s.cache.refcnts b ≠ 0 ↔ (∃ u x, s.use u = some x ∧ x.buf = b) ∨ b ∈ s.pins := by
  constructor
  · intro hne
    have hmem : b ∈ bioRefs n s.use s.pins := h.counts.pos_iff.mp (Nat.pos_of_ne_zero hne)
    rcases Multiset.mem_add.mp hmem with hm | hm
    · obtain ⟨u, -, hu⟩ := mem_content.mp hm
      obtain ⟨x, hx, rfl⟩ := Option.map_eq_some_iff.mp hu
      exact Or.inl ⟨u, x, hx, rfl⟩
    · exact Or.inr (Multiset.mem_coe.mp hm)
  · rintro (⟨u, x, hx, rfl⟩ | hp) hzero
    · exact h.referenced hx hzero
    · exact (h.free hzero).1 hp

theorem LruStep.aged {y z : BioSys α × Nat × (Nat → Nat)} (h : LruStep n y a z) (hinv : BioInv n y.1)
    (haged : ∃ xs, Aged y.1.cache y.2.1 y.2.2 xs) : ∃ xs, Aged z.1.cache z.2.1 z.2.2 xs := by
  obtain ⟨s, now, given⟩ := y
  obtain ⟨t, now', given'⟩ := z
  obtain ⟨ho, hs, hnow, hgiven⟩ := h
  obtain ⟨xs, haged⟩ := haged
  dsimp only at *
  subst hnow hgiven
  have hmod : ∀ {f : Buf α → Buf α} {b : Nat}, ((f (s.cache.buf b)).refcnt = 0 → (s.cache.buf b).refcnt = 0) →
      ∃ xs, Aged (s.cache.modBuf b f) (now + 1) given xs := by
    intro f b hf
    refine ⟨xs, haged.frame rfl (fun d hd => ?_)⟩
    rw [modBuf_refcnts] at hd
    by_cases hdb : d = b
    · rw [hdb, Function.update_self] at hd
      exact hdb ▸ hf hd
    · rwa [Function.update_of_ne hdb] at hd
  cases BioSys.step_cases hs with
  | @bget u dev k b c hnone hget =>
    have hgot := haged.listed.got dev k
    rw [hget] at hgot
    cases hgot with
    | cached => exact hmod (f := fun x => { x with refcnt := x.refcnt + 1 }) (by simp)
    | recycled => exact hmod (f := (·.recycle dev k)) (by simp [Buf.recycle])
  | @acquire u => exact hmod (f := fun b => { b with lock := some u }) id
  | hit => exact ⟨xs, haged.frame rfl (fun _ => id)⟩
  | miss => exact hmod (f := fun b => { b with data := s.disk b.blockno, valid := true }) id
  | @edit u d => exact hmod (f := fun b => { b with data := d }) id
  | bwrite => exact ⟨xs, haged.frame rfl (fun _ => id)⟩
  | bpin => exact hmod (f := fun x => { x with refcnt := x.refcnt + 1 }) (by simp)
  | @bunpin u x hx hst =>
    have htwo := hinv.two_refs hx (ho x hx)
    refine hmod (f := fun x => { x with refcnt := x.refcnt - 1 }) (fun hz => ?_)
    change 2 ≤ (s.cache.buf x.buf).refcnt at htwo
    change (s.cache.buf x.buf).refcnt - 1 = 0 at hz
    omega
  | release => exact hmod (f := fun b => { b with lock := none }) id
  | @brelse u x hx hst =>
    have hlt : x.buf < nBuf := (hinv.slot u x hx).2.1
    by_cases hone : s.cache.refcnts x.buf = 1
    · have hgives : (BioAction.brelse u : BioAction α).gives s = some x.buf := by
        simp [BioAction.gives, hx, hone]
      rw [hgives]
      exact ⟨_, haged.give hlt hone⟩
    · have hgives : (BioAction.brelse u : BioAction α).gives s = none := by
        simp [BioAction.gives, hx, hone]
      have hne : s.cache.refcnts x.buf ≠ 0 := hinv.referenced hx
      rw [hgives]
      refine ⟨xs, haged.frame ?_ (fun d hd => ?_)⟩
      · change (s.cache.giveUp x.buf).links = s.cache.links
        unfold giveUp
        rw [if_neg]
        · rfl
        · rw [modBuf_self]
          change ¬s.cache.refcnts x.buf - 1 = 0
          omega
      · change (s.cache.giveUp x.buf).refcnts d = 0 at hd
        rw [giveUp_refcnts] at hd
        by_cases hdx : d = x.buf
        · rw [hdx, Function.update_self] at hd
          omega
        · rwa [Function.update_of_ne hdx] at hd

/-- In every state of every run, for every block: `bget` gives the buffer of the block if there is one, else the one that was given up
longest ago of those that nobody refers to, and panics only if there is none. -/
theorem bget_recycles_oldest {zero : α} {disk : Nat → α} {now : Nat} {given : Nat → Nat}
    (h : Run (LruStep n) (BioSys.boot zero disk, 0, fun _ => 0) as (s, now, given)) (k : Nat) :
    (∀ c b, s.cache.bget rootDev k = some (c, b) → s.cache.isFor rootDev k b = true ∨
      (∀ d < nBuf, s.cache.isFor rootDev k d = false) ∧ s.cache.refcnts b = 0 ∧ ∀ d < nBuf, s.cache.refcnts d = 0 → given b ≤ given d) ∧
    (s.cache.bget rootDev k = none ↔
      ∀ d < nBuf, s.cache.isFor rootDev k d = false ∧ ((∃ u x, s.use u = some x ∧ x.buf = d) ∨ d ∈ s.pins)) := by
  have hinv : BioInv n s ∧ ∃ xs, Aged s.cache now given xs := by
    refine h.invariant (fun y => BioInv n y.1 ∧ ∃ xs, Aged y.1.cache y.2.1 y.2.2 xs) ?_ ⟨boot_inv zero disk, _, binit_listed zero, ?_, ?_⟩
    · rintro y a z ⟨hy, haged⟩ hs
      exact ⟨hy.step hs.1 hs.2.1, hs.aged hy haged⟩
    · exact List.pairwise_of_forall (fun _ _ _ _ => Nat.le_refl 0)
    · exact fun _ => Nat.le_refl 0
  obtain ⟨hinv, xs, hl, hsorted, -⟩ := hinv
  have hgot := hl.got rootDev k
  refine ⟨?_, ?_⟩
  · intro c b hget
    rw [hget] at hgot
    cases hgot with
    | cached _ hf => exact Or.inl hf
    | recycled hno hb =>
      refine Or.inr ⟨fun d hd => hno d (hl.mem.mpr hd), ?_⟩
      obtain ⟨ys, zs, rfl, hzero, hbehind⟩ := hb
      refine ⟨hzero, fun d hd hd0 => ?_⟩
      rcases List.mem_append.mp (hl.mem.mpr hd) with hm | hm
      · exact (List.pairwise_append.mp hsorted).2.2 d hm b (List.mem_cons_self ..) hd0 hzero
      · rcases List.mem_cons.mp hm with rfl | hm
        · exact Nat.le_refl _
        · exact absurd hd0 (hbehind d hm)
  · constructor
    · intro hget d hd
      rw [hget] at hgot
      cases hgot with
      | full hno hrefs => exact ⟨hno d (hl.mem.mpr hd), hinv.refcnt_iff.mp (hrefs d (hl.mem.mpr hd))⟩
    · intro hfull
      cases hget : s.cache.bget rootDev k with
      | none => rfl
      | some r =>
        obtain ⟨c, b⟩ := r
        rw [hget] at hgot
        cases hgot with
        | cached hb hf => exact absurd ((hfull b (hl.mem.mp hb)).1.symm.trans hf) Bool.false_ne_true
        | recycled _ hb =>
          have hlt := hl.mem.mp hb.mem
          obtain ⟨-, -, -, hzero, -⟩ := hb
          exact absurd hzero (hinv.refcnt_iff.mpr (hfull b hlt).2)

def lruReplay (n : Nat) (y : BioSys α × Nat × (Nat → Nat)) (a : BioAction α) : Option (BioSys α × Nat × (Nat → Nat)) :=
  if a.orderly n y.1 then
    (y.1.step a).map (fun t => (t, y.2.1 + 1, (a.gives y.1).elim y.2.2 (fun b => Function.update y.2.2 b (y.2.1 + 1))))
  else none

theorem lruReplay_step {y z : BioSys α × Nat × (Nat → Nat)} (h : lruReplay n y a = some z) : LruStep n y a z := by
  unfold lruReplay at h
  split at h
  · rename_i ho
    obtain ⟨t, ht, rfl⟩ := Option.map_eq_some_iff.mp h
    exact ⟨ho, ht, rfl, rfl⟩
  · cases h

/-- Buffer 0, the first to be recycled, was given up last: the next block gets buffer 1. -/
theorem bget_recycles_oldest_next : ∃ as s now given c, Run (LruStep 1) (BioSys.boot 0 id, 0, fun _ => 0) as (s, now, given) ∧
    given 0 = 5 ∧ s.cache.bget rootDev 4 = some (c, 1) ∧ given 1 ≤ given 0 := by
  have hex : ([.bget 0 rootDev 3, .acquire 0, .bread 0, .release 0, .brelse 0].foldlM (lruReplay 1) (BioSys.boot 0 id, 0, fun _ => 0)).any
      (fun y => y.2.2 0 = 5 ∧ y.1.cache.refcnts 0 = 0 ∧ y.1.cache.isFor rootDev 4 1 = false ∧
        (y.1.cache.bget rootDev 4).any (fun r => r.2 = 1) = true) = true := by
    decide +kernel
  obtain ⟨⟨s, now, given⟩, hy, hx⟩ := (Option.any_eq_true _ _).mp hex
  obtain ⟨hgiven, hfree, hno, hx⟩ := of_decide_eq_true hx
  obtain ⟨⟨c, b⟩, hget, hb⟩ := (Option.any_eq_true _ _).mp hx
  obtain rfl : b = 1 := of_decide_eq_true hb
  have hrun : Run (LruStep 1) (BioSys.boot 0 id, 0, fun _ => 0) _ (s, now, given) := (Run.of_foldlM hy).mono (fun _ _ _ h => lruReplay_step h)
  refine ⟨_, s, now, given, c, hrun, hgiven, hget, ?_⟩
  rcases (bget_recycles_oldest hrun 4).1 c 1 hget with hf | ⟨-, -, hold⟩
  · exact absurd (hno.symm.trans hf) Bool.false_ne_true
  · exact hold 0 (by decide) hfree

end Xv6SnifferBakery.Kernel
