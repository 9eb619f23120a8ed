import Xv6SnifferBakery.Lemmas.Tracking
import Xv6SnifferBakery.Lemmas.Replay

/-!
# The table of tracked pages and the page table

The entries of a process are meant to say which of its pages are mapped. Faults and evictions change both together; `sbrk` and `fork`
change the page table only. A shrink leaves the entries of the pages it releases resident, and the next eviction picks one of them, finds
no frame, and fails.
-/

namespace Xv6SnifferBakery.Kernel

open Lib

variable {m m' : Machine} {p p' : Proc} {s t : Sys} {ev : Event} {i : Nat}

/-! ## The two tables -/

/-- Page `va` of a process is mapped for the user. -/
def Proc.mapped (p : Proc) (va : Nat) : Prop := ∃ pte, p.pagetable.leaf (va / 4096) = some pte ∧ pte.perm.u = true

/-- The entries say which pages are mapped, and the next eviction can rely on them: the page it picks is mapped, and it fails only when
no tracked page is mapped, or when a dirty page cannot be written to the swap file. -/
structure TableMatches (m : Machine) (p : Proc) : Prop where
  resident : ∀ e ∈ p.pages, e.state = .resident ↔ p.mapped e.va
  others : ∀ e ∈ p.pages, e.state ≠ .resident → p.pagetable.leaf (e.va / 4096) = none
  victim : ∀ i e, victimIdx p.pages = some i → p.pages[i]? = some e → p.mapped e.va
  fails : ∀ m' p', evictPageFifo m p = .ok (m', p', false) → (∀ e ∈ p.pages, ¬p.mapped e.va) ∨
    ∃ i e, victimIdx p.pages = some i ∧ p.pages[i]? = some e ∧ e.isDirty = true ∧ evictDirty m p i e.va = .ok (m', p', false)

/-- The part of it that is kept by events: an entry is resident and its page mapped, or neither. The sequence number of a resident entry
is one that the scan for a victim sees. -/
structure Proc.Matched (p : Proc) : Prop where
  resident : ∀ e ∈ p.pages, e.state = .resident → p.mapped e.va ∧ e.seq < intMax
  others : ∀ e ∈ p.pages, e.state ≠ .resident → p.pagetable.leaf (e.va / 4096) = none

theorem Proc.Matched.mapped_iff (h : p.Matched) {e : PageInfo} (he : e ∈ p.pages) : e.state = .resident ↔ p.mapped e.va := by
  refine ⟨fun hr => (h.resident e he hr).1, ?_⟩
  rintro ⟨pte, hpte, -⟩
  by_contra hne
  rw [h.others e he hne] at hpte
  nomatch hpte

theorem Proc.Matched.tableMatches (h : p.Matched) (m : Machine) : TableMatches m p := by
  have hvictim : ∀ i e, victimIdx p.pages = some i → p.pages[i]? = some e → p.mapped e.va := by
    intro i e hi he
    obtain ⟨e', he', hr⟩ := victimIdx_some hi
    obtain rfl := Option.some.inj (he.symm.trans he')
    exact (h.resident e (List.mem_of_getElem? he) hr).1
  refine ⟨fun e he => h.mapped_iff he, h.others, hvictim, ?_⟩
  intro m' p' hev
  unfold evictPageFifo at hev
  cases hidx : victimIdx p.pages with
  | none =>
    refine Or.inl (fun e he hm => ?_)
    have hr := (h.mapped_iff he).mpr hm
    have hle := victimIdx_none hidx he hr
    have hlt := (h.resident e he hr).2
    omega
  | some i =>
    obtain ⟨e, he, -⟩ := victimIdx_some hidx
    obtain ⟨pte, hpte, -⟩ := hvictim i e hidx he
    simp only [hidx, he] at hev
    obtain ⟨o, hl, hev⟩ := bind_ok hev
    unfold lookup at hl
    split at hl
    · nomatch hl
    obtain rfl := Except.ok.inj hl
    simp only [hpte] at hev
    split at hev
    · rename_i hd
      exact Or.inr ⟨i, e, rfl, he, hd, hev⟩
    · obtain ⟨hf, -⟩ := evictUnmap_cases hev hpte
      nomatch hf

/-! ## What keeps them together -/

/-- The page `va` is released by a shrink to `sz`: the guard page and the stack stay. -/
def Proc.releases (p : Proc) (sz va : Nat) : Prop :=
  pgRoundUp sz ≤ va ∧ va < pgRoundUp p.sz ∧ ¬(guardBase p.stackTop ≤ va ∧ va < p.stackTop)

/-- A change of size that concerns no entry: a shrink releases no page whose entry is resident, and eager growth maps no page that has an
entry. -/
def SbrkApart (p : Proc) (n : Int) (eager : Bool) : Prop :=
  (n < 0 → ∀ e ∈ p.pages, e.state = .resident → ¬p.releases (addInt p.sz n) e.va) ∧
  (0 < n → eager = true → ∀ e ∈ p.pages, ¬(pgRoundUp p.sz ≤ e.va ∧ e.va < addInt p.sz n))

/-- An event that leaves the two tables together: no entry is made for a page that is mapped, no page is loaded when the sequence number
is the largest `int`, no change of size concerns an entry, and no process is copied that has a resident page above its size. -/
def Event.keepsMatch (s : Sys) : Event → Prop
  | .page k (.track va) => (s.proc k).pagetable.leaf (va / 4096) = none
  | .page k (.load _ _ _) => (s.proc k).nextFifoSeq < intMax
  | .sbrk k n eager => ¬shrinksPastTrapframe (s.proc k) (wrap32 n) ∧ SbrkApart (s.proc k) (wrap32 n) eager
  | .fork k => ∀ e ∈ (s.proc k).pages, e.state = .resident → e.va < (s.proc k).sz
  | _ => True

instance (p : Proc) (sz va : Nat) : Decidable (p.releases sz va) := inferInstanceAs (Decidable (_ ∧ _ ∧ _))
instance (p : Proc) (n : Int) (eager : Bool) : Decidable (SbrkApart p n eager) := inferInstanceAs (Decidable (_ ∧ _))

theorem Event.keepsMatch.trapframe (h : ev.keepsMatch s) : ev.keepsTrapframe s := by
  cases ev with
  | sbrk => exact h.1
  | _ => trivial

theorem Proc.Matched.of_fields (h : p.Matched) (hpages : p'.pages = p.pages) (hleaf : p'.pagetable.leaf = p.pagetable.leaf) :
    p'.Matched := by
  refine ⟨?_, ?_⟩
  · intro e he hr
    rw [Proc.mapped, hleaf]
    exact h.resident e (hpages ▸ he) hr
  · intro e he hne
    rw [hleaf]
    exact h.others e (hpages ▸ he) hne

/-- A change of the leaves of pages that have no entry. -/
theorem Proc.Matched.of_leaves (h : p.Matched) (hpages : p'.pages = p.pages)
    (hleaf : ∀ e ∈ p.pages, p'.pagetable.leaf (e.va / 4096) = p.pagetable.leaf (e.va / 4096)) : p'.Matched := by
  refine ⟨?_, ?_⟩
  · intro e he hr
    rw [hpages] at he
    rw [Proc.mapped, hleaf e he]
    exact h.resident e he hr
  · intro e he hne
    rw [hpages] at he
    rw [hleaf e he]
    exact h.others e he hne

/-- A change of one entry, and at most of its leaf. -/
theorem Proc.Matched.modify {e : PageInfo} {f : PageInfo → PageInfo} (h : p.Matched) (hp : p.Indexed) (he : p.pages[i]? = some e)
    (hpages : p'.pages = p.pages.modify i f)
    (hleaf : ∀ v, v ≠ e.va / 4096 → p'.pagetable.leaf v = p.pagetable.leaf v)
    (hr : (f e).state = .resident → p'.mapped (f e).va ∧ (f e).seq < intMax)
    (hne : (f e).state ≠ .resident → p'.pagetable.leaf ((f e).va / 4096) = none) : p'.Matched := by
  refine ⟨?_, ?_⟩
  · intro x hx hxr
    rw [hpages] at hx
    rcases mem_modify hx with ⟨e', he', rfl⟩ | ⟨l, hl, hxl⟩
    · obtain rfl := Option.some.inj (he.symm.trans he')
      exact hr hxr
    · rw [Proc.mapped, hleaf _ (hp.leaf_ne he hxl hl)]
      exact h.resident x (List.mem_of_getElem? hxl) hxr
  · intro x hx hxn
    rw [hpages] at hx
    rcases mem_modify hx with ⟨e', he', rfl⟩ | ⟨l, hl, hxl⟩
    · obtain rfl := Option.some.inj (he.symm.trans he')
      exact hne hxn
    · rw [hleaf _ (hp.leaf_ne he hxl hl)]
      exact h.others x (List.mem_of_getElem? hxl) hxn

theorem TableChange.matched {pev : PageEvent} (h : TableChange p pev p') (hp : p.Indexed) (hm : p.Matched)
    (htrack : ∀ va, pev = .track va → p.pagetable.leaf (va / 4096) = none)
    (hload : ∀ src j va, pev = .load src j va → p.nextFifoSeq < intMax) : p'.Matched := by
  cases h with
  | same pages leaf => exact hm.of_fields pages leaf
  | track event aligned fresh pages leaf =>
    refine ⟨?_, ?_⟩
    · intro e he hr
      rw [pages, List.mem_append] at he
      rcases he with he | he
      · rw [Proc.mapped, leaf]
        exact hm.resident e he hr
      · rw [List.mem_singleton.mp he] at hr
        nomatch hr
    · intro e he hne
      rw [pages, List.mem_append] at he
      rw [leaf]
      rcases he with he | he
      · exact hm.others e he hne
      · rw [List.mem_singleton.mp he]
        exact htrack _ event
  | evict entry resident mapped event va out pages leaf =>
    refine hm.modify hp entry pages (fun v hv => by rw [leaf, Function.update_of_ne hv]) ?_ ?_
    · intro hr
      rw [out] at hr
      split at hr <;> nomatch hr
    · intro _
      rw [va, leaf, Function.update_self]
  | load event entry free va loaded pages leaf =>
    refine hm.modify hp entry pages (fun v hv => by rw [leaf, Function.update_of_ne hv]) ?_ ?_
    · intro _
      rw [va, (loaded _).2.2]
      exact ⟨⟨_, by rw [leaf, Function.update_self], Source.perm_u _ _ _⟩, hload _ _ _ event⟩
    · intro hne
      exact absurd (loaded _).1 hne
  | loadFail keeps pages leaf =>
    refine ⟨?_, ?_⟩
    · intro x hx hr
      obtain ⟨e, he, hva, hst, -, hseq⟩ := mem_modify_slot keeps (pages ▸ hx)
      rw [Proc.mapped, leaf, ← hva, ← hseq]
      exact hm.resident e he (hst.trans hr)
    · intro x hx hne
      obtain ⟨e, he, hva, hst, -⟩ := mem_modify_slot keeps (pages ▸ hx)
      rw [leaf, ← hva]
      exact hm.others e he (hst ▸ hne)
  | firstWrite event hw pages leaf =>
    refine hm.modify hp hw.entry pages (fun v hv => by rw [leaf, Function.update_of_ne hv]) ?_ ?_
    · intro _
      refine ⟨⟨_, (congrFun leaf _).trans (Function.update_self _ _ _), hw.user⟩, ?_⟩
      exact (hm.resident _ (List.mem_of_getElem? hw.entry) hw.resident).2
    · intro hne
      exact absurd hw.resident hne

theorem SbrkSpec.matched {n : Int} {eager : Bool} (h : SbrkSpec m p n eager m' p') (hwf : p.Wf) (hm : p.Matched) (ha : SbrkApart p n eager) :
    p'.Matched := by
  cases h with
  | same => exact hm
  | lazy => exact hm.of_fields rfl rfl
  | grow request grows le =>
    rename_i pt hi sz
    refine hm.of_leaves rfl (fun e he => grows.outside _ (fun hin => ?_))
    obtain ⟨-, hal⟩ := hwf.tracked e.va (List.mem_map_of_mem he)
    have hup := pgRoundUp_mod p.sz
    unfold growEnd at le
    refine ha.2 request.1 request.2 e he ⟨by omega, ?_⟩
    by_contra hge
    omega
  | shrink request unmaps =>
    refine ⟨?_, ?_⟩
    · intro e he hr
      obtain ⟨hmapped, hseq⟩ := hm.resident e he hr
      have hne := ha.1 request.1 e he hr
      obtain ⟨-, hal⟩ := hwf.tracked e.va (List.mem_map_of_mem he)
      have hup := pgRoundUp_mod p.sz
      have hup' := pgRoundUp_mod (addInt p.sz n)
      refine ⟨?_, hseq⟩
      rw [Proc.mapped, unmaps.kept _ (fun hs => hne ?_)]
      · exact hmapped
      · obtain ⟨h1, h2, h3⟩ := hs
        have hdiv : e.va / 4096 * 4096 = e.va := by omega
        rw [hdiv] at h3
        exact ⟨by omega, by omega, h3⟩
    · intro e he hne
      by_cases hs : shrinks p.stackTop (pgRoundUp (addInt p.sz n) / 4096) (pgRoundUp p.sz / 4096) (e.va / 4096)
      · exact unmaps.cleared _ hs
      · exact (unmaps.kept _ hs).trans (hm.others e he hne)

theorem ImageTable.matched {tr tf mem : Pa} {path : List Char} {st : Scan} {entry sp : Nat} {pt : PageTable}
    (h : ImageTable tr tf (imageTop st.sz) mem pt) : (p.commit path st entry pt sp).Matched := by
  obtain ⟨h1, h2, h3⟩ := h.top
  have htop := trapframeVa_eq
  have hdiv : pgRoundDown (sub64 (imageTop st.sz) pgSize) / 4096 = imageTop st.sz / 4096 - 1 := by
    rw [pgRoundDown_div, show pgSize = 4096 from rfl, sub64_of_le (by omega) (imageTop_lt _)]
    omega
  rw [commit_eq]
  refine ⟨?_, ?_⟩
  · intro e he _
    rw [List.mem_singleton.mp he]
    have hseq : (1 : Int) < intMax := by decide
    refine ⟨⟨⟨mem, ⟨true, true, false, true⟩⟩, ?_, rfl⟩, hseq⟩
    change pt.leaf (pgRoundDown (sub64 (imageTop st.sz) pgSize) / 4096) = _
    rw [hdiv]
    exact h.stack
  · intro e he hne
    rw [List.mem_singleton.mp he] at hne
    exact absurd rfl hne

theorem ForkChild.matched {q np : Proc} (h : ForkChild p q i np) (hwf : p.Wf) (hm : p.Matched)
    (hsz : ∀ e ∈ p.pages, e.state = .resident → e.va < p.sz) : np.Matched := by
  obtain ⟨-, -, hcopied, hmapped⟩ := h.leaves hwf
  have hpages : np.pages = p.pages.map forkPage := by
    cases h with
    | mk => rfl
  have hstate : ∀ e : PageInfo, (forkPage e).state = .resident ↔ e.state = .resident := by
    intro e
    unfold forkPage
    dsimp only
    split
    · rename_i hs
      simp [hs]
    · rfl
  refine ⟨?_, ?_⟩
  · intro x hx hr
    rw [hpages] at hx
    obtain ⟨e, he, rfl⟩ := List.mem_map.mp hx
    have her := (hstate e).mp hr
    obtain ⟨⟨pte, hpte, hu⟩, hseq⟩ := hm.resident e he her
    obtain ⟨hlt, hal⟩ := hwf.tracked e.va (List.mem_map_of_mem he)
    have hbelow := hsz e he her
    obtain ⟨mem, hmem⟩ := hcopied (e.va / 4096) hlt (by omega) pte hpte
    exact ⟨⟨_, hmem, hu⟩, hseq⟩
  · intro x hx hne
    rw [hpages] at hx
    obtain ⟨e, he, rfl⟩ := List.mem_map.mp hx
    obtain ⟨hlt, -⟩ := hwf.tracked e.va (List.mem_map_of_mem he)
    by_contra hsome
    obtain ⟨-, hparent⟩ := hmapped (e.va / 4096) hlt (Option.isSome_iff_ne_none.mpr hsome)
    rw [hm.others e he (fun hr => hne ((hstate e).mpr hr))] at hparent
    cases hparent

/-! ## Runs -/

/-- The tables of every process are in order. -/
structure MatchInv (s : Sys) : Prop where
  wf : EveryLive Proc.Wf s
  indexed : EveryLive Proc.Indexed s
  matched : EveryLive Proc.Matched s

theorem SysStep.matchInv (h : SysStep s ev t) (hk : ev.keepsMatch s) (hs : MatchInv s) : MatchInv t := by
  refine ⟨h.everyWf hk.trapframe hs.wf, h.everyIndexed hs.indexed, ?_⟩
  intro k hl
  cases h.slot hl with
  | same live tf ofile cwd parent killed state _ hp =>
    rw [hp]
    exact (hs.matched k live).of_fields rfl rfl
  | page he live hp =>
    subst he
    refine hp.table.matched (hs.indexed k live) (hs.matched k live) ?_ ?_
    · rintro va rfl
      exact hk
    · rintro src j va rfl
      exact hk
  | sbrk he live hc =>
    subst he
    exact (sysSbrk_spec (hs.wf k live) hk.1 hc).matched (hs.wf k live) (hs.matched k live) hk.2
  | exec _ live args hc =>
    obtain ⟨-, ⟨-, hf⟩ | ⟨argc, fs₀, fs, ip, mem, pt, sp, -, hd⟩⟩ :=
      kexec_spec (hs.wf k live).toHasTable (Or.inr (hs.wf k live).stack) args hc
    · obtain ⟨hpt, -, -, -, -⟩ := hf.slot
      refine (hs.matched k live).of_fields ?_ (by rw [hpt])
      generalize t.proc k = q at hf
      cases hf <;> rfl
    · rw [hd.proc]
      exact hd.table.matched
  | fork he live _ hc =>
    subst he
    exact hc.matched (hs.wf _ live) (hs.matched _ live) hk

theorem Boot.matchInv (hb : Boot s) : MatchInv s := by
  refine ⟨hb.everyWf, hb.indexed, ?_⟩
  intro k hl
  obtain ⟨_, _, _, _, _, _, _, _, _, _, hd, -⟩ := hb.done hl
  rw [hd.proc]
  exact hd.table.matched

/-- In every run from boot whose events all leave the tables together, the table of tracked pages of every live process matches its page
table. -/
theorem table_matches {evs : List Event} (hb : Boot s) (hr : Run (Guarded Event.keepsMatch SysStep) s evs t) (hl : (t.proc i).live) :
    TableMatches t.m (t.proc i) :=
  ((hr.invariant MatchInv (fun _ _ _ hs hg => hg.2.matchInv hg.1 hs) hb.matchInv).matched i hl).tableMatches t.m

/-- A change of size that concerns no entry, or an eviction. -/
def resizes (s : Sys) : Action → Bool
  | .sbrk i n eager => ¬shrinksPastTrapframe (s.proc i) (wrap32 n) ∧ SbrkApart (s.proc i) (wrap32 n) eager
  | .evict _ => true
  | _ => false

/-- Such actions are such events. -/
theorem resizes_run {as : List Action} (hr : Run (Guarded (fun s a => resizes s a = true) Step) s as t) :
    ∃ evs, Run (Guarded Event.keepsMatch SysStep) s evs t := by
  induction hr with
  | nil => exact ⟨[], Run.nil _⟩
  | snoc _ hs ih =>
    rename_i u v as a _
    obtain ⟨evs, hevs⟩ := ih
    obtain ⟨htest, hen, h⟩ := hs
    cases a with
    | sbrk k n eager =>
      simp only [perform] at h
      obtain ⟨m, p, r, hc, rfl⟩ := memCall_ok h
      have hapart := of_decide_eq_true htest
      exact ⟨_, hevs.snoc (a := Event.sbrk k n eager) ⟨hapart, .sbrk hen.1 hen.2.1 hc⟩⟩
    | evict k =>
      simp only [perform] at h
      obtain ⟨m, p, r, hc, rfl⟩ := memCall_ok h
      rcases evictPageFifo_cases hc with ⟨-, j, e, pte, hx⟩ | ⟨-, j, e, pte, slot, f, m₁, m₂, hx⟩ | ⟨-, hx⟩
      · exact ⟨_, hevs.snoc ⟨by trivial, .page hen.1 hen.2.1 (.evictClean hx)⟩⟩
      · exact ⟨_, hevs.snoc ⟨by trivial, .page hen.1 hen.2.1 (.evictDirty hx)⟩⟩
      · exact ⟨_, hevs.snoc ⟨by trivial, .page hen.1 hen.2.1 (.evictFail hx)⟩⟩
    | _ => cases htest

/-- A process grows by a page that is mapped at once, its stack page is evicted, and it shrinks again: the new page had no entry. -/
theorem table_matches_resize : ∃ evs t, Run (Guarded Event.keepsMatch SysStep) (smallBoot smallFiles 32) evs t ∧
    TableMatches t.m (t.proc 0) := by
  have hex : (replayIf resizes (smallBoot smallFiles 32) [.sbrk 0 4096 true, .evict 0, .sbrk 0 (-4096) true]).any
      (fun t => (t.proc 0).live) = true := by
    decide +kernel
  obtain ⟨t, ht, hl⟩ := (Option.any_eq_true _ _).mp hex
  obtain ⟨evs, hr⟩ := resizes_run (replayIf_run (fun _ _ h => h) ht)
  exact ⟨evs, t, hr, table_matches smallBoot_init hr (of_decide_eq_true hl)⟩

/-- A process that releases a resident page: its entry stays resident, and once the stack page is gone it is the one that the next
eviction picks. -/
theorem shrink_poisons_eviction : ¬∀ t, Reach Boot Step t → ∀ i, (t.proc i).live → TableMatches t.m (t.proc i) := by
  intro h
  have hex : (replay (smallBoot smallFiles 32) [.sbrk 0 4096 false, .fault 0 16384 .read, .evict 0, .sbrk 0 (-4096) true]).any
      (fun t => (t.proc 0).live ∧ victimIdx (t.proc 0).pages = some 1 ∧
        ((t.proc 0).pages[1]?).any (fun e => (t.proc 0).pagetable.leaf (e.va / 4096) = none)) = true := by
    decide +kernel
  obtain ⟨t, ht, hex⟩ := (Option.any_eq_true _ _).mp hex
  obtain ⟨hl, hidx, hent⟩ := of_decide_eq_true hex
  obtain ⟨e, he, hnone⟩ := (Option.any_eq_true _ _).mp hent
  obtain ⟨pte, hpte, -⟩ := (h t ⟨_, _, smallBoot_init, replay_run ht⟩ 0 hl).victim 1 e hidx he
  rw [of_decide_eq_true hnone] at hpte
  nomatch hpte

end Xv6SnifferBakery.Kernel
