import Mathlib.Data.List.Chain
import Mathlib.Data.List.Nodup
import Mathlib.Logic.Function.Basic
import Mathlib.Tactic.Common

/-!
# Circular doubly linked lists

Nodes with a `next` and a `prev` link. `Ring h xs` says that the links lead from the head `h` through the members `xs` and back, both
ways. Taking a member out and putting one in behind the head are the two edits; a walk along either link finds the first member that
meets a test, in the order of the walk.
-/

namespace Xv6SnifferBakery.Lib

/-- The links of the nodes of doubly linked lists. -/
structure Links (α : Type) where
  next : α → α
  prev : α → α

namespace Links

variable {α : Type} {l l' : Links α} {h b : α} {xs ys : List α}

/-! ## Chains of links -/

/-- Consecutive nodes of a list are linked both ways. -/
def Linked (l : Links α) (xs : List α) : Prop := xs.IsChain (fun a b => l.next a = b ∧ l.prev b = a)

/-- The list of head `h` with members `xs`. -/
structure Ring (l : Links α) (h : α) (xs : List α) : Prop where
  linked : l.Linked (h :: xs ++ [h])
  nodup : (h :: xs).Nodup

/-- Links of nodes that are not in a list are free to change, and so are those at its ends that lead out of it. -/
theorem Linked.congr (hl : l.Linked xs) (hnext : ∀ a ∈ xs.dropLast, l'.next a = l.next a) (hprev : ∀ a ∈ xs.tail, l'.prev a = l.prev a) :
    l'.Linked xs := by
  induction xs with
  | nil => exact List.isChain_nil
  | cons a xs ih =>
    cases xs with
    | nil => exact List.isChain_singleton a
    | cons b xs =>
      obtain ⟨⟨h1, h2⟩, hrest⟩ := List.isChain_cons_cons.mp hl
      refine List.isChain_cons_cons.mpr ⟨⟨?_, ?_⟩, ih hrest ?_ ?_⟩
      · rw [hnext a (by simp), h1]
      · rw [hprev b (by simp), h2]
      · intro c hc
        exact hnext c (List.mem_cons_of_mem _ hc)
      · intro c hc
        exact hprev c (List.mem_cons_of_mem _ hc)

/-- A list that is not empty, by its last element. -/
theorem cons_eq_concat (a : α) (xs : List α) : ∃ pre z, a :: xs = pre ++ [z] :=
  ⟨_, _, (List.dropLast_append_getLast (List.cons_ne_nil a xs)).symm⟩

/-- And one by its first. -/
theorem concat_eq_cons (xs : List α) (z : α) : ∃ a post, xs ++ [z] = a :: post :=
  List.exists_cons_of_ne_nil (List.concat_ne_nil z xs)

/-- The list of a head alone. -/
theorem Ring.empty (hnext : l.next h = h) (hprev : l.prev h = h) : l.Ring h [] :=
  ⟨List.isChain_cons_cons.mpr ⟨⟨hnext, hprev⟩, List.isChain_singleton h⟩, List.nodup_singleton h⟩

/-- The neighbours of a member, and what is on either side of it. -/
theorem Ring.around (hr : l.Ring h (xs ++ b :: ys)) : ∃ pre a c post, h :: xs = pre ++ [a] ∧ ys ++ [h] = c :: post ∧
    l.Linked (pre ++ [a]) ∧ l.next a = b ∧ l.prev b = a ∧ l.next b = c ∧ l.prev c = b ∧ l.Linked (c :: post) := by
  obtain ⟨pre, a, hpre⟩ := cons_eq_concat h xs
  obtain ⟨c, post, hpost⟩ := concat_eq_cons ys h
  have hl := hr.linked
  have hlist : h :: (xs ++ b :: ys) ++ [h] = pre ++ a :: b :: c :: post := by
    calc h :: (xs ++ b :: ys) ++ [h] = (h :: xs) ++ b :: (ys ++ [h]) := by simp
      _ = pre ++ a :: b :: c :: post := by rw [hpre, hpost]; simp
  rw [Linked, hlist, List.isChain_append_cons_cons] at hl
  obtain ⟨hbefore, ⟨hab, hba⟩, hafter⟩ := hl
  obtain ⟨⟨hbc, hcb⟩, hrest⟩ := List.isChain_cons_cons.mp hafter
  exact ⟨pre, a, c, post, hpre, hpost, hbefore, hab, hba, hbc, hcb, hrest⟩

/-! ## Edits -/

variable [DecidableEq α]

def setNext (l : Links α) (a b : α) : Links α := { l with next := Function.update l.next a b }

def setPrev (l : Links α) (a b : α) : Links α := { l with prev := Function.update l.prev a b }

/-- `b->next->prev = b->prev; b->prev->next = b->next`. -/
def unlink (l : Links α) (b : α) : Links α :=
  let l := l.setPrev (l.next b) (l.prev b)
  l.setNext (l.prev b) (l.next b)

/-- `b->next = h->next; b->prev = h; h->next->prev = b; h->next = b`. -/
def linkAfter (l : Links α) (h b : α) : Links α :=
  let l := l.setNext b (l.next h)
  let l := l.setPrev b h
  let l := l.setPrev (l.next h) b
  l.setNext h b

/-- Taking a member out. -/
theorem Ring.unlink (hr : l.Ring h (xs ++ b :: ys)) : (l.unlink b).Ring h (xs ++ ys) := by
  obtain ⟨pre, a, c, post, hpre, hpost, hbefore, -, hba, hbc, -, hafter⟩ := hr.around
  have hnd : (h :: xs ++ b :: ys).Nodup := hr.nodup
  have hperm : (b :: (h :: xs ++ ys)).Nodup := (List.perm_middle.nodup_iff).mp hnd
  obtain ⟨hb, hrest⟩ := List.nodup_cons.mp hperm
  obtain ⟨hleft, hright, hdisj⟩ := List.nodup_append'.mp hrest
  have ha : a ∈ h :: xs := by rw [hpre]; simp
  have hc : c ∈ ys ++ [h] := by rw [hpost]; simp
  have hcb : c ≠ b := by
    rintro rfl
    refine hb ?_
    rcases List.mem_append.mp hc with hc | hc
    · exact List.mem_append_right _ hc
    · exact List.mem_append_left _ (List.mem_singleton.mp hc ▸ List.mem_cons_self ..)
  have hnext : (l.unlink b).next = Function.update l.next a c := by
    simp [Links.unlink, setNext, setPrev, hbc, hba, Function.update_of_ne (Ne.symm hcb)]
  have hprev : (l.unlink b).prev = Function.update l.prev c a := by
    simp [Links.unlink, setNext, setPrev, hbc, hba]
  refine ⟨?_, hrest⟩
  have hlist : h :: (xs ++ ys) ++ [h] = pre ++ a :: c :: post := by
    calc h :: (xs ++ ys) ++ [h] = (h :: xs) ++ (ys ++ [h]) := by simp
      _ = pre ++ a :: c :: post := by rw [hpre, hpost]; simp
  rw [Linked, hlist, List.isChain_append_cons_cons]
  refine ⟨hbefore.congr ?_ ?_, ⟨by rw [hnext, Function.update_self], by rw [hprev, Function.update_self]⟩, hafter.congr ?_ ?_⟩
  · -- before the gap only the last node's `next` has changed, which leads out
    intro x hx
    rw [List.dropLast_concat] at hx
    have hne : x ≠ a := by
      rw [hpre] at hleft
      exact fun he => (List.nodup_append'.mp hleft).2.2 hx (he ▸ List.mem_singleton_self x)
    rw [hnext, Function.update_of_ne hne]
  · intro x hx
    rw [← hpre, List.tail_cons] at hx
    have hne : x ≠ c := by
      rintro rfl
      rcases List.mem_append.mp hc with hc | hc
      · exact hdisj (List.mem_cons_of_mem _ hx) hc
      · exact (List.nodup_cons.mp hleft).1 (List.mem_singleton.mp hc ▸ hx)
    rw [hprev, Function.update_of_ne hne]
  · intro x hx
    rw [← hpost, List.dropLast_concat] at hx
    have hne : x ≠ a := fun he => hdisj (he ▸ ha) hx
    rw [hnext, Function.update_of_ne hne]
  · intro x hx
    have hout : (ys ++ [h]).Nodup := by
      refine (List.nodup_append' ..).mpr ⟨hright, List.nodup_singleton h, ?_⟩
      intro y hy hyh
      exact hdisj (List.mem_singleton.mp hyh ▸ List.mem_cons_self ..) hy
    rw [hpost] at hout
    have hne : x ≠ c := fun he => (List.nodup_cons.mp hout).1 (he ▸ hx)
    rw [hprev, Function.update_of_ne hne]

/-- Putting a node in behind the head. -/
theorem Ring.linkAfter (hr : l.Ring h xs) (hb : b ∉ h :: xs) : (l.linkAfter h b).Ring h (b :: xs) := by
  obtain ⟨c, post, hpost⟩ := concat_eq_cons xs h
  have hl := hr.linked
  rw [Linked, List.cons_append, hpost] at hl
  obtain ⟨⟨hhc, -⟩, hrest⟩ := List.isChain_cons_cons.mp hl
  have hrest : l.Linked (c :: post) := hrest
  have hbh : b ≠ h := fun he => hb (he ▸ List.mem_cons_self ..)
  have hout : (xs ++ [h]).Nodup := (List.perm_append_singleton h xs).nodup_iff.mpr hr.nodup
  have hbx : b ∉ xs ++ [h] := fun hm => hb ((List.perm_append_singleton h xs).mem_iff.mp hm)
  rw [hpost] at hout hbx
  have hbc : b ≠ c := fun he => hbx (he ▸ List.mem_cons_self ..)
  have hnext : (l.linkAfter h b).next = Function.update (Function.update l.next b c) h b := by
    simp [Links.linkAfter, setNext, setPrev, hhc]
  have hprev : (l.linkAfter h b).prev = Function.update (Function.update l.prev b h) c b := by
    simp [Links.linkAfter, setNext, setPrev, hhc, Function.update_of_ne (Ne.symm hbh)]
  refine ⟨?_, List.nodup_cons.mpr ⟨?_, List.nodup_cons.mpr ⟨?_, (List.nodup_cons.mp hr.nodup).2⟩⟩⟩
  · rw [Linked, List.cons_append, List.cons_append, hpost]
    refine List.isChain_cons_cons.mpr ⟨⟨?_, ?_⟩, List.isChain_cons_cons.mpr ⟨⟨?_, ?_⟩, hrest.congr ?_ ?_⟩⟩
    · rw [hnext, Function.update_self]
    · rw [hprev, Function.update_of_ne hbc, Function.update_self]
    · rw [hnext, Function.update_of_ne hbh, Function.update_self]
    · rw [hprev, Function.update_self]
    · intro x hx
      rw [← hpost, List.dropLast_concat] at hx
      have hxh : x ≠ h := fun he => (List.nodup_cons.mp hr.nodup).1 (he ▸ hx)
      have hxb : x ≠ b := fun he => hb (List.mem_cons_of_mem _ (he ▸ hx))
      rw [hnext, Function.update_of_ne hxh, Function.update_of_ne hxb]
    · intro x hx
      have hxc : x ≠ c := fun he => (List.nodup_cons.mp hout).1 (he ▸ hx)
      have hxb : x ≠ b := fun he => hbx (List.mem_cons_of_mem _ (he ▸ hx))
      rw [hprev, Function.update_of_ne hxc, Function.update_of_ne hxb]
  · exact fun hm => (List.mem_cons.mp hm).elim (fun he => hbh he.symm) (fun hm => (List.nodup_cons.mp hr.nodup).1 hm)
  · exact fun hm => hb (List.mem_cons_of_mem _ hm)

/-! ## Walks -/

/-- The walk from `a` along `step`, until the head or a node that meets the test, at most `fuel` nodes. -/
def walk (step : α → α) (h : α) (test : α → Bool) : Nat → α → Option α
  | 0, _ => none
  | fuel + 1, a => if a = h then none else if test a then some a else walk step h test fuel (step a)

theorem walk_chain {step : α → α} {test : α → Bool} {fuel : Nat} {a : α} (hc : (a :: xs ++ [h]).IsChain (fun a b => step a = b))
    (hh : h ∉ xs) (hf : xs.length < fuel) : walk step h test fuel (step a) = xs.find? test := by
  induction xs generalizing a fuel with
  | nil =>
    have hstep : step a = h := (List.isChain_cons_cons.mp hc).1
    cases fuel with
    | zero => omega
    | succ fuel => rw [walk, if_pos hstep, List.find?_nil]
  | cons x xs ih =>
    obtain ⟨hstep, hrest⟩ := List.isChain_cons_cons.mp hc
    have hxh : x ≠ h := fun he => hh (he ▸ List.mem_cons_self ..)
    cases fuel with
    | zero => simp at hf
    | succ fuel =>
      rw [walk, hstep, if_neg hxh]
      cases ht : test x with
      | true => simp [ht]
      | false =>
        rw [if_neg Bool.false_ne_true, ih hrest (fun hm => hh (List.mem_cons_of_mem _ hm)) (by simpa using hf)]
        simp [ht]

/-- The walk along `next`, in the order of the list. -/
theorem Ring.walk_next (hr : l.Ring h xs) {test : α → Bool} {fuel : Nat} (hf : xs.length < fuel) :
    walk l.next h test fuel (l.next h) = xs.find? test :=
  walk_chain (hr.linked.imp (fun _ _ hab => hab.1)) (List.nodup_cons.mp hr.nodup).1 hf

/-- The walk along `prev`, from the other end. -/
theorem Ring.walk_prev (hr : l.Ring h xs) {test : α → Bool} {fuel : Nat} (hf : xs.length < fuel) :
    walk l.prev h test fuel (l.prev h) = xs.reverse.find? test := by
  refine walk_chain ?_ ?_ (by simpa using hf)
  · have hrev : (h :: xs ++ [h]).reverse.IsChain (fun a b => l.prev a = b) := by
      rw [List.isChain_reverse]
      exact hr.linked.imp (fun _ _ hab => hab.2)
    simpa using hrev
  · simpa using (List.nodup_cons.mp hr.nodup).1

end Links

end Xv6SnifferBakery.Lib
