import Mathlib.Computability.Language
import Mathlib.Tactic.Set
import Xv6SnifferBakery.User.Grep

/-!
# grep finds what its patterns say

A pattern has a language, built with the products and stars of languages; the matcher decides it. The output of `grep` is the lines that
match, however the reads cut the file into pieces, up to the first line that the buffer cannot hold or that has a byte `0` in it.
-/

namespace Xv6SnifferBakery.Grep

open Computability

/-! ## Patterns -/

/-- What a character of a pattern stands for. -/
def atom (c : Char) : Language Char := {x | ∃ y, x = [y] ∧ (c = '.' ∨ y = c)}

/-- The language of a pattern without its anchors. -/
def body : List Char → Language Char
  | [] => 1
  | c :: '*' :: re => (atom c)∗ * body re
  | ['$'] => 1
  | c :: re => atom c * body re

/-- The pattern ends with the anchor `$`. -/
def atEnd : List Char → Bool
  | [] => false
  | _ :: '*' :: re => atEnd re
  | ['$'] => true
  | _ :: re => atEnd re

/-- The texts with a place where a pattern is found. -/
def found (re : List Char) : Language Char :=
  match re with
  | '^' :: re => body re * (if atEnd re then 1 else ⊤)
  | re => ⊤ * (body re * (if atEnd re then 1 else ⊤))

section languages

variable {l m : Language Char} {text : List Char} {c x : Char}

theorem mem_atom_mul : text ∈ atom c * m ↔ ∃ y t, text = y :: t ∧ (c = '.' ∨ y = c) ∧ t ∈ m := by
  rw [Language.mem_mul]
  constructor
  · rintro ⟨_, ⟨y, rfl, hy⟩, t, ht, rfl⟩
    exact ⟨y, t, rfl, hy, ht⟩
  · rintro ⟨y, t, rfl, hy, ht⟩
    exact ⟨[y], ⟨y, rfl, hy⟩, t, ht, rfl⟩

/-- A star is nothing, or once and again. -/
theorem mem_kstar_mul : text ∈ l∗ * m ↔ text ∈ m ∨ text ∈ l * (l∗ * m) := by
  rw [← mul_assoc]
  nth_rewrite 1 [← Language.one_add_self_mul_kstar_eq_kstar l]
  rw [add_mul, one_mul]
  rfl

theorem mem_top_mul_cons : x :: text ∈ ⊤ * m ↔ x :: text ∈ m ∨ text ∈ (⊤ : Language Char) * m := by
  simp only [Language.mem_mul]
  constructor
  · rintro ⟨a, -, b, hb, hab⟩
    cases a with
    | nil => exact .inl (hab ▸ hb)
    | cons y a =>
      obtain ⟨rfl, rfl⟩ := List.cons.inj hab
      exact .inr ⟨a, trivial, b, hb, rfl⟩
  · rintro (h | ⟨a, -, b, hb, rfl⟩)
    · exact ⟨[], trivial, _, h, rfl⟩
    · exact ⟨x :: a, trivial, b, hb, rfl⟩

theorem mem_top_mul_nil : [] ∈ (⊤ : Language Char) * m ↔ [] ∈ m := by
  simp only [Language.mem_mul, List.append_eq_nil_iff]
  constructor
  · rintro ⟨a, -, b, hb, rfl, rfl⟩
    exact hb
  · intro h
    exact ⟨[], trivial, [], h, rfl, rfl⟩

end languages

/-! ## The matcher decides them -/

variable {re text : List Char} {c : Char}

theorem matchstar_iff {here : List Char → Bool} {m : Language Char} (h : ∀ t, here t = true ↔ t ∈ m) (text : List Char) :
    matchstar here c text = true ↔ text ∈ (atom c)∗ * m := by
  induction text with
  | nil =>
    rw [matchstar, h, mem_kstar_mul, mem_atom_mul]
    simp
  | cons x text ih =>
    rw [matchstar, mem_kstar_mul, mem_atom_mul, Bool.or_eq_true, Bool.and_eq_true, ih, h]
    simp [or_comm]

theorem matchhere_iff (re text : List Char) : matchhere re text = true ↔ text ∈ body re * (if atEnd re then 1 else ⊤) := by
  induction re using body.induct generalizing text with
  | case1 =>
    rw [matchhere, body, one_mul, atEnd]
    exact iff_of_true rfl trivial
  | case2 c re ih =>
    rw [matchhere, body, atEnd, mul_assoc]
    exact matchstar_iff ih text
  | case3 => simp [matchhere, body, atEnd]
  | case4 c re hstar hend ih =>
    have hbody : body (c :: re) = atom c * body re := by
      rw [body]
      · exact hstar
      · exact hend
    have hanchor : atEnd (c :: re) = atEnd re := by
      rw [atEnd]
      · exact hstar
      · exact hend
    rw [hbody, hanchor, mul_assoc, mem_atom_mul]
    cases text with
    | nil =>
      rw [matchhere]
      · simp
      · exact hstar
      · exact hend
    | cons x text =>
      rw [matchhere, Bool.and_eq_true, ih]
      · simp [@eq_comm _ x c]
      · exact hstar
      · exact hend

theorem matchFrom_iff (re text : List Char) : matchFrom re text = true ↔ text ∈ ⊤ * (body re * (if atEnd re then 1 else ⊤)) := by
  induction text with
  | nil => rw [matchFrom, matchhere_iff, mem_top_mul_nil]
  | cons x text ih => rw [matchFrom, Bool.or_eq_true, matchhere_iff, ih, mem_top_mul_cons]

theorem matchText_iff (re text : List Char) : matchText re text = true ↔ text ∈ found re := by
  unfold matchText
  split
  · exact matchhere_iff ..
  · next h =>
    have hfound : found re = ⊤ * (body re * (if atEnd re then 1 else ⊤)) := by
      unfold found
      split
      · exact absurd rfl (h _)
      · rfl
    rw [hfound]
    exact matchFrom_iff ..

/-! ## Lines -/

/-- The lines of a file that end with a newline. -/
def lines (input : List Char) : List (List Char) := (input.splitOn '\n').dropLast

/-- A line that the buffer holds, with its newline, and that is a string. -/
def Fits (line : List Char) : Prop := nul ∉ line ∧ line.length + 1 < bufSize

instance (line : List Char) : Decidable (Fits line) := inferInstanceAs (Decidable (_ ∧ _))

/-- The lines up to the first that does not fit. -/
def goodLines (input : List Char) : List (List Char) := (lines input).takeWhile Fits

/-- What is written of some lines. -/
def render (re : List Char) (ls : List (List Char)) : List Char := (ls.filter (matchText re)).flatMap (· ++ ['\n'])

variable {line rest buf input : List Char}

theorem lines_cons (h : '\n' ∉ line) (rest : List Char) : lines (line ++ '\n' :: rest) = line :: lines rest := by
  rw [lines, List.splitOn_append_cons_self_of_not_mem h, List.dropLast_cons_of_ne_nil (List.splitOn_ne_nil _ _), lines]

theorem lines_none (h : '\n' ∉ input) : lines input = [] := by
  rw [lines, List.splitOn_eq_singleton h, List.dropLast_singleton]

theorem goodLines_cons (h : '\n' ∉ line) (hfits : Fits line) (rest : List Char) :
    goodLines (line ++ '\n' :: rest) = line :: goodLines rest := by
  rw [goodLines, lines_cons h, List.takeWhile_cons_of_pos (by simpa using hfits), goodLines]

theorem goodLines_stop (h : '\n' ∉ line) (hfits : ¬Fits line) (rest : List Char) : goodLines (line ++ '\n' :: rest) = [] := by
  rw [goodLines, lines_cons h, List.takeWhile_cons_of_neg (by simpa using hfits)]

theorem render_cons (re line : List Char) (ls : List (List Char)) :
    render re (line :: ls) = (if matchText re line then line ++ ['\n'] else []) ++ render re ls := by
  unfold render
  cases h : matchText re line
  · rw [List.filter_cons_of_neg (by simp [h])]
    rfl
  · rw [List.filter_cons_of_pos h, List.flatMap_cons]
    rfl

/-! ## What the buffer holds -/

/-- `strchr` finds the end of a line that is a string. -/
theorem strchr_some {p q : List Char} (h : strchr '\n' p = some q) :
    ∃ line rest, p = line ++ '\n' :: rest ∧ q = '\n' :: rest ∧ '\n' ∉ line ∧ nul ∉ line := by
  induction p with
  | nil => cases h
  | cons x p ih =>
    rw [strchr] at h
    split at h
    · cases h
    next hnul =>
      split at h
      next hx =>
        cases h
        exact ⟨[], p, by rw [hx, List.nil_append], by rw [hx], List.not_mem_nil, List.not_mem_nil⟩
      next hx =>
        obtain ⟨line, rest, hp, hq, hline, hzero⟩ := ih h
        refine ⟨x :: line, rest, by rw [hp, List.cons_append], hq, ?_, ?_⟩
        · exact List.not_mem_cons_of_ne_of_not_mem (Ne.symm hx) hline
        · exact List.not_mem_cons_of_ne_of_not_mem (Ne.symm hnul) hzero

/-- It finds none where there is none, or a byte `0` is in front of it. -/
theorem strchr_none {p : List Char} (h : strchr '\n' p = none) : '\n' ∉ p ∨ ∃ a b, p = a ++ nul :: b ∧ '\n' ∉ a := by
  induction p with
  | nil => exact .inl List.not_mem_nil
  | cons x p ih =>
    rw [strchr] at h
    split at h
    next hnul => exact .inr ⟨[], p, by rw [hnul, List.nil_append], List.not_mem_nil⟩
    next =>
      split at h
      · cases h
      next hx =>
        rcases ih h with hp | ⟨a, b, hp, ha⟩
        · exact .inl (List.not_mem_cons_of_ne_of_not_mem (Ne.symm hx) hp)
        · exact .inr ⟨x :: a, b, by rw [hp, List.cons_append], List.not_mem_cons_of_ne_of_not_mem (Ne.symm hx) ha⟩

/-- What is in front of the first newline and has none is part of its line. -/
theorem prefix_of_first {a s : List Char} (h : a ++ s = line ++ '\n' :: rest) (ha : '\n' ∉ a) : a <+: line := by
  rcases List.append_eq_append_iff.mp h with ⟨c, hline, -⟩ | ⟨c, hline, hrest⟩
  · exact ⟨c, hline.symm⟩
  · cases c with
    | nil => rw [hline, List.append_nil]
    | cons x c =>
      obtain ⟨rfl, -⟩ := List.cons.inj hrest
      exact absurd (by rw [hline]; simp) ha

/-- Behind a full buffer with no line in it, or at the end of the file, no line fits. -/
theorem goodLines_stuck (h : strchr '\n' buf = none) (hend : buf.length + 1 = bufSize ∨ input = []) :
    goodLines (buf ++ input) = [] := by
  by_cases hnl : '\n' ∈ buf ++ input
  · obtain ⟨line, rest, hsplit, hline⟩ := List.eq_append_cons_of_mem hnl
    rw [hsplit]
    refine goodLines_stop hline ?_ rest
    rintro ⟨hnul, hlen⟩
    rcases strchr_none h with hbuf | ⟨a, b, rfl, ha⟩
    · -- the line begins with the whole buffer
      have hle := (prefix_of_first hsplit hbuf).length_le
      rcases hend with hfull | rfl
      · omega
      · exact hbuf (by simpa using hnl)
    · -- the line begins with what is before the byte `0`, and has that byte
      have hfirst : (a ++ [nul]) ++ (b ++ input) = line ++ '\n' :: rest := by
        rw [← hsplit]
        simp
      have hzero : '\n' ∉ a ++ [nul] := by
        rw [List.mem_append, List.mem_singleton]
        exact not_or.mpr ⟨ha, by simp [nul]⟩
      exact hnul ((prefix_of_first hfirst hzero).mem (by simp))
  · rw [goodLines, lines_none hnl, List.takeWhile_nil]

theorem stringAt_set (h : nul ∉ line) (rest : List Char) :
    stringAt ((line ++ '\n' :: rest).set line.length nul) = line := by
  rw [List.set_append_right _ _ le_rfl, Nat.sub_self, List.set_cons_zero, stringAt, List.takeWhile_append_of_pos, List.takeWhile_cons_of_neg,
    List.append_nil]
  · simp
  · intro x hx
    exact decide_eq_true fun hc => h (hc ▸ hx)

/-- A turn writes the lines it finds and leaves what has none. -/
theorem scan_spec (re : List Char) {n : Nat} {p out rest : List Char} (hn : p.length ≤ n) (hp : p.length < bufSize)
    (h : scan re n p = (out, rest)) :
    strchr '\n' rest = none ∧ rest.length ≤ p.length ∧
      ∀ input, render re (goodLines (p ++ input)) = out ++ render re (goodLines (rest ++ input)) := by
  induction n generalizing p out rest with
  | zero =>
    cases h
    rw [List.length_eq_zero_iff.mp (Nat.le_zero.mp hn)]
    exact ⟨rfl, le_rfl, fun _ => rfl⟩
  | succ n ih =>
    rw [scan] at h
    split at h
    next hnone =>
      cases h
      exact ⟨hnone, le_rfl, fun _ => rfl⟩
    next q hq =>
      obtain ⟨line, tail, rfl, rfl, hline, hnul⟩ := strchr_some hq
      have hlen : (line ++ '\n' :: tail).length - ('\n' :: tail).length = line.length := by
        rw [List.length_append, Nat.add_sub_cancel]
      have hfits : Fits line := ⟨hnul, by simp at hp; omega⟩
      have htake : (line ++ '\n' :: tail).take (line.length + 1) = line ++ ['\n'] := by
        rw [List.take_length_add_append, List.take_succ_cons, List.take_zero]
      rcases hscan : scan re n tail with ⟨out', p'⟩
      obtain ⟨hstuck, hshort, hrest⟩ := ih (by simp at hn; omega) (by simp at hp; omega) hscan
      simp only [hlen, List.tail_cons, hscan, stringAt_set hnul, htake] at h
      cases h
      refine ⟨hstuck, by simp; omega, fun input => ?_⟩
      rw [List.append_assoc, List.cons_append, goodLines_cons hline hfits, render_cons, hrest, List.append_assoc]

/-- From a buffer with no line in it, `grep` writes the matching ones among the lines up to the first that does not fit. -/
theorem grep_from (re : List Char) {reads : List Nat} (hstuck : strchr '\n' buf = none) (hbuf : buf.length < bufSize)
    (hreads : input.length < reads.length) : grep re reads buf input = render re (goodLines (buf ++ input)) := by
  induction reads generalizing buf input with
  | nil => exact absurd hreads (Nat.not_lt_zero _)
  | cons ready reads ih =>
    rw [grep]
    set n := min (min (ready + 1) (bufSize - buf.length - 1)) input.length with hn
    by_cases hzero : n = 0
    · rw [if_pos hzero, goodLines_stuck hstuck]
      · rfl
      · rcases Nat.eq_zero_or_pos input.length with hin | hin
        · exact .inr (List.length_eq_zero_iff.mp hin)
        · exact .inl (by omega)
    · rw [if_neg hzero]
      rcases hscan : scan re (buf.length + n) (buf ++ input.take n) with ⟨out, rest⟩
      have htake : (input.take n).length = n := List.length_take_of_le (by omega)
      have hlen : (buf ++ input.take n).length = buf.length + n := by rw [List.length_append, htake]
      obtain ⟨hstuck', hshort, hrest⟩ := scan_spec re hlen.le (by omega) hscan
      have hall := hrest (input.drop n)
      rw [List.append_assoc, List.take_append_drop] at hall
      rw [hall]
      exact congrArg (out ++ ·) (ih hstuck' (by omega) (by simp at hreads ⊢; omega))

/-! ## The result -/

open Classical in
/-- However the reads cut a file into pieces, `grep` writes the lines that have the pattern in them, in order and each once, of those up
to the first line that the buffer cannot hold or that is not a string. -/
theorem grep_output (re input : List Char) (reads : List Nat) (h : input.length < reads.length) :
    grep re reads [] input = ((goodLines input).filter fun line => line ∈ found re).flatMap (· ++ ['\n']) := by
  have hfilter : (goodLines input).filter (matchText re) = (goodLines input).filter fun line => line ∈ found re :=
    List.filter_congr fun line _ => by rw [Bool.eq_iff_iff, matchText_iff, decide_eq_true_iff]
  rw [grep_from re rfl (by decide) h, List.nil_append, render, hfilter]

open Classical in
/-- `grep 'b*$'` on two lines and a piece of a third, a byte at a time. -/
theorem grep_output_bytes : grep ['b', '*', '$'] (List.replicate 9 0) [] ['a', 'b', '\n', 'c', 'b', 'b', '\n', 'x'] =
    ((goodLines ['a', 'b', '\n', 'c', 'b', 'b', '\n', 'x']).filter fun line => line ∈ found ['b', '*', '$']).flatMap (· ++ ['\n']) :=
  grep_output _ _ _ (by simp)

end Xv6SnifferBakery.Grep
