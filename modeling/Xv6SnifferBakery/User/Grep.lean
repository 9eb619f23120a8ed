import Mathlib.Data.List.Basic
import Mathlib.Tactic.Common

/-!
# grep

`user/grep.c`: the matcher for `^`, `.`, `*` and `$`, and the loop that reads a file into a buffer and writes the lines that match. A
pointer into a string is what is left of the string from there on, without its terminating byte; the buffer is what has been read into it
and not yet moved out.
-/

namespace Xv6SnifferBakery.Grep

/-- The byte that ends a string. -/
def nul : Char := '\x00'

/-- `sizeof(buf)`. -/
def bufSize : Nat := 1024

/-! ## The matcher -/

/-- `matchstar` with the `matchhere` of the rest of the pattern. -/
def matchstar (here : List Char → Bool) (c : Char) : List Char → Bool
  | [] => here []
  | x :: text => here (x :: text) || ((x == c || c == '.') && matchstar here c text)

def matchhere : List Char → List Char → Bool
  | [], _ => true
  | c :: '*' :: re, text => matchstar (matchhere re) c text
  | ['$'], text => text.isEmpty
  | c :: re, x :: text => (c == '.' || c == x) && matchhere re text
  | _ :: _, [] => false

/-- The loop of `match`: the pattern is tried at each place of the text, its end included. -/
def matchFrom (re : List Char) : List Char → Bool
  | [] => matchhere re []
  | x :: text => matchhere re (x :: text) || matchFrom re text

/-- `match` of the source. -/
def matchText (re text : List Char) : Bool :=
  match re with
  | '^' :: re => matchhere re text
  | re => matchFrom re text

/-! ## Lines -/

/-- `strchr`: it looks no further than the byte that ends the string. -/
def strchr (c : Char) : List Char → Option (List Char)
  | [] => none
  | x :: s => if x = nul then none else if x = c then some (x :: s) else strchr c s

/-- The string at a pointer into the buffer. -/
def stringAt (p : List Char) : List Char := p.takeWhile (· ≠ nul)

/-- `while((q = strchr(p, '\n')) != 0)`: what it writes, and where `p` is behind it. Each turn uses up a line, `n` is enough turns. -/
def scan (re : List Char) : Nat → List Char → List Char × List Char
  | 0, p => ([], p)
  | n + 1, p =>
    match strchr '\n' p with
    | none => ([], p)
    | some q =>
      let len := p.length - q.length
      let found := matchText re (stringAt (p.set len nul))
      let (out, p') := scan re n q.tail
      ((if found then p.take (len + 1) else []) ++ out, p')

/-- The outer loop, on what is in the buffer and what is left of the file. Each number says how much more than one byte the next `read` is
ready to give; the `read` behind the last one fails. -/
def grep (re : List Char) : List Nat → List Char → List Char → List Char
  | [], _, _ => []
  | ready :: reads, buf, input =>
    let n := min (min (ready + 1) (bufSize - buf.length - 1)) input.length
    if n = 0 then []
    else
      let (out, rest) := scan re (buf.length + n) (buf ++ input.take n)
      out ++ grep re reads rest (input.drop n)

end Xv6SnifferBakery.Grep
