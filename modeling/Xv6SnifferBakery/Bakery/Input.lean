import Mathlib.Algebra.Group.Int.Defs
import Mathlib.Data.List.Infix
import Xv6SnifferBakery.Bakery.Simulation

/-!
# Reading lines

The part of the C library that `read_input` calls: `fgets`, which splits a line that does not fit the buffer, `strstr`, and `sscanf` with
the format of an arrival. A byte of the input is the character of its code. A number that does not fit a `long` is the nearest one that
does, as `strtol` has it.
-/

namespace Xv6SnifferBakery.Bakery

/-- `fgets` with room for `n` bytes: what goes to the buffer, and what is left of the input. -/
def fgets : Nat → List Char → List Char × List Char
  | 0, input => ([], input)
  | _ + 1, [] => ([], [])
  | n + 1, c :: input => if c = '\n' then ([c], input) else (c :: (fgets n input).1, (fgets n input).2)

/-- A buffer as a string ends at its first NUL. -/
def cString (buf : List Char) : List Char := buf.takeWhile (fun c => c ≠ '\x00')

/-- `strstr(buf, s) != NULL`. -/
def hasSubstr (buf s : List Char) : Bool := decide (s <:+: buf)

/-- `isspace`. -/
def isSpace (c : Char) : Bool := c = ' ' || c = '\t' || c = '\n' || c = '\x0b' || c = '\x0c' || c = '\r'

def skipSpace (cs : List Char) : List Char := cs.dropWhile isSpace

/-- The sign of a number, if there is one. -/
def scanSign : List Char → Bool × List Char
  | '-' :: cs => (true, cs)
  | '+' :: cs => (false, cs)
  | cs => (false, cs)

/-- The number that digits stand for. -/
def digitsValue (ds : List Char) : Nat := ds.foldl (fun n d => 10 * n + (d.toNat - '0'.toNat)) 0

def longMin : Int := -2 ^ 63
def longMax : Int := 2 ^ 63 - 1

/-- `%ld`: space, a sign, and at least one digit. -/
def scanLong (cs : List Char) : Option (Int × List Char) :=
  let (neg, cs) := scanSign (skipSpace cs)
  let ds := cs.takeWhile Char.isDigit
  if ds = [] then none
  else some (max longMin (min longMax (if neg then -(digitsValue ds : Int) else digitsValue ds)), cs.dropWhile Char.isDigit)

/-- Characters of the format that stand for themselves. -/
def scanLiteral : List Char → List Char → Option (List Char)
  | [], cs => some cs
  | l :: ls, c :: cs => if l = c then scanLiteral ls cs else none
  | _ :: _, [] => none

/-- `sscanf(buf, "%ld Customer %ld", &ts, &id) == 2`, with what has been read then. -/
def scanArrival (buf : List Char) : Option Arrival := do
  let (ts, cs) ← scanLong buf
  let cs ← scanLiteral "Customer".toList (skipSpace cs)
  let (id, _) ← scanLong (skipSpace cs)
  some ⟨ts, id⟩

/-! ## What the input says -/

/-- The buffers that `fgets` fills until the end of the input; every one takes at least a byte. -/
def linesAux : Nat → List Char → List (List Char)
  | 0, _ => []
  | n + 1, input => if input = [] then [] else cString (fgets 255 input).1 :: linesAux n (fgets 255 input).2

def lines (stdin : List Char) : List (List Char) := linesAux stdin.length stdin

/-- The arrivals of an input: those of its lines before the one with `<EOF>`. -/
def accepted (stdin : List Char) : List Arrival :=
  ((lines stdin).takeWhile (fun buf => !hasSubstr buf "<EOF>".toList)).filterMap scanArrival

example : accepted "7 Customer 3\nhello\n -2Customer+4 x\n<EOF>\n1 Customer 1\n".toList = [⟨7, 3⟩, ⟨-2, 4⟩] := by decide +kernel

end Xv6SnifferBakery.Bakery
