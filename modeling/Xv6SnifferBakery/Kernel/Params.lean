import Mathlib.Algebra.Group.Int.Defs
import Mathlib.Algebra.Group.Nat.Defs
import Mathlib.Logic.Function.Basic
import Mathlib.Tactic.Common
import Xv6SnifferBakery.Lib.Loop

/-!
# Parameters, words and panics

The constants of `param.h`, `memlayout.h`, `riscv.h`, `fs.h` and `proc.h`, 64-bit address arithmetic, and the panics that stop
the kernel. An address is a natural number below `2 ^ 64`; the arithmetic that can wrap says so.
-/

namespace Xv6SnifferBakery.Kernel

/-! ## Constants -/

abbrev pgSize : Nat := 4096
/-- One beyond the highest possible virtual address (`riscv.h`). -/
def maxVa : Nat := 2 ^ 38
/-- The highest page of every user address space (`TRAMPOLINE`). -/
def trampolineVa : Nat := maxVa - pgSize
/-- The page below it (`TRAPFRAME`). -/
def trapframeVa : Nat := trampolineVa - pgSize
/-- End of the RAM the kernel uses (`PHYSTOP`). -/
def physTop : Nat := 0x80000000 + 128 * 1024 * 1024
/-- User stack pages. -/
abbrev userStack : Nat := 1

def nProc : Nat := 64
def nOFile : Nat := 16
def nFile : Nat := 100
def nInode : Nat := 50
def maxArg : Nat := 32

/-- Pages tracked for each process (`MAX_PAGES`). -/
def maxPages : Nat := 512
/-- Swap slots of each process (`MAX_SWAP_SLOTS`). -/
def maxSwapSlots : Nat := 1024
/-- ELF segments recorded for lazy loading (`MAX_SEGMENTS`). -/
def maxSegments : Nat := 8

abbrev bSize : Nat := 1024
def nDirect : Nat := 12
/-- Blocks of the largest file: the direct blocks and one indirect block of them. -/
def maxFile : Nat := 12 + 256
def dirSiz : Nat := 14
def rootIno : Nat := 1

/-! ## Words -/

/-- A physical address. -/
abbrev Pa := Nat
abbrev Byte := UInt8
/-- The contents of a page: a byte for each offset below `pgSize`. -/
abbrev Page := Nat → Byte

/-- `uint64` addition. -/
def add64 (a b : Nat) : Nat := (a + b) % 2 ^ 64
/-- `uint64` subtraction. -/
def sub64 (a b : Nat) : Nat := (a + (2 ^ 64 - b)) % 2 ^ 64

/-- `PGROUNDUP`: wraps to 0 above `2 ^ 64 - pgSize`. -/
def pgRoundUp (sz : Nat) : Nat := add64 sz 4095 / 4096 * 4096
/-- `PGROUNDDOWN`. -/
def pgRoundDown (a : Nat) : Nat := a / 4096 * 4096

/-- A C `int` after wraparound. -/
def wrap32 (x : Int) : Int := (x + 2 ^ 31) % 2 ^ 32 - 2 ^ 31
/-- A C `short` after wraparound. -/
def wrap16 (x : Int) : Int := (x + 2 ^ 15) % 2 ^ 16 - 2 ^ 15
/-- `__INT_MAX__`. -/
def intMax : Int := 2 ^ 31 - 1

theorem sub64_of_le {a b : Nat} (h : b ≤ a) (ha : a < 2 ^ 64) : sub64 a b = a - b := by
  unfold sub64
  omega

theorem add64_of_lt {a b : Nat} (h : a + b < 2 ^ 64) : add64 a b = a + b :=
  Nat.mod_eq_of_lt h

@[simp] theorem pgRoundDown_mod (a : Nat) : pgRoundDown a % 4096 = 0 :=
  Nat.mul_mod_left _ _

@[simp] theorem pgRoundDown_div (a : Nat) : pgRoundDown a / 4096 = a / 4096 := by
  unfold pgRoundDown
  omega

theorem pgRoundDown_of_aligned {a : Nat} (h : a % 4096 = 0) : pgRoundDown a = a := by
  unfold pgRoundDown
  omega

@[simp] theorem pgRoundDown_idem (a : Nat) : pgRoundDown (pgRoundDown a) = pgRoundDown a :=
  pgRoundDown_of_aligned (pgRoundDown_mod a)

@[simp] theorem pgRoundUp_mod (a : Nat) : pgRoundUp a % 4096 = 0 :=
  Nat.mul_mod_left _ _

theorem le_pgRoundUp {a : Nat} (h : a + 4095 < 2 ^ 64) : a ≤ pgRoundUp a := by
  unfold pgRoundUp add64
  omega

theorem pgRoundUp_of_aligned {a : Nat} (h : a % 4096 = 0) (ha : a + 4095 < 2 ^ 64) : pgRoundUp a = a := by
  unfold pgRoundUp add64
  omega

/-- The address space ends on a page boundary: a page lies below `maxVa` as soon as one address of it does. -/
theorem pgRoundDown_lt_maxVa {a : Nat} : pgRoundDown a < maxVa ↔ a < maxVa := by
  unfold pgRoundDown maxVa
  omega

/-! ## Panics -/

/-- The calls of `panic` a modelled function can reach. The kernel stops there: no state follows. -/
inductive Panic where
  | walk | mappagesNotAligned | mappagesSize | mappagesRemap | uvmunmapNotAligned | uvmclear | kfree
  | bmap | igetNoInodes | ilock | ilockNoType | dirlookupNotDir | unlinkNlink | unlinkWritei | filedup | fileclose
  | initExiting | exec | kerneltrap
  deriving DecidableEq, Repr

/-- A kernel computation: a result, or a panic. -/
abbrev Kern (α : Type) := Except Panic α

end Xv6SnifferBakery.Kernel
