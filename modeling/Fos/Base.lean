/-
The constants of `inc/mmu.h` and `inc/memlayout.h` and the 32-bit arithmetic of the source: a
`uint32` is a natural number below `2 ^ 32`, sums, differences and products wrap.
-/
import Mathlib.Tactic

namespace Fos

/-! ## Constants -/

def pageSize : Nat := 4096
def userHeapStart : Nat := 0x80000000
def userHeapMax : Nat := 0xA0000000
def kernelHeapStart : Nat := 0xF6000000
def kernelHeapMax : Nat := 0xFFFFF000
def dynAllocMaxSize : Nat := 0x2000000
def dynAllocMaxBlockSize : Nat := 2048
def userTop : Nat := 0xEEC00000
def ustackTop : Nat := userTop - 2 * pageSize

attribute [simp] pageSize userHeapStart userHeapMax kernelHeapStart kernelHeapMax dynAllocMaxSize
  dynAllocMaxBlockSize userTop ustackTop

/-! ## How a call can fail to return -/

/-- The ways a call of the source does not return to its caller; `exits` is `env_exit`, `faults` the
kernel's use of a `NULL` pointer or of a page that is not mapped. -/
inductive Halt where
  | panic (msg : String)
  | spins
  | exits
  | faults
  deriving DecidableEq, Repr

/-- The result of a call. -/
abbrev Res (α : Type) := Except Halt α

@[simp] theorem ok_bind {α β : Type} (a : α) (f : α → Res β) : (Except.ok a : Res α) >>= f = f a := rfl

@[simp] theorem error_bind {α β : Type} (e : Halt) (f : α → Res β) : (Except.error e : Res α) >>= f = .error e := rfl

theorem bind_ok {α β : Type} {x : Res α} {f : α → Res β} {b : β} (h : x >>= f = .ok b) :
    ∃ a, x = .ok a ∧ f a = .ok b := by
  cases x with
  | error e => cases h
  | ok a => exact ⟨a, rfl, h⟩

theorem bind_error {α β : Type} {x : Res α} {f : α → Res β} {e : Halt} (h : x >>= f = .error e) :
    x = .error e ∨ ∃ a, x = .ok a ∧ f a = .error e := by
  cases x with
  | error e' => cases h; exact .inl rfl
  | ok a => exact .inr ⟨a, rfl, h⟩

/-! ## 32-bit arithmetic -/

def add32 (a b : Nat) : Nat := (a + b) % 4294967296
def sub32 (a b : Nat) : Nat := (a + 4294967296 - b) % 4294967296
def mul32 (a b : Nat) : Nat := (a * b) % 4294967296

/-- A `uint32` read as an `int`. -/
def toInt32 (a : Nat) : Int := if a < 2147483648 then a else (a : Int) - 4294967296

/-- An `int` read as a `uint32`. -/
def ofInt32 (i : Int) : Nat := (i % 4294967296).toNat

/-- `ROUNDDOWN(a, n)`. -/
def roundDown (a n : Nat) : Nat := a - a % n

/-- `ROUNDUP(a, n)`: the sum `a + n - 1` is a `uint32`. -/
def roundUp (a n : Nat) : Nat := roundDown ((a + n - 1) % 4294967296) n

theorem add32_of_lt {a b : Nat} (h : a + b < 4294967296) : add32 a b = a + b := Nat.mod_eq_of_lt h

theorem mul32_of_lt {a b : Nat} (h : a * b < 4294967296) : mul32 a b = a * b := Nat.mod_eq_of_lt h

theorem sub32_of_le {a b : Nat} (h : b ≤ a) (ha : a < 4294967296) : sub32 a b = a - b := by
  unfold sub32; omega

theorem roundDown_of_dvd {a n : Nat} (h : a % n = 0) : roundDown a n = a := by
  unfold roundDown; omega

theorem roundUp_of_dvd {a : Nat} (h : a % 4096 = 0) (ha : a < 4294967296) : roundUp a 4096 = a := by
  unfold roundUp roundDown; omega

/-- `ROUNDUP(size, PAGE_SIZE) / PAGE_SIZE` pages cover `size` bytes unless the rounding wraps. -/
theorem roundUp_div (size : Nat) (h : size ≤ 4294963200) :
    roundUp size 4096 / 4096 = (size + 4095) / 4096 := by
  unfold roundUp roundDown; omega

theorem roundUp_wraps {size : Nat} (h : 4294963200 < size) (hs : size < 4294967296) :
    roundUp size 4096 = 0 := by
  unfold roundUp roundDown; omega

end Fos
