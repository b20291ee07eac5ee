import Mathlib

/-!
# Machine words, kernel configuration and panics

The kernel is built in release mode (`kernel/Makefile`: `MODE := release`), so `usize`
arithmetic wraps modulo `2 ^ 64` while slice bounds, `unwrap` and `assert!` still panic.
We model a `usize` as a natural number and write the wrap-around out wherever the source
can overflow; a panic ends the computation with a `Panic` that names the failing site and
the values its message formats.

The constants are those of `config.rs`.
-/

namespace NaiveOs

/-- Wrap a natural number to `usize` (release-mode `+`, `-`, `*` and `<<`). -/
def wrap (n : Nat) : Nat := n % 2 ^ 64

/-- Release-mode `usize` subtraction: `a - b` wraps below zero. -/
def wrapSub (a b : Nat) : Nat := (a + 2 ^ 64 - b % 2 ^ 64) % 2 ^ 64

theorem wrap_of_lt {n : Nat} (h : n < 2 ^ 64) : wrap n = n := Nat.mod_eq_of_lt h

/-- `v as isize` for a `usize` `v`: the same 64 bits read in two's complement. -/
def toIsize (v : Nat) : Int := if v < 2 ^ 63 then v else (v : Int) - 2 ^ 64

theorem wrapSub_of_le {a b : Nat} (ha : a < 2 ^ 64) (hb : b ≤ a) : wrapSub a b = a - b := by
  unfold wrapSub
  rw [Nat.mod_eq_of_lt (by omega : b < 2 ^ 64)]
  rw [show a + 2 ^ 64 - b = (a - b) + 2 ^ 64 by omega, Nat.add_mod_right]
  exact Nat.mod_eq_of_lt (by omega)

theorem wrapSub_lt (a b : Nat) : wrapSub a b < 2 ^ 64 := Nat.mod_lt _ (Nat.two_pow_pos 64)

/-- Two subtractions in a row are one of the sum. -/
theorem wrapSub_wrapSub (a b c : Nat) : wrapSub (wrapSub a b) c = wrapSub a (b + c) := by
  unfold wrapSub
  omega

/-! ## `config.rs` -/

def pageSize : Nat := 0x1000
def pageSizeBits : Nat := 0xc
def userStackSize : Nat := 4096 * 2
def kernelStackSize : Nat := 4096 * 2
def memoryEnd : Nat := 0x88000000
/-- `usize::MAX - PAGE_SIZE + 1`: the highest page of every address space. -/
def trampoline : Nat := (2 ^ 64 - 1) - pageSize + 1
/-- The page below the trampoline holds the trap frame. -/
def trapframe : Nat := trampoline - pageSize

/-! ## Panics -/

/-- The ways a modelled call ends without returning: its panic sites, a lock it can never
take, and the machine powering off. A constructor carries the values the source's message formats, so that two different
failures are told apart. -/
inductive Panic where
  /-- `Option::unwrap()` on a `None` value. -/
  | unwrapNone
  /-- `Result::unwrap()` on an `Err` value. -/
  | unwrapErr
  /-- `v[index]` with `index ≥ len`. -/
  | indexOutOfBounds (index len : Nat)
  /-- A slice `v[start..stop]` with `start > stop` or `stop > len`. -/
  | sliceOutOfRange (start stop len : Nat)
  /-- `copy_from_slice` between slices of different lengths. -/
  | lengthMismatch (dst src : Nat)
  /-- `SimpleRange::new`: `start {:?} > end {:?}!`. -/
  | rangeStartAfterEnd (start stop : Nat)
  /-- `assert_eq!(v.page_offset(), 0)` in `From<VirtAddr> for VirtPageNum`. -/
  | notPageAligned (addr : Nat)
  /-- `PageTable::map`: `vpn {:?} is mapped before mapping`. -/
  | mappedBeforeMapping (vpn : Nat)
  /-- `PageTable::unmap`: `vpn {:?} is invalid before unmapping`. -/
  | invalidBeforeUnmapping (vpn : Nat)
  /-- `StackFrameAllocator::dealloc`: `Frame ppn={:#x} has not been allocated!`. -/
  | frameNotAllocated (ppn : Nat)
  /-- `MemorySet::from_elf`: `invalid elf!`. -/
  | invalidElf
  /-- `MapArea::copy_data`: `assert_eq!(self.map_type, MapType::Framed)`. -/
  | notFramed
  /-- `Thread::sys_brk`: `panic!("shrink.")`. -/
  | shrink
  /-- A `spin::Mutex` locked again by the thread that holds it: the call never returns. -/
  | selfDeadlock
  /-- `sbi::shutdown()`: the machine powers off. -/
  | shutdown
  /-- `Device::read_at` / `write_at`: `assert!(Self::BLOCK_SIZE_LOG2 <= 10)`. -/
  | blockSizeTooLarge
  deriving DecidableEq, Repr

/-- Kernel code that reads and writes a state `σ` and may panic. -/
abbrev KernelM (σ α : Type) := StateT σ (Except Panic) α

/-- `Option::unwrap`. -/
def unwrap {σ α : Type} : Option α → KernelM σ α
  | some a => pure a
  | none => throw .unwrapNone

/-- `v[i]` on a vector. -/
def index {σ α : Type} (v : List α) (i : Nat) : KernelM σ α :=
  match v[i]? with
  | some a => pure a
  | none => throw (.indexOutOfBounds i v.length)

theorem index_run_of_lt {σ α : Type} {v : List α} {i : Nat} (h : i < v.length) (s : σ) :
    (index v i : KernelM σ α).run s = .ok (v[i], s) := by
  simp [index, List.getElem?_eq_getElem h]
  rfl

theorem index_run_of_le {σ α : Type} {v : List α} {i : Nat} (h : v.length ≤ i) (s : σ) :
    (index v i : KernelM σ α).run s = .error (.indexOutOfBounds i v.length) := by
  simp [index, List.getElem?_eq_none h]
  rfl

/-- A `pure` value leaves the state as it was. -/
theorem pure_run_state {σ α : Type} {a b : α} {s s' : σ}
    (h : (pure a : KernelM σ α).run s = .ok (b, s')) : s' = s := by
  have hab : (a, s) = (b, s') := Except.ok.inj h
  exact (Prod.mk.inj hab).2.symm

theorem unwrap_run_state {σ α : Type} {o : Option α} {a : α} {s s' : σ}
    (h : (unwrap o : KernelM σ α).run s = .ok (a, s')) : s' = s := by
  cases o with
  | none => cases h
  | some x => exact pure_run_state h

/-- `v[start..stop]` on a slice. -/
def slice {σ α : Type} (v : List α) (start stop : Nat) : KernelM σ (List α) :=
  if start ≤ stop ∧ stop ≤ v.length then pure ((v.take stop).drop start)
  else throw (.sliceOutOfRange start stop v.length)

end NaiveOs
