import Mathlib
import NaiveOs.Syscall.Process

/-!
# `exec`: `Thread::exec_from_elf` (`task/proc.rs`)

`exec_from_elf` builds the new address space with `MemorySet::from_elf`, points the process at
its trap frame, heap and `mmap` area, closes the descriptors marked close-on-exec, and lays out
the initial user stack below the stack top that `from_elf` returns:

    argc | argv[0] … argv[argc-1] 0 | 0 (envp) | 25 ptr | 6 4096 | 0 0 | the strings

from the final stack pointer upward. Two cursors walk down together: `user_stack`, the user
address, and `user_stack_kernel`, the kernel's pointer, found by translating `user_stack - 8`
once (`StackCursor`). The strings are pushed with their NUL and no padding, so the stack
pointer the trap frame receives is `stackSize argvs` bytes below the top (`buildStack_spec`,
`execFromElf_sp`), and that size is a multiple of 16 only for some argument lists
(`stackPointer_aligned_iff`): with no arguments it is 72, and the program starts with a stack
pointer 8 bytes off the 16-byte alignment the RISC-V calling convention requires
(`exec_without_arguments_misaligns_sp`).

The cursors are `usize`s and move by release-mode subtraction (`StackCursor.down`); the debug
output behind `PRINT_SYSCALL`, which is `false`, is left out.
-/

namespace NaiveOs

/-- `user_stack` and `user_stack_kernel`: the user address of the last byte pushed and the
kernel's pointer that stands for it. -/
structure StackCursor where
  user : Nat
  kernel : Nat
  deriving DecidableEq, Repr

namespace StackCursor

/-- `user_stack_kernel -= n; user_stack -= n;`. -/
def down (c : StackCursor) (n : Nat) : StackCursor := ⟨wrapSub c.user n, wrapSub c.kernel n⟩

/-- Pushing the bytes `src`: `copy_from_slice` into `from_raw_parts_mut(user_stack_kernel, n)`
after both cursors move down by `n`. -/
def pushBytes (c : StackCursor) (src : List UInt8) : KernelM Machine StackCursor := do
  let c := c.down src.length
  modify fun m => { m with mem := m.mem.writeBytes c.kernel src }
  pure c

/-- Pushing a word: `*(user_stack_kernel as *mut usize) = v` after both cursors move down by 8. -/
def pushWord (c : StackCursor) (v : Nat) : KernelM Machine StackCursor := do
  let c := c.down 8
  modify fun m => { m with mem := m.mem.writeLE c.kernel 8 v }
  pure c

/-- `for i in 0..len { push(v[len - i - 1]) }`: the words of `v`, last first, so that `v` reads
upward from the new cursor. -/
def pushWords (c : StackCursor) (v : List Nat) : KernelM Machine StackCursor :=
  v.reverse.foldlM pushWord c

end StackCursor

/-- `s.push(0 as char); s.as_bytes()`: the UTF-8 bytes of an argument and its NUL. -/
def argBytes (s : String) : List UInt8 := (s.push (Char.ofNat 0)).toUTF8.toList

/-- One iteration of the loop over `argvs`: the string is pushed, its user address appended to
`pos` and `argc` counted. -/
def pushArg (acc : StackCursor × List Nat × Nat) (s : String) :
    KernelM Machine (StackCursor × List Nat × Nat) := do
  let (c, pos, argc) := acc
  let c ← c.pushBytes (argBytes s)
  pure (c, pos ++ [c.user], argc + 1)

/-- The stack `exec_from_elf` builds below the cursor `c`: the strings of `argvs`, the auxiliary
vector, `envp`, `argv` and `argc`. The result is the final cursor, whose `user` is the stack
pointer. -/
def buildStack (c : StackCursor) (argvs : List String) : KernelM Machine StackCursor := do
  let posEnv := [0]
  let (c, pos, argc) ← argvs.foldlM pushArg (c, [], 0)
  let pos := pos ++ [0]
  -- AT_NULL
  let c ← c.pushWord 0
  let c ← c.pushWord 0
  -- AT_PAGESZ
  let c ← c.pushWord 0x1000
  let c ← c.pushWord 6
  -- AT_RANDOM: the word is the address of its own slot
  let c ← c.pushWord (c.down 8).user
  let c ← c.pushWord 25
  let c ← c.pushWords posEnv
  let c ← c.pushWords pos
  c.pushWord argc

/-! ## The stack pointer `buildStack` leaves -/

/-- The bytes of the strings of `argvs`, NULs included. -/
def argsSize (argvs : List String) : Nat := (argvs.map fun s => (argBytes s).length).sum

/-- The bytes `buildStack` pushes: the strings, and `argc + 9` words (`argc`, the `argc + 1`
words of `argv`, one of `envp` and six of the auxiliary vector). -/
def stackSize (argvs : List String) : Nat := argsSize argvs + 8 * (argvs.length + 9)

@[simp] theorem argsSize_nil : argsSize [] = 0 := rfl

theorem argsSize_append (argvs : List String) (s : String) :
    argsSize (argvs ++ [s]) = argsSize argvs + (argBytes s).length := by
  simp [argsSize]

namespace StackCursor

theorem down_down (c : StackCursor) (a b : Nat) : (c.down a).down b = c.down (a + b) := by
  simp only [down, wrapSub_wrapSub]

theorem pushWord_spec (c : StackCursor) (v : Nat) :
    Triple (fun _ => True) (c.pushWord v) fun c' _ => c' = c.down 8 :=
  fun _ _ => ⟨_, _, rfl, rfl⟩

/-- Pushing words from a cursor `d` bytes down moves it a word further for each. -/
theorem pushWords_spec (c : StackCursor) (d : Nat) (v : List Nat) :
    Triple (fun _ => True) ((c.down d).pushWords v) fun c' _ => c' = c.down (d + 8 * v.length) := by
  -- the loop runs over `v.reverse`, one word further down per iteration
  have h := Triple.foldlM (fun done acc (_ : Machine) => acc = c.down (d + 8 * done.length))
    (f := pushWord) v.reverse [] (c.down d) fun done w _ acc _ => by
      intro m hacc
      refine ⟨_, _, rfl, ?_⟩
      simp only [hacc, down_down, List.length_append, List.length_singleton, Nat.mul_succ,
        Nat.add_assoc]
  refine h.mono (fun _ _ => by simp) fun c' _ hc => ?_
  simpa using hc

end StackCursor

open StackCursor in
/-- The loop over `argvs` moves the cursor down by the bytes of the strings, records one
address per string and counts them. -/
theorem pushArgs_spec (c : StackCursor) (argvs : List String) :
    Triple (fun _ => True) (argvs.foldlM pushArg (c, [], 0)) fun acc _ =>
      (∀ n, acc.1.down n = c.down (argsSize argvs + n)) ∧ acc.2.1.length = argvs.length ∧
        acc.2.2 = argvs.length := by
  have h := Triple.foldlM (fun done acc (_ : Machine) =>
      (∀ n, acc.1.down n = c.down (argsSize done + n)) ∧ acc.2.1.length = done.length ∧
        acc.2.2 = done.length)
    (f := pushArg) argvs [] (c, [], 0) fun done s _ ⟨r, pos, argc⟩ _ => by
      rintro m ⟨hr, hpos, hargc⟩
      dsimp only at hr hpos hargc
      refine ⟨_, _, rfl, fun n => ?_, by simp [hpos], by simp [hargc]⟩
      simp only [down_down, hr, argsSize_append, Nat.add_assoc]
  exact h.mono (fun _ _ => ⟨by simp, rfl, rfl⟩) fun _ _ hacc => hacc

open StackCursor in
/-- **The stack pointer.** Whatever the memory, `buildStack` returns the cursor `stackSize argvs`
bytes below the one it starts from. -/
theorem buildStack_spec (c : StackCursor) (argvs : List String) :
    Triple (fun _ => True) (buildStack c argvs) fun c' _ => c' = c.down (stackSize argvs) := by
  refine Triple.bind (pushArgs_spec c argvs) fun ⟨r, pos, argc⟩ =>
    Triple.of_pure fun ⟨hr, hpos, hargc⟩ => ?_
  -- the six words of the auxiliary vector
  refine Triple.bind_of_eq (pushWord_spec r 0) ?_
  refine Triple.bind_of_eq (pushWord_spec _ 0) ?_
  refine Triple.bind_of_eq (pushWord_spec _ 0x1000) ?_
  refine Triple.bind_of_eq (pushWord_spec _ 6) ?_
  refine Triple.bind_of_eq (pushWord_spec _ _) ?_
  refine Triple.bind_of_eq (pushWord_spec _ 25) ?_
  simp only [down_down, hr]
  -- `envp`, `argv` and `argc`
  refine Triple.bind_of_eq (pushWords_spec c _ [0]) ?_
  refine Triple.bind_of_eq (pushWords_spec c _ (pos ++ [0])) ?_
  refine (pushWord_spec _ argc).mono (fun _ _ => trivial) fun c' _ hc => ?_
  rw [hc, down_down, stackSize]
  simp only [List.length_append, List.length_singleton, hpos]
  congr 1
  omega

namespace Thread

/-- `Thread::exec_from_elf`, for the value `sstatus` of `sstatus::read()`. -/
def execFromElf (strampoline sstatus : Nat) (elf : ElfFile) (argvs : List String) :
    KernelM Kernel Int := do
  let (userPagetable, heapPos, userStack, entry) ←
    Kernel.onMachine (MemorySet.fromElf strampoline elf)
  let vpn ← VirtPageNum.ofVirtAddr (VirtAddr.ofUsize trapframe)
  let trapframePpn := (← unwrap (userPagetable.translate (← get).machine.mem vpn)).ppn
  Kernel.modifyPcb fun p =>
    { p with trapframePpn, heapPos := VirtAddr.ofUsize heapPos,
             mmapPos := VirtAddr.ofUsize 0x100000000 }
  let fm ← (← get).pcb.fdManager.closeOnExec
  Kernel.modifyPcb fun p => { p with fdManager := fm }
  let pa ← unwrap ((PageTable.fromToken userPagetable.token).translateVa (← get).machine.mem
    (VirtAddr.ofUsize (wrapSub userStack 8)))
  let c ← Kernel.onMachine (buildStack ⟨userStack, pa.val + 8⟩ argvs)
  let k ← get
  let tf := TrapFrame.appInitContext sstatus entry c.user k.kernelSpace.token
    (kernelStackTop k.pcb.pid) 0
  Kernel.onMachine (modify fun m => { m with mem := tf.write m.mem k.pcb.trapframePpn.base })
  -- `nowproc.memory_set = user_pagetable` drops the old address space
  Kernel.onMachine k.pcb.memorySet.drop
  Kernel.modifyPcb fun p => { p with memorySet := userPagetable }
  pure 0

end Thread

/-! ## The stack pointer of the new program -/

open StackCursor in
/-- **The stack pointer exec leaves.** Whatever the ELF file, the arguments and the kernel, an
`exec_from_elf` that returns has put `stackSize argvs` bytes below `TRAPFRAME - USER_STACK_SIZE`
in `x[2]` of the process's trap frame. -/
theorem execFromElf_sp (strampoline sstatus : Nat) (elf : ElfFile) (argvs : List String) :
    Returns (fun _ => True) (Thread.execFromElf strampoline sstatus elf argvs) fun _ k =>
      (TrapFrame.read k.machine.mem k.pcb.trapframePpn.base).x[2]? =
        some (wrapSub (trapframe - userStackSize) (stackSize argvs)) := by
  unfold Thread.execFromElf
  refine Returns.bind ((Kernel.onMachine_returns (MemorySet.fromElf_userStackTop strampoline elf)
    (fun _ => True) fun _ _ _ => trivial).mono (fun _ _ => ⟨trivial, trivial⟩) fun _ _ h => h)
    fun ⟨ms, heapPos, top, entry⟩ => Returns.of_fact fun htop => ?_
  dsimp only at htop
  subst htop
  simp only []
  -- the trap frame's page, the heap, `close_on_exec` and the kernel's pointer to the stack top
  refine Returns.bind Returns.any fun _ => Returns.bind Returns.any fun _ => ?_
  refine Returns.bind Returns.any fun _ => Returns.bind Returns.any fun _ => ?_
  refine Returns.bind Returns.any fun _ => Returns.bind Returns.any fun _ => ?_
  refine Returns.bind Returns.any fun _ => Returns.bind Returns.any fun _ => ?_
  refine Returns.bind Returns.any fun pa => ?_
  refine Returns.bind ((Kernel.onMachine_returns (buildStack_spec _ argvs).returns
    (fun _ => True) fun _ _ _ => trivial).mono (fun _ _ => ⟨trivial, trivial⟩) fun _ _ h => h)
    fun c => Returns.of_fact fun hc => ?_
  subst hc
  -- the trap frame is stored from the state `k`, and the old space's drop writes no byte
  refine Returns.bind (Returns.get' fun _ _ => rfl :
    Returns (fun _ => True) (get : KernelM Kernel Kernel) fun k s => s = k) fun k => ?_
  refine Returns.bind (Returns.of_run (Kernel.onMachine_modify_run _ k)) fun _ => ?_
  refine Returns.bind ((Kernel.onMachine_returns (MemorySet.drop_mem k.pcb.memorySet _)
    (fun s => s.pcb = k.pcb) fun _ _ h => h).mono (fun s hs => by rw [hs.2]; exact ⟨rfl, rfl⟩)
    fun _ _ h => h) fun _ => ?_
  refine Returns.bind (Returns.modify' fun s hs => ?_) fun _ => Returns.pure' fun _ h => h
  obtain ⟨hmem, hpcb⟩ := hs
  dsimp only at hmem ⊢
  rw [hmem, hpcb, TrapFrame.read_write_appInitContext, StackCursor.down,
    Nat.mod_eq_of_lt (wrapSub_lt _ _)]

/-- The stack pointer is 16-byte aligned exactly when the strings and `argc + 1` words fill
whole 16-byte units: the stack top is page aligned, and the six words of the auxiliary vector,
`envp`'s word and `argc`'s take 64 bytes. -/
theorem stackPointer_aligned_iff (argvs : List String) :
    wrapSub (trapframe - userStackSize) (stackSize argvs) % 16 = 0 ↔
      (argsSize argvs + 8 * (argvs.length + 1)) % 16 = 0 := by
  simp only [wrapSub, stackSize, trapframe, trampoline, userStackSize, pageSize]
  omega

/-- An ELF file with the magic and no program header. -/
def bareElf : ElfFile := ⟨[0x7f, 0x45, 0x4c, 0x46], 0x1000, [], []⟩

/-- Process 1 with no address space yet, on zeroed memory with the frames `0x80100` to `0x80200`
free and the kernel's page table at frame `0x80000`. -/
def freshKernel : Kernel :=
  ⟨⟨fun _ => 0, ⟨0x80100, 0x80200, []⟩⟩, [], [], [], [], [], 2, ⟨⟨⟨0x80000⟩, []⟩, []⟩, [],
    ⟨1, ⟨0⟩, ⟨⟨⟨0⟩, []⟩, []⟩, ⟨0⟩, ⟨0⟩, "/", ⟨[]⟩, []⟩⟩

/-- `exec` without arguments returns, with the stack pointer 72 bytes below the stack top, which
is 8 more than a multiple of 16. -/
theorem exec_without_arguments_misaligns_sp :
    ((Thread.execFromElf 0x80020000 0 bareElf []).run freshKernel).map
        (fun r => (r.1, (TrapFrame.read r.2.machine.mem r.2.pcb.trapframePpn.base).x[2]?)) =
      .ok (0, some (2 ^ 64 - 16384 - 72)) ∧ (2 ^ 64 - 16384 - 72) % 16 = 8 :=
  ⟨by decide +kernel, by norm_num⟩

end NaiveOs
